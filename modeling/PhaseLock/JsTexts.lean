import PhaseLock.Prepare
import PhaseLock.Utf16

namespace PhaseLock
namespace JsTexts
open Mp Skeleton Submits

-- The values of a string's units, a surrogate pair's as one.
def points : Units → List Nat
  | a :: b :: rest =>
    if isHigh a && isLow b then (a.toNat%0x400*0x400+b.toNat%0x400+0x10000) :: points rest else a.toNat :: points (b :: rest)
  | [a] => [a.toNat]
  | [] => []

def pointSize (v : Nat) : Nat := if v < 0x80 then 1 else if v < 0x800 then 2 else if v < 0x10000 then 3 else 4

def pointBytes (v : Nat) : Bytes :=
  if v < 0x80 then [UInt8.ofNat v]
  else if v < 0x800 then [UInt8.ofNat (v/64%32+0xc0),UInt8.ofNat (v%64+0x80)]
  else if v < 0x10000 then [UInt8.ofNat (v/4096%16+0xe0),UInt8.ofNat (v/64%64+0x80),UInt8.ofNat (v%64+0x80)]
  else [UInt8.ofNat (v/262144%8+0xf0),UInt8.ofNat (v/4096%64+0x80),UInt8.ofNat (v/64%64+0x80),UInt8.ofNat (v%64+0x80)]

def utf8Count (s : Units) : Nat := ((points s).map pointSize).sum

def utf8EncodeJs (s : Units) : Bytes := (points s).flatMap pointBytes

-- A TextEncoder writes U+FFFD for a surrogate outside a pair.
def utf8EncodeTE (s : Units) : Bytes :=
  (points s).flatMap fun v => pointBytes (if 0xd800 ≤ v ∧ v ≤ 0xdfff then 0xfffd else v)

def utf8Encode (s : Units) : Bytes := if 50 < s.length then utf8EncodeTE s else utf8EncodeJs s

-- The units of a code point past the first 0x10000.
def pairOf (v : Nat) : Units := [UInt16.ofNat ((v-0x10000)/0x400%0x400+0xd800),UInt16.ofNat ((v-0x10000)%0x400+0xdc00)]

-- The units the bytes left say.  A byte past the buffer reads as no bits.
def decodeFrom : Nat → Nat → Bytes → Units
  | 0,_,_ | _,0,_ => []
  | fuel+1,left+1,bytes =>
    let byte1 := (bytes.headD 0).toNat
    let next := fun i => ((bytes.drop i).headD 0).toNat%64
    if byte1 < 0x80 then UInt16.ofNat byte1 :: decodeFrom fuel left (bytes.drop 1)
    else if 0xc0 ≤ byte1 ∧ byte1 < 0xe0 then UInt16.ofNat (byte1%32*64+next 1) :: decodeFrom fuel (left-1) (bytes.drop 2)
    else if 0xe0 ≤ byte1 ∧ byte1 < 0xf0 then
      UInt16.ofNat (byte1%16*4096+next 1*64+next 2) :: decodeFrom fuel (left-2) (bytes.drop 3)
    else if 0xf0 ≤ byte1 ∧ byte1 < 0xf8 then
      let unit := byte1%8*262144+next 1*4096+next 2*64+next 3
      (if 0xffff < unit then pairOf unit else [UInt16.ofNat unit])++decodeFrom fuel (left-3) (bytes.drop 4)
    else UInt16.ofNat byte1 :: decodeFrom fuel left (bytes.drop 1)

def utf8DecodeJs (bytes : Bytes) (n : Nat) : Units := decodeFrom n n bytes

def bom : Char := Char.ofNat 0xfeff

-- A TextDecoder drops a byte order mark its bytes start with.
def markDropped : Name → Name
  | [] => []
  | c :: rest => if c = bom then rest else c :: rest

def utf8DecodeTD (s : Bytes) : Units := utf16 (markDropped (fromUtf8Lossy s))

-- The first n bytes as a string.
def utf8Decode (bytes : Bytes) (n : Nat) : Units := if 200 < n then utf8DecodeTD (bytes.take n) else utf8DecodeJs bytes n

-- A text as utf8Decode reads it.
def kept (text : Name) : Name := if 200 < (utf8 text).length then markDropped text else text

theorem points_unit {a : UInt16} (plain : isHigh a = false) (rest : Units) : points (a :: rest) = a.toNat :: points rest := by
  cases rest with
  | nil => rfl
  | cons b more => rw [points,plain,Bool.false_and,if_neg Bool.false_ne_true]

theorem points_utf16 (text : Name) : points (utf16 text) = text.map fun c => c.val.toNat := by
  induction text with
  | nil => rfl
  | cons c rest ih =>
    have split : utf16 (c :: rest) = utf16Char c++utf16 rest := rfl
    have valid := char_valid c
    rw [split,List.map_cons,← ih]
    unfold utf16Char
    dsimp only
    generalize c.val.toNat = n at *
    split_ifs with small
    · have place : (UInt16.ofNat n).toNat = n := unit_toNat small
      have plain : isHigh (UInt16.ofNat n) = false := by
        rw [← Bool.not_eq_true,isHigh_iff,place]
        omega
      rw [List.singleton_append,points_unit plain,place]
    · have high : (UInt16.ofNat (0xd800+(n-0x10000)/0x400)).toNat = 0xd800+(n-0x10000)/0x400 := unit_toNat (by omega)
      have low : (UInt16.ofNat (0xdc00+(n-0x10000)%0x400)).toNat = 0xdc00+(n-0x10000)%0x400 := unit_toNat (by omega)
      have first : isHigh (UInt16.ofNat (0xd800+(n-0x10000)/0x400)) = true := by
        rw [isHigh_iff,high]
        omega
      have second : isLow (UInt16.ofNat (0xdc00+(n-0x10000)%0x400)) = true := by
        rw [isLow_iff,low]
        omega
      have whole : (0xd800+(n-0x10000)/0x400)%0x400*0x400+(0xdc00+(n-0x10000)%0x400)%0x400+0x10000 = n := by omega
      rw [List.cons_append,List.singleton_append,points,first,second,high,low,Bool.and_self,if_pos rfl,whole]

theorem pointBytes_char (c : Char) : pointBytes c.val.toNat = String.utf8EncodeChar c := by
  unfold String.utf8EncodeChar pointBytes
  dsimp only
  split_ifs <;> first | rfl | omega

theorem utf8EncodeJs_utf16 (text : Name) : utf8EncodeJs (utf16 text) = utf8 text := by
  rw [utf8EncodeJs,points_utf16,List.flatMap_map]
  exact List.flatMap_congr fun c _ => pointBytes_char c

theorem utf8EncodeTE_utf16 (text : Name) : utf8EncodeTE (utf16 text) = utf8 text := by
  rw [utf8EncodeTE,points_utf16,List.flatMap_map]
  refine List.flatMap_congr fun c _ => ?_
  have valid := char_valid c
  rw [if_neg (by omega)]
  exact pointBytes_char c

theorem utf8Encode_utf16 (text : Name) : utf8Encode (utf16 text) = utf8 text := by
  rw [utf8Encode,utf8EncodeTE_utf16,utf8EncodeJs_utf16,ite_self]

theorem utf8Count_utf16 (text : Name) : utf8Count (utf16 text) = (utf8 text).length := by
  rw [utf8Count,points_utf16,List.map_map,utf8,List.length_flatMap]
  congr 1
  refine List.map_congr_left fun c _ => ?_
  rw [← pointBytes_char]
  show pointSize c.val.toNat = _
  unfold pointSize pointBytes
  split_ifs <;> rfl

section Decode
variable (fuel left : Nat) (rest : Bytes) {x y z w : Nat}

theorem byte_toNat {n : Nat} (small : n < 256) : (UInt8.ofNat n).toNat = n := UInt8.toNat_ofNat_of_lt' small

theorem decode_one (small : x < 0x80) :
    decodeFrom (fuel+1) (left+1) (UInt8.ofNat x :: rest) = UInt16.ofNat x :: decodeFrom fuel left rest := by
  rw [decodeFrom]
  simp only [List.headD_cons,byte_toNat (show x < 256 by omega),if_pos small,List.drop_succ_cons,List.drop_zero]

theorem decode_two (first : x < 32) (second : y < 64) :
    decodeFrom (fuel+1) (left+2) (UInt8.ofNat (x+0xc0) :: UInt8.ofNat (y+0x80) :: rest) =
      UInt16.ofNat (x*64+y) :: decodeFrom fuel left rest := by
  have low : (x+0xc0)%32 = x := by omega
  have tail : (y+0x80)%64 = y := by omega
  rw [decodeFrom]
  simp only [List.headD_cons,byte_toNat (show x+0xc0 < 256 by omega),List.drop_succ_cons,List.drop_zero,
    byte_toNat (show y+0x80 < 256 by omega)]
  rw [if_neg (by omega),if_pos (by omega),low,tail]
  rfl

theorem decode_three (first : x < 16) (second : y < 64) (third : z < 64) :
    decodeFrom (fuel+1) (left+3) (UInt8.ofNat (x+0xe0) :: UInt8.ofNat (y+0x80) :: UInt8.ofNat (z+0x80) :: rest) =
      UInt16.ofNat (x*4096+y*64+z) :: decodeFrom fuel left rest := by
  have low : (x+0xe0)%16 = x := by omega
  have middle : (y+0x80)%64 = y := by omega
  have tail : (z+0x80)%64 = z := by omega
  rw [decodeFrom]
  simp only [List.headD_cons,byte_toNat (show x+0xe0 < 256 by omega),List.drop_succ_cons,List.drop_zero,
    byte_toNat (show y+0x80 < 256 by omega),byte_toNat (show z+0x80 < 256 by omega)]
  rw [if_neg (by omega),if_neg (by omega),if_pos (by omega),low,middle,tail]
  rfl

theorem decode_four (first : x < 8) (second : y < 64) (third : z < 64) (fourth : w < 64)
    (past : 0xffff < x*262144+y*4096+z*64+w) :
    decodeFrom (fuel+1) (left+4) (UInt8.ofNat (x+0xf0) :: UInt8.ofNat (y+0x80) :: UInt8.ofNat (z+0x80) :: UInt8.ofNat (w+0x80) :: rest) =
      pairOf (x*262144+y*4096+z*64+w)++decodeFrom fuel left rest := by
  have low : (x+0xf0)%8 = x := by omega
  have second' : (y+0x80)%64 = y := by omega
  have third' : (z+0x80)%64 = z := by omega
  have tail : (w+0x80)%64 = w := by omega
  rw [decodeFrom]
  simp only [List.headD_cons,byte_toNat (show x+0xf0 < 256 by omega),List.drop_succ_cons,List.drop_zero,
    byte_toNat (show y+0x80 < 256 by omega),byte_toNat (show z+0x80 < 256 by omega),byte_toNat (show w+0x80 < 256 by omega)]
  rw [if_neg (by omega),if_neg (by omega),if_neg (by omega),if_pos (by omega),low,second',third',tail,if_pos past]
  rfl

theorem decodeFrom_char (c : Char) :
    decodeFrom (fuel+1) (left+(String.utf8EncodeChar c).length) (String.utf8EncodeChar c++rest) =
      utf16Char c++decodeFrom fuel left rest := by
  have valid := char_valid c
  rw [← pointBytes_char]
  unfold pointBytes utf16Char
  dsimp only
  generalize c.val.toNat = n at *
  by_cases one : n < 0x80
  · rw [if_pos one,if_pos (by omega)]
    exact decode_one fuel left rest one
  · by_cases two : n < 0x800
    · have whole : n/64%32*64+n%64 = n := by omega
      have read := decode_two fuel left rest (show n/64%32 < 32 by omega) (show n%64 < 64 by omega)
      rw [whole] at read
      rw [if_neg one,if_pos two,if_pos (by omega)]
      exact read
    · by_cases three : n < 0x10000
      · have whole : n/4096%16*4096+n/64%64*64+n%64 = n := by omega
        have read := decode_three fuel left rest (show n/4096%16 < 16 by omega) (show n/64%64 < 64 by omega) (show n%64 < 64 by omega)
        rw [whole] at read
        rw [if_neg one,if_neg two,if_pos three,if_pos three]
        exact read
      · have whole : n/262144%8*262144+n/4096%64*4096+n/64%64*64+n%64 = n := by omega
        have read := decode_four fuel left rest (show n/262144%8 < 8 by omega) (show n/4096%64 < 64 by omega)
          (show n/64%64 < 64 by omega) (show n%64 < 64 by omega) (by omega)
        have pair : pairOf n = [UInt16.ofNat (0xd800+(n-0x10000)/0x400),UInt16.ofNat (0xdc00+(n-0x10000)%0x400)] := by
          have high : (n-0x10000)/0x400%0x400+0xd800 = 0xd800+(n-0x10000)/0x400 := by omega
          rw [pairOf,high,Nat.add_comm ((n-0x10000)%0x400)]
        rw [whole,pair] at read
        rw [if_neg one,if_neg two,if_neg three,if_neg three]
        exact read

end Decode

theorem decodeFrom_utf8 (text : Name) {fuel : Nat} (enough : (utf8 text).length ≤ fuel) (rest : Bytes) :
    decodeFrom fuel (utf8 text).length (utf8 text++rest) = utf16 text := by
  induction text generalizing fuel with
  | nil => cases fuel <;> rfl
  | cons c text ih =>
    have parts : utf8 (c :: text) = String.utf8EncodeChar c++utf8 text := rfl
    have some := List.length_pos_iff.mpr (show String.utf8EncodeChar c ≠ [] by rw [← pointBytes_char]; unfold pointBytes; split_ifs <;> simp)
    rw [parts,List.length_append] at enough
    obtain ⟨fuel,rfl⟩ : ∃ k, fuel = k+1 := ⟨fuel-1,by omega⟩
    rw [parts,List.length_append,Nat.add_comm (String.utf8EncodeChar c).length,List.append_assoc,
      decodeFrom_char,ih (by omega)]
    rfl

theorem utf8DecodeJs_utf8 (text : Name) (rest : Bytes) : utf8DecodeJs (utf8 text++rest) (utf8 text).length = utf16 text :=
  decodeFrom_utf8 text le_rfl rest

-- Reading bytes for a text loses nothing of a text's own bytes.
theorem fromUtf8_utf8 (text : Name) : fromUtf8 (utf8 text) = some text := by
  have read : text.utf8Encode.utf8Decode? = some text.toArray := List.utf8Decode?_utf8Encode
  have same : text.utf8Encode = (utf8 text).toByteArray := rfl
  rw [fromUtf8,← same,read]
  rfl

-- The first byte of a character and the bytes after it say how long it is.
theorem tailByte_ofNat {y : Nat} (small : y < 64) : tailByte (UInt8.ofNat (y+0x80)) = true := by
  simp only [tailByte,UInt8.le_iff_toNat_le,byte_toNat (show y+0x80 < 256 by omega),UInt8.reduceToNat,Bool.and_eq_true,
    decide_eq_true_eq]
  omega

theorem secondOk_ofNat {x y : Nat} (first : x < 256) (second : y < 64) (e0 : x = 0xe0 → 32 ≤ y) (ed : x = 0xed → y < 32)
    (f0 : x = 0xf0 → 16 ≤ y) (f4 : x = 0xf4 → y < 16) : secondOk (UInt8.ofNat x) (UInt8.ofNat (y+0x80)) = true := by
  have tail := tailByte_ofNat second
  simp only [secondOk,UInt8.le_iff_toNat_le,← UInt8.toNat_inj,byte_toNat first,byte_toNat (show y+0x80 < 256 by omega),
    UInt8.reduceToNat]
  split_ifs <;> first | exact tail | (rw [Bool.and_eq_true,decide_eq_true_eq,decide_eq_true_eq]; omega)

theorem charLen_char (c : Char) (more : Bytes) : ∃ a tail, String.utf8EncodeChar c = a :: tail ∧
    charLen a (tail++more) = (String.utf8EncodeChar c).length := by
  have valid := char_valid c
  rw [← pointBytes_char]
  unfold pointBytes
  generalize c.val.toNat = n at *
  by_cases one : n < 0x80
  · rw [if_pos one]
    refine ⟨_,_,rfl,?_⟩
    have low : UInt8.ofNat n < 0xc2 := by
      rw [UInt8.lt_iff_toNat_lt,byte_toNat (by omega)]
      show n < 0xc2
      omega
    unfold charLen
    rw [if_pos (.inl low)]
    rfl
  · by_cases two : n < 0x800
    · rw [if_neg one,if_pos two]
      refine ⟨_,_,rfl,?_⟩
      have second := secondOk_ofNat (show n/64%32+0xc0 < 256 by omega) (show n%64 < 64 by omega) (by omega) (by omega) (by omega) (by omega)
      simp only [List.singleton_append,charLen,second,UInt8.lt_iff_toNat_lt,byte_toNat (show n/64%32+0xc0 < 256 by omega),
        UInt8.reduceToNat]
      rw [if_neg (by omega),if_neg (by decide),if_pos (by omega)]
      rfl
    · by_cases three : n < 0x10000
      · rw [if_neg one,if_neg two,if_pos three]
        refine ⟨_,_,rfl,?_⟩
        have second := secondOk_ofNat (show n/4096%16+0xe0 < 256 by omega) (show n/64%64 < 64 by omega) (by omega) (by omega)
          (by omega) (by omega)
        have third := tailByte_ofNat (show n%64 < 64 by omega)
        simp only [List.cons_append,List.nil_append,charLen,second,third,UInt8.lt_iff_toNat_lt,
          byte_toNat (show n/4096%16+0xe0 < 256 by omega),UInt8.reduceToNat]
        rw [if_neg (by omega),if_neg (by decide),if_neg (by omega),if_neg (by decide),if_pos (by omega)]
        rfl
      · rw [if_neg one,if_neg two,if_neg three]
        refine ⟨_,_,rfl,?_⟩
        have second := secondOk_ofNat (show n/262144%8+0xf0 < 256 by omega) (show n/4096%64 < 64 by omega) (by omega) (by omega)
          (by omega) (by omega)
        have third := tailByte_ofNat (show n/64%64 < 64 by omega)
        have fourth := tailByte_ofNat (show n%64 < 64 by omega)
        simp only [List.cons_append,List.nil_append,charLen,second,third,fourth,UInt8.lt_iff_toNat_lt,
          byte_toNat (show n/262144%8+0xf0 < 256 by omega),UInt8.reduceToNat]
        rw [if_neg (by omega),if_neg (by decide),if_neg (by omega),if_neg (by decide),if_neg (by omega),if_neg (by decide)]
        rfl

theorem lossyFrom_utf8 (text : Name) {fuel : Nat} (enough : (utf8 text).length ≤ fuel) : lossyFrom fuel (utf8 text) = text := by
  induction text generalizing fuel with
  | nil => cases fuel <;> rfl
  | cons c text ih =>
    have parts : utf8 (c :: text) = String.utf8EncodeChar c++utf8 text := rfl
    obtain ⟨a,tail,first,size⟩ := charLen_char c (utf8 text)
    rw [parts,List.length_append,first,List.length_cons] at enough
    obtain ⟨fuel,rfl⟩ : ∃ k, fuel = k+1 := ⟨fuel-1,by omega⟩
    have one : fromUtf8 (String.utf8EncodeChar c) = some [c] := by
      have single := fromUtf8_utf8 [c]
      rwa [utf8,List.flatMap_singleton] at single
    have step : lossyFrom (fuel+1) (utf8 (c :: text)) =
        (fromUtf8 ((utf8 (c :: text)).take (charLen a (tail++utf8 text)))).getD [Char.ofNat 0xfffd]++
          lossyFrom fuel ((utf8 (c :: text)).drop (charLen a (tail++utf8 text))) := by
      rw [parts,first]
      rfl
    rw [step,size,parts,List.take_left,List.drop_left,one,ih (by omega)]
    rfl

theorem fromUtf8Lossy_utf8 (text : Name) : fromUtf8Lossy (utf8 text) = text := lossyFrom_utf8 text le_rfl

-- A text reads back as itself, or without the mark it starts with where it is long.
theorem utf8Decode_utf8 (text : Name) (rest : Bytes) : utf8Decode (utf8 text++rest) (utf8 text).length = utf16 (kept text) := by
  unfold utf8Decode kept
  split_ifs
  · rw [List.take_left,utf8DecodeTD,fromUtf8Lossy_utf8]
  · exact utf8DecodeJs_utf8 text rest

theorem kept_iff (text : Name) : kept text = text ↔ ¬(200 < (utf8 text).length ∧ text.head? = some bom) := by
  unfold kept
  split_ifs with long
  · cases text with
    | nil => simp [markDropped]
    | cons c rest =>
      rw [markDropped,List.head?_cons]
      split_ifs with mark
      · have differ : rest ≠ c :: rest := fun same => by simpa using congrArg List.length same
        exact ⟨fun same => absurd same differ,fun other => absurd ⟨long,by rw [mark]⟩ other⟩
      · simp [mark]
  · simp [long]

end JsTexts
end PhaseLock
