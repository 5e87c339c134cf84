import PhaseLock.Keys

namespace PhaseLock
namespace Compact

abbrev Text := Keys.Text

-- Base64url without padding, decoding as leniently as the JOSE readers it talks to.
def alphabet : Text := "ABCDEFGHIJKLMNOPQRSTUVWXYZabcdefghijklmnopqrstuvwxyz0123456789-_".toList

def symbol (n : Nat) : Char := alphabet.getD n 'A'

def value (c : Char) : Option Nat := alphabet.findIdx? (· = c)

def encode : List UInt8 → Text
  | x :: y :: z :: rest =>
    symbol (x.toNat/4) :: symbol (x.toNat%4*16+y.toNat/16) :: symbol (y.toNat%16*4+z.toNat/64) :: symbol (z.toNat%64) ::
      encode rest
  | [x,y] => [symbol (x.toNat/4),symbol (x.toNat%4*16+y.toNat/16),symbol (y.toNat%16*4)]
  | [x] => [symbol (x.toNat/4),symbol (x.toNat%4*16)]
  | [] => []

-- Bits left over past the last byte are let go.
def decode : Text → Option (List UInt8)
  | a :: b :: c :: d :: rest => do
    let (a,b,c,d) := (← value a,← value b,← value c,← value d)
    let rest ← decode rest
    some (UInt8.ofNat (a*4+b/16) :: UInt8.ofNat (b%16*16+c/4) :: UInt8.ofNat (c%4*64+d) :: rest)
  | [a,b,c] => do
    let (a,b,c) := (← value a,← value b,← value c)
    some [UInt8.ofNat (a*4+b/16),UInt8.ofNat (b%16*16+c/4)]
  | [a,b] => do
    let (a,b) := (← value a,← value b)
    some [UInt8.ofNat (a*4+b/16)]
  | [_] => none
  | [] => some []

theorem symbol_value {n : Nat} (low : n < 64) : value (symbol n) = some n := by
  have every : ∀ n : Fin 64, value (symbol n) = some n.val := by decide +kernel
  exact every ⟨n,low⟩

theorem symbol_plain (n : Nat) : symbol n ≠ '.' := by
  have none : '.' ∉ alphabet := by decide +kernel
  intro is
  unfold symbol at is
  rw [List.getD_eq_getElem?_getD] at is
  cases found : alphabet[n]? with
  | none => rw [found] at is; exact absurd is (by decide)
  | some c =>
    rw [found,Option.getD_some] at is
    exact none (is ▸ List.mem_of_getElem? found)

theorem byte_back (x : UInt8) (is : n = x.toNat) : UInt8.ofNat n = x := by
  rw [is,UInt8.ofNat_toNat]

theorem decode_encode (bytes : List UInt8) : decode (encode bytes) = some bytes := by
  fun_induction encode bytes with
  | case1 x y z rest ih =>
    have := x.toNat_lt
    have := y.toNat_lt
    have := z.toNat_lt
    rw [decode,symbol_value (by omega),symbol_value (by omega),symbol_value (by omega),symbol_value (by omega),ih]
    dsimp only [Option.bind_eq_bind,Option.bind_some]
    rw [byte_back x (by omega),byte_back y (by omega),byte_back z (by omega)]
  | case2 x y =>
    have := x.toNat_lt
    have := y.toNat_lt
    rw [decode,symbol_value (by omega),symbol_value (by omega),symbol_value (by omega)]
    dsimp only [Option.bind_eq_bind,Option.bind_some]
    rw [byte_back x (by omega),byte_back y (by omega)]
  | case3 x =>
    have := x.toNat_lt
    rw [decode,symbol_value (by omega),symbol_value (by omega)]
    dsimp only [Option.bind_eq_bind,Option.bind_some]
    rw [byte_back x (by omega)]
  | case4 => rfl

theorem encode_plain (bytes : List UInt8) : '.' ∉ encode bytes := by
  fun_induction encode bytes with
  | case1 x y z rest ih => simp [Ne.symm (symbol_plain _),ih]
  | case2 x y => simp [Ne.symm (symbol_plain _)]
  | case3 x => simp [Ne.symm (symbol_plain _)]
  | case4 => simp

-- A string, its quotes and backslashes escaped, to the quote that closes it.
def writeText (text : Text) : Text := text.flatMap (fun c => if c = '"' ∨ c = '\\' then ['\\',c] else [c])++['"']

def readText : Text → Option (Text × Text)
  | [] => none
  | c :: rest =>
    if c = '"' then some ([],rest)
    else if c = '\\' then match rest with
      | [] => none
      | c :: rest => (readText rest).map fun (text,rest) => (c :: text,rest)
    else (readText rest).map fun (text,rest) => (c :: text,rest)

theorem read_writeText (text rest : Text) : readText (writeText text++rest) = some (text,rest) := by
  induction text with
  | nil =>
    show readText ('"' :: rest) = _
    rw [readText.eq_def]
    rfl
  | cons c text ih =>
    have unfolded : writeText (c :: text) = (if c = '"' ∨ c = '\\' then ['\\',c] else [c])++writeText text := by
      simp [writeText]
    rw [unfolded,List.append_assoc]
    by_cases escaped : c = '"' ∨ c = '\\'
    · rw [if_pos escaped]
      simp only [List.cons_append,List.nil_append]
      rw [readText,if_neg (by decide),if_pos rfl]
      dsimp only
      rw [ih]
      rfl
    · rw [if_neg escaped]
      obtain ⟨quote,slash⟩ := not_or.mp escaped
      simp only [List.cons_append,List.nil_append]
      rw [readText.eq_def]
      dsimp only
      rw [if_neg quote,if_neg slash,ih]
      rfl

def writeInt (n : Int) : Text := if n < 0 then '-' :: Nat.toDigits 10 n.natAbs else Nat.toDigits 10 n.natAbs

def readNat (text : Text) : Nat × Text := (Nat.ofDigitChars 10 (text.takeWhile Char.isDigit) 0,text.dropWhile Char.isDigit)

def readInt : Text → Int × Text
  | '-' :: rest => (-((readNat rest).1 : Int),(readNat rest).2)
  | text => ((readNat text).1,(readNat text).2)

theorem read_digits (n : Nat) {rest : Text} (ends : ∀ c ∈ rest.head?, c.isDigit = false) :
    readNat (Nat.toDigits 10 n++rest) = (n,rest) := by
  have digits : ∀ c ∈ Nat.toDigits 10 n, c.isDigit = true := fun c => Nat.isDigit_of_mem_toDigits (by decide) (by decide)
  have none : rest.takeWhile Char.isDigit = [] ∧ rest.dropWhile Char.isDigit = rest := by
    cases rest with
    | nil => exact ⟨rfl,rfl⟩
    | cons c rest =>
      have other := ends c rfl
      exact ⟨List.takeWhile_cons_of_neg (by simp [other]),List.dropWhile_cons_of_neg (by simp [other])⟩
  rw [readNat,List.takeWhile_append_of_pos digits,List.dropWhile_append_of_pos digits,none.1,none.2,List.append_nil,
    Nat.ofDigitChars_toDigits (by decide) (by decide)]

theorem read_writeInt (n : Int) {rest : Text} (ends : ∀ c ∈ rest.head?, c.isDigit = false) :
    readInt (writeInt n++rest) = (n,rest) := by
  unfold writeInt
  split
  · rename_i negative
    rw [List.cons_append,readInt,read_digits _ ends]
    have back : -(n.natAbs : Int) = n := by omega
    rw [back]
  · rename_i positive
    have digits := read_digits n.natAbs ends
    have first : ∀ c ∈ (Nat.toDigits 10 n.natAbs++rest).head?, c ≠ '-' := by
      cases is : Nat.toDigits 10 n.natAbs with
      | nil => exact absurd is Nat.toDigits_ne_nil
      | cons c others =>
        have digit : c.isDigit = true := Nat.isDigit_of_mem_toDigits (by decide) (by decide) (is ▸ List.mem_cons_self)
        rintro d ⟨⟩ rfl
        cases digit
    generalize Nat.toDigits 10 n.natAbs++rest = text at digits first
    rw [readInt.eq_def]
    split
    · exact absurd rfl (first _ rfl)
    · rw [digits]
      have back : (n.natAbs : Int) = n := by omega
      rw [back]

-- What a text starts with, taken off it.
def strip (start text : Text) : Option Text := if start <+: text then some (text.drop start.length) else none

theorem strip_append (start rest : Text) : strip start (start++rest) = some rest := by
  rw [strip,if_pos (List.prefix_append _ _),List.drop_left]

def headerText (h : Keys.Header) : Text :=
  "\x7b\"alg\":\"".toList++(writeText h.alg++(",\"typ\":\"".toList++(writeText h.typ++(",\"kid\":\"".toList++(writeText h.kid++"\x7d".toList)))))

def readHeader (text : Text) : Option Keys.Header := do
  let text ← strip "\x7b\"alg\":\"".toList text
  let (alg,text) ← readText text
  let text ← strip ",\"typ\":\"".toList text
  let (typ,text) ← readText text
  let text ← strip ",\"kid\":\"".toList text
  let (kid,text) ← readText text
  if text = "\x7d".toList then some ⟨alg,typ,kid⟩ else none

theorem read_headerText (h : Keys.Header) : readHeader (headerText h) = some h := by
  unfold readHeader headerText
  generalize "\x7b\"alg\":\"".toList = alg, ",\"typ\":\"".toList = typ, ",\"kid\":\"".toList = kid, "\x7d".toList = close
  simp only [strip_append,read_writeText,Option.bind_eq_bind,Option.bind_some,if_true]

def claimsText (c : Keys.Claims) : Text :=
  "\x7b\"sub\":\"".toList++(writeText c.sub++(",\"gen\":".toList++(writeInt c.generation++(",\"iat\":".toList++(writeInt c.iat++
    (",\"exp\":".toList++(writeInt c.exp++(",\"jti\":\"".toList++(writeText c.jti++"\x7d".toList)))))))))

def readClaims (text : Text) : Option Keys.Claims := do
  let text ← strip "\x7b\"sub\":\"".toList text
  let (sub,text) ← readText text
  let text ← strip ",\"gen\":".toList text
  let (generation,text) := readInt text
  let text ← strip ",\"iat\":".toList text
  let (iat,text) := readInt text
  let text ← strip ",\"exp\":".toList text
  let (exp,text) := readInt text
  let text ← strip ",\"jti\":\"".toList text
  let (jti,text) ← readText text
  if text = "\x7d".toList then some ⟨sub,generation,iat,exp,jti⟩ else none

theorem read_field (n : Int) {next : Text} (ends : next.head? = some ',') (rest : Text) :
    readInt (writeInt n++(next++rest)) = (n,next++rest) := by
  refine read_writeInt n ?_
  cases next with
  | nil => cases ends
  | cons c others =>
    cases ends
    rintro d ⟨⟩
    rfl

theorem read_claimsText (c : Keys.Claims) : readClaims (claimsText c) = some c := by
  unfold readClaims claimsText
  have iatEnds : ",\"iat\":".toList.head? = some ',' := rfl
  have expEnds : ",\"exp\":".toList.head? = some ',' := rfl
  have jtiEnds : ",\"jti\":\"".toList.head? = some ',' := rfl
  generalize "\x7b\"sub\":\"".toList = sub, ",\"gen\":".toList = gen, ",\"iat\":".toList = iat, ",\"exp\":".toList = exp,
    ",\"jti\":\"".toList = jti, "\x7d".toList = close at iatEnds expEnds jtiEnds ⊢
  simp only [strip_append,read_writeText,read_field _ iatEnds,read_field _ expEnds,read_field _ jtiEnds,
    Option.bind_eq_bind,Option.bind_some,if_true]

def write (text : Text) : Text := encode (text.flatMap String.utf8EncodeChar)

def read (part : Text) : Option Text := do
  let bytes ← decode part
  let text ← bytes.toByteArray.utf8Decode?
  some text.toList

theorem read_write (text : Text) : read (write text) = some text := by
  rw [read,write,decode_encode]
  dsimp only [Option.bind_eq_bind,Option.bind_some]
  rw [← List.utf8Encode,List.utf8Decode?_utf8Encode]
  rfl

-- The libraries a server has, over a signature scheme of its own.
def jose {ρ π : Type} (publicOf : ρ → π) (sign : ρ → Text → List UInt8) (verifies : π → Text → List UInt8 → Bool) :
    Keys.Jose ρ π where
  encodeHeader h := write (headerText h)
  decodeHeader part := (read part).bind readHeader
  encodeClaims c := write (claimsText c)
  decodeClaims part := (read part).bind readClaims
  publicOf
  sign private_ text := encode (sign private_ text)
  verifies public_ text signature := ((decode signature).map (verifies public_ text)).getD false

theorem jose_sound {ρ π : Type} {publicOf : ρ → π} {sign : ρ → Text → List UInt8} {verifies : π → Text → List UInt8 → Bool}
    (signed : ∀ private_ text, verifies (publicOf private_) text (sign private_ text) = true) :
    (jose publicOf sign verifies).Sound := by
  constructor
  · intro h
    show (read (write (headerText h))).bind readHeader = some h
    rw [read_write,Option.bind_some,read_headerText]
  · intro c
    show (read (write (claimsText c))).bind readClaims = some c
    rw [read_write,Option.bind_some,read_claimsText]
  · exact fun h => encode_plain _
  · exact fun c => encode_plain _
  · exact fun _ _ => encode_plain _
  · intro private_ text
    show ((decode (encode (sign private_ text))).map (verifies (publicOf private_) text)).getD false = true
    rw [decode_encode,Option.map_some,Option.getD_some,signed]

end Compact
end PhaseLock
