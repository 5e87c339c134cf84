import PhaseLock.BufferGroups

namespace PhaseLock

namespace OrderedMap
variable {κ κ' ν : Type} {f : κ → κ'}

theorem ext_entries {a b : OrderedMap κ ν} (same : a.entries = b.entries) : a = b := by
  cases a
  cases b
  cases same
  rfl

-- A map under other names for its keys.
def rekey (f : κ → κ') (inj : Function.Injective f) (m : OrderedMap κ ν) : OrderedMap κ' ν :=
  ⟨m.entries.map fun e => (f e.1,e.2),by
    rw [List.map_map]
    exact List.pairwise_map.mpr ((List.pairwise_map.mp m.distinct).imp fun differ same => differ (inj same))⟩

variable [DecidableEq κ] [DecidableEq κ']

theorem lookup_map (inj : Function.Injective f) (k : κ) (rows : List (κ × ν)) :
    lookup (f k) (rows.map fun e => (f e.1,e.2)) = lookup k rows := by
  induction rows with
  | nil => rfl
  | cons row rows ih => simp only [List.map_cons,lookup,ih,inj.eq_iff]

theorem replace_map (inj : Function.Injective f) (k : κ) (v : ν) (rows : List (κ × ν)) :
    replace (f k) v (rows.map fun e => (f e.1,e.2)) = (replace k v rows).map fun e => (f e.1,e.2) := by
  induction rows with
  | nil => rfl
  | cons row rows ih =>
    simp only [List.map_cons,replace,ih,inj.eq_iff]
    split_ifs <;> rfl

variable (inj : Function.Injective f)

theorem get_rekey (m : OrderedMap κ ν) (k : κ) : (m.rekey f inj).get (f k) = m.get k := lookup_map inj k m.entries

theorem rekey_set (m : OrderedMap κ ν) (k : κ) (v : ν) : (m.set k v).rekey f inj = (m.rekey f inj).set (f k) v :=
  ext_entries (replace_map inj k v m.entries).symm

theorem entries_dels (ks : List κ) (m : OrderedMap κ ν) : (ks.foldl del m).entries = m.entries.filter (·.1 ∉ ks) := by
  induction ks generalizing m with
  | nil => simp
  | cons k ks ih =>
    rw [List.foldl_cons,ih,del,keep,List.filter_filter]
    exact List.filter_congr fun e _ => by simp [Bool.and_comm]

end OrderedMap

theorem OrderedMap.scan_rekey {κ κ' ν : Type} [LinearOrder κ] [LinearOrder κ'] {f : κ → κ'} (inj : Function.Injective f)
    (le : ∀ a b, f a ≤ f b ↔ a ≤ b) (m : OrderedMap κ ν) : (m.rekey f inj).scan = m.scan.map fun e => (f e.1,e.2) :=
  (List.map_insertionSort (fun a b : κ × ν => a.1 ≤ b.1) (fun a b : κ' × ν => a.1 ≤ b.1) (fun e => (f e.1,e.2)) m.entries
    fun a _ b _ => (le a.1 b.1).symm).symm

namespace TextBuffers
open Mp

theorem bang_sign : Texts.Sign String.utf8EncodeChar '!' Buffer.bang := utf8_sign (by decide)
theorem colon_sign : Texts.Sign String.utf8EncodeChar ':' 58 := utf8_sign (by decide)
theorem comma_sign : Texts.Sign String.utf8EncodeChar ',' 44 := utf8_sign (by decide)

theorem utf8_injective : Function.Injective utf8 := fun _ _ same => utf8_inj.mp same

theorem char_top (c : Char) : c.val.toNat < 0xd800 ∨ 0xdfff < c.val.toNat ∧ c.val.toNat < 0x110000 := by
  have valid := c.valid
  simp only [UInt32.isValidChar,Nat.isValidChar] at valid
  omega

-- A character below 0x80 is its own byte, and any other's bytes are all from 0x80 on.
theorem encode_cases (c : Char) : c.val.toNat < 0x80 ∧ String.utf8EncodeChar c = [UInt8.ofNat c.val.toNat] ∨
    0x80 ≤ c.val.toNat ∧ ∃ b rest, String.utf8EncodeChar c = b :: rest ∧ 0x80 ≤ b.toNat := by
  have top := char_top c
  unfold String.utf8EncodeChar
  dsimp only
  generalize c.val.toNat = n at *
  split_ifs
  · exact .inl ⟨by omega,rfl⟩
  all_goals
    refine .inr ⟨by omega,_,_,rfl,?_⟩
    rw [UInt8.toNat_ofNat_of_lt' (show _ < 256 by omega)]
    omega

-- What a test of bytes and a test of characters agree on, they agree on in whole texts.
theorem utf8_all {p : UInt8 → Bool} {q : Char → Bool} (low : ∀ n < 0x80, p (UInt8.ofNat n) = q (Char.ofNat n))
    (high : ∀ b : UInt8, 0x80 ≤ b.toNat → p b = false) (far : ∀ c : Char, 0x80 ≤ c.val.toNat → q c = false) (text : List Char) :
    (utf8 text).all p = text.all q := by
  have each : ∀ c, (String.utf8EncodeChar c).all p = q c := by
    intro c
    rcases encode_cases c with ⟨less,is⟩ | ⟨more,b,rest,is,from_⟩
    · rw [is,List.all_cons,List.all_nil,Bool.and_true,low _ less]
      exact congrArg q c.ofNat_toNat
    · rw [is,List.all_cons,high b from_,far c more,Bool.false_and]
  unfold utf8
  rw [List.all_flatMap]
  exact congrArg _ (funext each)

theorem segmentChar_high (b : UInt8) (high : 0x80 ≤ b.toNat) : Submits.segmentChar b = false := by
  simp only [Submits.segmentChar,decide_eq_false_iff_not,UInt8.le_iff_toNat_le,← UInt8.toNat_inj,UInt8.reduceToNat]
  omega

theorem segmentChar_far (c : Char) (far : 0x80 ≤ c.val.toNat) : segmentChar c = false := by
  rw [Bool.eq_false_iff]
  intro char
  unfold segmentChar Char.isAlphanum Char.isAlpha Char.isUpper Char.isLower Char.isDigit at char
  simp only [Bool.or_eq_true,Bool.and_eq_true,decide_eq_true_eq,ge_iff_le,UInt32.le_iff_toNat_le] at char
  rcases char with (((upper | lower) | digit) | rfl) | rfl
  · exact absurd (far.trans upper.2) (by decide)
  · exact absurd (far.trans lower.2) (by decide)
  · exact absurd (far.trans digit.2) (by decide)
  all_goals exact absurd far (by decide)

theorem segment_utf8 (s : List Char) : Submits.segment (utf8 s) = segment s := by
  unfold Submits.segment segment
  rw [utf8_all (p := Submits.segmentChar) (q := segmentChar) (by decide) segmentChar_high segmentChar_far]
  cases s with
  | nil => rfl
  | cons c s =>
    have some_ : utf8 (c :: s) ≠ [] := fun none => by simpa using utf8_inj (b := []).mp none
    simp [some_]

theorem fields_splitOn (separator : Char) (text : List Char) : fields separator text = text.splitOn separator := by
  induction text with
  | nil => rfl
  | cons c rest ih =>
    rw [fields,List.splitOn_cons_eq_if_modifyHead,ih]
    by_cases same : c = separator
    · rw [if_pos same,if_pos (by simpa using same)]
    · rw [if_neg same,if_neg (by simpa using same)]
      cases parts : rest.splitOn separator with
      | nil => exact absurd parts (List.splitOn_ne_nil separator rest)
      | cons first more => rfl

-- A text's fields but the last, and the last.
theorem fields_split (rest : List Char) : (rest.splitOn ',').dropLast = leadingFields rest ∧ (rest.splitOn ',').getLastD [] = lastField rest := by
  unfold leadingFields lastField
  by_cases comma : ',' ∈ rest
  · obtain ⟨last,before,flipped,fresh⟩ := List.eq_append_cons_of_mem (List.mem_reverse.mpr comma)
    have runs : ∀ c ∈ last, decide (c ≠ ',') = true := fun c member => decide_eq_true fun same => fresh (same ▸ member)
    have whole : rest = before.reverse++ ',' :: last.reverse := by simpa using congrArg List.reverse flipped
    have single : last.reverse.splitOn ',' = [last.reverse] := List.splitOn_eq_singleton (by simpa using fresh)
    have parts : rest.splitOn ',' = before.reverse.splitOn ',' ++[last.reverse] := by
      rw [whole,List.splitOn_append_cons_self,single]
    rw [parts,flipped,List.takeWhile_append_of_pos runs,List.dropWhile_append_of_pos runs,List.takeWhile_cons_of_neg (by simp),
      List.dropWhile_cons_of_neg (by simp),List.dropLast_concat,List.getLastD_concat,List.append_nil]
    exact ⟨(fields_splitOn ',' before.reverse).symm,rfl⟩
  · have runs : ∀ c ∈ rest.reverse, decide (c ≠ ',') = true := fun c member =>
      decide_eq_true fun same => comma (same ▸ List.mem_reverse.mp member)
    rw [List.splitOn_eq_singleton comma,List.takeWhile_eq_self_iff.mpr runs,List.dropWhile_eq_nil_iff.mpr runs,List.reverse_reverse]
    exact ⟨rfl,rfl⟩

theorem finalChar_utf8 (s : List Char) : (utf8 s).all (fun c => Submits.segmentChar c || c = 46 || c = 126) =
    s.all fun c => segmentChar c || c = '.' || c = '~' := by
  refine utf8_all (by decide) (fun b high => ?_) (fun c far => ?_) s
  · have dot : b ≠ 46 := fun same => absurd high (by rw [same]; decide)
    have tilde : b ≠ 126 := fun same => absurd high (by rw [same]; decide)
    simp [segmentChar_high b high,dot,tilde]
  · have dot : c ≠ '.' := fun same => absurd far (by rw [same]; decide)
    have tilde : c ≠ '~' := fun same => absurd far (by rw [same]; decide)
    simp [segmentChar_far c far,dot,tilde]

-- A slice name is one by its characters when it is one by its bytes.
theorem sliceNameOk_utf8 (name : Name) : Submits.sliceNameOk (utf8 name) = sliceNameOk name := by
  have family : (utf8 name).takeWhile (· ≠ 58) = utf8 (name.takeWhile (· ≠ ':')) := colon_sign.takeWhile name
  have after : (utf8 name).dropWhile (· ≠ 58) = utf8 (name.dropWhile (· ≠ ':')) := colon_sign.dropWhile name
  unfold Submits.sliceNameOk sliceNameOk
  rw [family,after,segment_utf8,show Submits.sliceMax = sliceMax from rfl]
  congr 1
  cases params : name.dropWhile (· ≠ ':') with
  | nil => rfl
  | cons colon rest =>
    have first : colon = ':' := by
      have head := List.head?_dropWhile_not (fun c : Char => decide (c ≠ ':')) name
      rw [params] at head
      simpa using head
    have parts : (utf8 rest).splitOn 44 = (rest.splitOn ',').map utf8 := comma_sign.splitOn rest
    have bytes : utf8 (colon :: rest) = 58 :: utf8 rest := by rw [first]; rfl
    obtain ⟨leading,last⟩ := fields_split rest
    have final : ((rest.splitOn ',').map utf8).getLastD [] = utf8 (lastField rest) := by
      rw [← last,List.getLastD_eq_getLast?,List.getLastD_eq_getLast?,List.getLast?_map]
      cases (rest.splitOn ',').getLast? <;> rfl
    rw [bytes]
    dsimp only
    rw [parts,final,← List.map_dropLast,leading,finalChar_utf8,List.all_map,show Submits.segment ∘ utf8 = segment from funext segment_utf8]
    congr 2
    cases lastField rest with
    | nil => rfl
    | cons c s =>
      have some_ : utf8 (c :: s) ≠ [] := fun none => by simpa using utf8_inj (b := []).mp none
      simp [some_]

theorem sliceOf_utf8 (key : Key) : Buffer.sliceOf (utf8 key) = (sliceOf key).map utf8 := by
  unfold sliceOf
  by_cases here : '!' ∈ key
  · rw [if_pos here,Option.map_some]
    refine Buffer.sliceOf_some.mpr ⟨fun member => ?_,?_⟩
    · have kept := List.mem_takeWhile_imp ((bang_sign.mem_iff _).mp member)
      simp at kept
    · have starts := (utf8_starts _ _).mpr (before_bang here)
      rwa [slicePrefix,utf8_append] at starts
  · rw [if_neg here,Option.map_none]
    cases held : Buffer.sliceOf (utf8 key) with
    | none => rfl
    | some s =>
      obtain ⟨_,rest,is⟩ := Buffer.sliceOf_some.mp held
      exact absurd ((bang_sign.mem_iff key).mp (show Buffer.bang ∈ utf8 key by rw [← is]; simp)) here

theorem keyCharsOk_cons {n : Nat} (n8 : n < 256) (rest : Bytes) : Buffer.keyCharsOk (UInt8.ofNat n :: rest) =
    if n < 0x20 ∨ n = 0x7f ∨ n = 0xc2 ∧ 0x80 ≤ (rest.headD 0).toNat ∧ (rest.headD 0).toNat ≤ 0x9f ∨ n = 0xed ∧ 0xa0 ≤ (rest.headD 0).toNat
    then false else Buffer.keyCharsOk rest := by
  have control : UInt8.ofNat n < 0x20 ↔ n < 0x20 := byte_lt n8 (by decide)
  have same : ∀ m < 256, (UInt8.ofNat n = UInt8.ofNat m ↔ n = m) := fun m m8 => byte_eq n8 m8
  rw [Buffer.keyCharsOk]
  simp only [control,show (0x7f : UInt8) = UInt8.ofNat 0x7f from rfl,show (0xc2 : UInt8) = UInt8.ofNat 0xc2 from rfl,
    show (0xed : UInt8) = UInt8.ofNat 0xed from rfl,same _ (by decide : 0x7f < 256),same _ (by decide : 0xc2 < 256),
    same _ (by decide : 0xed < 256),UInt8.le_iff_toNat_le]
  split_ifs <;> first | rfl | (simp at *; omega)

theorem keyCharsOk_tail {n : Nat} (low : 0x80 ≤ n) (high : n ≤ 0xbf) (rest : Bytes) :
    Buffer.keyCharsOk (UInt8.ofNat n :: rest) = Buffer.keyCharsOk rest := by
  rw [keyCharsOk_cons (by omega),if_neg (by omega)]

-- Two bytes from 0xc2 0x80 to 0xc2 0x9f are the controls from U+0080 on, and three from 0xed 0xa0
-- on the surrogates, which no character is.
theorem keyCharsOk_char (c : Char) (rest : Bytes) : Buffer.keyCharsOk (String.utf8EncodeChar c++rest) =
    (decide ¬(c.toNat < 0x20 ∨ 0x7f ≤ c.toNat ∧ c.toNat ≤ 0x9f) && Buffer.keyCharsOk rest) := by
  have top := char_top c
  unfold String.utf8EncodeChar
  show _ = (decide ¬(c.val.toNat < 0x20 ∨ 0x7f ≤ c.val.toNat ∧ c.val.toNat ≤ 0x9f) && _)
  dsimp only
  generalize c.val.toNat = n at *
  split_ifs
  · rw [List.singleton_append,keyCharsOk_cons (by omega)]
    split_ifs with control
    · rw [decide_eq_false (by omega),Bool.false_and]
    · rw [decide_eq_true (by omega),Bool.true_and]
  all_goals
    simp only [List.cons_append,List.nil_append]
    rw [keyCharsOk_cons (by omega),List.headD_cons,UInt8.toNat_ofNat_of_lt' (show _ < 256 by omega)]
  · rw [keyCharsOk_tail (by omega) (by omega)]
    split_ifs with control
    · rw [decide_eq_false (by omega),Bool.false_and]
    · rw [decide_eq_true (by omega),Bool.true_and]
  · rw [if_neg (by omega),keyCharsOk_tail (by omega) (by omega),keyCharsOk_tail (by omega) (by omega),
      decide_eq_true (by omega),Bool.true_and]
  · rw [if_neg (by omega),keyCharsOk_tail (by omega) (by omega),keyCharsOk_tail (by omega) (by omega),
      keyCharsOk_tail (by omega) (by omega),decide_eq_true (by omega),Bool.true_and]

theorem keyCharsOk_utf8 (key : Key) : Buffer.keyCharsOk (utf8 key) = keyCharsOk key := by
  induction key with
  | nil => rfl
  | cons c key ih =>
    have step := keyCharsOk_char c (utf8 key)
    rw [ih] at step
    exact step

-- A key is writable by its characters when it is by its bytes, U+0000 or not.
theorem keyWritable_utf8 (key : Key) {nul : Bool} (only : nul = true → Char.ofNat 0 ∈ key) :
    Buffer.keyWritable (utf8 key) nul = keyWritable key := by
  have named : (Buffer.sliceOf (utf8 key)).any Submits.sliceNameOk = (sliceOf key).any sliceNameOk := by
    rw [sliceOf_utf8]
    cases sliceOf key with
    | none => rfl
    | some slice => exact sliceNameOk_utf8 slice
  unfold Buffer.keyWritable keyWritable
  rw [keyCharsOk_utf8,named]
  cases nul with
  | false => rfl
  | true =>
    have control : keyCharsOk key = false := List.all_eq_false.mpr ⟨_,only rfl,by decide⟩
    simp [control]

-- A write as the gate admits it, or nothing where it throws.
def admitted : Write → Option Buffer.Write
  | .set key value => if ok : Buffer.keyWritable (utf8 key) false = true then some (.put ⟨utf8 key,ok⟩ (some value)) else none
  | .del key => if ok : Buffer.keyWritable (utf8 key) false = true then some (.put ⟨utf8 key,ok⟩ none) else none
  | .deleteSlice slice erase =>
    if ok : Submits.sliceNameOk (utf8 slice) = true then some (.deleteSlice ⟨utf8 slice,ok⟩ erase) else none

def bytesOf (wb : WriteBuffer) : Buffer.WriteBuffer where
  entries := wb.entries.rekey utf8 utf8_injective
  dels := wb.dels.rekey utf8 utf8_injective

def touchedBytes (t : Touched) : Buffer.Touched where
  name := utf8 t.name
  entries := t.entries.map fun row => (utf8 row.1,row.2)
  del := t.del

theorem deleteSlice_bytes (wb : WriteBuffer) (slice : Buffer.SliceName) {name : Name} (is : slice.val = utf8 name) (erase : Bool) :
    bytesOf (wb.deleteSlice name erase) = (bytesOf wb).deleteSlice slice.val erase := by
  have plain : '!' ∉ name := fun member => slice.plain (is ▸ (bang_sign.mem_iff name).mpr member)
  have entries : (bytesOf (wb.deleteSlice name erase)).entries = ((bytesOf wb).deleteSlice slice.val erase).entries := by
    refine OrderedMap.ext_entries ?_
    show (wb.entries.entries.filter _).map _ = (((bytesOf wb).under slice.val).foldl OrderedMap.del (bytesOf wb).entries).entries
    rw [OrderedMap.entries_dels]
    show _ = (wb.entries.entries.map _).filter _
    rw [List.filter_map]
    refine congrArg _ (List.filter_congr fun row member => ?_)
    have held : (bytesOf wb).entries.get (utf8 row.1) = some row.2 := by
      refine (OrderedMap.get_rekey utf8_injective wb.entries row.1).trans ?_
      exact (wb.entries.mem_entries row.1 row.2).mp member
    have under : utf8 row.1 ∈ (bytesOf wb).under slice.val ↔ slicePrefix name <+: row.1 := by
      rw [Buffer.mem_under,slicePrefix_iff plain,sliceOf_utf8,is]
      constructor
      · rintro ⟨_,same⟩
        obtain ⟨s,own,bytes⟩ := Option.map_eq_some_iff.mp same
        rw [own,utf8_inj.mp bytes]
      · intro own
        exact ⟨⟨_,held⟩,by rw [own]; rfl⟩
    rw [Bool.eq_iff_iff]
    simp [under,← List.isPrefixOf_iff_prefix]
  have dels : (bytesOf (wb.deleteSlice name erase)).dels = ((bytesOf wb).deleteSlice slice.val erase).dels := by
    show (wb.dels.set _ _).rekey utf8 utf8_injective =
      OrderedMap.set (wb.dels.rekey utf8 utf8_injective) _ (((wb.dels.rekey utf8 utf8_injective).get _).getD false || erase)
    rw [is,OrderedMap.rekey_set,OrderedMap.get_rekey]
  cases made : bytesOf (wb.deleteSlice name erase)
  cases other : (bytesOf wb).deleteSlice slice.val erase
  rw [made,other] at entries dels
  cases entries
  cases dels
  rfl

-- A write over characters does what the write it is over their bytes does.
theorem write_bytes (wb : WriteBuffer) (w : Write) : bytesOf (wb.write w) = (admitted w).elim (bytesOf wb) (bytesOf wb).write := by
  have puts : ∀ key value, keyWritable key = true → bytesOf (wb.put key value) = (bytesOf wb).put (utf8 key) value := by
    intro key value _
    unfold bytesOf WriteBuffer.put Buffer.WriteBuffer.put
    rw [OrderedMap.rekey_set]
  have gate : ∀ key, Buffer.keyWritable (utf8 key) false = keyWritable key := fun key => keyWritable_utf8 key fun is => by cases is
  cases w with
  | set key value =>
    by_cases ok : keyWritable key = true
    · rw [WriteBuffer.write,if_pos ok,admitted,dif_pos ((gate key).trans ok)]
      exact puts key (some value) ok
    · rw [WriteBuffer.write,if_neg ok,admitted,dif_neg (by rw [gate key]; exact ok)]
      rfl
  | del key =>
    by_cases ok : keyWritable key = true
    · rw [WriteBuffer.write,if_pos ok,admitted,dif_pos ((gate key).trans ok)]
      exact puts key none ok
    · rw [WriteBuffer.write,if_neg ok,admitted,dif_neg (by rw [gate key]; exact ok)]
      rfl
  | deleteSlice slice erase =>
    by_cases ok : sliceNameOk slice = true
    · have named := (sliceNameOk_utf8 slice).trans ok
      rw [WriteBuffer.write,if_pos ok,admitted,dif_pos named]
      exact deleteSlice_bytes wb ⟨utf8 slice,named⟩ rfl erase
    · rw [WriteBuffer.write,if_neg ok,admitted,dif_neg (by rw [sliceNameOk_utf8]; exact ok)]
      rfl

theorem writes_bytes (ops : List Write) : bytesOf (WriteBuffer.writes ops) = Buffer.writes (ops.filterMap admitted) := by
  induction ops using List.reverseRecOn with
  | nil => rfl
  | append_singleton ops w ih =>
    have last : WriteBuffer.writes (ops++[w]) = (WriteBuffer.writes ops).write w := List.foldl_append
    rw [last,write_bytes,ih,List.filterMap_append]
    cases is : admitted w with
    | none => simp [is]
    | some own =>
      have both : Buffer.writes (ops.filterMap admitted++[own]) = (Buffer.writes (ops.filterMap admitted)).write own := List.foldl_append
      rw [Option.elim_some,List.filterMap_cons_some is,List.filterMap_nil,both]

theorem touchEntry_bytes (out : List Touched) (row : Key × Option Bytes) : (WriteBuffer.touchEntry out row).map touchedBytes =
    Buffer.WriteBuffer.touchEntry (out.map touchedBytes) (utf8 row.1,row.2) := by
  have slice : (Buffer.sliceOf (utf8 row.1)).getD (utf8 row.1) = utf8 ((sliceOf row.1).getD row.1) := by
    rw [sliceOf_utf8]
    cases sliceOf row.1 <;> rfl
  unfold WriteBuffer.touchEntry Buffer.WriteBuffer.touchEntry
  dsimp only
  rw [slice,List.getLast?_map]
  cases out.getLast? with
  | none => rfl
  | some t =>
    by_cases same : t.name = (sliceOf row.1).getD row.1
    · simp [same,touchedBytes]
    · simp [same,touchedBytes,utf8_inj]


theorem touchDel_bytes {out : List Touched} (ascending : ((out.map touchedBytes).map Buffer.Touched.name).Pairwise (· < ·)) (row : Name × Bool) :
    (WriteBuffer.touchDel out row).map touchedBytes = Buffer.WriteBuffer.touchDel (out.map touchedBytes) (utf8 row.1,row.2) := by
  have spec := Searches.binarySearchBy_spec (Buffer.ordered_names ascending (utf8 row.1))
  unfold WriteBuffer.touchDel Buffer.WriteBuffer.touchDel
  dsimp only
  cases found : Searches.binarySearchBy (fun t : Buffer.Touched => Buffer.compareNames t.name (utf8 row.1)) (out.map touchedBytes) with
  | ok i =>
    rw [found] at spec
    obtain ⟨u,at_,is⟩ := spec
    rw [List.getElem?_map,Option.map_eq_some_iff] at at_
    obtain ⟨t,at_,rfl⟩ := at_
    have named : t.name = row.1 := utf8_inj.mp (Buffer.compareNames_eq.mp is)
    rw [if_pos (named ▸ List.mem_map_of_mem (List.mem_of_getElem? at_))]
    have distinct : (out.map fun t => utf8 t.name).Nodup := by
      rw [List.map_map] at ascending
      exact ascending.imp ne_of_lt
    refine List.ext_getElem? fun j => ?_
    rw [List.map_map,List.getElem?_modify,List.getElem?_map,List.getElem?_map]
    cases here : out[j]? with
    | none => rfl
    | some other =>
      by_cases same : i = j
      · subst same
        rw [at_] at here
        cases here
        simp [named,touchedBytes]
      · have apart : other.name ≠ row.1 := by
          intro equal
          have low : i < (out.map fun t => utf8 t.name).length := by
            rw [List.length_map]
            exact (List.getElem?_eq_some_iff.mp at_).1
          refine same ((List.getElem?_inj low distinct).mp ?_)
          rw [List.getElem?_map,List.getElem?_map,at_,here,Option.map_some,Option.map_some,named,equal]
        simp [apart,same]
  | error i =>
    rw [found] at spec
    obtain ⟨le,before,after⟩ := spec
    rw [List.length_map] at le
    have low : ∀ t ∈ out.take i, t.name < row.1 := by
      intro t member
      rw [← List.map_take] at before
      exact (utf8_lt _ _).mp (Buffer.compareNames_lt.mp (before _ (List.mem_map_of_mem member)))
    have high : ∀ t ∈ out.drop i, row.1 < t.name := by
      intro t member
      rw [← List.map_drop] at after
      exact (utf8_lt _ _).mp (Buffer.compareNames_gt.mp (after _ (List.mem_map_of_mem member)))
    have fresh : row.1 ∉ out.map Touched.name := by
      intro member
      obtain ⟨t,held,same⟩ := List.mem_map.mp member
      rw [← List.take_append_drop i out,List.mem_append] at held
      rcases held with early | late
      · exact absurd same (ne_of_lt (low t early))
      · exact absurd same (ne_of_gt (high t late))
    have front : out.takeWhile (·.name < row.1) = out.take i ∧ out.dropWhile (·.name < row.1) = out.drop i := by
      have passes : ∀ t ∈ out.take i, decide (t.name < row.1) = true := fun t member => decide_eq_true (low t member)
      have taken : out.takeWhile (·.name < row.1) = out.take i++(out.drop i).takeWhile (·.name < row.1) := by
        conv_lhs => rw [← List.take_append_drop i out]
        exact List.takeWhile_append_of_pos passes
      have dropped : out.dropWhile (·.name < row.1) = (out.drop i).dropWhile (·.name < row.1) := by
        conv_lhs => rw [← List.take_append_drop i out]
        exact List.dropWhile_append_of_pos passes
      rw [taken,dropped]
      cases rest : out.drop i with
      | nil => simp
      | cons t more =>
        have past : ¬t.name < row.1 := lt_asymm (high t (by rw [rest]; exact List.mem_cons_self))
        rw [List.takeWhile_cons_of_neg (by simpa using past),List.dropWhile_cons_of_neg (by simpa using past),List.append_nil]
        exact ⟨rfl,rfl⟩
    dsimp only
    rw [if_neg fresh,front.1,front.2,Buffer.insertIdx_parts (by simpa using le),List.map_append,List.map_cons,List.map_take,List.map_drop]
    rfl

theorem touchDels_bytes {rows : List Buffer.Row} {out : List Touched} (groups : Buffer.Groups rows (out.map touchedBytes))
    {dels : List (Name × Bool)} (distinct : (dels.map Prod.fst).Nodup) : (dels.foldl WriteBuffer.touchDel out).map touchedBytes =
      (dels.map fun row => (utf8 row.1,row.2)).foldl Buffer.WriteBuffer.touchDel (out.map touchedBytes) := by
  induction dels using List.reverseRecOn with
  | nil => rfl
  | append_singleton dels del ih =>
    have before : (dels.map Prod.fst).Nodup := distinct.sublist ((List.sublist_append_left dels [del]).map Prod.fst)
    have bytes : ((dels.map fun row => (utf8 row.1,row.2)).map Prod.fst).Nodup := by
      rw [List.map_map]
      have coded := before.map utf8_injective
      rwa [List.map_map] at coded
    rw [List.foldl_append,List.foldl_cons,List.foldl_nil,List.map_append,List.foldl_append,List.map_singleton,List.foldl_cons,List.foldl_nil,
      ← ih before]
    refine touchDel_bytes ?_ del
    rw [ih before]
    exact (Buffer.merged_dels groups bytes).ascending

-- The slices a run of writes touched, with their entries and deletions, are over characters what
-- they are over bytes.
theorem touched_bytes (ops : List Write) :
    (WriteBuffer.writes ops).touched.map touchedBytes = (Buffer.writes (ops.filterMap admitted)).touched := by
  have order : ∀ a b : List Char, utf8 a ≤ utf8 b ↔ a ≤ b := fun a b => by rw [← not_lt,utf8_lt,not_lt]
  have entries : (Buffer.writes (ops.filterMap admitted)).entries.scan = (WriteBuffer.writes ops).entries.scan.map fun row => (utf8 row.1,row.2) := by
    rw [← writes_bytes]
    exact OrderedMap.scan_rekey utf8_injective order _
  have dels : (Buffer.writes (ops.filterMap admitted)).dels.scan = (WriteBuffer.writes ops).dels.scan.map fun row => (utf8 row.1,row.2) := by
    rw [← writes_bytes]
    exact OrderedMap.scan_rekey utf8_injective order _
  have grouped : ∀ rows : List (Key × Option Bytes), (rows.foldl WriteBuffer.touchEntry []).map touchedBytes =
      (rows.map fun row => (utf8 row.1,row.2)).foldl Buffer.WriteBuffer.touchEntry [] := by
    intro rows
    induction rows using List.reverseRecOn with
    | nil => rfl
    | append_singleton rows row ih =>
      rw [List.foldl_append,List.foldl_cons,List.foldl_nil,touchEntry_bytes,ih,List.map_append,List.foldl_append]
      rfl
  have groups := Buffer.groups_rows (OrderedMap.scan_sorted (Buffer.writes (ops.filterMap admitted)).entries) (Buffer.writes_owned _)
  rw [entries,← grouped] at groups
  unfold WriteBuffer.touched Buffer.WriteBuffer.touched
  rw [entries,dels,touchDels_bytes groups ((OrderedMap.scan_sorted _).imp ne_of_lt |> List.pairwise_map.mpr),grouped]

end TextBuffers
end PhaseLock
