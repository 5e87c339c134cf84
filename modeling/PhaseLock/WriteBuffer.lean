import PhaseLock.Wire
import PhaseLock.OrderedMap
import PhaseLock.Texts
import Mathlib.Data.Char

namespace PhaseLock

-- The most bytes a store key holds, and a slice name, one less.
def keyMax : Nat := 511
def sliceMax : Nat := keyMax-1

def segmentChar (c : Char) : Bool := c.isAlphanum || c = '_' || c = '-'
def segment (s : List Char) : Bool := !s.isEmpty && s.all segmentChar

-- A text's fields between its separators.
def fields (separator : Char) : List Char → List (List Char)
  | [] => [[]]
  | c :: rest => if c = separator then [] :: fields separator rest else match fields separator rest with
    | [] => [[c]]
    | first :: more => (c :: first) :: more

-- A slice name is a family, then optionally `:` and its parameters' values separated by
-- `,`, every value but the last a segment, and the last one free to hold `.` and `~` too.
def lastField (rest : List Char) : List Char := (rest.reverse.takeWhile (· ≠ ',')).reverse

def leadingFields (rest : List Char) : List (List Char) :=
  match rest.reverse.dropWhile (· ≠ ',') with
  | [] => []
  | _ :: before => fields ',' before.reverse

def sliceNameOk (name : Name) : Bool :=
  (Mp.utf8 name).length ≤ sliceMax && segment (name.takeWhile (· ≠ ':')) &&
    match name.dropWhile (· ≠ ':') with
    | [] => true
    | _ :: rest => (leadingFields rest).all segment && !(lastField rest).isEmpty &&
        (lastField rest).all (fun c => segmentChar c || c = '.' || c = '~')

theorem mem_fields (separator : Char) {text : List Char} (member : c ∈ text) :
    c = separator ∨ ∃ field ∈ fields separator text, c ∈ field := by
  induction text with
  | nil => cases member
  | cons head rest ih =>
    unfold fields
    by_cases here : head = separator
    · rw [if_pos here]
      rcases List.mem_cons.mp member with rfl | later
      · exact .inl here
      · rcases ih later with same | ⟨field,inside,holds⟩
        · exact .inl same
        · exact .inr ⟨field,List.mem_cons_of_mem _ inside,holds⟩
    · rw [if_neg here]
      cases parts : fields separator rest with
      | nil =>
        rcases List.mem_cons.mp member with rfl | later
        · exact .inr ⟨[c],by simp,by simp⟩
        · rcases ih later with same | ⟨field,inside,_⟩
          · exact .inl same
          · rw [parts] at inside; cases inside
      | cons first more =>
        rcases List.mem_cons.mp member with rfl | later
        · exact .inr ⟨c :: first,by simp,by simp⟩
        · rcases ih later with same | ⟨field,inside,holds⟩
          · exact .inl same
          · rw [parts] at inside
            rcases List.mem_cons.mp inside with rfl | more'
            · exact .inr ⟨head :: field,by simp,List.mem_cons_of_mem _ holds⟩
            · exact .inr ⟨field,List.mem_cons_of_mem _ more',holds⟩

def nameChar (c : Char) : Bool := segmentChar c || c = '.' || c = '~' || c = ',' || c = ':'

theorem segment_chars (whole : segment s = true) (member : c ∈ s) : nameChar c = true := by
  have each := List.all_eq_true.mp (Bool.and_eq_true_iff.mp whole).2 c member
  simp [nameChar,each]

theorem sliceNameOk_chars (ok : sliceNameOk name = true) (member : c ∈ name) : nameChar c = true := by
  unfold sliceNameOk at ok
  obtain ⟨front,params⟩ := Bool.and_eq_true_iff.mp ok
  obtain ⟨_,family⟩ := Bool.and_eq_true_iff.mp front
  rw [← List.takeWhile_append_dropWhile (p := (· ≠ ':')) (l := name)] at member
  rcases List.mem_append.mp member with inFamily | inRest
  · exact segment_chars family inFamily
  · cases after : name.dropWhile (· ≠ ':') with
    | nil => rw [after] at inRest; cases inRest
    | cons colon rest =>
      have first : colon = ':' := by
        have head := List.head?_dropWhile_not (fun c : Char => decide (c ≠ ':')) name
        rw [after] at head
        simpa using head
      rw [after] at params inRest
      obtain ⟨fronts,lasts⟩ := Bool.and_eq_true_iff.mp params
      obtain ⟨leading,_⟩ := Bool.and_eq_true_iff.mp fronts
      rcases List.mem_cons.mp inRest with rfl | inside
      · simp [nameChar,first]
      · rw [← List.mem_reverse,← List.takeWhile_append_dropWhile (p := (· ≠ ',')) (l := rest.reverse)] at inside
        rcases List.mem_append.mp inside with inLast | before
        · have each := List.all_eq_true.mp lasts c (List.mem_reverse.mpr inLast)
          simp only [Bool.or_eq_true] at each
          rcases each with (seg | dot) | tilde
          · simp [nameChar,seg]
          · simp [nameChar,dot]
          · simp [nameChar,tilde]
        · cases split : rest.reverse.dropWhile (· ≠ ',') with
          | nil => rw [split] at before; cases before
          | cons comma earlier =>
            have first : comma = ',' := by
              have head := List.head?_dropWhile_not (fun c : Char => decide (c ≠ ',')) rest.reverse
              rw [split] at head
              simpa using head
            unfold leadingFields at leading
            rw [split] at before leading
            rcases List.mem_cons.mp before with rfl | inside
            · simp [nameChar,first]
            · rcases mem_fields ',' (List.mem_reverse.mpr inside) with same | ⟨field,among,holds⟩
              · simp [nameChar,same]
              · exact segment_chars (List.all_eq_true.mp leading field among) holds

-- A slice name holds neither a bang nor a star.
theorem sliceNameOk_plain (ok : sliceNameOk name = true) : PlainName name :=
  ⟨fun bang => absurd (sliceNameOk_chars ok bang) (by decide),fun star => absurd (sliceNameOk_chars ok star) (by decide)⟩

-- No key holds a control character.
def keyCharsOk (key : Key) : Bool := key.all (fun c => ¬(c.toNat < 0x20 ∨ 0x7f ≤ c.toNat ∧ c.toNat ≤ 0x9f))

def keyWritable (key : Key) : Bool :=
  (Mp.utf8 key).length ≤ keyMax && keyCharsOk key && (sliceOf key).any sliceNameOk

-- A mutation's writes: each key written once, with its last value or a deletion, and the
-- slices deleted, each with whether its history goes too.
structure WriteBuffer where
  entries : OrderedMap Key (Option Bytes) := (∅ : OrderedMap Key (Option Bytes))
  dels : OrderedMap Name Bool := (∅ : OrderedMap Name Bool)

-- One slice a write buffer touched, its entries in key order, and its deletion.
structure Touched where
  name : Name
  entries : List (Key × Option Bytes)
  del : Option Bool
deriving DecidableEq

-- What a decider asks of its buffer.
inductive Write where
  | set (key : Key) (value : Bytes)
  | del (key : Key)
  | deleteSlice (slice : Name) (erase : Bool)
deriving DecidableEq

namespace WriteBuffer

def put (wb : WriteBuffer) (key : Key) (value : Option Bytes) : WriteBuffer := {wb with entries:=wb.entries.set key value}

-- A slice's deletion clears its entries, and joins one made before it, erasing if either does.
def deleteSlice (wb : WriteBuffer) (slice : Name) (erase : Bool) : WriteBuffer where
  entries := wb.entries.keep (fun key _ => !(slicePrefix slice).isPrefixOf key)
  dels := wb.dels.set slice ((wb.dels.get slice).getD false || erase)

-- A write of a key or a slice that is not one throws, and leaves the buffer as it was.
def write (wb : WriteBuffer) : Write → WriteBuffer
  | .set key value => if keyWritable key then wb.put key (some value) else wb
  | .del key => if keyWritable key then wb.put key none else wb
  | .deleteSlice slice erase => if sliceNameOk slice then wb.deleteSlice slice erase else wb

def writes (ops : List Write) : WriteBuffer := ops.foldl write {}

def isEmpty (wb : WriteBuffer) : Bool := wb.entries.entries.isEmpty && wb.dels.entries.isEmpty

-- A read sees the buffer over the store: an entry wins, and a key under a deleted slice is absent.
def deleted (wb : WriteBuffer) (key : Key) : Bool := (sliceOf key).any wb.dels.has

def read (wb : WriteBuffer) (stored : Key → Option Bytes) (key : Key) : Option Bytes :=
  match wb.entries.get key with
  | some value => value
  | none => if wb.deleted key then none else stored key

def touchEntry (out : List Touched) (row : Key × Option Bytes) : List Touched :=
  let slice := (sliceOf row.1).getD row.1
  match out.getLast? with
  | some t => if t.name = slice then out.dropLast++[{t with entries:=t.entries++[row]}] else out++[⟨slice,[row],none⟩]
  | none => [⟨slice,[row],none⟩]

-- A deletion is put on its slice's entry, or in a new one at its place in name order.
def touchDel (out : List Touched) (row : Name × Bool) : List Touched :=
  if row.1 ∈ out.map Touched.name then out.map (fun t => if t.name = row.1 then {t with del:=some row.2} else t)
  else out.takeWhile (·.name < row.1)++⟨row.1,[],some row.2⟩ :: out.dropWhile (·.name < row.1)

-- Every slice the buffer touched, in name order.
def touched (wb : WriteBuffer) : List Touched := wb.dels.scan.foldl touchDel (wb.entries.scan.foldl touchEntry [])

-- What a buffer holds stands under slice names.
structure Ok (wb : WriteBuffer) : Prop where
  keys : ∀ key value, wb.entries.get key = some value → ∃ slice, sliceOf key = some slice ∧ sliceNameOk slice = true
  slices : ∀ slice erase, wb.dels.get slice = some erase → sliceNameOk slice = true

theorem write_ok {wb : WriteBuffer} (ok : wb.Ok) (w : Write) : (wb.write w).Ok := by
  have puts : ∀ key value, keyWritable key = true → (wb.put key value).Ok := by
    intro key value writable
    refine ⟨?_,ok.slices⟩
    intro k v held
    by_cases same : key = k
    · subst same
      unfold keyWritable at writable
      cases owned : sliceOf key with
      | none => simp [owned] at writable
      | some slice => exact ⟨slice,rfl,by simpa [owned] using (Bool.and_eq_true_iff.mp writable).2⟩
    · exact ok.keys k v (by simpa [put,OrderedMap.get_set,same] using held)
  cases w with
  | set key value =>
    by_cases writable : keyWritable key = true
    · simpa only [write,if_pos writable] using puts key _ writable
    · simpa only [write,if_neg writable] using ok
  | del key =>
    by_cases writable : keyWritable key = true
    · simpa only [write,if_pos writable] using puts key _ writable
    · simpa only [write,if_neg writable] using ok
  | deleteSlice slice erase =>
    by_cases named : sliceNameOk slice = true
    · simp only [write,if_pos named]
      refine ⟨?_,?_⟩
      · intro key value held
        simp only [deleteSlice,OrderedMap.get_keep,Option.filter_eq_some_iff] at held
        exact ok.keys key value held.1
      · intro name was held
        by_cases same : slice = name
        · exact same ▸ named
        · exact ok.slices name was (by simpa [deleteSlice,OrderedMap.get_set,same] using held)
    · simpa only [write,if_neg named] using ok

theorem writes_ok (ops : List Write) : (writes ops).Ok :=
  foldl_invariant (fun _ w _ ok => write_ok ok w) ⟨fun _ _ held => (by cases held),fun _ _ held => (by cases held)⟩

-- The part of a buffer that is one slice's.
def part (wb : WriteBuffer) (name : Name) : Touched :=
  ⟨name,wb.entries.scan.filter (fun row => sliceOf row.1 = some name),wb.dels.get name⟩

-- The groups of a stretch of a buffer's entries: each slice's once, whole.
structure Groups (rows : List (Key × Option Bytes)) (out : List Touched) : Prop where
  distinct : (out.map Touched.name).Nodup
  whole : ∀ t ∈ out, t.entries ≠ [] ∧ t = ⟨t.name,rows.filter (fun row => sliceOf row.1 = some t.name),none⟩
  last : ∀ t ∈ out.getLast?, ∃ row ∈ rows.getLast?, sliceOf row.1 = some t.name
  every : ∀ row ∈ rows, ∃ t ∈ out, sliceOf row.1 = some t.name

theorem groups_step {rows : List (Key × Option Bytes)} {row : Key × Option Bytes} {out : List Touched} (groups : Groups rows out)
    (sorted : (rows++[row]).Pairwise (fun a b => a.1 < b.1)) (owned : sliceOf row.1 = some slice) :
    Groups (rows++[row]) (touchEntry out row) := by
  have name : (sliceOf row.1).getD row.1 = slice := by rw [owned]; rfl
  have others : ∀ t ∈ out, t.name ≠ slice → t = ⟨t.name,(rows++[row]).filter (fun row => sliceOf row.1 = some t.name),none⟩ := by
    intro t member other
    have alone : sliceOf row.1 ≠ some t.name := by rw [owned]; exact fun same => other (Option.some.inj same).symm
    rw [List.filter_append,List.filter_cons_of_neg (by simpa using alone),List.filter_nil,List.append_nil]
    exact (groups.whole t member).2
  -- a slice that comes up again after another's key would stand on both sides of it
  have fresh : (∀ t ∈ out.getLast?, t.name ≠ slice) → slice ∉ out.map Touched.name := by
    intro moved member
    obtain ⟨t,inside,rfl⟩ := List.mem_map.mp member
    obtain ⟨full,equal⟩ := groups.whole t inside
    rw [equal] at full
    obtain ⟨first,earlier⟩ := List.exists_mem_of_ne_nil _ full
    obtain ⟨before,under⟩ := List.mem_filter.mp earlier
    have under : sliceOf first.1 = some t.name := by simpa using under
    obtain ⟨end_,ends⟩ : ∃ end_, end_ ∈ out.getLast? := by
      cases out with
      | nil => cases inside
      | cons head tail => exact ⟨_,List.getLast?_eq_some_getLast (by simp)⟩
    obtain ⟨last,lasts,sits⟩ := groups.last end_ ends
    have lastIn : last ∈ rows := List.mem_of_getLast? lasts
    obtain ⟨inner,_,outer⟩ := List.pairwise_append.mp sorted
    have late : last.1 ≤ row.1 := le_of_lt (outer last lastIn row (by simp))
    have early : first.1 ≤ last.1 := by
      obtain ⟨prior,rfl⟩ : ∃ prior, rows = prior++[last] := List.getLast?_eq_some_iff.mp lasts
      rcases List.mem_append.mp before with old | new
      · exact le_of_lt ((List.pairwise_append.mp inner).2.2 first old last (by simp))
      · rw [List.mem_singleton.mp new]
    have plain := sliceOf_plain under
    have held := Texts.prefix_between ((slicePrefix_iff plain _).mpr under) ((slicePrefix_iff plain _).mpr owned) early late
    rw [slicePrefix_iff plain,sits] at held
    exact moved end_ ends (Option.some.inj held)
  have alone : (∀ t ∈ out.getLast?, t.name ≠ slice) → Groups (rows++[row]) (out++[⟨slice,[row],none⟩]) := by
    intro moved
    have new := fresh moved
    refine ⟨?_,?_,?_,?_⟩
    · rw [List.map_append,List.nodup_append]
      exact ⟨groups.distinct,by simp,fun a inside b single => by
        rw [List.map_singleton,List.mem_singleton] at single
        rw [single]
        intro same
        exact new (by rw [← show a = slice from same]; exact inside)⟩
    · intro t member
      rcases List.mem_append.mp member with old | single
      · exact ⟨(groups.whole t old).1,others t old fun same => new (same ▸ List.mem_map_of_mem old)⟩
      · rw [List.mem_singleton.mp single]
        refine ⟨by simp,?_⟩
        have none : rows.filter (fun row => sliceOf row.1 = some slice) = [] := by
          rw [List.filter_eq_nil_iff]
          intro r inside under
          obtain ⟨t,inOut,named⟩ := groups.every r inside
          have under : sliceOf r.1 = some slice := by simpa using under
          rw [under] at named
          exact new (Option.some.inj named ▸ List.mem_map_of_mem inOut)
        rw [List.filter_append,none,List.filter_cons_of_pos (by simpa using owned),List.filter_nil,List.nil_append]
    · intro t ends
      rw [List.getLast?_concat] at ends
      cases ends
      exact ⟨row,by rw [List.getLast?_concat]; rfl,owned⟩
    · intro r member
      rcases List.mem_append.mp member with old | single
      · obtain ⟨t,inside,named⟩ := groups.every r old
        exact ⟨t,List.mem_append_left _ inside,named⟩
      · rw [List.mem_singleton.mp single]
        exact ⟨_,List.mem_append_right _ (List.mem_singleton_self _),owned⟩
  unfold touchEntry
  dsimp only
  rw [name]
  cases ends : out.getLast? with
  | none => 
    have empty : out = [] := List.getLast?_eq_none_iff.mp ends
    have result := alone (by rw [ends]; intro t member; cases member)
    rwa [empty] at result
  | some t =>
    by_cases same : t.name = slice
    · simp only [if_pos same]
      obtain ⟨prior,rfl⟩ : ∃ prior, out = prior++[t] := List.getLast?_eq_some_iff.mp ends
      rw [List.dropLast_concat]
      have names : (prior++[{t with entries:=t.entries++[row]}]).map Touched.name = (prior++[t]).map Touched.name := by simp
      refine ⟨?_,?_,?_,?_⟩
      · rw [names]; exact groups.distinct
      · intro u member
        rcases List.mem_append.mp member with old | single
        · have other : u.name ≠ slice := by
            have apart := groups.distinct
            rw [List.map_append,List.nodup_append] at apart
            rw [← same]
            exact apart.2.2 _ (List.mem_map_of_mem old) _ (by simp)
          exact ⟨(groups.whole u (List.mem_append_left _ old)).1,others u (List.mem_append_left _ old) other⟩
        · rw [List.mem_singleton.mp single]
          refine ⟨by simp,?_⟩
          have equal := (groups.whole t (by simp)).2
          rw [List.filter_append,List.filter_cons_of_pos (by simpa [same] using owned),List.filter_nil,Touched.mk.injEq]
          rw [Touched.mk.injEq] at equal
          exact ⟨rfl,by rw [← equal.2.1],equal.2.2⟩
      · intro u uends
        rw [List.getLast?_concat] at uends
        cases uends
        exact ⟨row,by rw [List.getLast?_concat]; rfl,by rw [owned,same]⟩
      · intro r member
        rcases List.mem_append.mp member with old | single
        · obtain ⟨u,inside,named⟩ := groups.every r old
          rcases List.mem_append.mp inside with first | last
          · exact ⟨u,List.mem_append_left _ first,named⟩
          · rw [List.mem_singleton.mp last] at named
            exact ⟨_,List.mem_append_right _ (List.mem_singleton_self _),named⟩
        · rw [List.mem_singleton.mp single]
          exact ⟨_,List.mem_append_right _ (List.mem_singleton_self _),by rw [owned,same]⟩
    · simp only [if_neg same]
      exact alone (by
        rw [ends]
        intro u member
        cases member
        exact same)

theorem groups_rows {rows : List (Key × Option Bytes)} (sorted : rows.Pairwise (fun a b => a.1 < b.1))
    (owned : ∀ row ∈ rows, ∃ slice, sliceOf row.1 = some slice) : Groups rows (rows.foldl touchEntry []) := by
  induction rows using List.reverseRecOn with
  | nil => exact ⟨by simp,fun t member => (by cases member),fun t member => (by cases member),fun t member => (by cases member)⟩
  | append_singleton earlier row ih =>
    obtain ⟨slice,under⟩ := owned row (by simp)
    have prior := ih (List.pairwise_append.mp sorted).1 fun r member => owned r (List.mem_append_left _ member)
    rw [List.foldl_concat]
    exact groups_step prior sorted under

-- The groups with the deletions of a stretch of the deletions put on them.
structure Merged (rows : List (Key × Option Bytes)) (dels : List (Name × Bool)) (out : List Touched) : Prop where
  distinct : (out.map Touched.name).Nodup
  whole : ∀ t ∈ out, t = ⟨t.name,rows.filter (fun row => sliceOf row.1 = some t.name),OrderedMap.lookup t.name dels⟩ ∧
    (t.entries ≠ [] ∨ t.del ≠ none)
  entries : ∀ row ∈ rows, ∃ t ∈ out, sliceOf row.1 = some t.name
  deletions : ∀ row ∈ dels, row.1 ∈ out.map Touched.name

theorem lookup_concat {dels : List (Name × Bool)} {row : Name × Bool} (fresh : row.1 ∉ dels.map Prod.fst) (name : Name) :
    OrderedMap.lookup name (dels++[row]) = if row.1 = name then some row.2 else OrderedMap.lookup name dels := by
  induction dels with
  | nil => simp [OrderedMap.lookup]
  | cons head tail ih =>
    simp only [List.map_cons,List.mem_cons,not_or] at fresh
    simp only [List.cons_append,OrderedMap.lookup,ih fresh.2]
    by_cases here : head.1 = name
    · have other : row.1 ≠ name := fun same => fresh.1 (same.trans here.symm)
      rw [if_pos here,if_neg other,if_pos here]
    · simp only [if_neg here]

theorem merged_step {rows : List (Key × Option Bytes)} {dels : List (Name × Bool)} {row : Name × Bool} {out : List Touched}
    (merged : Merged rows dels out) (fresh : row.1 ∉ dels.map Prod.fst) : Merged rows (dels++[row]) (touchDel out row) := by
  have others : ∀ t ∈ out, t.name ≠ row.1 → t = ⟨t.name,rows.filter (fun row => sliceOf row.1 = some t.name),
      OrderedMap.lookup t.name (dels++[row])⟩ := by
    intro t member other
    rw [lookup_concat fresh,if_neg (Ne.symm other)]
    exact (merged.whole t member).1
  unfold touchDel
  by_cases held : row.1 ∈ out.map Touched.name
  · rw [if_pos held]
    have names : (out.map (fun t => if t.name = row.1 then {t with del:=some row.2} else t)).map Touched.name =
        out.map Touched.name := by
      rw [List.map_map]
      refine List.map_congr_left fun t _ => ?_
      by_cases same : t.name = row.1 <;> simp [same]
    refine ⟨by rw [names]; exact merged.distinct,?_,?_,?_⟩
    · intro t member
      obtain ⟨u,inside,equal⟩ := List.mem_map.mp member
      obtain ⟨whole,some⟩ := merged.whole u inside
      by_cases same : u.name = row.1
      · rw [if_pos same] at equal
        subst equal
        rw [Touched.mk.injEq] at whole
        refine ⟨?_,.inr (by simp)⟩
        rw [Touched.mk.injEq]
        exact ⟨rfl,whole.2.1,by rw [lookup_concat fresh,if_pos same.symm]⟩
      · rw [if_neg same] at equal
        subst equal
        exact ⟨others u inside same,some⟩
    · intro r member
      obtain ⟨t,inside,under⟩ := merged.entries r member
      have named : t.name ∈ (out.map (fun t => if t.name = row.1 then {t with del:=some row.2} else t)).map Touched.name := by
        rw [names]; exact List.mem_map_of_mem inside
      obtain ⟨u,there,same⟩ := List.mem_map.mp named
      exact ⟨u,there,by rw [under,same]⟩
    · intro r member
      rw [names]
      rcases List.mem_append.mp member with old | single
      · exact merged.deletions r old
      · rw [List.mem_singleton.mp single]; exact held
  · rw [if_neg held]
    have perm : (out.takeWhile (·.name < row.1)++⟨row.1,[],some row.2⟩ :: out.dropWhile (·.name < row.1)).Perm
        (⟨row.1,[],some row.2⟩ :: out) := by
      have middle : (out.takeWhile (·.name < row.1)++⟨row.1,[],some row.2⟩ :: out.dropWhile (·.name < row.1)).Perm
          (⟨row.1,[],some row.2⟩ :: (out.takeWhile (·.name < row.1)++out.dropWhile (·.name < row.1))) := List.perm_middle
      rwa [List.takeWhile_append_dropWhile] at middle
    refine ⟨?_,?_,?_,?_⟩
    · rw [(perm.map Touched.name).nodup_iff]
      exact List.nodup_cons.mpr ⟨held,merged.distinct⟩
    · intro t member
      rcases List.mem_cons.mp (perm.mem_iff.mp member) with rfl | inside
      · refine ⟨?_,.inr (by simp)⟩
        have none : rows.filter (fun r => sliceOf r.1 = some row.1) = [] := by
          rw [List.filter_eq_nil_iff]
          intro r inRows under
          obtain ⟨t,inOut,named⟩ := merged.entries r inRows
          have under : sliceOf r.1 = some row.1 := by simpa using under
          rw [under] at named
          exact held (Option.some.inj named ▸ List.mem_map_of_mem inOut)
        rw [Touched.mk.injEq]
        exact ⟨rfl,none.symm,by rw [lookup_concat fresh,if_pos rfl]⟩
      · exact ⟨others t inside fun same => held (same ▸ List.mem_map_of_mem inside),(merged.whole t inside).2⟩
    · intro r member
      obtain ⟨t,inside,under⟩ := merged.entries r member
      exact ⟨t,perm.mem_iff.mpr (List.mem_cons_of_mem _ inside),under⟩
    · intro r member
      rw [(perm.map Touched.name).mem_iff,List.map_cons]
      rcases List.mem_append.mp member with old | single
      · exact List.mem_cons_of_mem _ (merged.deletions r old)
      · rw [List.mem_singleton.mp single]; exact List.mem_cons_self

theorem merged_dels {rows : List (Key × Option Bytes)} {dels : List (Name × Bool)} {out : List Touched}
    (groups : Groups rows out) (distinct : (dels.map Prod.fst).Nodup) : Merged rows dels (dels.foldl touchDel out) := by
  induction dels using List.reverseRecOn with
  | nil =>
    refine ⟨groups.distinct,?_,groups.every,fun row member => (by cases member)⟩
    intro t member
    exact ⟨(groups.whole t member).2,.inl (groups.whole t member).1⟩
  | append_singleton earlier row ih =>
    rw [List.map_append,List.nodup_append] at distinct
    rw [List.foldl_concat]
    refine merged_step (ih distinct.1) fun member => ?_
    exact distinct.2.2 _ member row.1 (by simp) rfl

-- Each slice the buffer touched comes once, with what is the slice's.
theorem touched_parts {wb : WriteBuffer} (ok : wb.Ok) : (wb.touched.map Touched.name).Nodup ∧
    ∀ t, t ∈ wb.touched ↔ t = wb.part t.name ∧ (t.entries ≠ [] ∨ t.del ≠ none) := by
  have owned : ∀ row ∈ wb.entries.scan, ∃ slice, sliceOf row.1 = some slice := by
    intro row member
    obtain ⟨slice,under,_⟩ := ok.keys row.1 row.2 ((OrderedMap.mem_scan _ _ _).mp member)
    exact ⟨slice,under⟩
  have perm := List.perm_insertionSort (fun a b : Name × Bool => a.1 ≤ b.1) wb.dels.entries
  have distinct : (wb.dels.scan.map Prod.fst).Nodup := (perm.map Prod.fst).nodup_iff.mpr wb.dels.distinct
  have found : ∀ name, OrderedMap.lookup name wb.dels.scan = wb.dels.get name := by
    intro name
    refine Option.ext fun erase => ?_
    rw [OrderedMap.lookup_some _ distinct,OrderedMap.mem_scan]
  have merged := merged_dels (groups_rows (OrderedMap.scan_sorted wb.entries) owned) distinct
  refine ⟨merged.distinct,fun t => ⟨?_,?_⟩⟩
  · intro member
    obtain ⟨whole,some⟩ := merged.whole t member
    rw [found] at whole
    exact ⟨whole,some⟩
  · rintro ⟨equal,some⟩
    obtain ⟨u,inside,named⟩ : ∃ u ∈ wb.touched, u.name = t.name := by
      rw [equal] at some
      rcases some with full | gone
      · obtain ⟨row,member⟩ := List.exists_mem_of_ne_nil _ full
        obtain ⟨inRows,under⟩ := List.mem_filter.mp member
        obtain ⟨u,inside,named⟩ := merged.entries row inRows
        have under : sliceOf row.1 = .some t.name := by simpa using under
        rw [under] at named
        exact ⟨u,inside,(Option.some.inj named).symm⟩
      · obtain ⟨erase,held⟩ := Option.ne_none_iff_exists'.mp gone
        exact List.mem_map.mp (merged.deletions (t.name,erase) ((OrderedMap.mem_scan _ _ _).mpr held))
    have whole := (merged.whole u inside).1
    rw [found,named] at whole
    have same : u = t := by rw [whole]; exact equal.symm
    rwa [← same]

end WriteBuffer
end PhaseLock
