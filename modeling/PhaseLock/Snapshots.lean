import PhaseLock.Selectors
import PhaseLock.Scans
import PhaseLock.Accounting

namespace PhaseLock
namespace Snapshots
open Mp

def crc32c (data : Bytes) : UInt32 :=
  let bit (c : UInt32) (_ : Nat) : UInt32 := if c &&& 1 ≠ 0 then (0x82f63b78 : UInt32) ^^^ (c >>> 1) else c >>> 1
  (data.foldl (fun c b => (List.range 8).foldl bit (c ^^^ b.toUInt32)) 0xffffffff) ^^^ 0xffffffff

def fnv1a (data : Bytes) : UInt64 := data.foldl (fun h b => (h ^^^ b.toUInt64)*1099511628211) 14695981039346656037

-- A table's rows whose keys start with a text: those from it up to its bound.
def ranged {α : Type} (of : α → Bytes) (text : Bytes) (rows : List α) : List α :=
  match prefixBound text with
  | some bound => rows.filter fun row => text ≤ of row ∧ of row < bound
  | none => rows

-- Every key under a text, in key order, with its value.
def scan (st : Storage) (text : Bytes) : List (Bytes × Bytes) := ranged Prod.fst text (Scan.stored st.kv)

-- Every slice ever born whose name starts with a text, by name.
def slicesUnder (st : Storage) (text : Bytes) : List (Name × SliceRow) := ranged (fun row => utf8 row.1) text st.slices.scan

-- A counter, read as an unsigned one.
def unsigned (n : Int) : Nat := (n%2^64).toNat

-- What a snapshot reads of the store in its transaction: the operations, the live slices with
-- their seqs, the last position any slice under the selector changed, dead ones included, and
-- an exact selector's edit and state bytes.
structure Cut where
  position : Nat
  ops : List (Bytes × Bytes)
  slices : List (Bytes × Nat)
  visible : Nat
  stats : Option (Nat × Nat)

def cut (st : Storage) (selector : Name) : Cut :=
  let wide := Selectors.isPrefixSelector selector
  let text := utf8 (if wide then selector.dropLast else selector++['!'])
  let position := st.maxPosition
  let ops := scan st text
  if wide then
    let rows := slicesUnder st text
    ⟨position,ops,(rows.filter (·.2.death = none)).map (fun row => (utf8 row.1,row.2.seq)),
      rows.foldl (fun visible row => max visible row.2.pos) 0,none⟩
  -- an exact slice's last edit counts whether or not it is live
  else match st.slices.get selector with
    | some row => ⟨position,ops,if row.death = none then [(utf8 selector,row.seq)] else [],row.pos,
        some (unsigned row.editBytes,unsigned row.stateBytes)⟩
    | none => ⟨position,ops,[],0,none⟩

def Cut.body (c : Cut) : Bytes := c.ops.flatMap fun op => uint 0++str op.1++op.2

def Cut.header (c : Cut) (epoch selector : Name) : Bytes :=
  map (if c.stats.isSome then 7 else 5)++
  str (utf8 "selector".toList)++str (utf8 selector)++
  str (utf8 "position".toList)++uint c.position++
  str (utf8 "epoch".toList)++str (utf8 epoch)++
  str (utf8 "slices".toList)++map c.slices.length++c.slices.flatMap (fun row => str row.1++uint row.2)++
  str (utf8 "visible".toList)++uint c.visible++
  match c.stats with
  | some (editBytes,stateBytes) => str (utf8 "edit_bytes".toList)++uint editBytes++str (utf8 "state_bytes".toList)++uint stateBytes
  | none => []

-- The blob: a magic and a version, the header and its crc, the operations, the end marker, and
-- the footer.
def Cut.blob (c : Cut) (epoch selector : Name) : Bytes :=
  let header := c.header epoch selector
  let footer := bigEndian 4 c.ops.length++bigEndian 8 (fnv1a c.body).toNat
  utf8 "PLSN".toList++[1]++bigEndian 4 header.length++header++bigEndian 4 (crc32c header).toNat++
  c.body++bigEndian 4 0xffffffff++footer++bigEndian 4 (crc32c footer).toNat

-- A snapshot blob of the selector, and the position it was cut at.
def snapshot (st : Storage) (epoch selector : Name) : Bytes × Nat :=
  let c := cut st selector
  (c.blob epoch selector,c.position)

-- A text is empty, or ends in a sign that is one byte.
def Ends (text : Name) : Prop := text = [] ∨ ∃ front s, text = front++[s] ∧ s.val.toNat < 0x80

theorem ranged_iff {text : Name} (ends : Ends text) (of : α → Bytes) (rows : List α) :
    ranged of (utf8 text) rows = rows.filter fun row => (utf8 text).isPrefixOf (of row) := by
  unfold ranged
  cases made : prefixBound (utf8 text) with
  | some bound =>
    refine List.filter_congr fun row _ => ?_
    rw [Bool.eq_iff_iff,decide_eq_true_eq,List.isPrefixOf_iff_prefix,Scan.prefixBound_bounds made]
    constructor
    · rintro ⟨le,less | starts⟩
      · exact absurd le (not_le.mpr less)
      · exact starts
    · exact fun starts => ⟨Texts.prefix_le starts,.inr starts⟩
  | none =>
    rcases ends with rfl | ⟨front,s,rfl,low⟩
    · simp [utf8]
    · rw [Scan.prefixBound_sign low] at made
      cases made

theorem mem_scan {st : Storage} {text : Name} (ends : Ends text) (key : Bytes) (value : Bytes) :
    (key,value) ∈ scan st (utf8 text) ↔ ∃ k, key = utf8 k ∧ st.kv.get k = some value ∧ text <+: k := by
  unfold scan Scan.stored
  rw [ranged_iff ends,List.mem_filter,List.mem_map,List.isPrefixOf_iff_prefix]
  constructor
  · rintro ⟨⟨⟨k,v⟩,member,same⟩,starts⟩
    cases same
    exact ⟨k,rfl,(OrderedMap.mem_scan _ _ _).mp member,(utf8_starts _ _).mp starts⟩
  · rintro ⟨k,rfl,held,starts⟩
    exact ⟨⟨(k,value),(OrderedMap.mem_scan _ _ _).mpr held,rfl⟩,(utf8_starts _ _).mpr starts⟩

theorem mem_slicesUnder {st : Storage} {text : Name} (ends : Ends text) (name : Name) (row : SliceRow) :
    (name,row) ∈ slicesUnder st (utf8 text) ↔ st.slices.get name = some row ∧ text <+: name := by
  unfold slicesUnder
  rw [ranged_iff ends,List.mem_filter,OrderedMap.mem_scan,List.isPrefixOf_iff_prefix]
  exact and_congr_right fun _ => utf8_starts _ _

theorem cut_sorted (st : Storage) (selector : Name) : (cut st selector).slices.Pairwise fun a b => a.1 < b.1 := by
  unfold cut
  dsimp only
  split
  · unfold slicesUnder ranged
    have sorted : st.slices.scan.Pairwise fun a b => utf8 a.1 < utf8 b.1 := (OrderedMap.scan_sorted st.slices).imp fun less => utf8_mono less
    refine List.pairwise_map.mpr (List.Pairwise.filter _ ?_)
    split
    · exact sorted.filter _
    · exact sorted
  · cases st.slices.get selector with
    | none => exact .nil
    | some row =>
      dsimp only
      split
      · exact List.pairwise_singleton _ _
      · exact .nil

section
variable {selector : Name} (ok : Selectors.validSelector selector = true)
include ok

theorem selector_ends : Ends (selectorPrefix selector) := by
  unfold selectorPrefix
  by_cases star : selector.getLast? = some '*'
  · rw [if_pos star]
    unfold Selectors.validSelector Selectors.stripSuffix at ok
    rw [if_pos star] at ok
    rcases Bool.or_eq_true_iff.mp ok with all | named
    · rw [of_decide_eq_true all]
      exact .inl rfl
    · have colon : Texts.Sign String.utf8EncodeChar ':' 58 := utf8_sign (by decide)
      have comma : Texts.Sign String.utf8EncodeChar ',' 44 := utf8_sign (by decide)
      right
      rcases (Selectors.selectorPrefixOk_ends named).2 with final | final
      · obtain ⟨front,is⟩ := List.getLast?_eq_some_iff.mp ((Selectors.last_encoded colon Selectors.utf8Char_ne _).mp final)
        exact ⟨front,':',is,by decide⟩
      · obtain ⟨front,is⟩ := List.getLast?_eq_some_iff.mp ((Selectors.last_encoded comma Selectors.utf8Char_ne _).mp final)
        exact ⟨front,',',is,by decide⟩
  · rw [if_neg star]
    exact .inr ⟨selector,'!',rfl,by decide⟩

theorem cut_text (st : Storage) : (cut st selector).position = st.maxPosition ∧ (cut st selector).ops = scan st (utf8 (selectorPrefix selector)) := by
  have text : (if Selectors.isPrefixSelector selector then selector.dropLast else selector++['!']) = selectorPrefix selector := by
    unfold selectorPrefix
    simp only [Selectors.isPrefixSelector_iff ok]
    rfl
  unfold cut
  dsimp only
  rw [text]
  split
  · exact ⟨rfl,rfl⟩
  · cases st.slices.get selector <;> exact ⟨rfl,rfl⟩

-- A cut's slices are the live ones covered, and its visible position is the last at which any
-- slice covered changed.
theorem cut_slices (st : Storage) (entry : Bytes × Nat) : entry ∈ (cut st selector).slices ↔
    ∃ name row, entry = (utf8 name,row.seq) ∧ selectorCovers selector name = true ∧ st.slices.get name = some row ∧ row.death = none := by
  unfold cut
  dsimp only
  by_cases star : selector.getLast? = some '*'
  · rw [if_pos ((Selectors.isPrefixSelector_iff ok).mpr star),if_pos ((Selectors.isPrefixSelector_iff ok).mpr star)]
    have ends := selector_ends ok
    unfold selectorPrefix at ends
    rw [if_pos star] at ends
    rw [List.mem_map]
    constructor
    · rintro ⟨⟨name,row⟩,member,rfl⟩
      obtain ⟨listed,live⟩ := List.mem_filter.mp member
      obtain ⟨held,starts⟩ := (mem_slicesUnder ends name row).mp listed
      exact ⟨name,row,rfl,(covers_star star).mpr starts,held,of_decide_eq_true live⟩
    · rintro ⟨name,row,rfl,covers,held,live⟩
      exact ⟨(name,row),List.mem_filter.mpr ⟨(mem_slicesUnder ends name row).mpr ⟨held,(covers_star star).mp covers⟩,decide_eq_true live⟩,rfl⟩
  · rw [if_neg fun is => star ((Selectors.isPrefixSelector_iff ok).mp is)]
    cases held : st.slices.get selector with
    | none =>
      refine ⟨fun member => (by cases member),?_⟩
      rintro ⟨name,row,_,covers,there,_⟩
      rw [(covers_exact star).mp covers,held] at there
      cases there
    | some row =>
      dsimp only
      constructor
      · intro member
        split at member
        · rename_i live
          exact ⟨selector,row,List.mem_singleton.mp member,covers_refl selector,held,live⟩
        · cases member
      · rintro ⟨name,row',rfl,covers,there,live⟩
        rw [(covers_exact star).mp covers] at there ⊢
        rw [held] at there
        cases there
        rw [if_pos live]
        exact List.mem_cons_self

theorem cut_visible (st : Storage) :
    (∀ name row, selectorCovers selector name = true → st.slices.get name = some row → row.pos ≤ (cut st selector).visible) ∧
    ((cut st selector).visible = 0 ∨
      ∃ name row, selectorCovers selector name = true ∧ st.slices.get name = some row ∧ row.pos = (cut st selector).visible) := by
  unfold cut
  dsimp only
  by_cases star : selector.getLast? = some '*'
  · rw [if_pos ((Selectors.isPrefixSelector_iff ok).mpr star),if_pos ((Selectors.isPrefixSelector_iff ok).mpr star)]
    have ends := selector_ends ok
    unfold selectorPrefix at ends
    rw [if_pos star] at ends
    obtain ⟨_,each,reached⟩ := foldl_max (fun row : Name × SliceRow => row.2.pos) (slicesUnder st (utf8 selector.dropLast)) 0
    refine ⟨fun name row covers held => each (name,row) ((mem_slicesUnder ends name row).mpr ⟨held,(covers_star star).mp covers⟩),?_⟩
    rcases reached with zero | ⟨⟨name,row⟩,member,equal⟩
    · exact .inl zero
    · obtain ⟨held,starts⟩ := (mem_slicesUnder ends name row).mp member
      exact .inr ⟨name,row,(covers_star star).mpr starts,held,equal⟩
  · rw [if_neg fun is => star ((Selectors.isPrefixSelector_iff ok).mp is)]
    cases held : st.slices.get selector with
    | none =>
      refine ⟨fun name row covers there => ?_,.inl rfl⟩
      rw [(covers_exact star).mp covers,held] at there
      cases there
    | some row =>
      refine ⟨fun name row' covers there => ?_,.inr ⟨selector,row,covers_refl selector,held,rfl⟩⟩
      rw [(covers_exact star).mp covers,held] at there
      cases there
      exact le_refl _

end

-- A slice's row stands at its last edit, which the log holds.
theorem row_last {p : Part} (good : p.Good past name head) {edit : LogRow} (member : edit ∈ past) :
    ∃ row, p.row = some row ∧ edit.position ≤ row.pos := by
  have folded := good.folded.row
  rw [good.rows_last] at folded
  obtain ⟨earlier,last,rfl⟩ := (List.eq_nil_or_concat' past).resolve_left (List.ne_nil_of_mem member)
  rw [List.getLast?_concat] at folded
  cases held : p.row with
  | none => rw [held] at folded; cases folded
  | some row =>
    rw [held] at folded
    have stands : row.pos = last.position := (Prod.mk.inj (Option.some.inj folded)).2
    refine ⟨row,rfl,?_⟩
    rw [stands]
    rcases List.mem_append.mp member with before | only
    · exact Nat.le_of_lt ((List.pairwise_append.mp good.lives.ordered).2.2 edit before last (List.mem_singleton.mpr rfl))
    · rw [List.mem_singleton.mp only]

theorem row_logged {p : Part} (good : p.Good past name head) {row : SliceRow} (held : p.row = some row) :
    ∃ edit ∈ p.rows, edit.position = row.pos := by
  have folded := good.folded.row
  rw [held] at folded
  cases rows : p.rows.getLast? with
  | none => rw [rows] at folded; cases folded
  | some last =>
    rw [rows] at folded
    exact ⟨last,List.mem_of_getLast? rows,(Prod.mk.inj (Option.some.inj folded)).2.symm⟩

-- What a snapshot of a selector says of the store it was cut from, whose edits ever made are
-- given: its operations are the keys of the slices covered, in key order, and its slices the live
-- ones covered with their seqs; every operation is under a slice it names; and no edit of a
-- slice covered, one the log holds or one erased, is past its visible position, where the log
-- holds one when any slice covered was ever born.
structure Describes (st : Storage) (made : List LogRow) (selector : Name) (c : Cut) : Prop where
  ops : ∀ key value, (key,value) ∈ c.ops ↔ ∃ k slice, key = utf8 k ∧ st.kv.get k = some value ∧ sliceOf k = some slice ∧
    selectorCovers selector slice = true
  sorted : c.ops.Pairwise fun a b => a.1 < b.1
  slices : ∀ entry, entry ∈ c.slices ↔ ∃ name, entry.1 = utf8 name ∧ selectorCovers selector name = true ∧ st.sliceState name = (entry.2,true)
  named : c.slices.Pairwise fun a b => a.1 < b.1
  under : ∀ op ∈ c.ops, ∃ entry ∈ c.slices, entry.1++utf8 ['!'] <+: op.1
  position : c.position = st.maxPosition
  visible : c.visible ≤ c.position
  quiet : ∀ edit ∈ made, selectorCovers selector edit.slice = true → ¬(c.visible < edit.position ∧ edit.position ≤ c.position)
  logged : ∀ row ∈ st.log, row ∈ made
  last : (∃ edit ∈ made, selectorCovers selector edit.slice = true) →
    ∃ row ∈ st.log, selectorCovers selector row.slice = true ∧ row.position = c.visible

theorem sliceState_live {st : Storage} {name : Name} {seq : Nat} :
    st.sliceState name = (seq,true) ↔ ∃ row, st.slices.get name = some row ∧ row.death = none ∧ row.seq = seq := by
  unfold Storage.sliceState
  cases st.slices.get name with
  | none => simp
  | some row => simp [and_comm]

theorem cut_describes {w : Writer} (logged : w.Logged) (owned : w.store.Owned) {selector : Name}
    (ok : Selectors.validSelector selector = true) : Describes w.store (editsMade w.trace) selector (cut w.store selector) := by
  obtain ⟨position,ops⟩ := cut_text ok w.store
  have plain := Selectors.validSelector_bang ok
  obtain ⟨most,reached⟩ := cut_visible ok w.store
  have mine : ∀ edit ∈ editsMade w.trace, edit ∈ madeOf w.trace edit.slice := fun edit member =>
    List.mem_filter.mpr ⟨member,by simp⟩
  have behind : ∀ edit ∈ editsMade w.trace, selectorCovers selector edit.slice = true → edit.position ≤ (cut w.store selector).visible := by
    intro edit member covers
    obtain ⟨row,held,le⟩ := row_last (logged.good edit.slice) (mine edit member)
    exact le.trans (most edit.slice row covers held)
  have stands : (cut w.store selector).visible = 0 ∨
      ∃ row ∈ w.store.log, selectorCovers selector row.slice = true ∧ row.position = (cut w.store selector).visible := by
    rcases reached with zero | ⟨name,row,covers,held,equal⟩
    · exact .inl zero
    · obtain ⟨edit,member,there⟩ := row_logged (logged.good name) (show (w.store.part name).row = some row from held)
      obtain ⟨inside,same⟩ := List.mem_filter.mp member
      have same : edit.slice = name := of_decide_eq_true same
      exact .inr ⟨edit,inside,same ▸ covers,there.trans equal⟩
  have mem_ops : ∀ key value, (key,value) ∈ (cut w.store selector).ops ↔ ∃ k slice, key = utf8 k ∧ w.store.kv.get k = some value ∧
      sliceOf k = some slice ∧ selectorCovers selector slice = true := by
    intro key value
    rw [ops,mem_scan (selector_ends ok)]
    constructor
    · rintro ⟨k,rfl,held,starts⟩
      obtain ⟨slice,under⟩ := owned k value held
      exact ⟨k,slice,rfl,held,under,(selectorPrefix_covers plain under).mp starts⟩
    · rintro ⟨k,slice,rfl,held,under,covers⟩
      exact ⟨k,rfl,held,(selectorPrefix_covers plain under).mpr covers⟩
  have mem_slices : ∀ entry, entry ∈ (cut w.store selector).slices ↔ ∃ name, entry.1 = utf8 name ∧ selectorCovers selector name = true ∧
      w.store.sliceState name = (entry.2,true) := by
    rintro ⟨text,seq⟩
    rw [cut_slices ok]
    constructor
    · rintro ⟨name,row,same,covers,held,live⟩
      cases same
      exact ⟨name,rfl,covers,sliceState_live.mpr ⟨row,held,live,rfl⟩⟩
    · rintro ⟨name,rfl,covers,state⟩
      obtain ⟨row,held,live,rfl⟩ := sliceState_live.mp state
      exact ⟨name,row,rfl,covers,held,live⟩
  refine ⟨mem_ops,?_,mem_slices,cut_sorted w.store selector,?_,position,?_,?_,fun row member => logged.made member,?_⟩
  · rw [ops]
    unfold scan ranged
    split
    · exact (Scan.stored_sorted _).filter _
    · exact Scan.stored_sorted _
  · rintro ⟨key,value⟩ member
    obtain ⟨k,slice,rfl,held,under,covers⟩ := (mem_ops key value).mp member
    have live : (w.store.part slice).live = true := by
      by_contra dead
      have none := congrFun ((logged.good slice).folded.dead (Bool.not_eq_true _ ▸ dead)) k
      unfold Storage.part at none
      dsimp only at none
      rw [if_pos under,held] at none
      cases none
    refine ⟨(utf8 slice,(w.store.part slice).seq),(mem_slices _).mpr ⟨slice,rfl,covers,?_⟩,?_⟩
    · rw [sliceState_part,live]
    · rw [← utf8_append]
      exact (utf8_starts _ _).mpr ((slicePrefix_iff (sliceOf_plain under) k).mpr under)
  · rw [position,← logged.head]
    rcases stands with zero | ⟨row,member,_,equal⟩
    · omega
    · exact equal ▸ logged.behind member
  · intro edit member covers past
    have := behind edit member covers
    omega
  · rintro ⟨edit,member,covers⟩
    refine stands.resolve_left fun zero => ?_
    have below := behind edit member covers
    have positive := ((logged.good edit.slice).wired edit (mine edit member)).2.1
    omega

theorem answered_owned {w after : Writer} (answered : Answered w a after) (owned : w.store.Owned) : after.store.Owned := by
  rw [answered.store]
  unfold Storage.Owned
  by_cases accepted : a.accepted
  · obtain ⟨ok,id,time,c,mutated,_,kv,_⟩ := answered.accepted accepted
    rw [kv]
    exact commitEdits_owned ok owned mutated.ran
  · rw [(answered.others accepted).2.2.1]
    exact owned

theorem owned_keeps : Writer.Keeps fun w => w.Sound ∧ w.store.Owned where
  behind holds _ member := holds.1.logged.behind member
  answered holds answered := ⟨(holds.1.answered answered).sound,answered_owned answered holds.2⟩
  same holds store position trace := ⟨holds.1.same store position trace,store ▸ holds.2⟩
  armed install entry minute servertime holds := ⟨(holds.1.armed install entry minute servertime).sound,holds.2⟩

end Snapshots

end PhaseLock
