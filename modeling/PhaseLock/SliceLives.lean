import PhaseLock.CommitSteps
import Mathlib.Data.List.Chain

namespace PhaseLock

-- A slice's edits from its last birth or death on.
def sinceReset (rows : List LogRow) : List LogRow :=
  rows.foldl (fun life row => if row.lifecycle = .normal then life++[row] else [row]) []

-- What a reader of the edits' wire encodings makes of them.
def replay (rows : List LogRow) : Option (SliceState Bytes) :=
  rows.foldl (fun state row => match readEdit row.edit with
    | some edit => edit.apply state
    | none => state) none

-- A slice's row and keys are the fold of its logged edits.
structure Part.Folded (p : Part) : Prop where
  live : p.live = p.rows.getLast?.any (·.lifecycle ≠ .death)
  keys : p.keys = keysOf (replay (sinceReset p.rows))
  dead : p.live = false → p.keys = fun _ => none
  row : p.row.map (fun row => (row.seq,row.pos)) = p.rows.getLast?.map (fun edit => (edit.seq,edit.position))

-- An edit a client reads, as the log holds it.
structure LogRow.Wired (name : Name) (row : LogRow) : Prop where
  slice : row.slice = name
  wire : ∃ edit, readEdit row.edit = some edit ∧ edit.position = row.position ∧ edit.slice = name ∧ edit.seq = row.seq ∧
    edit.lifecycle = row.lifecycle ∧ ∀ op ∈ edit.ops, sliceOf op.1 = some name

-- A slice's edits, erased ones among them: numbered from 1, a birth first and after a death.
structure Lives (past : List LogRow) : Prop where
  seqs : past.map LogRow.seq = List.range' 1 past.length
  ordered : past.Pairwise (fun a b => a.position < b.position)
  first : ∀ edit ∈ past.head?, edit.lifecycle = .birth
  reborn : past.IsChain (fun a b => a.lifecycle = .death → b.lifecycle = .birth)

-- A slice as a store at a head holds it, after its edits: what the log keeps of them is all,
-- or starts with a reset.
structure Part.Good (p : Part) (past : List LogRow) (name : Name) (head : Nat) : Prop where
  lives : Lives past
  wired : ∀ edit ∈ past, edit.Wired name ∧ 0 < edit.position ∧ edit.position ≤ head
  kept : ∃ gone, past = gone++p.rows ∧ (gone ≠ [] → ∃ edit ∈ p.rows.head?, edit.lifecycle ≠ .normal)
  folded : p.Folded
  bytes : p.editBytes = Storage.editLen p.rows

variable {p after : Part} {past : List LogRow} {name : Name} {head : Nat} {t : Touched}

theorem Part.Good.rows_last (good : p.Good past name head) : p.rows.getLast? = past.getLast? := by
  obtain ⟨gone,equal,reset⟩ := good.kept
  rw [equal]
  cases rows : p.rows with
  | nil =>
    cases gone with
    | nil => rfl
    | cons first rest =>
      obtain ⟨edit,member,_⟩ := reset (by simp)
      rw [rows] at member
      cases member
  | cons first rest => rw [List.getLast?_append_of_ne_nil _ (by simp)]

theorem Part.Good.rows_mem (good : p.Good past name head) {row : LogRow} (member : row ∈ p.rows) : row ∈ past := by
  obtain ⟨gone,equal,_⟩ := good.kept
  rw [equal]
  exact List.mem_append_right _ member

-- The slice's counter is the number of its edits.
theorem Part.Good.seq (good : p.Good past name head) : p.seq = past.length := by
  have row := good.folded.row
  rw [good.rows_last] at row
  unfold Part.seq
  rcases List.eq_nil_or_concat' past with none | ⟨earlier,last,equal⟩
  · rw [none] at row ⊢
    cases held : p.row with
    | none => rfl
    | some row' => rw [held] at row; cases row
  · have seqs := good.lives.seqs
    rw [equal,List.getLast?_concat] at row
    rw [equal,List.map_append,List.length_append,List.length_singleton,List.range'_concat] at seqs
    have lastSeq := (List.append_inj' seqs rfl).2
    rw [List.map_singleton,List.cons.injEq] at lastSeq
    cases held : p.row with
    | none => rw [held] at row; cases row
    | some row' =>
      rw [held] at row
      have same : row'.seq = last.seq := (Prod.mk.inj (Option.some.inj row)).1
      rw [equal]
      simp only [Option.map_some,Option.getD_some,List.length_append,List.length_singleton]
      omega

theorem Part.Good.mono (good : p.Good past name head) (le : head ≤ later) : p.Good past name later :=
  ⟨good.lives,fun edit member => ⟨(good.wired edit member).1,(good.wired edit member).2.1,(good.wired edit member).2.2.trans le⟩,
    good.kept,good.folded,good.bytes⟩

-- An erasure at a position past the slice's edits drops them all.
theorem Touched.keeps_behind (t : Touched) (behind : ∀ row ∈ rows, row.position < pos) :
    t.keeps pos rows = if t.del = some true then [] else rows := by
  unfold Touched.keeps
  by_cases erase : t.del = some true
  · rw [if_pos erase,if_pos erase,List.filter_eq_nil_iff]
    intro row member
    simpa using behind row member
  · rw [if_neg erase,if_neg erase]

theorem Touched.life_normal (t : Touched) (normal : t.life live = .normal) : live = true ∧ t.del = none := by
  unfold Touched.life at normal
  cases del : t.del with
  | some erase =>
    rw [del] at normal
    by_cases sets : t.sets = true
    · simp [sets] at normal
    · simp [sets] at normal
  | none =>
    rw [del] at normal
    cases live with
    | true => exact ⟨rfl,rfl⟩
    | false => simp at normal

theorem sinceReset_concat (rows : List LogRow) (edit : LogRow) :
    sinceReset (rows++[edit]) = if edit.lifecycle = .normal then sinceReset rows++[edit] else [edit] := by
  unfold sinceReset
  rw [List.foldl_concat]

theorem editLen_concat (rows : List LogRow) (edit : LogRow) :
    Storage.editLen (rows++[edit]) = Storage.editLen rows+encodedLen edit.edit := by
  simp [Storage.editLen]

theorem carried_under (under : ∀ row ∈ t.entries, sliceOf row.1 = some slice) (life : Lifecycle) :
    ∀ op ∈ carried life t.entries, sliceOf op.1 = some slice := by
  intro op member
  cases life with
  | normal => exact under op member
  | birth => exact under op (List.mem_filter.mp member).1
  | death => cases member

theorem edit_reads (t : Touched) (p : Part) (pos id : Nat) (servertime : Int) :
    readEdit (t.edit p pos id servertime).edit =
      some ⟨pos,t.name,p.seq+1,id,t.life p.live,carried (t.life p.live) t.entries⟩ := readEdit_encodeEdit _ _ _ _ _ _ _

-- An edit's wire encoding, replayed over what the slice held, gives what the slice holds.
theorem Edited.replayed {id : Nat} (dead : p.live = false → p.keys = fun _ => none) (busy : ¬t.idle p.live)
    (edited : Edited p t pos (t.edit p pos id servertime) after) :
    after.keys = keysOf (WireEdit.apply ⟨pos,t.name,p.seq+1,id,t.life p.live,carried (t.life p.live) t.entries⟩
      (some ⟨p.seq,p.keys⟩)) := by
  have keys := edited.keys
  rw [show (t.edit p pos id servertime).lifecycle = t.life p.live from rfl] at keys
  rw [keys]
  unfold WireEdit.apply
  cases life : t.life p.live with
  | normal => simp [keysOf]
  | birth =>
    cases live : p.live with
    | true => simp [keysOf]
    | false => simp [keysOf,dead live]
  | death =>
    have live : p.live = true := by
      by_contra gone
      exact busy ⟨by simpa using gone,.inl (by simpa using life)⟩
    simp [live,keysOf,carried,writes]

theorem Lives.concat (lives : Lives past) {edit : LogRow} (seq : edit.seq = past.length+1) (above : ∀ row ∈ past, row.position < edit.position)
    (next : (∀ last ∈ past.getLast?, last.lifecycle = .death) → edit.lifecycle = .birth) : Lives (past++[edit]) := by
  refine ⟨?_,?_,?_,?_⟩
  · rw [List.map_append,lives.seqs,List.length_append,List.length_singleton,List.range'_concat,List.map_singleton,seq]
    simp [Nat.add_comm]
  · rw [List.pairwise_append]
    refine ⟨lives.ordered,List.pairwise_singleton _ _,fun row member last single => ?_⟩
    rw [List.mem_singleton.mp single]
    exact above row member
  · cases past with
    | nil =>
      intro first member
      cases member
      exact next (by simp)
    | cons head rest => exact lives.first
  · rw [List.isChain_append]
    refine ⟨lives.reborn,List.isChain_singleton _,fun last member first single => ?_⟩
    cases single
    intro death
    refine next fun other also => ?_
    rw [Option.mem_def] at member also
    rw [member] at also
    exact Option.some.inj also ▸ death

theorem replay_concat (rows : List LogRow) {row : LogRow} {edit : WireEdit Bytes} (read : readEdit row.edit = some edit) :
    replay (rows++[row]) = edit.apply (replay rows) := by
  unfold replay
  rw [List.foldl_concat,read]

-- An edit's keys come of the keys before it, and a reset's of nothing.
theorem WireEdit.apply_keys (edit : WireEdit V) {a b : Option (SliceState V)} (same : keysOf a = keysOf b ∨ edit.lifecycle ≠ .normal) :
    keysOf (edit.apply a) = keysOf (edit.apply b) := by
  unfold WireEdit.apply
  cases life : edit.lifecycle with
  | birth => rfl
  | death => rfl
  | normal =>
    rcases same with keys | reset
    · simp only [keysOf] at keys ⊢
      rw [keys]
    · exact absurd life reset

-- One edit keeps its slice good, at the head it moves the log to.
theorem Part.Good.edited {id : Nat} (good : p.Good past t.name head) (under : ∀ row ∈ t.entries, sliceOf row.1 = some t.name)
    (busy : ¬t.idle p.live) (edited : Edited p t (head+1) (t.edit p (head+1) id servertime) after) :
    after.Good (past++[t.edit p (head+1) id servertime]) t.name (head+1) := by
  have position : (t.edit p (head+1) id servertime).position = head+1 := rfl
  have life : (t.edit p (head+1) id servertime).lifecycle = t.life p.live := rfl
  have seq : (t.edit p (head+1) id servertime).seq = past.length+1 := by rw [← good.seq]; rfl
  have keeps : t.keeps (head+1) p.rows = if t.del = some true then [] else p.rows :=
    t.keeps_behind fun row member => Nat.lt_succ_of_le (good.wired row (good.rows_mem member)).2.2
  have rows := edited.rows
  rw [keeps] at rows
  have replayed := edited.replayed good.folded.dead busy
  obtain ⟨birth,bytes,held⟩ := edited.held
  generalize new : t.edit p (head+1) id servertime = edit at *
  refine ⟨?_,?_,?_,?_,?_⟩
  · refine good.lives.concat seq (fun row member => ?_) fun died => ?_
    · rw [position]
      exact Nat.lt_succ_of_le (good.wired row member).2.2
    · have gone : p.live = false := by
        rw [good.folded.live,good.rows_last]
        cases last : past.getLast? with
        | none => rfl
        | some row => simp [died row last]
      rw [life]
      unfold Touched.idle at busy
      rw [gone] at busy ⊢
      unfold Touched.life at busy ⊢
      cases del : t.del with
      | none => rfl
      | some erase =>
        rw [del] at busy
        by_cases sets : t.sets = true <;> simp_all
  · intro row member
    rcases List.mem_append.mp member with old | single
    · exact ⟨(good.wired row old).1,(good.wired row old).2.1,(good.wired row old).2.2.trans (Nat.le_succ head)⟩
    · rw [List.mem_singleton.mp single,position]
      refine ⟨⟨by rw [← new]; rfl,⟨(head+1 : Nat),t.name,p.seq+1,id,t.life p.live,carried (t.life p.live) t.entries⟩,?_,?_⟩,
        Nat.succ_pos head,le_refl _⟩
      · rw [← new,edit_reads]
      · refine ⟨by rw [position],rfl,?_,life.symm,carried_under under _⟩
        rw [seq,good.seq]
  · obtain ⟨gone,equal,reset⟩ := good.kept
    rw [rows]
    by_cases erase : t.del = some true
    · rw [if_pos erase]
      refine ⟨past,rfl,fun _ => ⟨edit,rfl,fun normal => ?_⟩⟩
      rw [life] at normal
      have none := (t.life_normal normal).2
      rw [erase] at none
      cases none
    · rw [if_neg erase]
      refine ⟨gone,by rw [equal,List.append_assoc],fun some => ?_⟩
      obtain ⟨first,member,what⟩ := reset some
      rw [List.head?_append_of_ne_nil _ (List.ne_nil_of_mem (List.mem_of_mem_head? member))]
      exact ⟨first,member,what⟩
  · have live : after.live = decide (edit.lifecycle ≠ .death) := by
      unfold Part.live
      rw [held]
      by_cases death : edit.lifecycle = .death <;> simp [death]
    have last : after.rows.getLast? = some edit := by rw [rows,List.getLast?_concat]
    refine ⟨?_,?_,fun dead => ?_,?_⟩
    · rw [live,last]
      rfl
    · have read : readEdit edit.edit = some ⟨(head+1 : Nat),t.name,p.seq+1,id,t.life p.live,carried (t.life p.live) t.entries⟩ := by
        rw [← new,edit_reads]
      rw [replayed,rows,sinceReset_concat]
      by_cases normal : edit.lifecycle = .normal
      · have kept : t.del = none := (t.life_normal (life ▸ normal)).2
        rw [if_pos normal,if_neg (by simp [kept]),replay_concat _ read]
        exact WireEdit.apply_keys _ (.inl good.folded.keys)
      · rw [if_neg normal,show [edit] = []++[edit] from rfl,replay_concat _ read]
        exact WireEdit.apply_keys _ (.inr (by rwa [life] at normal))
    · rw [live] at dead
      rw [replayed]
      have death : t.life p.live = .death := by simpa [life] using dead
      unfold WireEdit.apply
      rw [death]
      rfl
    · rw [held,last]
      simp only [Option.map_some,position,seq,good.seq]
  · unfold Part.editBytes
    rw [held,rows,editLen_concat,keeps]
    simp only [Option.map_some,Option.getD_some]
    by_cases erase : t.del = some true
    · rw [if_pos erase,if_pos erase]
    · rw [if_neg erase,if_neg erase,good.bytes]

theorem writes_lookup {rows : List (Key × Option V)} (distinct : (rows.map Prod.fst).Nodup) (keys : Key → Option V) (key : Key) :
    writes rows keys key = (OrderedMap.lookup key rows).getD (keys key) := by
  induction rows generalizing keys with
  | nil => rfl
  | cons row rest ih =>
    obtain ⟨k,value⟩ := row
    rw [List.map_cons,List.nodup_cons] at distinct
    have shift : writes ((k,value) :: rest) keys key = writes rest (fun x => if k = x then value else keys x) key := rfl
    rw [shift,ih distinct.2]
    by_cases here : k = key
    · subst here
      rw [OrderedMap.lookup_absent rest k distinct.1]
      simp [OrderedMap.lookup]
    · simp [OrderedMap.lookup,here]

theorem WriteBuffer.part_entries (wb : WriteBuffer) (name : Name) : ((wb.part name).entries.map Prod.fst).Nodup ∧
    ∀ key, sliceOf key = some name → OrderedMap.lookup key (wb.part name).entries = wb.entries.get key := by
  have perm := List.perm_insertionSort (fun a b : Key × Option Bytes => a.1 ≤ b.1) wb.entries.entries
  have distinct : (wb.entries.scan.map Prod.fst).Nodup := (perm.map Prod.fst).nodup_iff.mpr wb.entries.distinct
  refine ⟨distinct.sublist (List.filter_sublist.map Prod.fst),fun key mine => ?_⟩
  refine Option.ext fun value => ?_
  rw [OrderedMap.lookup_some (wb.part name).entries (distinct.sublist (List.filter_sublist.map Prod.fst)),part,List.mem_filter,
    OrderedMap.mem_scan]
  simp [mine]

theorem Touched.sets_false (t : Touched) (none : t.sets = false) {value : Option Bytes} (held : OrderedMap.lookup key t.entries = some value)
    (distinct : (t.entries.map Prod.fst).Nodup) : value = Option.none := by
  rw [OrderedMap.lookup_some _ distinct] at held
  have each := List.any_eq_false.mp none _ held
  simpa using each

theorem Touched.life_death (t : Touched) (death : t.life live = .death) : t.del ≠ none ∧ t.sets = false := by
  unfold Touched.life at death
  cases del : t.del with
  | none =>
    rw [del] at death
    cases live <;> simp at death
  | some erase =>
    rw [del] at death
    by_cases sets : t.sets = true
    · simp [sets] at death
    · simpa using sets

theorem Touched.life_birth (t : Touched) (birth : t.life live = .birth) : t.del ≠ none ∨ live = false := by
  unfold Touched.life at birth
  cases del : t.del with
  | some erase => exact .inl (by simp)
  | none =>
    rw [del] at birth
    cases live with
    | true => simp at birth
    | false => exact .inr rfl

-- A slice's keys after a mutation are what its buffer read as the mutation ended.
theorem WriteBuffer.reads {wb : WriteBuffer} {id : Nat} (dead : p.live = false → p.keys = fun _ => none) (under : sliceOf key = some name)
    (edited : (wb.part name).entries ≠ [] ∨ (wb.part name).del ≠ none → ¬(wb.part name).idle p.live →
      Edited p (wb.part name) pos ((wb.part name).edit p pos id servertime) after)
    (kept : ¬(((wb.part name).entries ≠ [] ∨ (wb.part name).del ≠ none) ∧ ¬(wb.part name).idle p.live) → after = p) :
    after.keys key = wb.read p.keys key := by
  obtain ⟨distinct,lookup⟩ := wb.part_entries name
  have held := lookup key under
  have deleted : wb.deleted key = (wb.part name).del.isSome := by simp [deleted,under,OrderedMap.has,part]
  unfold read
  rw [← held,deleted]
  generalize wb.part name = t at *
  by_cases edits : (t.entries ≠ [] ∨ t.del ≠ none) ∧ ¬t.idle p.live
  · have keys := (edited edits.1 edits.2).keys
    rw [show (t.edit p pos id servertime).lifecycle = t.life p.live from rfl] at keys
    rw [keys]
    cases life : t.life p.live with
    | normal =>
      obtain ⟨_,whole⟩ := t.life_normal life
      simp only [carried,ne_eq,not_true_eq_false,and_false,if_false,whole,Option.isSome_none]
      rw [writes_lookup distinct]
      cases OrderedMap.lookup key t.entries <;> rfl
    | birth =>
      have base : (if p.live = true ∧ Lifecycle.birth ≠ .normal then fun _ => none else p.keys) = fun _ => none := by
        cases live : p.live with
        | true => simp
        | false => simp [dead live]
      rw [base,carried,writes_lookup (distinct.sublist (List.filter_sublist.map Prod.fst)),
        OrderedMap.lookup_filter (fun _ value => value.isSome) t.entries key distinct]
      cases OrderedMap.lookup key t.entries with
      | some value => cases value <;> rfl
      | none =>
        rcases t.life_birth life with gone | unborn
        · simp [Option.isSome_iff_ne_none.mpr gone]
        · simp [dead unborn]
    | death =>
      obtain ⟨gone,none⟩ := t.life_death life
      have live : p.live = true := by
        by_contra dead
        exact edits.2 ⟨by simpa using dead,.inl (by simpa using life)⟩
      simp only [live,carried,PhaseLock.writes,List.foldl_nil,ne_eq,reduceCtorEq,not_false_eq_true,and_self,if_true]
      cases found : OrderedMap.lookup key t.entries with
      | some value => rw [t.sets_false none found distinct]
      | none => simp [Option.isSome_iff_ne_none.mpr gone]
  · rw [kept edits]
    rw [not_and_or,not_or,not_not,not_not,not_not] at edits
    rcases edits with ⟨empty,whole⟩ | ⟨unborn,none⟩
    · simp [empty,whole]
    · have none : t.sets = false := by
        rcases none with death | none
        · exact (t.life_death death).2
        · exact none
      rw [dead unborn]
      cases found : OrderedMap.lookup key t.entries with
      | some value => rw [t.sets_false none found distinct]
      | none => simp

end PhaseLock
