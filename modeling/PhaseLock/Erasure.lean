import PhaseLock.DbPromises

namespace PhaseLock

-- A buffer with nothing of one slice.
def WriteBuffer.without (wb : WriteBuffer) (name : Name) : WriteBuffer where
  entries := wb.entries.keep (fun key _ => sliceOf key ≠ some name)
  dels := wb.dels.del name

theorem WriteBuffer.without_ok {wb : WriteBuffer} (ok : wb.Ok) (name : Name) : (wb.without name).Ok := by
  refine ⟨fun key value held => ?_,fun slice erase held => ?_⟩
  · simp only [without,OrderedMap.get_keep,Option.filter_eq_some_iff] at held
    exact ok.keys key value held.1
  · unfold without at held
    rw [OrderedMap.get_del] at held
    split at held
    · cases held
    · exact ok.slices slice erase held

-- Two sorted lists of the same members are one.
theorem sorted_ext {a b : List (Key × Option Bytes)} (left : a.Pairwise (fun x y => x.1 < y.1)) (right : b.Pairwise (fun x y => x.1 < y.1))
    (same : ∀ row, row ∈ a ↔ row ∈ b) : a = b := by
  have perm : a.Perm b := (List.perm_ext_iff_of_nodup (left.imp (by rintro x _ less rfl; exact lt_irrefl _ less))
    (right.imp (by rintro x _ less rfl; exact lt_irrefl _ less))).mpr same
  exact perm.eq_of_pairwise (fun x y _ _ less more => absurd (less.trans more) (lt_irrefl _)) left right

theorem WriteBuffer.without_part (wb : WriteBuffer) {name other : Name} (apart : other ≠ name) :
    (wb.without name).part other = wb.part other := by
  have entries : (wb.without name).entries.scan.filter (fun row => sliceOf row.1 = some other) =
      wb.entries.scan.filter (fun row => sliceOf row.1 = some other) := by
    refine sorted_ext ((OrderedMap.scan_sorted _).filter _) ((OrderedMap.scan_sorted _).filter _) fun row => ?_
    obtain ⟨key,value⟩ := row
    rw [List.mem_filter,List.mem_filter,OrderedMap.mem_scan,OrderedMap.mem_scan]
    simp only [without,OrderedMap.get_keep,Option.filter_eq_some_iff,decide_eq_true_eq]
    constructor
    · rintro ⟨⟨held,_⟩,mine⟩
      exact ⟨held,mine⟩
    · rintro ⟨held,mine⟩
      refine ⟨⟨held,?_⟩,mine⟩
      rw [mine]
      exact fun same => apart (Option.some.inj same)
  unfold part
  rw [entries,without,OrderedMap.get_del_ne _ (Ne.symm apart)]

-- What an erasure of a slice promises of the mutation's commit: none of its earlier edits stays
-- but the record that it is dead, no key of an earlier life, and nothing else changes for it.
structure Answer.Forgets (a : Answer) (name : Name) : Prop where
  edits : ∀ earlier, earlier = (a.after.part name).rows.filter (· ∈ a.before.log) →
    earlier = [] ∨ ∃ death, earlier = [death] ∧ death.lifecycle = .death ∧ (a.after.part name).live = false
  keys : ∀ key, sliceOf key = some name → a.after.kv.get key = (a.wb.entries.get key).getD none
  bytes : (a.after.part name).editBytes = Storage.editLen (a.after.part name).rows
  others : ∃ id servertime c, commitEdits id servertime a.before a.before.maxPosition (a.wb.without name) = .ok c ∧
    ∀ other, other ≠ name → (a.after.part other).rows = (c.store.part other).rows ∧ (a.after.part other).keys = (c.store.part other).keys

-- The slice was live, or the buffer wrote it again, or the log holds one edit of it at most.
def Answer.Erasable (a : Answer) (name : Name) : Prop :=
  (a.before.part name).live = true ∨ (a.wb.part name).sets = true ∨ (a.before.part name).rows.length ≤ 1

instance (a : Answer) (name : Name) : Decidable (a.Erasable name) := inferInstanceAs (Decidable (_ ∨ _ ∨ _))

theorem Touched.idle_erased {t : Touched} (erase : t.del = some erases) : t.idle live ↔ live = false ∧ t.sets = false := by
  unfold Touched.idle Touched.life
  rw [erase]
  by_cases sets : t.sets = true <;> simp [sets]

theorem Answered.others_left {w after : Writer} {name : Name} (logged : w.Logged) (accepted : a.accepted) (answered : Answered w a after) :
    ∃ id servertime c, commitEdits id servertime a.before a.before.maxPosition (a.wb.without name) = .ok c ∧
      ∀ other, other ≠ name → (a.after.part other).rows = (c.store.part other).rows ∧ (a.after.part other).keys = (c.store.part other).keys := by
  obtain ⟨ok,id,time,c,mutated,items,kv,log,slices,_⟩ := answered.accepted accepted
  obtain ⟨left,ran,apart⟩ := commitEdits_ok (WriteBuffer.without_ok ok name) (fun row member => logged.behind member) id time
  rw [answered.before,← logged.head]
  refine ⟨id,time,left,ran,fun other differs => ?_⟩
  have part : a.after.part other = c.store.part other := part_congr kv log slices other
  have same := a.wb.without_part differs
  by_cases edits : a.wb.edits w.store other
  · have also : (a.wb.without name).edits w.store other := by
      unfold WriteBuffer.edits at edits ⊢
      rwa [same]
    have edited := (mutated.edited other edits).2
    have twin := (apart.edited other also).2
    unfold WriteBuffer.edit at edited twin
    rw [same] at twin
    rw [part,edited.rows,edited.keys,twin.rows,twin.keys]
    exact ⟨rfl,rfl⟩
  · have also : ¬(a.wb.without name).edits w.store other := by
      unfold WriteBuffer.edits at edits ⊢
      rwa [same]
    rw [part,mutated.kept other edits,apart.kept other also]
    exact ⟨rfl,rfl⟩

-- An accepted mutation that erases a slice forgets it, exactly when the slice was live, is
-- written again, or has one edit in the log at most.
theorem Answered.forgets {w after : Writer} (logged : w.Logged) (answered : Answered w a after) (accepted : a.accepted)
    (erase : a.wb.dels.get name = some true) : a.Forgets name ↔ a.Erasable name := by
  have further := logged.answered answered
  rw [show a.Forgets name ↔ ∀ earlier, earlier = (a.after.part name).rows.filter (· ∈ a.before.log) →
      earlier = [] ∨ ∃ death, earlier = [death] ∧ death.lifecycle = .death ∧ (a.after.part name).live = false from
    ⟨Answer.Forgets.edits,fun edits => ⟨edits,fun key under => ?_,?_,answered.others_left logged accepted⟩⟩]
  · obtain ⟨ok,id,time,c,mutated,items,kv,log,slices,_⟩ := answered.accepted accepted
    have part : a.after.part name = c.store.part name := part_congr kv log slices name
    have del : (a.wb.part name).del = some true := erase
    have idle : (a.wb.part name).idle (w.store.part name).live ↔ (w.store.part name).live = false ∧ (a.wb.part name).sets = false :=
      Touched.idle_erased del
    unfold Answer.Erasable
    rw [answered.before,part]
    by_cases edits : a.wb.edits w.store name
    · have busy := edits.2
      rw [idle,not_and_or,Bool.not_eq_false,Bool.not_eq_false] at busy
      have edited := (mutated.edited name edits).2
      have rows := edited.rows
      rw [(a.wb.part name).keeps_behind fun row member =>
        Nat.lt_succ_of_le ((logged.good name).wired row ((logged.good name).rows_mem member)).2.2,if_pos del,List.nil_append] at rows
      refine ⟨fun _ => busy.imp_right .inl,fun _ earlier equal => .inl ?_⟩
      rw [equal,rows,List.filter_eq_nil_iff]
      intro edit member old
      rw [List.mem_singleton] at member
      have below := logged.behind (of_decide_eq_true old)
      rw [member] at below
      exact absurd below (Nat.not_succ_le_self _)
    · have quiet : (w.store.part name).live = false ∧ (a.wb.part name).sets = false := by
        rw [← idle]
        by_contra busy
        exact edits ⟨.inr (by rw [del]; simp),busy⟩
      have all : (w.store.part name).rows.filter (· ∈ w.store.log) = (w.store.part name).rows := by
        rw [List.filter_eq_self]
        intro row member
        exact decide_eq_true (List.mem_filter.mp member).1
      rw [mutated.kept name edits,all]
      simp only [quiet,Bool.false_eq_true,false_or,forall_eq]
      constructor
      · rintro (none | ⟨death,single,_⟩)
        · rw [none]
          exact Nat.zero_le 1
        · rw [single]
          exact le_refl 1
      · intro short
        cases rows : (w.store.part name).rows with
        | nil => exact .inl rfl
        | cons first rest =>
          rw [rows,List.length_cons] at short
          have none : rest = [] := List.length_eq_zero_iff.mp (by omega)
          have live := (logged.good name).folded.live
          rw [quiet.1,rows,none] at live
          exact .inr ⟨first,by rw [none],by simpa using live.symm,trivial⟩
  · rw [(answered.faithful logged).writes accepted key name under,Natives.applyWrites_get]
    have deleted : a.wb.deleted key = true := by simp [WriteBuffer.deleted,under,OrderedMap.has,erase]
    unfold WriteBuffer.read
    rw [deleted]
    cases a.wb.entries.get key <;> rfl
  · rw [← answered.store]
    exact (further.good name).bytes

namespace Db

theorem erasure_forgets (path : machine.Runs {} events s) (member : a ∈ s.writer.trace) (accepted : a.accepted)
    (erase : a.wb.dels.get name = some true) : a.Forgets name ↔ a.Erasable name := by
  obtain ⟨before,after,logged,answered⟩ := (runs_sound path).writer.sound.answers a member
  exact answered.forgets logged accepted erase

-- An answer that erased a slice, found among a state's.
theorem erasing {s : Db} {forgotten : Bool} (found : s.writer.trace.any (fun a => a.accepted ∧ a.wb.dels.get name = some true ∧ (a.Erasable name ↔ forgotten = true)) = true) :
    ∃ a ∈ s.writer.trace, a.accepted ∧ a.wb.dels.get name = some true ∧ (a.Erasable name ↔ forgotten = true) := by
  obtain ⟨a,member,holds⟩ := List.any_eq_true.mp found
  exact ⟨a,member,of_decide_eq_true holds⟩

theorem erasure_forgets_reborn : ∃ s, machine.Runs {} reborn s ∧ ∃ a ∈ s.writer.trace, a.accepted ∧
    a.wb.dels.get ['s'] = some true ∧ (a.Forgets ['s'] ↔ a.Erasable ['s']) := by
  obtain ⟨s,path,found⟩ := machine.follow_finds {} reborn (fun s => s.writer.trace.any (fun a => a.accepted ∧
    a.wb.dels.get ['s'] = some true ∧ (a.Erasable ['s'] ↔ true = true))) (by decide +kernel)
  obtain ⟨a,member,accepted,erase,_⟩ := erasing found
  exact ⟨s,path,a,member,accepted,erase,erasure_forgets path member accepted erase⟩

-- A slice is written and deleted, and erased once it is dead.
def erasedDead : List DbEvent :=
  [.request 5 (.submit ⟨true,0,[plain none [.set ['s','!','k'] [1]]]⟩),.commit,
    .request 6 (.submit ⟨true,0,[plain none [.deleteSlice ['s'] false]]⟩),.commit,
    .request 7 (.submit ⟨true,0,[plain none [.deleteSlice ['s'] true]]⟩),.commit]

theorem erasure_keeps_history : ¬∀ (events : List DbEvent) (s : Db), machine.Runs {} events s → ∀ a ∈ s.writer.trace, a.accepted →
    ∀ name, a.wb.dels.get name = some true → a.Forgets name := by
  intro forgets
  obtain ⟨s,path,found⟩ := machine.follow_finds {} erasedDead (fun s => s.writer.trace.any (fun a => a.accepted ∧
    a.wb.dels.get ['s'] = some true ∧ (a.Erasable ['s'] ↔ false = true))) (by decide +kernel)
  obtain ⟨a,member,accepted,erase,kept⟩ := erasing found
  obtain ⟨before,after,logged,answered⟩ := (runs_sound path).writer.sound.answers a member
  have forgotten := (answered.forgets logged accepted erase).mp (forgets _ s path a member accepted ['s'] erase)
  exact Bool.false_ne_true (kept.mp forgotten)

end Db
end PhaseLock
