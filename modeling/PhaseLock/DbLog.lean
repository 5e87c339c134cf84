import PhaseLock.Db

namespace PhaseLock

variable {w : Writer}

-- The store holds what the answers made of it, at the position they moved the log to.
structure Writer.Logged (w : Writer) : Prop where
  good : ∀ name, (w.store.part name).Good (madeOf w.trace name) name w.position
  head : w.position = w.store.maxPosition
  sorted : w.store.log.Pairwise (fun a b => a.position ≤ b.position)
  named : ∀ edit ∈ editsMade w.trace, sliceNameOk edit.slice = true

theorem mem_part {st : Storage} {row : LogRow} : row ∈ st.log ↔ row ∈ (st.part row.slice).rows := by
  simp [Storage.part]

theorem Writer.Logged.made (logged : w.Logged) {row : LogRow} (member : row ∈ w.store.log) : row ∈ editsMade w.trace :=
  (List.mem_filter.mp ((logged.good row.slice).rows_mem (mem_part.mp member))).1

theorem Writer.Logged.behind (logged : w.Logged) {row : LogRow} (member : row ∈ w.store.log) : row.position ≤ w.position :=
  ((logged.good row.slice).wired row ((logged.good row.slice).rows_mem (mem_part.mp member))).2.2

-- The most of what rows hold is at or above each and where it started, and is one of them.
theorem foldl_max (f : α → Nat) (rows : List α) (most : Nat) : most ≤ rows.foldl (fun most row => max most (f row)) most ∧
    (∀ row ∈ rows, f row ≤ rows.foldl (fun most row => max most (f row)) most) ∧
    (rows.foldl (fun most row => max most (f row)) most = most ∨
      ∃ row ∈ rows, f row = rows.foldl (fun most row => max most (f row)) most) := by
  induction rows generalizing most with
  | nil => exact ⟨le_refl _,fun row member => (by cases member),.inl rfl⟩
  | cons head rest ih =>
    obtain ⟨grows,each,reached⟩ := ih (max most (f head))
    refine ⟨le_trans (le_max_left _ _) grows,fun row member => ?_,?_⟩
    · rcases List.mem_cons.mp member with rfl | later
      · exact le_trans (le_max_right _ _) grows
      · exact each row later
    · rcases reached with same | ⟨row,member,equal⟩
      · rcases max_choice most (f head) with left | right
        · exact .inl (same.trans left)
        · exact .inr ⟨head,List.mem_cons_self,right.symm.trans same.symm⟩
      · exact .inr ⟨row,List.mem_cons_of_mem _ member,equal⟩

theorem maxPosition_reached (st : Storage) : st.maxPosition = 0 ∨ ∃ row ∈ st.log, row.position = st.maxPosition :=
  (foldl_max LogRow.position st.log 0).2.2

theorem maxPosition_eq {st : Storage} (below : ∀ row ∈ st.log, row.position ≤ p) (reached : p = 0 ∨ ∃ row ∈ st.log, row.position = p) :
    st.maxPosition = p := by
  refine le_antisymm ?_ ?_
  · rcases maxPosition_reached st with zero | ⟨row,member,equal⟩
    · omega
    · exact equal ▸ below row member
  · rcases reached with rfl | ⟨row,member,rfl⟩
    · exact Nat.zero_le _
    · exact (foldl_max LogRow.position st.log 0).2.1 row member

theorem filter_distinct {items : List LogRow} (distinct : (items.map LogRow.slice).Nodup) {edit : LogRow} (member : edit ∈ items) :
    items.filter (fun row => row.slice = edit.slice) = [edit] := by
  induction items with
  | nil => cases member
  | cons head rest ih =>
    rw [List.map_cons,List.nodup_cons] at distinct
    rcases List.mem_cons.mp member with rfl | later
    · have none : rest.filter (fun row => row.slice = edit.slice) = [] := by
        rw [List.filter_eq_nil_iff]
        intro row inside same
        have same : row.slice = edit.slice := by simpa using same
        exact distinct.1 (same ▸ List.mem_map_of_mem inside)
      rw [List.filter_cons_of_pos (by simp),none]
    · have other : head.slice ≠ edit.slice := fun same => distinct.1 (same ▸ List.mem_map_of_mem later)
      rw [List.filter_cons_of_neg (by simpa using other),ih distinct.2 later]

theorem part_congr {a b : Storage} (kv : a.kv = b.kv) (log : a.log = b.log) (slices : a.slices = b.slices) (name : Name) :
    a.part name = b.part name := by
  unfold Storage.part
  rw [kv,log,slices]

theorem madeOf_concat (trace : List Answer) (a : Answer) (name : Name) :
    madeOf (trace++[a]) name = madeOf trace name++a.items.filter (·.slice = name) := by
  simp [madeOf,editsMade]

theorem Mutated.part_good {st : Storage} {wb : WriteBuffer} {c : Committing} {past : Name → List LogRow} {id : Nat}
    (good : ∀ name, (st.part name).Good (past name) name p) (mutated : Mutated id time st p wb c) (name : Name) :
    (c.store.part name).Good (past name++c.items.filter (·.slice = name)) name c.position := by
  have later : p ≤ c.position := by
    rw [mutated.position]
    split <;> omega
  by_cases edits : wb.edits st name
  · obtain ⟨listed,edited⟩ := mutated.edited name edits
    have items := filter_distinct mutated.distinct listed
    rw [show (wb.edit st p id time name).slice = name from rfl] at items
    have moved : c.position = p+1 := by rw [mutated.position,if_neg (List.ne_nil_of_mem listed)]
    rw [items,moved]
    refine Part.Good.edited (t := wb.part name) (good name) (fun row member => ?_) edits.2 edited
    exact of_decide_eq_true (List.mem_filter.mp member).2
  · have none : c.items.filter (·.slice = name) = [] := by
      rw [List.filter_eq_nil_iff]
      intro edit member same
      have same : edit.slice = name := by simpa using same
      exact edits (same ▸ (mutated.items edit member).1)
    rw [mutated.kept name edits,none,List.append_nil]
    exact (good name).mono later

theorem Mutated.reached {st : Storage} {wb : WriteBuffer} {c : Committing} {past : Name → List LogRow} {id : Nat}
    (good : ∀ name, (st.part name).Good (past name) name p) (head : p = st.maxPosition)
    (mutated : Mutated id time st p wb c) : c.position = c.store.maxPosition := by
  symm
  have after := mutated.part_good good
  refine maxPosition_eq (fun row member => ?_) ?_
  · exact ((after row.slice).wired row ((after row.slice).rows_mem (mem_part.mp member))).2.2
  · rw [mutated.position]
    by_cases none : c.items = []
    · rw [if_pos none,head]
      rcases maxPosition_reached st with zero | ⟨row,member,equal⟩
      · exact .inl zero
      · have quiet : ¬wb.edits st row.slice := fun edits =>
          List.not_mem_nil (none ▸ (mutated.edited row.slice edits).1)
        refine .inr ⟨row,?_,equal⟩
        rw [mem_part,mutated.kept row.slice quiet]
        exact mem_part.mp member
    · rw [if_neg none]
      obtain ⟨edit,member⟩ := List.exists_mem_of_ne_nil _ none
      obtain ⟨kept,_,log⟩ := mutated.log
      refine .inr ⟨edit,?_,?_⟩
      · rw [log]
        exact List.mem_append_right _ member
      · rw [(mutated.items edit member).2]
        rfl

theorem Writer.Logged.answered {after : Writer} (logged : w.Logged) (answered : Answered w a after) : after.Logged := by
  by_cases accepted : a.accepted
  · obtain ⟨ok,id,time,c,mutated,items,kv,log,slices,position⟩ := answered.accepted accepted
    have part : ∀ name, after.store.part name = c.store.part name := by
      rw [answered.store]
      exact part_congr kv log slices
    refine ⟨fun name => ?_,?_,?_,?_⟩
    · rw [part,answered.trace,madeOf_concat,items,position]
      exact mutated.part_good logged.good name
    · rw [position,mutated.reached logged.good logged.head,answered.store]
      unfold Storage.maxPosition
      rw [log]
    · obtain ⟨kept,sub,equal⟩ := mutated.log
      rw [answered.store,log,equal,List.pairwise_append]
      have at_ : ∀ edit ∈ c.items, edit.position = w.position+1 := fun edit member => by
        rw [(mutated.items edit member).2]
        rfl
      refine ⟨logged.sorted.sublist sub,List.pairwise_of_forall_mem_list fun x left y right => ?_,fun x left y right => ?_⟩
      · rw [at_ x left,at_ y right]
      · rw [at_ y right]
        exact (logged.behind (sub.subset left)).trans (Nat.le_succ _)
    · intro edit member
      rw [answered.trace,editsMade,List.flatMap_append,List.mem_append] at member
      rcases member with old | new
      · exact logged.named edit old
      · rw [List.flatMap_singleton,items] at new
        exact mutated.named edit new
  · obtain ⟨none,position,kv,log,slices⟩ := answered.others accepted
    have made : ∀ name, madeOf after.trace name = madeOf w.trace name := by
      intro name
      rw [answered.trace,madeOf_concat,none]
      simp
    refine ⟨fun name => ?_,?_,?_,?_⟩
    · rw [made,position,answered.store,part_congr kv log slices]
      exact logged.good name
    · rw [position,logged.head,answered.store]
      unfold Storage.maxPosition
      rw [log]
    · rw [answered.store,log]
      exact logged.sorted
    · intro edit member
      rw [answered.trace,editsMade,List.flatMap_append,List.flatMap_singleton,none,List.append_nil] at member
      exact logged.named edit member

-- What the log misses of a slice's edits, an erasure dropped, whose own edit it starts with.
def Writer.Erased (w : Writer) : Prop :=
  ∀ name, ∃ gone, madeOf w.trace name = gone++(w.store.part name).rows ∧ (gone ≠ [] →
    ∃ a ∈ w.trace, a.accepted ∧ a.wb.dels.get name = some true ∧ ∃ edit ∈ (w.store.part name).rows.head?, edit ∈ a.items)

theorem Writer.Erased.answered {after : Writer} (erased : w.Erased) (logged : w.Logged) (answered : Answered w a after) : after.Erased := by
  intro name
  obtain ⟨gone,equal,why⟩ := erased name
  have quiet : a.items.filter (·.slice = name) = [] → (after.store.part name).rows = (w.store.part name).rows →
      ∃ gone, madeOf after.trace name = gone++(after.store.part name).rows ∧ (gone ≠ [] →
        ∃ a ∈ after.trace, a.accepted ∧ a.wb.dels.get name = some true ∧ ∃ edit ∈ (after.store.part name).rows.head?, edit ∈ a.items) := by
    intro none same
    refine ⟨gone,?_,fun some => ?_⟩
    · rw [answered.trace,madeOf_concat,none,List.append_nil,same,equal]
    · obtain ⟨b,member,accepted,erase,edit,first,made⟩ := why some
      rw [same]
      exact ⟨b,answered.trace ▸ List.mem_append_left _ member,accepted,erase,edit,first,made⟩
  by_cases accepted : a.accepted
  · obtain ⟨ok,id,time,c,mutated,items,kv,log,slices,position⟩ := answered.accepted accepted
    have part : after.store.part name = c.store.part name := by
      rw [answered.store]
      exact part_congr kv log slices name
    by_cases edits : a.wb.edits w.store name
    · obtain ⟨listed,edited⟩ := mutated.edited name edits
      have made := filter_distinct mutated.distinct listed
      rw [show (a.wb.edit w.store w.position id time name).slice = name from rfl] at made
      have rows := edited.rows
      rw [← part,(a.wb.part name).keeps_behind fun row member =>
        Nat.lt_succ_of_le ((logged.good name).wired row ((logged.good name).rows_mem member)).2.2] at rows
      rw [answered.trace,madeOf_concat,items,made]
      by_cases erase : a.wb.dels.get name = some true
      · rw [if_pos (show (a.wb.part name).del = some true from erase)] at rows
        refine ⟨madeOf w.trace name,by rw [rows]; rfl,fun _ => ⟨a,by simp,accepted,erase,_,by rw [rows]; rfl,items ▸ listed⟩⟩
      · rw [if_neg (show ¬(a.wb.part name).del = some true from erase)] at rows
        refine ⟨gone,by rw [rows,equal,List.append_assoc],fun some => ?_⟩
        obtain ⟨b,member,held,dropped,edit,first,also⟩ := why some
        refine ⟨b,List.mem_append_left _ member,held,dropped,edit,?_,also⟩
        rw [rows,List.head?_append_of_ne_nil _ (List.ne_nil_of_mem (List.mem_of_mem_head? first))]
        exact first
    · refine quiet ?_ (by rw [part,mutated.kept name edits])
      rw [List.filter_eq_nil_iff]
      intro edit member same
      have same : edit.slice = name := by simpa using same
      rw [items] at member
      exact edits (same ▸ (mutated.items edit member).1)
  · obtain ⟨none,_,kv,log,slices⟩ := answered.others accepted
    refine quiet (by rw [none]; rfl) ?_
    rw [answered.store,part_congr kv log slices]

-- The numbers that reached the decider, and those whose decision marked a series.
def decidedOf (trace : List Answer) : List (SeriesKey × Nat) :=
  trace.filterMap fun a => if a.how = .decided then a.series else none

def marking (key : SeriesKey) (a : Answer) : Option Nat :=
  if a.how = .decided ∨ a.how = .proof then (a.series.filter (·.1 = key)).map Prod.snd else none

def markingOf (trace : List Answer) (key : SeriesKey) : List Nat := trace.filterMap (marking key)

-- A store's marks against the answers given.
structure Writer.Marked (w : Writer) : Prop where
  once : (decidedOf w.trace).Nodup
  covered : ∀ key n, (key,n) ∈ decidedOf w.trace → ∃ mark, w.store.seriesHwm key = some mark ∧ n ≤ mark
  largest : ∀ digest, w.store.seriesHwm (.series digest) = (markingOf w.trace (.series digest)).max?

-- A mark that only rises.
def Storage.Raised (before after : Storage) : Prop :=
  ∀ key mark, before.seriesHwm key = some mark → ∃ later, after.seriesHwm key = some later ∧ mark ≤ later

theorem Storage.Raised.refl (st : Storage) : st.Raised st := fun _ mark held => ⟨mark,held,le_refl _⟩

theorem Storage.Raised.trans {a b c : Storage} (left : a.Raised b) (right : b.Raised c) : a.Raised c := by
  intro key mark held
  obtain ⟨middle,there,le⟩ := left key mark held
  obtain ⟨later,here,more⟩ := right key middle there
  exact ⟨later,here,le.trans more⟩

theorem seriesHwm_mark (st : Storage) (key : SeriesKey) (n : Nat) (time : Int) (other : SeriesKey) :
    (st.seriesMark key n time).seriesHwm other = if key = other then some ((st.seriesHwm key).elim n (max · n)) else st.seriesHwm other := by
  unfold Storage.seriesMark Storage.seriesHwm
  simp only [OrderedMap.get_set]
  by_cases here : key = other
  · rw [if_pos here,if_pos here]
    cases st.series.get key <;> rfl
  · rw [if_neg here,if_neg here]

theorem seriesHwm_congr {a b : Storage} (same : a.series = b.series) (key : SeriesKey) : a.seriesHwm key = b.seriesHwm key := by
  unfold Storage.seriesHwm
  rw [same]

theorem raised_mark (st : Storage) (key : SeriesKey) (n : Nat) (time : Int) : st.Raised (st.seriesMark key n time) := by
  intro other mark held
  rw [seriesHwm_mark]
  by_cases here : key = other
  · subst here
    rw [if_pos rfl,held]
    exact ⟨max mark n,rfl,le_max_left _ _⟩
  · rw [if_neg here]
    exact ⟨mark,held,le_refl _⟩

theorem Raised.of_series {a b : Storage} (same : b.series = a.series) : a.Raised b := by
  intro key mark held
  exact ⟨mark,by rw [seriesHwm_congr same,held],le_refl _⟩

theorem max?_concat (ns : List Nat) (n : Nat) : (ns++[n]).max? = some (ns.max?.elim n (max · n)) := by
  cases ns with
  | nil => rfl
  | cons head rest =>
    rw [List.cons_append,List.max?_cons',List.max?_cons',List.foldl_concat]
    rfl

-- What an answer makes of the marks: a decision moves its series' to its number at least.
theorem Answered.marks {after : Writer} (answered : Answered w a after) :
    (∀ key, after.store.seriesHwm key = match marking key a with
      | some n => some ((w.store.seriesHwm key).elim n (max · n))
      | none => w.store.seriesHwm key) := by
  intro key
  rw [answered.store]
  unfold marking
  by_cases decides : a.how = .decided ∨ a.how = .proof
  · obtain ⟨time,series⟩ := answered.marked decides
    rw [if_pos decides]
    cases numbered : a.series with
    | none =>
      rw [numbered] at series
      exact seriesHwm_congr series key
    | some row =>
      obtain ⟨own,n⟩ := row
      rw [numbered] at series
      rw [seriesHwm_congr series,seriesHwm_mark]
      by_cases here : own = key
      · subst here
        simp [Option.filter]
      · simp [Option.filter,here]
  · rw [if_neg decides]
    have still : a.how = .deduped ∨ a.how = .bounced ∨ a.how = .unreadable := by
      cases how : a.how <;> simp_all
    rw [answered.still still]

theorem Answered.raised {after : Writer} (answered : Answered w a after) : w.store.Raised after.store := by
  intro key mark held
  rw [answered.marks]
  cases marking key a with
  | none => exact ⟨mark,held,le_refl _⟩
  | some n =>
    rw [held]
    exact ⟨max mark n,rfl,le_max_left _ _⟩

theorem Writer.Marked.answered {after : Writer} (marked : w.Marked) (answered : Answered w a after) : after.Marked := by
  have decided : decidedOf after.trace = decidedOf w.trace++decidedOf [a] := by
    rw [answered.trace]
    simp [decidedOf]
  have fresh : ∀ key n, a.how = .decided → a.series = some (key,n) → ∀ mark, w.store.seriesHwm key = some mark → mark < n := by
    intro key n how series mark held
    by_contra old
    have before : w.decidedBefore a.series = true := by
      rw [series]
      simp only [Writer.decidedBefore,Option.any_some,held,decide_eq_true_eq]
      omega
    have deduped := answered.dedup.mpr ⟨by rw [how]; exact fun same => (by cases same),before⟩
    rw [how] at deduped
    cases deduped
  have single : ∀ row, row ∈ decidedOf [a] ↔ a.how = .decided ∧ a.series = some row := by
    intro row
    simp only [decidedOf,List.mem_filterMap,List.mem_singleton,exists_eq_left]
    by_cases how : a.how = .decided <;> simp [how]
  refine ⟨?_,?_,?_⟩
  · rw [decided,List.nodup_append]
    refine ⟨marked.once,?_,?_⟩
    · unfold decidedOf
      rw [List.filterMap_cons]
      split <;> simp
    · rintro ⟨key,n⟩ old row new rfl
      obtain ⟨how,series⟩ := (single _).mp new
      obtain ⟨mark,held,le⟩ := marked.covered key n old
      have above := fresh key n how series mark held
      omega
  · intro key n member
    rw [decided,List.mem_append] at member
    rcases member with old | new
    · obtain ⟨mark,held,le⟩ := marked.covered key n old
      obtain ⟨later,after,more⟩ := answered.raised key mark held
      exact ⟨later,after,le.trans more⟩
    · obtain ⟨how,series⟩ := (single _).mp new
      rw [answered.marks,show marking key a = some n by simp [marking,how,series,Option.filter]]
      cases w.store.seriesHwm key with
      | none => exact ⟨n,rfl,le_refl _⟩
      | some mark => exact ⟨max mark n,rfl,le_max_right _ _⟩
  · intro digest
    have made : markingOf after.trace (.series digest) = markingOf w.trace (.series digest)++markingOf [a] (.series digest) := by
      rw [answered.trace]
      simp [markingOf]
    rw [made,answered.marks,marked.largest]
    cases marks : marking (.series digest) a with
    | none => simp [markingOf,marks]
    | some n => simp only [markingOf,List.filterMap_cons,marks,List.filterMap_nil,max?_concat]

end PhaseLock
