import PhaseLock.Journal

namespace PhaseLock
variable {V D : Type}

namespace Journal

-- An answer that the mutation was not taken.
def Final (result : MutationResult) : Prop := ∀ position, result ≠ .ok position

-- What takes a mutation out of the outbox: an edit of it that has entered the base, a base that
-- is applied through a position it was answered ok at, or an answer that it was not taken.
def Done (answers : List (Nat × MutationResult)) (entered : List Nat) (applied : Int) (id : Nat) : Prop :=
  id ∈ entered ∨ (∃ position, (id,.ok position) ∈ answers ∧ position ≤ applied) ∨ ∃ result, (id,result) ∈ answers ∧ Final result

-- The outbox holds what was filed and is not done, each acked at the lowest position it was
-- answered ok at.
structure Outboxed (filed : List Nat) (answers : List (Nat × MutationResult)) (entered : List Nat) (nextId : Nat) (core : Core V D) :
    Prop where
  ledger : core.Ledger
  stays : ∀ id, (∃ ordinal, core.outgoing.outbox.get id = some ordinal) ↔ id ∈ filed ∧ ¬Done answers entered core.applied id
  acks : ∀ id position, (id,.ok position) ∈ answers → (∃ ordinal, core.outgoing.outbox.get id = some ordinal) →
    ∃ low, core.outgoing.acked.get id = some low ∧ low ≤ position
  told : ∀ id position, core.outgoing.acked.get id = some position → (id,.ok position) ∈ answers
  alone : ∀ id ∈ filed, core.outgoing.online.get id = none
  online : ∀ id entry, core.outgoing.online.get id = some entry → id < nextId
  filed : ∀ id ∈ filed, id < nextId
  answered : ∀ row ∈ answers, row.1 < nextId
  entered : ∀ id ∈ entered, id < nextId

variable {filed entered ids : List Nat} {answers : List (Nat × MutationResult)} {id nextId : Nat} {core after : Core V D}

theorem Done.mono {answers' : List (Nat × MutationResult)} {entered' : List Nat} {applied applied' : Int}
    (more : answers ⊆ answers') (in_ : entered ⊆ entered') (le : applied ≤ applied') (done : Done answers entered applied id) :
    Done answers' entered' applied' id := by
  rcases done with edit | ⟨position,answer,low⟩ | ⟨result,answer,final⟩
  · exact .inl (in_ edit)
  · exact .inr (.inl ⟨position,more answer,low.trans le⟩)
  · exact .inr (.inr ⟨result,more answer,final⟩)

-- Edits that enter the base take their mutations out, and a base applied further those acked.
theorem Outboxed.enters (held : Outboxed filed answers entered nextId core) (enters : core.Enters ids after) :
    Outboxed filed answers (entered++ids.filter (· < nextId)) nextId after := by
  obtain ⟨ledger,moves⟩ := enters held.ledger
  have older : ∀ x, Done answers entered core.applied x → Done answers (entered++ids.filter (· < nextId)) after.applied x :=
    fun x => Done.mono (List.Subset.refl _) (List.subset_append_left _ _) moves.applied
  have goes : ∀ x, x ∈ filed → ¬Done answers entered core.applied x →
      (Core.leaves ids core after.applied x = true ↔ Done answers (entered++ids.filter (· < nextId)) after.applied x) := by
    intro x member open_
    have inside := (held.stays x).mpr ⟨member,open_⟩
    unfold Core.leaves
    rw [Bool.or_eq_true,decide_eq_true_eq,Option.any_eq_true]
    constructor
    · rintro (edit | ⟨position,acked,low⟩)
      · exact .inl (List.mem_append_right _ (List.mem_filter.mpr ⟨edit,by simpa using held.filed x member⟩))
      · exact .inr (.inl ⟨position,held.told x position acked,by simpa using low⟩)
    · rintro (edit | ⟨position,answer,low⟩ | final)
      · rcases List.mem_append.mp edit with old | new
        · exact absurd (.inl old) open_
        · exact .inl (List.mem_filter.mp new).1
      · obtain ⟨lowest,acked,le⟩ := held.acks x position answer inside
        exact .inr ⟨lowest,acked,by simpa using le.trans low⟩
      · exact absurd (.inr (.inr final)) open_
  refine ⟨ledger,fun x => ?_,fun x position answer some_ => ?_,fun x position acked => ?_,fun x member => ?_,fun x entry sent => ?_,
    held.filed,held.answered,fun x member => ?_⟩
  · rw [moves.outbox]
    constructor
    · rintro ⟨ordinal,inside⟩
      split at inside
      · cases inside
      · rename_i kept
        obtain ⟨member,open_⟩ := (held.stays x).mp ⟨ordinal,inside⟩
        exact ⟨member,fun done => kept ((goes x member open_).mpr done)⟩
    · rintro ⟨member,open_⟩
      have before : ¬Done answers entered core.applied x := fun done => open_ (older x done)
      rw [if_neg fun gone => open_ ((goes x member before).mp gone)]
      exact (held.stays x).mpr ⟨member,before⟩
  · rw [moves.outbox] at some_
    rw [moves.acked]
    split at some_
    · obtain ⟨ordinal,none⟩ := some_
      cases none
    · rename_i kept
      rw [if_neg kept]
      exact held.acks x position answer some_
  · rw [moves.acked] at acked
    split at acked
    · cases acked
    · exact held.told x position acked
  · rw [moves.online,held.alone x member]
    rfl
  · rw [moves.online] at sent
    obtain ⟨old,before,_⟩ := Option.map_eq_some_iff.mp sent
    exact held.online x old before
  · rcases List.mem_append.mp member with old | new
    · exact held.entered x old
    · simpa using (List.mem_filter.mp new).2

theorem Outboxed.apart (held : Outboxed filed answers entered nextId core) (apart : core.Apart after) :
    Outboxed filed answers entered nextId after := by
  have same := held.enters apart.enters
  rw [List.filter_nil,List.append_nil] at same
  exact same

-- One submission is minted: an outbox mutation is filed under a fresh row.
theorem Outboxed.mint {m final : Engine.Minting V D} {submission : Submission D} (held : Outboxed filed answers entered m.nextId m.core)
    (ran : Engine.mintIn series m submission = .ok final) :
    Outboxed (filed++(Submission.filed (submission,m.nextId)).toList) answers entered final.nextId final.core ∧
      final.nextId = m.nextId+1 := by
  cases submission with
  | online data promise =>
    cases data with
    | none => cases ran
    | some data =>
      cases ran
      refine ⟨?_,rfl⟩
      rw [show (Submission.filed (Submission.online (some data) promise,m.nextId)).toList = [] from rfl,List.append_nil]
      exact ⟨held.ledger,held.stays,held.acks,held.told,held.alone,fun x entry sent => (held.online x entry sent).trans (Nat.lt_succ_self _),
        fun x member => (held.filed x member).trans (Nat.lt_succ_self _),
        fun row member => (held.answered row member).trans (Nat.lt_succ_self _),
        fun x member => (held.entered x member).trans (Nat.lt_succ_self _)⟩
  | outbox data =>
    cases data with
    | none => cases ran
    | some data =>
      cases ran
      refine ⟨?_,rfl⟩
      have fresh : ∀ x, (∃ ordinal, m.core.outgoing.outbox.get x = some ordinal) → x ≠ m.nextId := by
        intro x inside
        have := held.filed x ((held.stays x).mp inside).1
        omega
      have unheard : ¬Done answers entered m.core.applied m.nextId := by
        rintro (edit | ⟨position,answer,_⟩ | ⟨result,answer,_⟩)
        · exact lt_irrefl _ (held.entered _ edit)
        · exact lt_irrefl _ (held.answered _ answer)
        · exact lt_irrefl _ (held.answered _ answer)
      have boxes : ∀ x, (m.core.outgoing.outbox.set m.nextId m.core.outgoing.nextOrdinal).get x =
          if m.nextId = x then some m.core.outgoing.nextOrdinal else m.core.outgoing.outbox.get x := OrderedMap.get_set _ _ _
      have rows : ∀ o, (m.core.store.mutations.set m.core.outgoing.nextOrdinal ⟨m.nextId,series,m.nextN,data⟩).get o =
          if m.core.outgoing.nextOrdinal = o then some ⟨m.nextId,series,m.nextN,data⟩ else m.core.store.mutations.get o :=
        OrderedMap.get_set _ _ _
      refine ⟨⟨⟨fun x o => ?_,fun o row stored => ?_,fun x position acked => ?_⟩,held.ledger.above⟩,fun x => ?_,
        fun x position answer inside => ?_,held.told,fun x member => ?_,fun x entry sent => (held.online x entry sent).trans (Nat.lt_succ_self _),
        fun x member => ?_,fun row member => (held.answered row member).trans (Nat.lt_succ_self _),
        fun x member => (held.entered x member).trans (Nat.lt_succ_self _)⟩
      · show (m.core.outgoing.outbox.set m.nextId m.core.outgoing.nextOrdinal).get x = some o ↔
          ∃ row, (m.core.store.mutations.set m.core.outgoing.nextOrdinal ⟨m.nextId,series,m.nextN,data⟩).get o = some row ∧ row.id = x
        rw [boxes,rows]
        by_cases here : m.nextId = x
        · subst here
          rw [if_pos rfl]
          constructor
          · rintro ⟨⟩
            exact ⟨_,if_pos rfl,rfl⟩
          · rintro ⟨row,stored,same⟩
            split at stored
            · rename_i there
              rw [there]
            · exact absurd rfl (fresh m.nextId ⟨o,(held.ledger.rows m.nextId o).mpr ⟨row,stored,same⟩⟩)
        · rw [if_neg here,held.ledger.rows]
          constructor
          · rintro ⟨row,stored,same⟩
            have below := held.ledger.minted o row stored
            exact ⟨row,by rw [if_neg (by omega)]; exact stored,same⟩
          · rintro ⟨row,stored,same⟩
            split at stored
            · cases stored
              exact absurd same here
            · exact ⟨row,stored,same⟩
      · have stored : (m.core.store.mutations.set m.core.outgoing.nextOrdinal ⟨m.nextId,series,m.nextN,data⟩).get o = some row := stored
        rw [rows] at stored
        show o < m.core.outgoing.nextOrdinal+1
        split at stored
        · omega
        · have := held.ledger.minted o row stored
          omega
      · obtain ⟨o,inside⟩ := held.ledger.acked x position acked
        refine ⟨o,?_⟩
        show (m.core.outgoing.outbox.set m.nextId m.core.outgoing.nextOrdinal).get x = some o
        rw [boxes,if_neg (Ne.symm (fresh x ⟨o,inside⟩))]
        exact inside
      · show (∃ o, (m.core.outgoing.outbox.set m.nextId m.core.outgoing.nextOrdinal).get x = some o) ↔
          x ∈ filed++[m.nextId] ∧ ¬Done answers entered m.core.applied x
        rw [boxes,List.mem_append,List.mem_singleton]
        by_cases here : m.nextId = x
        · subst here
          rw [if_pos rfl]
          exact ⟨fun _ => ⟨.inr rfl,unheard⟩,fun _ => ⟨_,rfl⟩⟩
        · rw [if_neg here,held.stays]
          constructor
          · rintro ⟨member,open_⟩
            exact ⟨.inl member,open_⟩
          · rintro ⟨member | last,open_⟩
            · exact ⟨member,open_⟩
            · exact absurd last.symm here
      · have known := held.answered _ answer
        have inside : ∃ o, (m.core.outgoing.outbox.set m.nextId m.core.outgoing.nextOrdinal).get x = some o := inside
        rw [boxes,if_neg (by dsimp only at known; omega)] at inside
        exact held.acks x position answer inside
      · rcases List.mem_append.mp member with old | new
        · exact held.alone x old
        · obtain rfl : x = m.nextId := List.mem_singleton.mp new
          refine Option.eq_none_iff_forall_ne_some.mpr fun entry sent => ?_
          exact lt_irrefl _ (held.online _ entry sent)
      · show x < m.nextId+1
        rcases List.mem_append.mp member with old | new
        · exact (held.filed x old).trans (Nat.lt_succ_self _)
        · obtain rfl : x = m.nextId := List.mem_singleton.mp new
          exact Nat.lt_succ_self _

theorem Outboxed.mints {submissions : List (Submission D)} {m final : Engine.Minting V D}
    (held : Outboxed filed answers entered m.nextId m.core) (ran : submissions.foldlM (Engine.mintIn series) m = .ok final) :
    Outboxed (filed++(submissions.zipIdx m.nextId).filterMap Submission.filed) answers entered final.nextId final.core := by
  induction submissions generalizing m filed with
  | nil =>
    cases ran
    rw [List.zipIdx_nil,List.filterMap_nil,List.append_nil]
    exact held
  | cons submission rest ih =>
    obtain ⟨next,one,ran⟩ := foldlM_ok.mp ran
    obtain ⟨minted,id⟩ := held.mint one
    have all := ih minted ran
    rw [id,List.append_assoc] at all
    rw [List.zipIdx_cons,List.filterMap_cons]
    cases filed : Submission.filed (submission,m.nextId) with
    | none =>
      rw [filed] at all
      exact all
    | some x =>
      rw [filed] at all
      exact all

theorem submittedIn_mints {engine : Engine V D} {m : Engine.Minting V D} (ran : engine.submittedIn = .ok m) :
    ∃ wire, engine.submitted.foldlM (Engine.mintIn engine.series)
      {core:=engine.core,nextN:=engine.nextN,nextId:=engine.nextId,wire} = .ok m := by
  unfold Engine.submittedIn at ran
  split at ran
  · obtain ⟨wire,_,ran⟩ := bind_ok.mp ran
    exact ⟨wire,ran⟩
  · exact ⟨[],ran⟩

-- A pass's answers so far: what they ack, and which mutations they let go.
structure Hearing (answers rows : List (Nat × MutationResult)) (core : Core V D) (state : Engine V D × List Nat) : Prop where
  store : state.1.core.store = core.store
  applied : state.1.core.applied = core.applied
  outbox : state.1.core.outgoing.outbox = core.outgoing.outbox
  ordinal : state.1.core.outgoing.nextOrdinal = core.outgoing.nextOrdinal
  told : ∀ id position, state.1.core.outgoing.acked.get id = some position →
    (id,.ok position) ∈ answers++rows ∧ (∃ ordinal, core.outgoing.outbox.get id = some ordinal)
  acks : ∀ id position, (id,.ok position) ∈ answers++rows → (∃ ordinal, core.outgoing.outbox.get id = some ordinal) →
    ∃ low, state.1.core.outgoing.acked.get id = some low ∧ low ≤ position
  drops : ∀ id, id ∈ state.2 ↔ (∃ ordinal, core.outgoing.outbox.get id = some ordinal) ∧
    ((∃ position, (id,.ok position) ∈ rows ∧ position ≤ core.applied) ∨ ∃ result, (id,result) ∈ rows ∧ Final result)
  above : ∀ id position, state.1.core.outgoing.acked.get id = some position → position ≤ core.applied → id ∈ state.2
  online : ∀ id, core.outgoing.online.get id = none → state.1.core.outgoing.online.get id = none

variable {rows : List (Nat × MutationResult)} {state : Engine V D × List Nat}

-- What changes @online mutations and promises alone.
theorem Hearing.beside (hearing : Hearing answers rows core state) {final : Engine V D × List Nat}
    (store : final.1.core.store = state.1.core.store) (applied : final.1.core.applied = state.1.core.applied)
    (outbox : final.1.core.outgoing.outbox = state.1.core.outgoing.outbox)
    (ordinal : final.1.core.outgoing.nextOrdinal = state.1.core.outgoing.nextOrdinal)
    (acked : final.1.core.outgoing.acked = state.1.core.outgoing.acked) (drop : final.2 = state.2)
    (online : ∀ id, state.1.core.outgoing.online.get id = none → final.1.core.outgoing.online.get id = none) :
    Hearing answers rows core final := by
  refine ⟨store.trans hearing.store,applied.trans hearing.applied,outbox.trans hearing.outbox,ordinal.trans hearing.ordinal,?_,?_,?_,?_,
    fun x none => online x (hearing.online x none)⟩
  · rw [acked]
    exact hearing.told
  · rw [acked]
    exact hearing.acks
  · rw [drop]
    exact hearing.drops
  · rw [acked,drop]
    exact hearing.above

theorem settle_core (engine : Engine V D) (promise : Nat) (settlement : Settlement) :
    (engine.settle promise settlement).core = engine.core := by
  unfold Engine.settle
  split <;> rfl

theorem Hearing.failOne {engine : Engine V D} {drop : List Nat} (hearing : Hearing answers rows core (engine,drop)) (x : Nat) :
    Hearing answers rows core (engine.failOne x,drop) := by
  unfold Engine.failOne
  split
  · exact hearing
  · refine hearing.beside ?_ ?_ ?_ ?_ ?_ rfl ?_ <;> simp only [settle_core]
    · rfl
    · rfl
    · rfl
    · rfl
    · rfl
    · intro y none
      show (engine.core.outgoing.online.del x).get y = Option.none
      rw [OrderedMap.get_del,none,ite_self]

-- A mutation's answer that says nothing of the outbox's.
theorem Hearing.other (hearing : Hearing answers rows core state) (row : Nat × MutationResult)
    (absent : ∀ ordinal, core.outgoing.outbox.get row.1 ≠ some ordinal) : Hearing answers (rows++[row]) core state := by
  have old : ∀ x result, (∃ ordinal, core.outgoing.outbox.get x = some ordinal) → ((x,result) ∈ rows++[row] ↔ (x,result) ∈ rows) := by
    rintro x result ⟨ordinal,inside⟩
    rw [List.mem_append,List.mem_singleton,or_iff_left]
    rintro rfl
    exact absent ordinal inside
  refine {hearing with told := fun x position acked => ?_, acks := fun x position answer inside => ?_, drops := fun x => ?_}
  · obtain ⟨answer,inside⟩ := hearing.told x position acked
    rw [← List.append_assoc]
    exact ⟨List.mem_append_left _ answer,inside⟩
  · refine hearing.acks x position ?_ inside
    rcases List.mem_append.mp answer with before | now
    · exact List.mem_append_left _ before
    · exact List.mem_append_right _ ((old x _ inside).mp now)
  · rw [hearing.drops]
    constructor
    · rintro ⟨inside,why⟩
      refine ⟨inside,?_⟩
      simpa only [old x _ inside] using why
    · rintro ⟨inside,why⟩
      refine ⟨inside,?_⟩
      simpa only [old x _ inside] using why

-- One that says it was decided by a position: the lowest so far is the one it is acked at.
theorem Hearing.acks_ok {engine : Engine V D} {drop : List Nat} (hearing : Hearing answers rows core (engine,drop)) {x : Nat} {position : Int}
    (inside : ∃ ordinal, core.outgoing.outbox.get x = some ordinal) :
    Hearing answers (rows++[(x,.ok position)]) core
      (engine.out {engine.core.outgoing with
        acked:=engine.core.outgoing.acked.set x (min position ((engine.core.outgoing.acked.get x).getD position))},
        if min position ((engine.core.outgoing.acked.get x).getD position) ≤ engine.core.applied then drop++[x] else drop) := by
  have applied : engine.core.applied = core.applied := hearing.applied
  -- the lowest is the answer's own, or one it was acked at before
  have lowest : min position ((engine.core.outgoing.acked.get x).getD position) = position ∨
      engine.core.outgoing.acked.get x = some (min position ((engine.core.outgoing.acked.get x).getD position)) := by
    cases engine.core.outgoing.acked.get x with
    | none => exact .inl (min_self position)
    | some low =>
      rcases min_choice position low with is | is
      · exact .inl is
      · exact .inr (congrArg some is.symm)
  have own : min position ((engine.core.outgoing.acked.get x).getD position) ≤ position := min_le_left _ _
  have under : ∀ low, engine.core.outgoing.acked.get x = some low →
      min position ((engine.core.outgoing.acked.get x).getD position) ≤ low := by
    intro low acked
    rw [acked]
    exact min_le_right _ _
  generalize min position ((engine.core.outgoing.acked.get x).getD position) = least at lowest own under ⊢
  have acks : ∀ y, (engine.core.outgoing.acked.set x least).get y = if x = y then some least else engine.core.outgoing.acked.get y :=
    OrderedMap.get_set _ _ _
  have dropped : ∀ y, y ∈ (if least ≤ engine.core.applied then drop++[x] else drop) ↔ y ∈ drop ∨ y = x ∧ least ≤ core.applied := by
    intro y
    rw [applied]
    split
    · rename_i low
      simp [low]
    · rename_i high
      simp [high]
  have old : ∀ y result, y ≠ x → ((y,result) ∈ rows++[(x,MutationResult.ok position)] ↔ (y,result) ∈ rows) := by
    intro y result other
    rw [List.mem_append,List.mem_singleton,or_iff_left]
    intro same
    exact other (congrArg Prod.fst same)
  refine ⟨hearing.store,hearing.applied,hearing.outbox,hearing.ordinal,fun y p acked => ?_,fun y p answer held => ?_,fun y => ?_,
    fun y p acked low => ?_,hearing.online⟩
  · have acked : (engine.core.outgoing.acked.set x least).get y = some p := acked
    rw [acks] at acked
    rw [← List.append_assoc]
    split at acked
    · rename_i here
      cases acked
      subst here
      refine ⟨?_,inside⟩
      rcases lowest with is | before
      · rw [is]
        exact List.mem_append_right _ List.mem_cons_self
      · exact List.mem_append_left _ (hearing.told x _ before).1
    · obtain ⟨answer,held⟩ := hearing.told y p acked
      exact ⟨List.mem_append_left _ answer,held⟩
  · show ∃ low, (engine.core.outgoing.acked.set x least).get y = some low ∧ low ≤ p
    rw [acks]
    rw [← List.append_assoc] at answer
    by_cases here : x = y
    · subst here
      rw [if_pos rfl]
      refine ⟨least,rfl,?_⟩
      rcases List.mem_append.mp answer with before | now
      · obtain ⟨low,acked,le⟩ := hearing.acks x p before held
        exact (under low acked).trans le
      · cases List.mem_singleton.mp now
        exact own
    · rw [if_neg here]
      refine hearing.acks y p ?_ held
      rcases List.mem_append.mp answer with before | now
      · exact before
      · cases List.mem_singleton.mp now
        exact absurd rfl here
  · rw [dropped,hearing.drops]
    by_cases here : y = x
    · subst here
      constructor
      · rintro (⟨_,⟨p,answer,low⟩ | ⟨result,answer,final⟩⟩ | ⟨_,low⟩)
        · exact ⟨inside,.inl ⟨p,List.mem_append_left _ answer,low⟩⟩
        · exact ⟨inside,.inr ⟨result,List.mem_append_left _ answer,final⟩⟩
        · rcases lowest with is | before
          · exact ⟨inside,.inl ⟨position,List.mem_append_right _ List.mem_cons_self,is ▸ low⟩⟩
          · obtain ⟨_,⟨p,answer,le⟩ | ⟨result,answer,final⟩⟩ := (hearing.drops y).mp (hearing.above y least before low)
            · exact ⟨inside,.inl ⟨p,List.mem_append_left _ answer,le⟩⟩
            · exact ⟨inside,.inr ⟨result,List.mem_append_left _ answer,final⟩⟩
      · rintro ⟨_,⟨p,answer,low⟩ | ⟨result,answer,final⟩⟩
        · rcases List.mem_append.mp answer with before | now
          · exact .inl ⟨inside,.inl ⟨p,before,low⟩⟩
          · cases List.mem_singleton.mp now
            exact .inr ⟨rfl,own.trans low⟩
        · rcases List.mem_append.mp answer with before | now
          · exact .inl ⟨inside,.inr ⟨result,before,final⟩⟩
          · cases List.mem_singleton.mp now
            exact absurd rfl (final position)
    · simp only [old y _ here,here,false_and,or_false]
  · have acked : (engine.core.outgoing.acked.set x least).get y = some p := acked
    rw [acks] at acked
    refine (dropped y).mpr ?_
    split at acked
    · rename_i here
      cases acked
      exact .inr ⟨here.symm,low⟩
    · exact .inl (hearing.above y p acked low)

theorem Hearing.answer (hearing : Hearing answers rows core state) (alone : ∀ id, (∃ ordinal, core.outgoing.outbox.get id = some ordinal) →
    core.outgoing.online.get id = none) (row : Nat × MutationResult) : Hearing answers (rows++[row]) core (Engine.answer state row) := by
  obtain ⟨engine,drop⟩ := state
  obtain ⟨x,result⟩ := row
  unfold Engine.answer
  dsimp only
  cases sent : engine.core.outgoing.online.get x with
  | some entry =>
    have absent : ∀ ordinal, core.outgoing.outbox.get x ≠ some ordinal := by
      intro ordinal inside
      have none := hearing.online x (alone x ⟨ordinal,inside⟩)
      dsimp only at none
      rw [sent] at none
      cases none
    have quiet := hearing.other (x,result) absent
    cases result with
    | ok position =>
      refine quiet.beside rfl rfl rfl rfl rfl rfl fun y none => ?_
      show (engine.core.outgoing.online.set x _).get y = Option.none
      rw [OrderedMap.get_set]
      split
      · rename_i here
        subst here
        rw [sent] at none
        cases none
      · exact none
    | reject | conflict =>
      refine quiet.beside ?_ ?_ ?_ ?_ ?_ rfl ?_ <;> simp only [settle_core]
      · rfl
      · rfl
      · rfl
      · rfl
      · rfl
      · intro y none
        show (engine.core.outgoing.online.del x).get y = Option.none
        rw [OrderedMap.get_del,none,ite_self]
  | none =>
    dsimp only
    have box : engine.core.outgoing.outbox = core.outgoing.outbox := hearing.outbox
    split
    · rename_i has
      rw [box] at has
      have inside := (core.outgoing.outbox.has_iff x).mp has
      cases result with
      | ok position => exact hearing.acks_ok inside
      | reject | conflict =>
        dsimp only
        refine ⟨hearing.store,hearing.applied,hearing.outbox,hearing.ordinal,fun y p acked => ?_,fun y p answer held => ?_,fun y => ?_,
          fun y p acked low => List.mem_append_left _ (hearing.above y p acked low),hearing.online⟩
        · obtain ⟨answer,held⟩ := hearing.told y p acked
          rw [← List.append_assoc]
          exact ⟨List.mem_append_left _ answer,held⟩
        · rw [← List.append_assoc] at answer
          refine hearing.acks y p ?_ held
          rcases List.mem_append.mp answer with before | now
          · exact before
          · cases List.mem_singleton.mp now
        · rw [List.mem_append,List.mem_singleton,hearing.drops]
          constructor
          · rintro (⟨held,⟨p,answer,low⟩ | ⟨why,answer,final⟩⟩ | rfl)
            · exact ⟨held,.inl ⟨p,List.mem_append_left _ answer,low⟩⟩
            · exact ⟨held,.inr ⟨why,List.mem_append_left _ answer,final⟩⟩
            · exact ⟨inside,.inr ⟨_,List.mem_append_right _ List.mem_cons_self,fun p is => by cases is⟩⟩
          · rintro ⟨held,⟨p,answer,low⟩ | ⟨why,answer,final⟩⟩
            · rcases List.mem_append.mp answer with before | now
              · exact .inl ⟨held,.inl ⟨p,before,low⟩⟩
              · cases List.mem_singleton.mp now
            · rcases List.mem_append.mp answer with before | now
              · exact .inl ⟨held,.inr ⟨why,before,final⟩⟩
              · cases List.mem_singleton.mp now
                exact .inr rfl
    · rename_i absent
      rw [box] at absent
      refine hearing.other _ fun ordinal inside => absent ((core.outgoing.outbox.has_iff x).mpr ⟨ordinal,inside⟩)

theorem Hearing.run (hearing : Hearing answers rows core state) (alone : ∀ id, (∃ ordinal, core.outgoing.outbox.get id = some ordinal) →
    core.outgoing.online.get id = none) (more : List (Nat × MutationResult)) :
    Hearing answers (rows++more) core (more.foldl Engine.answer state) := by
  induction more generalizing rows state with
  | nil =>
    rw [List.append_nil]
    exact hearing
  | cons row rest ih =>
    rw [List.append_cons]
    exact ih (hearing.answer alone row)

theorem Hearing.fails {engine : Engine V D} {drop : List Nat} (hearing : Hearing answers rows core (engine,drop)) (ids : List Nat) :
    Hearing answers rows core (ids.foldl Engine.failOne engine,drop) :=
  foldl_invariant (P := fun engine : Engine V D => Hearing answers rows core (engine,drop)) (fun _ x _ before => before.failOne x) hearing

theorem Hearing.outcome (hearing : Hearing answers rows core state) (alone : ∀ id, (∃ ordinal, core.outgoing.outbox.get id = some ordinal) →
    core.outgoing.online.get id = none) (outcome : MutationOutcome) :
    Hearing answers (rows++outcome.ids.zip (outcome.results.getD [])) core (Engine.onOutcome state outcome) := by
  unfold Engine.onOutcome
  cases outcome.results with
  | none =>
    rw [Option.getD_none,List.zip_nil_right,List.append_nil]
    exact (hearing.fails outcome.ids).beside rfl rfl rfl rfl rfl rfl fun _ none => none
  | some results => exact hearing.run alone _

theorem Hearing.outcomes (hearing : Hearing answers rows core state) (alone : ∀ id, (∃ ordinal, core.outgoing.outbox.get id = some ordinal) →
    core.outgoing.online.get id = none) (outcomes : List MutationOutcome) :
    Hearing answers (rows++outcomes.flatMap fun outcome => outcome.ids.zip (outcome.results.getD [])) core
      (outcomes.foldl Engine.onOutcome state) := by
  induction outcomes generalizing rows state with
  | nil =>
    rw [List.flatMap_nil,List.append_nil]
    exact hearing
  | cons outcome rest ih =>
    rw [List.flatMap_cons,← List.append_assoc]
    exact ih (hearing.outcome alone outcome)

theorem Outboxed.hearing (held : Outboxed filed answers entered nextId core) {engine : Engine V D} (is : engine.core = core) :
    Hearing answers [] core (engine,[]) where
  store := by rw [is]
  applied := by rw [is]
  outbox := by rw [is]
  ordinal := by rw [is]
  told x position acked := by
    rw [is] at acked
    rw [List.append_nil]
    exact ⟨held.told x position acked,held.ledger.acked x position acked⟩
  acks x position answer inside := by
    rw [List.append_nil] at answer
    rw [is]
    exact held.acks x position answer inside
  drops x := by simp
  above x position acked low := by
    rw [is] at acked
    have := held.ledger.above x position acked
    omega
  online x none := by
    rw [is]
    exact none

theorem Outboxed.apart_online (held : Outboxed filed answers entered nextId core) {x : Nat}
    (inside : ∃ ordinal, core.outgoing.outbox.get x = some ordinal) : core.outgoing.online.get x = none :=
  held.alone x ((held.stays x).mp inside).1

theorem Hearing.filed_of {engine : Engine V D} {drop : List Nat} (hearing : Hearing answers rows core (engine,drop)) (filed : core.Filed) :
    engine.core.Filed := by
  have box : engine.core.outgoing.outbox = core.outgoing.outbox := hearing.outbox
  have store : engine.core.store = core.store := hearing.store
  have ordinal : engine.core.outgoing.nextOrdinal = core.outgoing.nextOrdinal := hearing.ordinal
  refine ⟨fun x o => ?_,fun o m row => ?_,fun x position acked => ?_⟩
  · rw [box,store]
    exact filed.rows x o
  · rw [store] at row
    rw [ordinal]
    exact filed.minted o m row
  · rw [box]
    exact (hearing.told x position acked).2

-- The pass's answers let go of what they say is done.
theorem Outboxed.hears (held : Outboxed filed answers entered nextId core) {engine : Engine V D} {drop : List Nat}
    (hearing : Hearing answers rows core (engine,drop)) :
    Outboxed filed (answers++rows.filter (·.1 < nextId)) entered nextId (engine.core.releaseIn drop) := by
  have box : engine.core.outgoing.outbox = core.outgoing.outbox := hearing.outbox
  have filed_ := hearing.filed_of held.ledger.toFiled
  obtain ⟨moves,applied⟩ := Core.releaseIn_moves filed_ drop
  have applied := applied.trans hearing.applied
  have known : ∀ x result, x ∈ filed → (x,result) ∈ rows → (x,result) ∈ answers++rows.filter (·.1 < nextId) :=
    fun x result member answer => List.mem_append_right _ (List.mem_filter.mpr ⟨answer,by simpa using held.filed x member⟩)
  have heard : ∀ row ∈ answers++rows.filter (·.1 < nextId), row ∈ answers++rows := by
    intro row member
    rcases List.mem_append.mp member with old | new
    · exact List.mem_append_left _ old
    · exact List.mem_append_right _ (List.mem_filter.mp new).1
  have goes : ∀ x, x ∈ filed → ¬Done answers entered core.applied x →
      (x ∈ drop ↔ Done (answers++rows.filter (·.1 < nextId)) entered core.applied x) := by
    intro x member open_
    have inside := (held.stays x).mpr ⟨member,open_⟩
    refine (hearing.drops x).trans ⟨?_,?_⟩
    · rintro ⟨_,⟨position,answer,low⟩ | ⟨result,answer,final⟩⟩
      · exact .inr (.inl ⟨position,known x _ member answer,low⟩)
      · exact .inr (.inr ⟨result,known x _ member answer,final⟩)
    · rintro (edit | ⟨position,answer,low⟩ | ⟨result,answer,final⟩)
      · exact absurd (.inl edit) open_
      · refine ⟨inside,.inl ⟨position,?_,low⟩⟩
        rcases List.mem_append.mp (heard _ answer) with old | new
        · exact absurd (.inr (.inl ⟨position,old,low⟩)) open_
        · exact new
      · refine ⟨inside,.inr ⟨result,?_,final⟩⟩
        rcases List.mem_append.mp (heard _ answer) with old | new
        · exact absurd (.inr (.inr ⟨result,old,final⟩)) open_
        · exact new
  have older : ∀ x, Done answers entered core.applied x → Done (answers++rows.filter (·.1 < nextId)) entered core.applied x :=
    fun x => Done.mono (List.subset_append_left _ _) (List.Subset.refl _) (le_refl _)
  refine ⟨moves.ledger_of filed_ fun x position acked stays => ?_,fun x => ?_,fun x position answer inside => ?_,fun x position acked => ?_,
    fun x member => ?_,fun x entry sent => ?_,held.filed,fun row member => ?_,held.entered⟩
  · rw [applied]
    by_contra low
    exact absurd (hearing.above x position acked (not_lt.mp low)) (by simpa using stays)
  · rw [moves.outbox,box,applied]
    constructor
    · rintro ⟨o,inside⟩
      split at inside
      · cases inside
      · rename_i kept
        obtain ⟨member,open_⟩ := (held.stays x).mp ⟨o,inside⟩
        exact ⟨member,fun done => kept (by simpa using (goes x member open_).mpr done)⟩
    · rintro ⟨member,open_⟩
      have before : ¬Done answers entered core.applied x := fun done => open_ (older x done)
      rw [if_neg fun gone => open_ ((goes x member before).mp (by simpa using gone))]
      exact (held.stays x).mpr ⟨member,before⟩
  · rw [moves.outbox,box] at inside
    rw [moves.acked]
    split at inside
    · obtain ⟨o,none⟩ := inside
      cases none
    · rename_i kept
      rw [if_neg kept]
      exact hearing.acks x position (heard _ answer) inside
  · rw [moves.acked] at acked
    split at acked
    · cases acked
    · obtain ⟨answer,inside⟩ := hearing.told x position acked
      have member := ((held.stays x).mp inside).1
      rcases List.mem_append.mp answer with old | new
      · exact List.mem_append_left _ old
      · exact known x _ member new
  · rw [moves.online,hearing.online x (held.alone x member)]
    rfl
  · rw [moves.online] at sent
    obtain ⟨old,before,_⟩ := Option.map_eq_some_iff.mp sent
    cases first : core.outgoing.online.get x with
    | none =>
      have none := hearing.online x first
      dsimp only at none
      rw [none] at before
      cases before
    | some entry => exact held.online x entry first
  · rcases List.mem_append.mp member with old | new
    · exact held.answered row old
    · simpa using (List.mem_filter.mp new).2

end Journal
end PhaseLock
