import PhaseLock.StartSteps
import PhaseLock.Engine

namespace PhaseLock
variable {V D : Type}

namespace Core

-- The outbox as memory and store tell it: each mutation in it has its row, under an ordinal
-- minted before the next, and one that is acked is in it.
structure Filed (core : Core V D) : Prop where
  rows : ∀ id ordinal, core.outgoing.outbox.get id = some ordinal ↔ ∃ m, core.store.mutations.get ordinal = some m ∧ m.id = id
  minted : ∀ ordinal m, core.store.mutations.get ordinal = some m → ordinal < core.outgoing.nextOrdinal
  acked : ∀ id position, core.outgoing.acked.get id = some position → ∃ ordinal, core.outgoing.outbox.get id = some ordinal

-- Between steps what is acked is acked above what the base is applied through.
structure Ledger (core : Core V D) : Prop extends Filed core where
  above : ∀ id position, core.outgoing.acked.get id = some position → core.applied < position

-- What a step does to the app's mutations: the @online ones it sees, the outbox ones it drops,
-- and what it tells the query graph of it.
structure Moves (seen : List Nat) (gone : Nat → Bool) (core after : Core V D) : Prop where
  applied : core.applied ≤ after.applied
  ordinal : after.outgoing.nextOrdinal = core.outgoing.nextOrdinal
  online : ∀ id, after.outgoing.online.get id =
    (core.outgoing.online.get id).map fun o => {o with seen:=o.seen || decide (id ∈ seen)}
  outbox : ∀ id, after.outgoing.outbox.get id = if gone id then none else core.outgoing.outbox.get id
  acked : ∀ id, after.outgoing.acked.get id = if gone id then none else core.outgoing.acked.get id
  sent : ∀ id, (id ∈ after.outgoing.sent → id ∈ core.outgoing.sent) ∧
    (gone id = false → id ∈ core.outgoing.sent → id ∈ after.outgoing.sent)
  rows : ∀ ordinal, after.store.mutations.get ordinal = (core.store.mutations.get ordinal).filter fun m => !gone m.id
  changed : after.outgoing.outboxChanged = false → core.outgoing.outboxChanged = false ∧
    ∀ ordinal, after.store.mutations.get ordinal = core.store.mutations.get ordinal
  base : ∀ key, key ∉ after.dirty → key ∉ core.dirty ∧ after.store.base.get key = core.store.base.get key

namespace Moves

variable {core after a b c : Core V D} {seen seen' : List Nat} {gone gone' : Nat → Bool}

theorem congr (moves : Moves seen gone core after) (gone' : Nat → Bool) (same : ∀ id, gone id = gone' id) : Moves seen gone' core after := by
  obtain rfl : gone = gone' := funext same
  exact moves

theorem trans (first : Moves seen gone a b) (second : Moves seen' gone' b c) :
    Moves (seen++seen') (fun id => gone id || gone' id) a c where
  applied := first.applied.trans second.applied
  ordinal := second.ordinal.trans first.ordinal
  online id := by
    rw [second.online,first.online,Option.map_map]
    congr 1
    funext o
    simp [Bool.or_assoc]
  outbox id := by
    rw [second.outbox,first.outbox]
    cases gone id <;> cases gone' id <;> rfl
  acked id := by
    rw [second.acked,first.acked]
    cases gone id <;> cases gone' id <;> rfl
  sent id := by
    refine ⟨fun last => (first.sent id).1 ((second.sent id).1 last),fun stays before => ?_⟩
    obtain ⟨one,two⟩ := Bool.or_eq_false_iff.mp stays
    exact (second.sent id).2 two ((first.sent id).2 one before)
  rows ordinal := by
    rw [second.rows,first.rows,Option.filter_filter]
    congr 1
    funext m
    simp
  changed same := by
    obtain ⟨middle,rows⟩ := second.changed same
    obtain ⟨before,rows'⟩ := first.changed middle
    exact ⟨before,fun ordinal => (rows ordinal).trans (rows' ordinal)⟩
  base key quiet := by
    obtain ⟨middle,same⟩ := second.base key quiet
    obtain ⟨before,same'⟩ := first.base key middle
    exact ⟨before,same.trans same'⟩

-- What is left is filed as well.
theorem filed (moves : Moves seen gone core after) (filed : core.Filed) : after.Filed where
  rows id ordinal := by
    rw [moves.outbox,moves.rows]
    constructor
    · intro held
      split at held
      · cases held
      · rename_i stays
        obtain ⟨m,row,rfl⟩ := (filed.rows id ordinal).mp held
        refine ⟨m,?_,rfl⟩
        rw [row,Option.filter_some,if_pos (by simpa using stays)]
    · rintro ⟨m,row,rfl⟩
      obtain ⟨row,stays⟩ := Option.filter_eq_some_iff.mp row
      rw [if_neg (by simpa using stays)]
      exact (filed.rows m.id ordinal).mpr ⟨m,row,rfl⟩
  minted ordinal m row := by
    rw [moves.rows] at row
    rw [moves.ordinal]
    exact filed.minted ordinal m (Option.filter_eq_some_iff.mp row).1
  acked id position held := by
    rw [moves.acked] at held
    split at held
    · cases held
    · rename_i stays
      rw [moves.outbox,if_neg stays]
      exact filed.acked id position held

-- It is a ledger, if nothing acked is left behind.
theorem ledger_of (moves : Moves seen gone core after) (filed : core.Filed)
    (above : ∀ id position, core.outgoing.acked.get id = some position → gone id = false → after.applied < position) :
    after.Ledger where
  toFiled := moves.filed filed
  above id position held := by
    rw [moves.acked] at held
    split at held
    · cases held
    · rename_i stays
      exact above id position held (by simpa using stays)

end Moves

-- What touches neither the app's mutations nor the base and how far it is applied.
structure Apart (core after : Core V D) : Prop where
  applied : after.applied = core.applied
  outgoing : after.outgoing = core.outgoing
  rows : after.store.mutations = core.store.mutations
  base : after.store.base = core.store.base
  dirty : after.dirty = core.dirty

theorem Apart.refl (core : Core V D) : core.Apart core := ⟨rfl,rfl,rfl,rfl,rfl⟩

theorem Apart.trans {a b c : Core V D} (first : a.Apart b) (second : b.Apart c) : a.Apart c :=
  ⟨second.applied.trans first.applied,second.outgoing.trans first.outgoing,second.rows.trans first.rows,
    second.base.trans first.base,second.dirty.trans first.dirty⟩

theorem Apart.moves {core after : Core V D} (apart : core.Apart after) : Moves [] (fun _ => false) core after := by
  obtain ⟨applied,outgoing,rows,base,dirty⟩ := apart
  refine ⟨le_of_eq applied.symm,by rw [outgoing],fun id => ?_,fun id => by rw [outgoing]; rfl,fun id => by rw [outgoing]; rfl,
    fun id => by rw [outgoing]; exact ⟨fun inside => inside,fun _ inside => inside⟩,fun ordinal => ?_,fun same => ⟨by rw [← outgoing]; exact same,fun ordinal => by rw [rows]⟩,
    fun key quiet => ⟨by rw [← dirty]; exact quiet,by rw [base]⟩⟩
  · rw [outgoing]
    cases core.outgoing.online.get id <;> simp
  · rw [rows]
    cases core.store.mutations.get ordinal <;> rfl

-- Which outbox mutations a step that brings edits in drops: those whose edits these are, and
-- those acked at or below what the base is then applied through.
def leaves (ids : List Nat) (core : Core V D) (applied : Int) (id : Nat) : Bool :=
  decide (id ∈ ids) || (core.outgoing.acked.get id).any (· ≤ applied)

-- A step that brings edits of mutations into the base, the mutations' state good before it.
def Enters (ids : List Nat) (core after : Core V D) : Prop :=
  core.Ledger → after.Ledger ∧ Moves ids (leaves ids core after.applied) core after

theorem Enters.trans {a b c : Core V D} {ids ids' : List Nat} (first : Enters ids a b) (second : Enters ids' b c) :
    Enters (ids++ids') a c := by
  intro ledger
  obtain ⟨middle,moved⟩ := first ledger
  obtain ⟨final,moved'⟩ := second middle
  refine ⟨final,(moved.trans moved').congr _ fun id => ?_⟩
  have later := moved'.applied
  unfold leaves
  rw [moved.acked]
  unfold leaves
  cases held : a.outgoing.acked.get id with
  | none => by_cases one : id ∈ ids <;> by_cases two : id ∈ ids' <;> simp [one,two]
  | some position =>
    by_cases one : id ∈ ids <;> by_cases two : id ∈ ids' <;> by_cases low : position ≤ b.applied <;> simp [one,two,low]
    omega

theorem Apart.enters {core after : Core V D} (apart : core.Apart after) : Enters [] core after := by
  intro ledger
  have above : ∀ id position, core.outgoing.acked.get id = some position → after.applied < position := by
    intro id position held
    rw [apart.applied]
    exact ledger.above id position held
  refine ⟨apart.moves.ledger_of ledger.toFiled fun id position held _ => above id position held,apart.moves.congr _ fun id => ?_⟩
  unfold leaves
  cases held : core.outgoing.acked.get id with
  | none => rfl
  | some position => simp [above id position held]

theorem Enters.refl (core : Core V D) : Enters [] core core := (Apart.refl core).enters

theorem enters_folds {α : Type} {f : Core V D → α → Core V D} (items : List α) (each : ∀ core item, Enters [] core (f core item))
    (core : Core V D) : Enters [] core (items.foldl f core) :=
  foldl_invariant (P := Enters [] core) (fun s item _ before => Enters.trans before (each s item)) (.refl core)

theorem apart_folds {α : Type} {f : Core V D → α → Core V D} (items : List α) (each : ∀ (core : Core V D) item, core.Apart (f core item))
    (core : Core V D) : core.Apart (items.foldl f core) :=
  foldl_invariant (P := core.Apart) (fun s item _ before => Apart.trans before (each s item)) (.refl core)

-- The base changes where the graph is told it does.
theorem base_enters {core : Core V D} {base : Base V} {changed : List Key}
    (told : ∀ key, key ∉ changed → base.get key = core.store.base.get key) :
    Enters [] core (({core with store:={core.store with base}} : Core V D).markDirty changed) := by
  intro ledger
  obtain ⟨_,moves⟩ := (Apart.refl core).enters ledger
  refine ⟨⟨⟨ledger.rows,ledger.minted,ledger.acked⟩,ledger.above⟩,{moves with base := fun key quiet => ?_}⟩
  have quiet : key ∉ core.dirty++changed := quiet
  rw [List.mem_append,not_or] at quiet
  exact ⟨quiet.1,told key quiet.2⟩

theorem release_moves {core : Core V D} (filed : core.Filed) (id : Nat) : Moves [] (· == id) core (core.release id) := by
  have quiet := (Apart.refl core).moves
  unfold release
  cases held : core.outgoing.outbox.get id with
  | none =>
    have absent : ∀ ordinal m, core.store.mutations.get ordinal = some m → m.id ≠ id := by
      rintro ordinal m row rfl
      rw [(filed.rows m.id ordinal).mpr ⟨m,row,rfl⟩] at held
      cases held
    have unacked : core.outgoing.acked.get id = none := by
      refine Option.eq_none_iff_forall_ne_some.mpr fun position some_ => ?_
      obtain ⟨ordinal,kept⟩ := filed.acked id position some_
      rw [kept] at held
      cases held
    refine {quiet with outbox := fun x => ?_, acked := fun x => ?_, rows := fun ordinal => ?_, sent := fun x => ⟨fun inside => inside,fun _ inside => inside⟩}
    · by_cases here : x = id
      · rw [if_pos (by simpa using here),here,held]
      · rw [if_neg (by simpa using here)]
    · by_cases here : x = id
      · rw [if_pos (by simpa using here),here,unacked]
      · rw [if_neg (by simpa using here)]
    · cases row : core.store.mutations.get ordinal with
      | none => rfl
      | some m => rw [Option.filter_some,if_pos (by simpa using absent ordinal m row)]
  | some ordinal =>
    have dropped : ∀ {ν : Type} (m : OrderedMap Nat ν) (x : Nat), (m.del id).get x = if (x == id) = true then none else m.get x := by
      intro ν m x
      rw [OrderedMap.get_del]
      by_cases here : id = x
      · rw [if_pos here,if_pos (by simpa using here.symm)]
      · rw [if_neg here,if_neg (by simpa using Ne.symm here)]
    refine ⟨le_refl _,rfl,quiet.online,dropped core.outgoing.outbox,dropped core.outgoing.acked,
      fun x => ⟨fun inside => (List.mem_filter.mp inside).1,fun stays inside => List.mem_filter.mpr ⟨inside,by simpa using stays⟩⟩,fun place => ?_,
      fun same => (by cases same),fun key quiet => ⟨quiet,rfl⟩⟩
    show (core.store.mutations.del ordinal).get place = _
    rw [OrderedMap.get_del]
    cases row : core.store.mutations.get place with
    | none => simp
    | some m =>
      have here : m.id = id ↔ ordinal = place := by
        constructor
        · rintro rfl
          have place_ := (filed.rows m.id place).mpr ⟨m,row,rfl⟩
          rw [held] at place_
          exact Option.some.inj place_
        · rintro rfl
          obtain ⟨m',row',same⟩ := (filed.rows id ordinal).mp held
          rw [row] at row'
          cases row'
          exact same
      by_cases same : m.id = id
      · rw [if_pos (here.mp same),Option.filter_some,if_neg (by simpa using same)]
      · rw [if_neg (fun equal => same (here.mpr equal)),Option.filter_some,if_pos (by simpa using same)]

theorem release_applied (core : Core V D) (id : Nat) : (core.release id).applied = core.applied := by
  unfold release
  split <;> rfl

theorem releaseIn_moves {core : Core V D} (filed : core.Filed) (ids : List Nat) :
    Moves [] (fun id => decide (id ∈ ids)) core (core.releaseIn ids) ∧ (core.releaseIn ids).applied = core.applied := by
  unfold releaseIn
  induction ids generalizing core with
  | nil => exact ⟨(Apart.refl core).moves.congr _ fun _ => by simp,rfl⟩
  | cons id rest ih =>
    have one := release_moves filed id
    obtain ⟨moves,same⟩ := ih (one.filed filed)
    exact ⟨(one.trans moves).congr _ fun x => by simp [beq_eq_decide],same.trans (release_applied core id)⟩

theorem mem_ackedThrough (core : Core V D) (position : Int) (id : Nat) :
    decide (id ∈ core.ackedThrough position) = (core.outgoing.acked.get id).any (· ≤ position) := by
  rw [Bool.eq_iff_iff,decide_eq_true_eq,Option.any_eq_true]
  unfold ackedThrough
  simp only [List.mem_map,List.mem_filter,decide_eq_true_eq]
  constructor
  · rintro ⟨⟨x,p⟩,⟨entry,low⟩,rfl⟩
    exact ⟨p,(core.outgoing.acked.mem_entries x p).mp entry,low⟩
  · rintro ⟨p,held,low⟩
    exact ⟨(id,p),⟨(core.outgoing.acked.mem_entries id p).mpr held,low⟩,rfl⟩

-- The acked mutations the applied position leaves behind are the ones that go.
theorem releaseThroughIn_enters (core : Core V D) (position : Int) : Enters [] core (core.releaseThroughIn position) := by
  intro ledger
  unfold releaseThroughIn
  split
  · exact Enters.refl core ledger
  · rename_i past
    let later : Core V D := {core with applied:=position}
    have filed : later.Filed := ⟨ledger.rows,ledger.minted,ledger.acked⟩
    have rises : Moves [] (fun _ => false) core later := {(Apart.refl core).moves with applied := (not_le.mp past).le}
    obtain ⟨moves,applied⟩ := releaseIn_moves filed (core.ackedThrough position)
    have both := (rises.trans moves).congr (leaves [] core position) fun id => by
      simp only [leaves,mem_ackedThrough,Bool.false_or,List.not_mem_nil,decide_false]
    rw [applied]
    refine ⟨both.ledger_of ledger.toFiled fun id p held stays => ?_,both⟩
    rw [applied]
    unfold leaves at stays
    rw [held] at stays
    simpa using stays

theorem markSeen_moves (core : Core V D) (id : Nat) : Moves [id] (fun _ => false) core (core.markSeen id) := by
  have quiet := (Apart.refl core).moves
  have others : ∀ x, x ≠ id → (core.outgoing.online.get x).map (fun o : OnlineMutation => {o with seen:=o.seen || decide (x ∈ [id])}) =
      core.outgoing.online.get x := by
    intro x other
    cases core.outgoing.online.get x <;> simp [other]
  unfold markSeen
  cases held : core.outgoing.online.get id with
  | none =>
    refine {quiet with online := fun x => ?_}
    by_cases here : x = id
    · rw [here,held]
      rfl
    · exact (others x here).symm
  | some online =>
    refine {quiet with online := fun x => ?_}
    show (core.outgoing.online.set id _).get x = _
    rw [OrderedMap.get_set]
    by_cases here : x = id
    · rw [if_pos here.symm,here,held]
      simp
    · rw [if_neg (Ne.symm here),others x here]

-- An edit that enters the base.
theorem roundTrip_enters (core : Core V D) (id : Nat) : Enters [id] core (core.roundTrip id) := by
  intro ledger
  unfold roundTrip
  have gone : ∀ (applied : Int) x, applied = core.applied → (x == id) = leaves [id] core applied x := by
    rintro _ x rfl
    unfold leaves
    cases held : core.outgoing.acked.get x with
    | none => simp [beq_eq_decide]
    | some p => simp [beq_eq_decide,ledger.above x p held]
  split
  · obtain ⟨moves,applied⟩ := releaseIn_moves ledger.toFiled [id]
    have both := (moves.trans (markSeen_moves (core.releaseIn [id]) id)).congr (· == id) fun x => by
      simp [beq_eq_decide]
    have same : ((core.releaseIn [id]).markSeen id).applied = core.applied := by
      rw [← applied]
      unfold markSeen
      split <;> rfl
    refine ⟨both.ledger_of ledger.toFiled fun x p held _ => ?_,both.congr _ fun x => gone _ x same⟩
    rw [same]
    exact ledger.above x p held
  · rename_i absent
    have none_ : core.outgoing.outbox.get id = none := by
      cases held : core.outgoing.outbox.get id with
      | none => rfl
      | some ordinal => exact absurd ((core.outgoing.outbox.has_iff id).mpr ⟨ordinal,held⟩) absent
    -- a mutation not in the outbox has nothing to leave
    have stays : core.release id = core := by
      unfold release
      rw [none_]
    have moves := release_moves ledger.toFiled id
    rw [stays] at moves
    have both := (moves.trans (markSeen_moves core id)).congr (· == id) fun x => by simp
    have same : (core.markSeen id).applied = core.applied := by
      unfold markSeen
      split <;> rfl
    refine ⟨both.ledger_of ledger.toFiled fun x p held _ => ?_,both.congr _ fun x => gone _ x same⟩
    rw [same]
    exact ledger.above x p held

theorem roundTrips_enter (edits : List (WireEdit V)) (core : Core V D) :
    Enters (edits.map WireEdit.id) core (edits.foldl (fun core e => core.roundTrip e.id) core) := by
  induction edits generalizing core with
  | nil => exact .refl core
  | cons e rest ih => exact (roundTrip_enters core e.id).trans (ih _)

end Core

namespace Base

-- Writes that name every key they change.
def Told (state final : Base V × List Key) : Prop :=
  ∀ key, key ∉ final.2 → key ∉ state.2 ∧ final.1.get key = state.1.get key

theorem Told.refl (state : Base V × List Key) : Told state state := fun _ quiet => ⟨quiet,rfl⟩

theorem Told.trans {a b c : Base V × List Key} (first : Told a b) (second : Told b c) : Told a c := by
  intro key quiet
  obtain ⟨middle,same⟩ := second key quiet
  obtain ⟨before,same'⟩ := first key middle
  exact ⟨before,same.trans same'⟩

theorem delPrefix_told (base : Base V) (text key : Key) (quiet : key ∉ (base.delPrefix text).2) :
    (base.delPrefix text).1.get key = base.get key := by
  rw [delPrefix_get]
  split
  · rename_i starts
    refine ((base.not_mem_keys key).mp fun member => ?_).symm
    exact quiet (List.mem_filter.mpr ⟨member,List.isPrefixOf_iff_prefix.mpr starts⟩)
  · rfl

-- A key written is named.
theorem Told.write (base : Base V) (changed : List Key) (key : Key) (value : Option V) :
    Told (base,changed) (base.write key value,changed++[key]) := by
  intro other quiet
  rw [List.mem_append,not_or,List.mem_singleton] at quiet
  exact ⟨quiet.1,by rw [write_get,if_neg (Ne.symm quiet.2)]⟩

theorem writeOps_told {lifecycle : Lifecycle} {slice : Name} {ops : List (Key × Option V)} {state final : Base V × List Key}
    (ran : writeOps lifecycle slice ops state = .ok final) : Told state final := by
  induction ops generalizing state with
  | nil =>
    cases ran
    exact .refl _
  | cons op rest ih =>
    obtain ⟨base,changed⟩ := state
    simp only [writeOps] at ran
    split at ran
    · cases ran
    · split at ran
      · cases ran
      · split at ran
        · cases ran
        · exact (Told.write base changed op.1 op.2).trans (ih ran)

theorem applyEdit_told {slice : Name} {state final : Base V × List Key} {e : WireEdit V}
    (ran : applyEdit slice state e = .ok final) : Told state final := by
  unfold applyEdit at ran
  split at ran
  · exact writeOps_told ran
  · dsimp only at ran
    refine Told.trans (fun key quiet => ?_) (writeOps_told ran)
    rw [List.mem_append,not_or] at quiet
    exact ⟨quiet.1,delPrefix_told state.1 _ key quiet.2⟩

theorem writePage_told {selector : Name} {skip : List Name} {page : List (Key × V)} {state final : Base V × List Key}
    (ran : writePage selector skip page state = .ok final) : Told state final := by
  induction page generalizing state with
  | nil =>
    cases ran
    exact .refl _
  | cons row rest ih =>
    obtain ⟨base,changed⟩ := state
    simp only [writePage] at ran
    split at ran
    · cases ran
    · split at ran
      · cases ran
      · split at ran
        · exact ih ran
        · exact (Told.write base changed row.1 (some row.2)).trans (ih ran)

theorem folds_told {α : Type} {f : Base V × List Key → α → Except Failure (Base V × List Key)} {items : List α}
    {state final : Base V × List Key} (each : ∀ {s item t}, f s item = .ok t → Told s t) (ran : items.foldlM f state = .ok final) :
    Told state final :=
  foldlM_invariant (P := Told state) (fun _ _ _ _ before stepped => Told.trans before (each stepped)) (.refl state) ran

end Base

namespace Core

theorem clearIn_enters (core : Core V D) (slice : Name) : Enters [] core (core.clearIn slice) :=
  base_enters fun key => Base.delPrefix_told core.store.base _ key

theorem writeBlobIn_enters {core after : Core V D} {b : Blob} {skip : List Name} (ran : core.writeBlobIn b skip = .ok after) :
    Enters [] core after := by
  obtain ⟨⟨store,changed⟩,wrote,done⟩ := bind_ok.mp ran
  cases done
  obtain ⟨⟨base,keys⟩,paged,done⟩ := bind_ok.mp wrote
  cases done
  exact base_enters fun key quiet => (Base.folds_told Base.writePage_told paged key quiet).2

theorem applyRunIn_enters {core after : Core V D} {plan : Plan V} (ran : core.applyRunIn plan = .ok after) :
    Enters (plan.run.map WireEdit.id) core after := by
  unfold applyRunIn at ran
  split at ran
  · rename_i none
    cases ran
    rw [none]
    exact .refl core
  · obtain ⟨⟨store,changed⟩,wrote,done⟩ := bind_ok.mp ran
    cases done
    obtain ⟨⟨base,keys⟩,applied,done⟩ := bind_ok.mp wrote
    cases done
    exact (base_enters fun key quiet => (Base.folds_told Base.applyEdit_told applied key quiet).2).trans (roundTrips_enter plan.run _)

theorem applyEditsIn_enters {core after : Core V D} {edits : List (WireEdit V)} (ran : core.applyEditsIn edits = .ok after) :
    Enters [] core after := by
  obtain ⟨⟨base,changed⟩,applied,done⟩ := bind_ok.mp ran
  cases done
  exact base_enters fun key quiet => (Base.folds_told Base.applyEdit_told applied key quiet).2

theorem startBackfill_apart (core : Core V D) (r : Name) : core.Apart (core.startBackfill r) := by
  unfold startBackfill
  split <;> exact ⟨rfl,rfl,rfl,rfl,rfl⟩

theorem restartIn_apart (core : Core V D) (r : Name) : core.Apart (core.restartIn r) := by
  unfold restartIn
  split
  · exact .refl core
  · refine Apart.trans ?_ (startBackfill_apart _ r)
    exact ⟨rfl,rfl,rfl,rfl,rfl⟩

theorem spawnIn_apart (core : Core V D) (r : Name) (position : Int) : core.Apart (core.spawnIn r position) := by
  refine Apart.trans ?_ (startBackfill_apart _ r)
  exact ⟨rfl,rfl,rfl,rfl,rfl⟩

theorem dropBackfillIn_apart (core : Core V D) (r : Name) : core.Apart (core.dropBackfillIn r) := by
  unfold dropBackfillIn
  split <;> exact ⟨rfl,rfl,rfl,rfl,rfl⟩

theorem settleIn_apart (core : Core V D) (slice : Name) (seq : Option Nat) : core.Apart (core.settleIn slice seq) := by
  cases seq <;> exact ⟨rfl,rfl,rfl,rfl,rfl⟩

theorem mendIn_apart (cursor : Int) (core : Core V D) (slice : Name) : core.Apart (core.mendIn cursor slice) := by
  unfold mendIn
  split
  · exact restartIn_apart core slice
  · exact spawnIn_apart core slice _

theorem delParked_folds (slices : List Name) (store : Store V D) :
    (slices.foldl Store.delParked store).mutations = store.mutations ∧ (slices.foldl Store.delParked store).base = store.base :=
  foldl_invariant (P := fun s : Store V D => s.mutations = store.mutations ∧ s.base = store.base)
    (fun _ _ _ before => before) ⟨rfl,rfl⟩

theorem dropParkedIn_apart (core : Core V D) (keep : Name → Bool) : core.Apart (core.dropParkedIn keep) := by
  obtain ⟨rows,base⟩ := delParked_folds (core.store.parkedSlices.filter (!keep ·)) core.store
  exact ⟨rfl,rfl,rows,base,rfl⟩

theorem saveCursor_apart (core : Core V D) (epoch : Name) (position : Int) : core.Apart (core.saveCursor epoch position) := by
  unfold saveCursor
  dsimp only
  split <;> exact ⟨rfl,rfl,rfl,rfl,rfl⟩

theorem saveApplied_apart (core : Core V D) (position : Int) : core.Apart (core.saveApplied position) := by
  unfold saveApplied
  split <;> exact ⟨rfl,rfl,rfl,rfl,rfl⟩

theorem filterView_apart (core : Core V D) (keep : Name → Bool) : core.Apart (core.filterView keep) := by
  unfold filterView
  split
  · exact .refl core
  · split <;> exact ⟨rfl,rfl,rfl,rfl,rfl⟩

theorem parkPushIn_apart {core after : Core V D} {r : Name} {item : BackfillItem V} (ran : core.parkPushIn r item = .ok after) :
    core.Apart after := by
  unfold parkPushIn at ran
  split at ran
  · cases ran
  · split at ran <;> cases ran <;> exact ⟨rfl,rfl,rfl,rfl,rfl⟩

theorem onOutcomeIn_apart (conn : Nat) (core : Core V D) (ended : Ended) : core.Apart (core.onOutcomeIn conn ended) := by
  unfold onOutcomeIn
  split
  · exact .refl core
  · split
    · exact .refl core
    · split
      · exact .refl core
      · split
        · exact ⟨rfl,rfl,rfl,rfl,rfl⟩
        · refine Apart.trans ?_ (startBackfill_apart _ _)
          exact ⟨rfl,rfl,rfl,rfl,rfl⟩
        · split <;> exact ⟨rfl,rfl,rfl,rfl,rfl⟩

theorem onRetryTimer_apart (core : Core V D) (timer : Name × Nat) : core.Apart (core.onRetryTimer timer) := by
  unfold onRetryTimer
  dsimp only
  split
  · exact ⟨rfl,rfl,rfl,rfl,rfl⟩
  · split
    · exact ⟨rfl,rfl,rfl,rfl,rfl⟩
    · refine Apart.trans ?_ (startBackfill_apart _ _)
      exact ⟨rfl,rfl,rfl,rfl,rfl⟩

theorem grantIn_apart (old atStart : List Name) (position : Int) (core : Core V D) (selector : Name) :
    core.Apart (core.grantIn old atStart position selector) := by
  unfold grantIn
  split
  · exact .refl core
  · split
    · exact .refl core
    · exact spawnIn_apart core selector position

theorem diffIn_apart (core : Core V D) (record : ViewRecord) : core.Apart (core.diffIn record) := by
  unfold diffIn
  exact (apart_folds _ dropBackfillIn_apart core).trans (apart_folds _ (grantIn_apart _ _ _) _)

theorem onOpenIn_apart {core after : Core V D} {epoch : Name} (ran : core.onOpenIn epoch = .ok after) : core.Apart after := by
  unfold onOpenIn at ran
  split at ran
  · cases ran
    exact ⟨rfl,rfl,rfl,rfl,rfl⟩
  · split at ran
    · cases ran
    · cases ran
      exact ⟨rfl,rfl,rfl,rfl,rfl⟩

theorem dropSliceIn_enters (core : Core V D) (slice : Name) : Enters [] core (core.dropSliceIn slice) := by
  have rest : (core.clearIn slice).Apart (core.dropSliceIn slice) := ⟨rfl,rfl,rfl,rfl,rfl⟩
  exact (clearIn_enters core slice).trans rest.enters

theorem dropSlicesIn_enters (core : Core V D) (keep : Name → Bool) : Enters [] core (core.dropSlicesIn keep) :=
  enters_folds _ dropSliceIn_enters core

theorem appliedTo_enters (core : Core V D) (position : Int) : Enters [] core (core.appliedTo position) := by
  unfold appliedTo
  split
  · exact .refl core
  · exact (releaseThroughIn_enters core position).trans (saveApplied_apart _ position).enters

theorem advanceCursorIn_enters {core after : Core V D} {position : Int} {applied : Bool}
    (ran : core.advanceCursorIn position applied = .ok after) : Enters [] core after := by
  obtain ⟨epoch,_,rfl⟩ := advance_ok ran
  have reached : Enters [] core (if applied then core.releaseThroughIn position else core) := by
    split
    · exact releaseThroughIn_enters core position
    · exact .refl core
  exact reached.trans (saveCursor_apart _ epoch position).enters

-- The edits a land brings in, if it goes through.
def landed (core : Core V D) : List (WireEdit V) :=
  match core.blobs with
  | .error _ => []
  | .ok blobs =>
    if core.parkedPast core.cursor ∨ (core.plansOf blobs).any (·.gap) then [] else (core.plansOf blobs).flatMap Plan.run

def tryLanded (core : Core V D) : List (WireEdit V) :=
  match waits core.cursor core.backfills.entries with
  | .ok false => core.landed
  | _ => []

theorem settlePlans_enter {plans : List (Plan V)} {core after : Core V D} (ran : plans.foldlM settlePlanIn core = .ok after) :
    Enters ((plans.flatMap Plan.run).map WireEdit.id) core after := by
  induction plans generalizing core with
  | nil =>
    cases ran
    exact .refl _
  | cons plan rest ih =>
    obtain ⟨next,one,ran⟩ := foldlM_ok.mp ran
    obtain ⟨middle,applied,done⟩ := bind_ok.mp one
    cases done
    rw [List.flatMap_cons,List.map_append]
    have settled := (applyRunIn_enters applied).trans (settleIn_apart middle plan.slice plan.heldAt).enters
    rw [List.append_nil] at settled
    exact settled.trans (ih ran)

theorem landPlansIn_enters {core after : Core V D} {blobs : List Blob} {plans : List (Plan V)} {cursor : Int}
    (ran : core.landPlansIn blobs plans cursor = .ok after) : Enters ((plans.flatMap Plan.run).map WireEdit.id) core after := by
  obtain ⟨written,wrote,ran⟩ := bind_ok.mp ran
  obtain ⟨planned,settled,done⟩ := bind_ok.mp ran
  cases done
  have cleared := enters_folds (plans.filter (·.blob)) (fun core plan => clearIn_enters core plan.slice) core
  have blobbed : Enters [] _ written := foldlM_invariant (P := Enters [] _)
    (fun _ _ _ _ before stepped => Enters.trans before (writeBlobIn_enters stepped)) (.refl _) wrote
  have dropped := dropSlicesIn_enters planned planned.inView
  have parked : (planned.dropSlicesIn planned.inView).Apart (planned.dropSlicesIn planned.inView).clearParked := ⟨rfl,rfl,rfl,rfl,rfl⟩
  have ended := apart_folds ((planned.dropSlicesIn planned.inView).clearParked.backfills.keys) dropBackfillIn_apart
    (planned.dropSlicesIn planned.inView).clearParked
  have whole := (cleared.trans blobbed).trans ((settlePlans_enter settled).trans
    (dropped.trans ((parked.trans ended).enters.trans (appliedTo_enters _ cursor))))
  simp only [List.nil_append,List.append_nil] at whole
  exact whole

theorem landIn_enters {core after : Core V D} (ran : core.landIn = .ok after) : Enters (core.landed.map WireEdit.id) core after := by
  unfold landed
  obtain ⟨blobs,read,ran⟩ := bind_ok.mp ran
  rw [read]
  dsimp only at ran ⊢
  split at ran
  · rename_i past
    cases ran
    rw [if_pos (.inl past)]
    exact .refl core
  · rename_i reached
    split at ran
    · rename_i whole
      have none : (core.plansOf blobs).any (·.gap) = false := by
        rw [List.any_eq_false]
        exact fun plan member gap => List.filter_eq_nil_iff.mp whole plan member gap
      rw [if_neg (by rw [none]; simpa using reached)]
      exact landPlansIn_enters ran
    · rename_i broken
      cases ran
      have some_ : (core.plansOf blobs).any (·.gap) = true := by
        by_contra none
        exact broken (List.filter_eq_nil_iff.mpr fun plan member gap => none (List.any_eq_true.mpr ⟨plan,member,gap⟩))
      rw [if_pos (.inr some_)]
      exact (apart_folds _ (mendIn_apart core.cursor) core).enters

theorem tryLandIn_enters {core after : Core V D} (ran : core.tryLandIn = .ok after) : Enters (core.tryLanded.map WireEdit.id) core after := by
  unfold tryLanded
  obtain ⟨waiting,looked,ran⟩ := bind_ok.mp ran
  rw [looked]
  cases waiting with
  | true =>
    cases ran
    exact .refl core
  | false => exact landIn_enters ran

-- A frame's edits as they chain, none while frozen, and those of one that applies whole.
def frameOf (core : Core V D) (edits : List (WireEdit V)) : Frame V :=
  if core.frozen then {} else edits.foldl (Frame.step core.slices) {}

def framed (core : Core V D) (edits : List (WireEdit V)) : List (WireEdit V) :=
  if core.frozen ∨ (core.frameOf edits).breaks ≠ [] then [] else (core.frameOf edits).apply

theorem applyFrameIn_enters {core after : Core V D} {frame : Frame V} (ran : core.applyFrameIn frame = .ok after) :
    Enters (frame.apply.map WireEdit.id) core after := by
  obtain ⟨middle,applied,done⟩ := bind_ok.mp ran
  cases done
  have settled := apart_folds frame.seqs.entries (fun core row => settleIn_apart core row.1 row.2) middle
  have whole := (roundTrips_enter frame.apply core).trans ((applyEditsIn_enters applied).trans settled.enters)
  simp only [List.append_nil] at whole
  exact whole

theorem spawnBreak_apart (core : Core V D) (e : WireEdit V) : core.Apart (core.spawnBreak e) := by
  unfold spawnBreak
  split
  · exact .refl core
  · exact spawnIn_apart core e.slice e.position

theorem onEditsIn_enters {core after : Core V D} {edits : List (WireEdit V)} (ran : core.onEditsIn edits = .ok after) :
    Enters ((core.framed edits).map WireEdit.id) core after := by
  unfold onEditsIn at ran
  unfold framed
  split at ran
  · rename_i none
    cases ran
    rw [List.getLast?_eq_none_iff.mp none]
    have idle : (core.frameOf ([] : List (WireEdit V))).apply = [] := by
      unfold frameOf
      split <;> rfl
    rw [idle,ite_self]
    exact .refl _
  · rename_i last _
    have ran : (if core.frozen = true ∨ (core.frameOf edits).breaks ≠ [] then
        (((core.frameOf edits).breaks.foldl spawnBreak core).parkEdits edits).advanceCursorIn last.position false
        else core.applyFrameIn (core.frameOf edits) >>= fun core => core.advanceCursorIn last.position true) = .ok after := ran
    split at ran
    · rename_i parks
      rw [if_pos parks]
      have spawned := apart_folds (core.frameOf edits).breaks spawnBreak_apart core
      have parked : ((core.frameOf edits).breaks.foldl spawnBreak core).Apart
          (((core.frameOf edits).breaks.foldl spawnBreak core).parkEdits edits) := ⟨rfl,rfl,rfl,rfl,rfl⟩
      exact (spawned.trans parked).enters.trans (advanceCursorIn_enters ran)
    · rename_i whole
      rw [if_neg whole]
      obtain ⟨middle,applied,ran⟩ := bind_ok.mp ran
      have both := (applyFrameIn_enters applied).trans (advanceCursorIn_enters ran)
      rw [List.append_nil] at both
      exact both

-- A view frame up to its drops.
def viewed (core : Core V D) (record : ViewRecord) : Except Failure (Core V D) :=
  if ((core.diffIn record).writeView record).checkpoint = none then
    ((core.diffIn record).writeView record).advanceCursorIn record.position false
  else .ok ((core.diffIn record).writeView record)

-- The edits one item of the inbox brings into the base.
def broughtBy (core : Core V D) : Inbound V → List (WireEdit V)
  | .edits edits => core.framed edits
  | .view record => match core.viewed record with
    | .ok after => if ¬after.frozen ∧ core.frozen then after.landed else []
    | .error _ => []
  | _ => []

theorem onViewIn_enters {core after : Core V D} {record : ViewRecord} (ran : core.onViewIn record = .ok after) :
    Enters ((core.broughtBy (.view record)).map WireEdit.id) core after := by
  rw [onViewIn_parts] at ran
  obtain ⟨middle,made,ran⟩ := bind_ok.mp ran
  have written : core.Apart ((core.diffIn record).writeView record) := (diffIn_apart core record).trans ⟨rfl,rfl,rfl,rfl,rfl⟩
  have before : Enters [] core middle := by
    split at made
    · exact written.enters.trans (advanceCursorIn_enters made)
    · cases made
      exact written.enters
  have is : core.viewed record = .ok middle := made
  show Enters (List.map WireEdit.id (match core.viewed record with
    | .ok after => if ¬after.frozen ∧ core.frozen then after.landed else []
    | .error _ => [])) core after
  rw [is]
  unfold dropsIn at ran
  dsimp only
  split at ran
  · rename_i frozen
    cases ran
    rw [if_neg fun both => both.1 frozen]
    exact before
  · rename_i thawed
    split at ran
    · rename_i was
      rw [if_pos ⟨thawed,was⟩]
      exact before.trans (landIn_enters ran)
    · rename_i was
      cases ran
      rw [if_neg fun both => was both.2]
      exact before.trans (dropSlicesIn_enters middle middle.inView)

theorem onItemIn_enters {core after : Core V D} {item : Inbound V} (ran : core.onItemIn item = .ok after) :
    Enters ((core.broughtBy item).map WireEdit.id) core after := by
  cases item with
  | opened epoch head => exact (onOpenIn_apart ran).enters
  | view record => exact onViewIn_enters ran
  | edits edits => exact onEditsIn_enters ran
  | live position => exact advanceCursorIn_enters ran
  | vouch position => exact advanceCursorIn_enters ran
  | ended fatal =>
    cases ran
    exact .refl _

-- Those an inbox's transaction brings in, a land at its end included.
def brought (core : Core V D) : List (Inbound V) → List (WireEdit V)
  | [] => if core.frozen then core.tryLanded else []
  | item :: rest => core.broughtBy item++match core.onItemIn item with
    | .ok next => next.brought rest
    | .error _ => []

theorem onItemsIn_enters {items : List (Inbound V)} {core after : Core V D} (ran : core.onItemsIn items = .ok after) :
    Enters ((core.brought items).map WireEdit.id) core after := by
  induction items generalizing core with
  | nil =>
    have ran : (if core.frozen = true then core.tryLandIn else .ok core) = .ok after := ran
    unfold brought
    split at ran
    · rename_i frozen
      rw [if_pos frozen]
      exact tryLandIn_enters ran
    · rename_i thawed
      rw [if_neg thawed]
      cases ran
      exact .refl _
  | cons item rest ih =>
    obtain ⟨final,read,landing⟩ := bind_ok.mp ran
    obtain ⟨next,one,read⟩ := foldlM_ok.mp read
    unfold brought
    rw [one,List.map_append]
    exact (onItemIn_enters one).trans (ih (bind_ok.mpr ⟨final,read,landing⟩))

-- Those a download's pushes do, by the land they complete.
def pushed (core : Core V D) (pushes : List (BackfillWork V)) : List (WireEdit V) :=
  match pushes.foldlM (fun core work => core.parkPushIn work.call.selector work.item) core with
  | .ok next => next.tryLanded
  | .error _ => []

theorem onPushesIn_enters {core after : Core V D} {pushes : List (BackfillWork V)} (ran : core.onPushesIn pushes = .ok after) :
    Enters ((core.pushed pushes).map WireEdit.id) core after := by
  obtain ⟨middle,parked,ran⟩ := bind_ok.mp ran
  unfold pushed
  rw [parked]
  have before : core.Apart middle := foldlM_invariant (P := core.Apart)
    (fun _ _ _ _ before stepped => Apart.trans before (parkPushIn_apart stepped)) (.refl core) parked
  exact before.enters.trans (tryLandIn_enters ran)

-- And those a start does, of what waited ready.
def purges (core : Core V D) (wants : List Name) : List (WireEdit V) :=
  if core.frozen then (core.purged wants).tryLanded else []

theorem purgeIn_enters {core after : Core V D} {wants : List Name} (ran : core.purgeIn wants = .ok after) :
    Enters ((core.purges wants).map WireEdit.id) core after := by
  rw [purgeIn_parts] at ran
  unfold purges
  have dropped := apart_folds (core.backfills.keys.filter (!covered wants ·)) dropBackfillIn_apart core
  have before : Enters [] core (core.purged wants) := (dropped.enters.trans (dropSlicesIn_enters _ (covered wants))).trans
    ((dropParkedIn_apart _ (covered wants)).trans (filterView_apart _ (covered wants))).enters
  split at ran
  · rename_i frozen
    rw [if_pos frozen]
    exact before.trans (tryLandIn_enters ran)
  · rename_i thawed
    cases ran
    rw [if_neg thawed]
    exact before

-- A transaction that throws brings nothing in.
def ifRan {α : Type} (ran : Except Failure α) (edits : List (WireEdit V)) : List (WireEdit V) :=
  match ran with
  | .ok _ => edits
  | .error _ => []

end Core
end PhaseLock
