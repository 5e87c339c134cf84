import PhaseLock.SendOrder

namespace PhaseLock
variable {V D : Type}

-- Predictions as what they are for: each mutation in turn acts on the content the one before it
-- left, all of its writes or none.
def replayOne (predictor : Predictor V D) (content : Key → Option V) (data : D) : Key → Option V :=
  match predictor content data with
  | none => content
  | some ops => ops.foldl (fun content op => Function.update content op.1 op.2) content

def replayAll (predictor : Option (Predictor V D)) (content : Key → Option V) (outbox : List D) : Key → Option V :=
  match predictor with
  | none => content
  | some predictor => outbox.foldl (replayOne predictor) content

namespace Overlay

theorem view_set (overlay : Overlay V) (base : Base V) (key : Key) (value : Option V) :
    Overlay.view (overlay.set key value) base = Function.update (overlay.view base) key value := by
  funext other
  unfold view
  rw [OrderedMap.get_set]
  by_cases here : key = other
  · subst here
    rw [if_pos rfl,Function.update_self]
  · rw [if_neg here,Function.update_of_ne (Ne.symm here)]

theorem view_writes (ops : List (Key × Option V)) (overlay : Overlay V) (base : Base V) :
    Overlay.view (ops.foldl (fun overlay op => overlay.set op.1 op.2) overlay) base =
      ops.foldl (fun content op => Function.update content op.1 op.2) (overlay.view base) := by
  induction ops generalizing overlay with
  | nil => rfl
  | cons op rest ih => rw [List.foldl_cons,List.foldl_cons,ih,view_set]

theorem view_predictOne (predictor : Predictor V D) (base : Base V) (overlay : Overlay V) (m : Mutation D) :
    (predictOne predictor base overlay m).view base = replayOne predictor (overlay.view base) m.data := by
  unfold predictOne replayOne
  cases predictor (overlay.view base) m.data with
  | none => rfl
  | some ops => exact view_writes ops overlay base

theorem view_predicts (predictor : Predictor V D) (base : Base V) (rows : List (Nat × Mutation D)) (overlay : Overlay V) :
    Overlay.view (rows.foldl (fun overlay row => predictOne predictor base overlay row.2) overlay) base =
      (rows.map (·.2.data)).foldl (replayOne predictor) (overlay.view base) := by
  induction rows generalizing overlay with
  | nil => rfl
  | cons row rest ih => rw [List.foldl_cons,List.map_cons,List.foldl_cons,ih,view_predictOne]

-- The overlay over its base is the base with the outbox replayed on it.
theorem predictAll_replays (predictor : Option (Predictor V D)) (store : Store V D) :
    (predictAll predictor store).view store.base = replayAll predictor store.base.get (store.mutations.scan.map (·.2.data)) := by
  unfold predictAll replayAll
  cases predictor with
  | none => rfl
  | some predictor => exact view_predicts predictor store.base store.mutations.scan ∅

end Overlay

namespace Journal
open Engine

theorem reached_sends {wants : List Name} {predictor : Option (Predictor V D)} {weather : Weather} {j : Journal V D}
    (path : machine.Reaches (first wants predictor weather) j) : Kept j ∧ Sending j.engine :=
  path.invariant (P := fun j => Kept j ∧ Sending j.engine)
    ⟨(first_kept wants predictor weather).1,start_sends first_outboxed wants predictor 0 weather (fun _ _ none => (by cases none))
      (fun _ _ _ _ none => (by cases none))⟩
    fun s happening held _ => ⟨(held.1.next happening).1,held.1.sends held.2 happening⟩

-- The mutations of a store's outbox are lined up as they were minted, and are those of its Engine.
theorem Kept.lines {j : Journal V D} (kept : Kept j) (sending : Sending j.engine) :
    ((j.engine.core.store.mutations.scan.map Prod.snd).Pairwise fun a b => Stamp.Before a.stamp b.stamp) ∧
      ∀ id, (∃ m ∈ j.engine.core.store.mutations.scan.map Prod.snd, m.id = id) ↔
        id ∈ j.filed ∧ ¬Done j.answers j.entered j.engine.core.applied id := by
  constructor
  · refine List.pairwise_map.mpr (j.engine.core.store.mutations.scan_sorted.imp_of_mem fun {a b} left right less => ?_)
    exact sending.lined.sorted a.1 b.1 a.2 b.2 ((OrderedMap.mem_scan _ a.1 a.2).mp left) ((OrderedMap.mem_scan _ b.1 b.2).mp right) less
  · intro id
    rw [← kept.outboxed.stays]
    constructor
    · rintro ⟨m,member,rfl⟩
      obtain ⟨⟨ordinal,m⟩,row,rfl⟩ := List.mem_map.mp member
      exact ⟨ordinal,(kept.outboxed.ledger.rows m.id ordinal).mpr ⟨m,(OrderedMap.mem_scan _ ordinal m).mp row,rfl⟩⟩
    · rintro ⟨ordinal,inside⟩
      obtain ⟨m,row,same⟩ := (kept.outboxed.ledger.rows id ordinal).mp inside
      exact ⟨m,List.mem_map.mpr ⟨(ordinal,m),(OrderedMap.mem_scan _ ordinal m).mpr row,rfl⟩,same⟩

end Journal

-- The query runs since some earlier ones read the base the Engine is left with, and the outbox it
-- is left with replayed on it.
def Engine.Replaying (runs : List (QueryRun V)) (after : Engine V D) : Prop :=
  ∃ fresh, after.runs = runs++fresh ∧ ∀ run ∈ fresh, run.base = after.core.store.base ∧
    run.overlay.view run.base = replayAll after.predictor run.base.get (after.core.store.mutations.scan.map (·.2.data))

theorem Engine.Showing.replaying {after : Engine V D} {runs : List (QueryRun V)} (shows : after.Showing runs) : after.Replaying runs := by
  obtain ⟨fresh,made,shows⟩ := shows
  refine ⟨fresh,made,fun run member => ?_⟩
  obtain ⟨base,overlay⟩ := shows run member
  rw [base,overlay,Overlay.predictAll_replays]
  exact ⟨rfl,rfl⟩

namespace Journal
open Engine

-- In every run a mutation the app filed is in the outbox, and replayed in what every query run
-- reads, until its edit has entered the base, the base is applied through an ok it was answered, or
-- it was refused, and from then on in neither.
theorem no_gap {wants : List Name} {predictor : Option (Predictor V D)} {weather : Weather} {j : Journal V D}
    (path : machine.Reaches (first wants predictor weather) j) :
    (∀ id, (∃ ordinal, j.engine.core.outgoing.outbox.get id = some ordinal) ↔
      id ∈ j.filed ∧ ¬Done j.answers j.entered j.engine.core.applied id) ∧
    (∀ id, (∃ m ∈ j.engine.core.store.mutations.scan.map Prod.snd, m.id = id) ↔
      id ∈ j.filed ∧ ¬Done j.answers j.entered j.engine.core.applied id) ∧
    (∀ event id, (id ∈ j.filed → id ∈ (j.next (.event event)).filed) ∧
      (Done j.answers j.entered j.engine.core.applied id →
        Done (j.next (.event event)).answers (j.next (.event event)).entered (j.next (.event event)).engine.core.applied id)) ∧
    (∀ happening, (j.next happening).engine.Replaying (j.earlier happening)) ∧
    (first wants predictor weather).engine.Replaying [] := by
  obtain ⟨kept,sending⟩ := reached_sends path
  exact ⟨kept.outboxed.stays,(kept.lines sending).2,kept.done,fun happening => (kept.next happening).2.replaying,
    (first_kept wants predictor weather).2.replaying⟩

-- A predictor that writes one key.
def sets : Predictor Nat Nat := fun _ data => some [(['k'],some data)]

-- A mutation answered ok at a position the base has not come to, and a query run after.
def answered : Journal Nat Nat :=
  [.event (.sendMutation (some 5)),.event (.pass {}),.event (.pass {}),.event (.pass {}),.event (.results ⟨[0],some [.ok 3],0⟩),
    .event (.pass {}),.event .newQuery].foldl next (first [] (some sets) {})

-- It stays, and so does its prediction in what the query reads.
theorem answered_stays : (∃ ordinal, answered.engine.core.outgoing.outbox.get 0 = some ordinal) ∧
    ∃ run, (answered.next (.event (.pass {}))).engine.runs = answered.engine.runs++[run] ∧
      run.overlay.view run.base ['k'] = some 5 := by
  have path : machine.Reaches (first [] (some sets) {}) answered := ⟨_,Machine.Runs.follow _ fun s event member => by
    simp only [List.mem_cons,List.not_mem_nil,or_false] at member
    rcases member with rfl | rfl | rfl | rfl | rfl | rfl | rfl <;> exact trivial⟩
  constructor
  · refine ((no_gap path).1 0).mpr ⟨by decide,?_⟩
    have answers : answered.answers = [(0,.ok 3)] := by decide
    have entered : answered.entered = [] := by decide
    have applied : answered.engine.core.applied = -1 := by decide
    rw [answers,entered,applied]
    rintro (none | ⟨position,answer,low⟩ | ⟨result,answer,final⟩)
    · cases none
    · cases List.mem_singleton.mp answer
      cases low
    · cases List.mem_singleton.mp answer
      exact final 3 rfl
  · obtain ⟨fresh,made,shows⟩ := (no_gap path).2.2.2.1 (.event (.pass {}))
    have one : (answered.next (.event (.pass {}))).engine.runs.length = (answered.earlier (.event (.pass {}))).length+1 := by decide
    have outbox : (answered.next (.event (.pass {}))).engine.core.store.mutations.scan.map (·.2.data) = [5] := by decide
    rw [made,List.length_append,Nat.add_left_cancel_iff] at one
    obtain ⟨run,rfl⟩ := List.length_eq_one_iff.mp one
    refine ⟨run,made,?_⟩
    rw [(shows run (List.mem_singleton_self run)).2,outbox]
    rfl

-- In every run every query run of a step reads the base as the step leaves it, with the outbox as
-- the step leaves it replayed on it, in the order its mutations were minted: all that were filed
-- and are not done, each once.
theorem queries_replay {wants : List Name} {predictor : Option (Predictor V D)} {weather : Weather} {j : Journal V D}
    (path : machine.Reaches (first wants predictor weather) j) (happening : Happening V D) :
    ∃ (fresh : List (QueryRun V)) (outbox : List (Mutation D)), (j.next happening).engine.runs = j.earlier happening++fresh ∧
      (outbox.Pairwise fun a b => Stamp.Before a.stamp b.stamp) ∧
      (∀ id, (∃ m ∈ outbox, m.id = id) ↔ id ∈ (j.next happening).filed ∧
        ¬Done (j.next happening).answers (j.next happening).entered (j.next happening).engine.core.applied id) ∧
      ∀ run ∈ fresh, run.base = (j.next happening).engine.core.store.base ∧
        run.overlay.view run.base = replayAll (j.next happening).engine.predictor run.base.get (outbox.map Mutation.data) := by
  obtain ⟨kept,sending⟩ := reached_sends path
  obtain ⟨next,shows⟩ := kept.next happening
  obtain ⟨lined,stays⟩ := next.lines (kept.sends sending happening)
  obtain ⟨fresh,made,replays⟩ := shows.replaying
  refine ⟨fresh,_,made,lined,stays,fun run member => ?_⟩
  rw [List.map_map]
  exact replays run member

def filing : Journal Nat Nat := (first [] (some sets) {}).next (.event (.sendMutation (some 5)))

theorem filing_replays : ∃ (run : QueryRun Nat) (outbox : List (Mutation Nat)),
    (filing.next (.event (.pass {}))).engine.runs = filing.engine.runs++[run] ∧ (∃ m ∈ outbox, m.id = 0) ∧
      run.overlay.view run.base = replayAll (some sets) run.base.get (outbox.map Mutation.data) ∧ run.overlay.view run.base ['k'] = some 5 := by
  have path : machine.Reaches (first [] (some sets) {}) filing :=
    ⟨_,Machine.Runs.follow [(.event (.sendMutation (some 5)) : Happening Nat Nat)] fun s event member => by
      cases List.mem_singleton.mp member
      exact trivial⟩
  obtain ⟨fresh,outbox,made,_,stays,shows⟩ := queries_replay path (.event (.pass {}))
  have after : (filing.next (.event (.pass {}))).engine.runs.map (fun run => run.overlay.view run.base ['k']) =
      (filing.earlier (.event (.pass {}))).map (fun run => run.overlay.view run.base ['k'])++[some 5] := by decide
  rw [made,List.map_append,List.append_cancel_left_eq] at after
  obtain ⟨run,rfl,five⟩ := List.map_eq_singleton_iff.mp after
  refine ⟨run,outbox,made,(stays 0).mpr ⟨by decide,?_⟩,(shows run (List.mem_singleton_self run)).2,five⟩
  rintro (none | ⟨_,none,_⟩ | ⟨_,none,_⟩) <;> cases none

end Journal
end PhaseLock
