import PhaseLock.QueryGraph
import PhaseLock.Overlays

namespace PhaseLock
variable {V D τ : Type}

-- The parts of the status, as the Engine's state gives them.
structure StatusParts (V : Type) where
  connection : V
  progress : V
  outbox : V

def StatusParts.rows (parts : StatusParts V) : List (Key × V) :=
  [("!status:connection".toList,parts.connection),("!status:progress".toList,parts.progress),("!status:outbox".toList,parts.outbox)]

-- Each part that changed is published whole in place of the last; answers the keys of those.
def publish [DecidableEq V] (parts : StatusParts V) (status : OrderedMap Key V) : OrderedMap Key V × List Key :=
  parts.rows.foldl (fun state part => if state.1.get part.1 = some part.2 then state else (state.1.set part.1 part.2,state.2++[part.1]))
    (status,[])

namespace Engine

-- What queries read: the status, and the overlay over the base, held until the base exists.
def view (engine : Engine V D) (status : OrderedMap Key V) : QueryView V :=
  ⟨engine.core.store.base,engine.overlay,status,engine.core.applied < 0⟩

-- The Engine a pass comes to refresh, its transactions through.
def refreshes (engine : Engine V D) : Option (Engine V D) :=
  match engine.takes with
  | none => none
  | some _ => match engine.startCalls.prepare with
    | .ok mid => if engine.startCalls.shows then some mid else none
    | .error _ => none

end Engine

-- A refresh as the graph has it: told of the keys the base, the status and the predictions changed
-- at, it runs over the overlay rebuilt, or over the overlay as it is.
def refreshed [DecidableEq V] (same : τ → τ → Bool) (parts : StatusParts V) (mid : Engine V D) (status : OrderedMap Key V)
    (graph : QueryGraph V τ) : OrderedMap Key V × Option (QueryGraph V τ) :=
  let (status,changed) := publish parts status
  let graph := (graph.markDirty mid.core.dirty).markDirty changed
  if mid.core.outgoing.outboxChanged ∨ mid.core.dirty ≠ [] then
    let rebuilt : Engine V D := {mid with overlay:=predictAll mid.predictor mid.core.store}
    (status,((graph.markDirty mid.overlay.keys).markDirty rebuilt.overlay.keys).run same (rebuilt.view status))
  else if changed ≠ [] ∨ mid.newQueries then (status,graph.run same (mid.view status))
  else (status,some graph)

-- An app's Engine with the queries over it.
structure Watch (V D τ : Type) where
  journal : Journal V D
  status : OrderedMap Key V
  graph : QueryGraph V τ

-- What happens to it: a pass, with what it meets and the status it has to publish, anything else
-- that reaches the Engine, a query added or closed, and a crash and a new start.
inductive Watched (V D τ : Type) where
  | pass (weather : Weather) (parts : StatusParts V)
  | event (event : Engine.Event V D)
  | newQuery (fn : Reader Key V ScanPattern τ)
  | close (id : Nat)
  | restart (wants : List Name) (weather : Weather) (parts : StatusParts V)

namespace Watch
variable [DecidableEq V]

def view (s : Watch V D τ) : QueryView V := s.journal.engine.view s.status

def pass (same : τ → τ → Bool) (weather : Weather) (parts : StatusParts V) (s : Watch V D τ) : Watch V D τ :=
  let journal := s.journal.next (.event (.pass weather))
  match s.journal.engine.refreshes with
  | none => {s with journal}
  | some mid =>
    let (status,graph) := refreshed same parts mid s.status s.graph
    {journal,status,graph:=graph.getD s.graph}

-- A new Engine has no queries yet, so its first refresh runs none.
def begin (journal : Journal V D) (parts : StatusParts V) : Watch V D τ := ⟨journal,(publish parts ∅).1,{}⟩

def next (same : τ → τ → Bool) (s : Watch V D τ) : Watched V D τ → Watch V D τ
  | .pass weather parts => s.pass same weather parts
  | .event event => {s with journal:=s.journal.next (.event event)}
  | .newQuery fn => {s with journal:=s.journal.next (.event .newQuery),graph:=s.graph.newQuery fn}
  | .close id => {s with graph:=s.graph.close id}
  | .restart wants weather parts => begin (s.journal.next (.restart wants weather)) parts

-- A pass meets the status it publishes, and a throw of a query it runs.
def Allowed (same : τ → τ → Bool) (s : Watch V D τ) : Watched V D τ → Prop
  | .pass weather parts => ∀ mid ∈ s.journal.engine.refreshes,
    (weather.statusChanged = true ↔ (publish parts s.status).2 ≠ []) ∧
      ((refreshed same parts mid s.status s.graph).2.isNone = true → weather.throws = true)
  | .event (.pass _) | .event .newQuery => False
  | .event _ | .newQuery _ | .close _ | .restart _ _ _ => True

instance (same : τ → τ → Bool) (s : Watch V D τ) (happening : Watched V D τ) : Decidable (Allowed same s happening) :=
  Watched.casesOn (motive := fun happening => Decidable (Allowed same s happening)) happening
    (fun weather parts => inferInstanceAs (Decidable (∀ mid ∈ s.journal.engine.refreshes,
      (weather.statusChanged = true ↔ (publish parts s.status).2 ≠ []) ∧
        ((refreshed same parts mid s.status s.graph).2.isNone = true → weather.throws = true))))
    (fun event => Engine.Event.casesOn (motive := fun event => Decidable (Allowed same s (.event event))) event
      (fun _ => isFalse id) (fun _ _ => isTrue trivial) (fun _ _ => isTrue trivial) (fun _ _ => isTrue trivial)
      (fun _ => isTrue trivial) (fun _ => isTrue trivial) (isTrue trivial) (fun _ => isTrue trivial)
      (fun _ _ => isTrue trivial) (isFalse id) (isTrue trivial) (isTrue trivial))
    (fun _ => isTrue trivial) (fun _ => isTrue trivial) fun _ _ _ => isTrue trivial

def machine (same : τ → τ → Bool) : Machine (Watch V D τ) (Watched V D τ) := ⟨Allowed same,next same⟩

instance (same : τ → τ → Bool) (s : Watch V D τ) (happening : Watched V D τ) : Decidable ((machine same).allowed s happening) :=
  inferInstanceAs (Decidable (Allowed same s happening))

def first (wants : List Name) (predictor : Option (Predictor V D)) (weather : Weather) (parts : StatusParts V) : Watch V D τ :=
  begin (Journal.first wants predictor weather) parts

end Watch

theorem publish_status [DecidableEq V] (parts : StatusParts V) (status : OrderedMap Key V) :
    (∀ key, key ∉ (publish parts status).2 → (publish parts status).1.get key = status.get key) ∧
      ((publish parts status).2 = [] → (publish parts status).1 = status) := by
  unfold publish
  refine foldl_invariant (P := fun s : OrderedMap Key V × List Key => (∀ key, key ∉ s.2 → s.1.get key = status.get key) ∧ (s.2 = [] → s.1 = status))
    (fun s part _ kept => ?_) ⟨fun _ _ => rfl,fun _ => rfl⟩
  split
  · exact kept
  · refine ⟨fun key clean => ?_,fun none => absurd none (by simp)⟩
    rw [List.mem_append,not_or,List.mem_singleton] at clean
    rw [OrderedMap.get_set_ne _ _ (Ne.symm clean.2)]
    exact kept.1 key clean.1

namespace Engine
variable {engine mid after : Engine V D} {weather : Weather}

theorem outcomes_queries (outcomes : List MutationOutcome) (state : Engine V D × List Nat) :
    (outcomes.foldl onOutcome state).1.newQueries = state.1.newQueries := by
  have settles : ∀ (engine : Engine V D) promise settlement, (engine.settle promise settlement).newQueries = engine.newQueries := by
    intro engine promise settlement
    unfold settle
    split <;> rfl
  have fails : ∀ (engine : Engine V D) id, (engine.failOne id).newQueries = engine.newQueries := by
    intro engine id
    unfold failOne
    split
    · rfl
    · exact settles _ _ _
  have answers : ∀ (state : Engine V D × List Nat) row, (answer state row).1.newQueries = state.1.newQueries := by
    intro state row
    unfold answer
    dsimp only
    split
    · split
      · rfl
      · exact settles _ _ _
    · split
      · split <;> rfl
      · rfl
  refine foldl_invariant (P := fun s : Engine V D × List Nat => s.1.newQueries = state.1.newQueries) (fun s outcome _ kept => ?_) rfl
  unfold onOutcome
  split
  · exact (foldl_invariant (P := fun e : Engine V D => e.newQueries = s.1.newQueries) (fun e id _ kept => (fails e id).trans kept) rfl).trans kept
  · exact foldl_invariant (P := fun t : Engine V D × List Nat => t.1.newQueries = state.1.newQueries) (fun t row _ kept => (answers t row).trans kept) kept

-- A pass's transactions leave the queries asked for to its refresh.
theorem prepare_queries (ran : engine.prepare = .ok mid) : mid.newQueries = engine.newQueries := by
  unfold prepare at ran
  split at ran
  · dsimp only at ran
    split at ran
    · cases ran
    · cases ran
      rfl
  · split at ran
    · dsimp only at ran
      split at ran
      · cases ran
      · cases ran
        rfl
    · obtain ⟨written,wrote,done⟩ := bind_ok.mp ran
      cases done
      unfold write at wrote
      split at wrote
      · cases wrote
      · cases wrote
        rfl
  · cases ran
    exact outcomes_queries _ _
  · dsimp only at ran
    split at ran
    · cases ran
      rfl
    · obtain ⟨written,wrote,done⟩ := bind_ok.mp ran
      cases done
      unfold write at wrote
      split at wrote
      · cases wrote
      · cases wrote
        rfl
  · cases ran
    rfl
  · cases ran
    rfl
  · cases ran
    rfl
  · cases ran
    rfl

theorem startCalls_queries (engine : Engine V D) : engine.startCalls.newQueries = engine.newQueries := by
  obtain ⟨calls,same⟩ := startCalls_only engine
  rw [same]

theorem react_queries {event : Event V D} (other : ∀ weather, event ≠ .pass weather) (old : event ≠ .newQuery) :
    (engine.react event).newQueries = engine.newQueries := by
  cases event with
  | pass weather => exact absurd rfl (other weather)
  | newQuery => exact absurd rfl old
  | hook | push | backoff =>
    unfold react
    dsimp only
    split <;> rfl
  | sendOnlineMutation =>
    unfold react settle
    dsimp only
    split
    · split <;> rfl
    · rfl
  | outcome | results | retry | sendMutation | reconnectNow | abort => rfl

theorem takes_none (taken : engine.takes = none) : (engine.pass weather).ended = true := by
  unfold takes at taken
  unfold pass
  split
  · assumption
  · split
    · rfl
    · rename_i going free
      rw [if_neg (by simp [going,free])] at taken
      cases taken

-- A refresh that comes through, and runs the graph, met no throw.
theorem refresh_free (ran : mid.refresh weather false = .ok after)
    (runs : mid.core.outgoing.outboxChanged = true ∨ mid.core.dirty ≠ [] ∨ weather.statusChanged = true ∨ mid.newQueries = true) :
    weather.throws = false := by
  have calm : ∀ start : Engine V D, (start.runGraph weather >>= fun engine => .ok engine.settleOnline) = .ok after → weather.throws = false := by
    intro start ran
    obtain ⟨run,one,_⟩ := bind_ok.mp ran
    unfold runGraph at one
    dsimp only at one
    split at one
    · cases one
    · rename_i free
      simpa using free
  unfold refresh at ran
  dsimp only at ran
  split at ran
  · exact calm _ ran
  · rename_i quiet
    rw [not_or,not_or,not_not] at quiet
    rw [if_pos (by
      rcases runs with changed | dirty | status | queries
      · exact absurd changed quiet.2.1
      · exact absurd quiet.2.2 dirty
      · exact .inl status
      · exact .inr queries)] at ran
    exact calm _ ran

end Engine
end PhaseLock
