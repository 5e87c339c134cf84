import PhaseLock.Watching

namespace PhaseLock
variable {V D τ : Type} {same : τ → τ → Bool} {parts : StatusParts V}

-- A predictor that deletes nothing.
def Adds (predictor : Option (Predictor V D)) : Prop :=
  ∀ predicts ∈ predictor, ∀ read data ops, predicts read data = some ops → ∀ op ∈ ops, op.2 ≠ none

theorem predictAll_adds {predictor : Option (Predictor V D)} (adds : Adds predictor) (store : Store V D) (key : Key) :
    (predictAll predictor store).get key ≠ some none := by
  cases predictor with
  | none => exact fun none_ => by cases none_
  | some predicts =>
    unfold predictAll
    refine foldl_invariant (P := fun overlay : Overlay V => overlay.get key ≠ some none) (fun overlay row _ kept => ?_) (fun none_ => by cases none_)
    unfold predictOne
    split
    · exact kept
    · rename_i ops predicted
      refine foldl_invariant (P := fun overlay : Overlay V => overlay.get key ≠ some none) (fun overlay op member kept => ?_) kept
      rw [OrderedMap.get_set]
      split
      · exact fun deleted => adds predicts rfl _ _ ops predicted op member (Option.some.inj deleted)
      · exact kept

theorem QueryGraph.markDirty_twice (g : QueryGraph V τ) (first second : List Key) :
    (g.markDirty first).markDirty second = g.markDirty (first++second) := by
  unfold markDirty
  rw [List.append_assoc]

section Refreshes
variable {engine mid : Engine V D} {status : OrderedMap Key V} {g after : QueryGraph V τ}

theorem later_held (telling : engine.Telling mid) {overlay : Overlay V} {status' : OrderedMap Key V}
    (held : (({mid with overlay} : Engine V D).view status').held = true) : (engine.view status).held = true := by
  have low : mid.core.applied < 0 := of_decide_eq_true held
  exact decide_eq_true (lt_of_le_of_lt telling.applied low)

variable [DecidableEq V]

-- Where neither the status nor the base nor the overlays have a changed key, the two views are alike.
theorem rebuilt_alike (telling : engine.Telling mid) {key : Key} (base : key ∉ mid.core.dirty) (changed : key ∉ (publish parts status).2)
    (old : key ∉ mid.overlay.keys) {overlay : Overlay V} (new : key ∉ overlay.keys) :
    (engine.view status).Alike (({mid with overlay} : Engine V D).view (publish parts status).1) key := by
  refine ⟨((publish_status parts status).1 key changed).symm,?_⟩
  show engine.overlay.view engine.core.store.base key = overlay.view mid.core.store.base key
  unfold Overlay.view
  rw [← telling.overlay,(mid.overlay.not_mem_keys key).mp old,(overlay.not_mem_keys key).mp new]
  exact (telling.base key base).symm

theorem kept_alike (telling : engine.Telling mid) (clean : mid.core.dirty = []) {key : Key} (changed : key ∉ (publish parts status).2) :
    (engine.view status).Alike (mid.view (publish parts status).1) key := by
  refine ⟨((publish_status parts status).1 key changed).symm,?_⟩
  show engine.overlay.view engine.core.store.base key = mid.overlay.view mid.core.store.base key
  unfold Overlay.view
  rw [telling.overlay,telling.base key (by rw [clean]; exact List.not_mem_nil)]

-- A refresh leaves every record standing at the overlay rebuilt, and every query that is to run has.
theorem refreshed_stands (lawful : ∀ a b, same a b = true → a = b) (telling : engine.Telling mid) (stands : g.Stands (engine.view status))
    (clean : g.dirty = []) (ran : (refreshed same parts mid status g).2 = some after) :
    after.Stands (({mid with overlay:=predictAll mid.predictor mid.core.store} : Engine V D).view (refreshed same parts mid status g).1) ∧
      after.dirty = [] ∧ ((∀ row ∈ after.queries, row.2.Answered) ∨ mid.newQueries = false ∧ after.queries = g.queries) := by
  unfold refreshed at ran ⊢
  dsimp only at ran ⊢
  split at ran
  · rename_i rebuilds
    rw [if_pos rebuilds]
    have told : QueryGraph.Stands (({mid with overlay:=predictAll mid.predictor mid.core.store} : Engine V D).view (publish parts status).1)
        (g.markDirty (mid.core.dirty++(publish parts status).2++mid.overlay.keys++(predictAll mid.predictor mid.core.store).keys)) := by
      refine stands.moves _ (later_held telling) fun key quiet => ?_
      simp only [List.mem_append,not_or] at quiet
      obtain ⟨⟨⟨base,changed⟩,old⟩,new⟩ := quiet
      exact rebuilt_alike telling base changed old new
    rw [← QueryGraph.markDirty_twice,← QueryGraph.markDirty_twice,← QueryGraph.markDirty_twice] at told
    obtain ⟨stood,done,answered⟩ := QueryGraph.Stands.run lawful told ran
    exact ⟨stood,done,.inl answered⟩
  · rename_i rests
    rw [if_neg rests]
    rw [not_or,not_not] at rests
    obtain ⟨outbox,base⟩ := rests
    have overlay : mid.overlay = predictAll mid.predictor mid.core.store := telling.behind base (by simpa using outbox)
    rw [← overlay]
    have told : (g.markDirty (publish parts status).2).Stands (mid.view (publish parts status).1) :=
      stands.moves _ (later_held telling) fun key quiet => kept_alike telling base quiet
    have marked : (g.markDirty mid.core.dirty).markDirty (publish parts status).2 = g.markDirty (publish parts status).2 := by
      rw [QueryGraph.markDirty_twice,base]
      rfl
    rw [marked] at ran
    split at ran
    · rename_i runs
      rw [if_pos runs]
      obtain ⟨stood,done,answered⟩ := QueryGraph.Stands.run lawful told ran
      exact ⟨stood,done,.inl answered⟩
    · rename_i idle
      rw [if_neg idle]
      rw [not_or,not_not] at idle
      cases ran
      refine ⟨told,?_,.inr ⟨by simpa using idle.2,rfl⟩⟩
      show g.dirty++(publish parts status).2 = []
      rw [clean,idle.1]
      rfl

-- Where predictions delete nothing, no record skips.
theorem refreshed_plain (telling : engine.Telling mid) (adds : Adds mid.predictor) (plain : ∀ row ∈ g.queries, row.2.deps.skipped = false)
    (ran : (refreshed same parts mid status g).2 = some after) : ∀ row ∈ after.queries, row.2.deps.skipped = false := by
  have bare : ∀ overlay status', overlay = predictAll mid.predictor mid.core.store →
      (({mid with overlay} : Engine V D).view status').Bare := by
    rintro _ status' rfl key deleted
    exact absurd deleted (predictAll_adds adds _ key)
  unfold refreshed at ran
  dsimp only at ran
  split at ran
  · exact QueryGraph.run_plain (bare _ _ rfl) (by exact plain) ran
  · rename_i rests
    rw [not_or,not_not] at rests
    split at ran
    · exact QueryGraph.run_plain (bare mid.overlay _ (telling.behind rests.2 (by simpa using rests.1))) (by exact plain) ran
    · cases ran
      exact plain

-- It runs the graph where it stops for a query that throws.
theorem refreshed_none (none_ : (refreshed same parts mid status g).2 = none) :
    mid.core.outgoing.outboxChanged = true ∨ mid.core.dirty ≠ [] ∨ (publish parts status).2 ≠ [] ∨ mid.newQueries = true := by
  unfold refreshed at none_
  dsimp only at none_
  split at none_
  · rename_i rebuilds
    exact rebuilds.imp id .inl
  · split at none_
    · rename_i runs
      exact .inr (.inr runs)
    · cases none_

end Refreshes

namespace Watch
variable {s : Watch V D τ}

-- A running Engine's graph has been told of all that has changed, its records stand, and the
-- queries asked for have answered, or wait.
structure Fresh (s : Watch V D τ) : Prop where
  kept : s.journal.Kept
  clean : s.journal.engine.ended = false → s.graph.dirty = []
  stands : s.journal.engine.ended = false → s.graph.Stands s.view
  answered : s.journal.engine.ended = false → s.journal.engine.newQueries = false → ∀ row ∈ s.graph.queries, row.2.Answered
  plain : s.journal.engine.ended = false → Adds s.journal.engine.predictor → ∀ row ∈ s.graph.queries, row.2.deps.skipped = false

theorem view_still {engine after : Engine V D} (still : engine.Still after) (status : OrderedMap Key V) :
    after.view status = engine.view status := by
  unfold Engine.view
  rw [still.base,still.overlay,still.applied]

-- Where an Engine's view and what it still owes its queries stay, so does the graph.
theorem Fresh.stays (fresh : s.Fresh) {journal : Journal V D} (kept : journal.Kept)
    (still : journal.engine.ended = false → s.journal.engine.ended = false ∧ s.journal.engine.Still journal.engine ∧
      journal.engine.newQueries = s.journal.engine.newQueries) : ({s with journal} : Watch V D τ).Fresh := by
  have same : journal.engine.ended = false → view {s with journal} = s.view := fun running => view_still (still running).2.1 s.status
  refine ⟨kept,fun running => fresh.clean (still running).1,fun running => ?_,fun running none => ?_,fun running adds => ?_⟩
  · rw [same running]
    exact fresh.stands (still running).1
  · exact fresh.answered (still running).1 ((still running).2.2 ▸ none)
  · exact fresh.plain (still running).1 ((still running).2.1.predictor ▸ adds)

theorem Fresh.event (fresh : s.Fresh) {event : Engine.Event V D} (other : ∀ weather, event ≠ .pass weather) (old : event ≠ .newQuery) :
    ({s with journal:=s.journal.next (.event event)} : Watch V D τ).Fresh := by
  have engine : (s.journal.next (.event event)).engine = s.journal.engine.react event := by
    cases event with
    | pass weather => exact absurd rfl (other weather)
    | hook | push | outcome | results | backoff | retry | sendMutation | newQuery | reconnectNow | abort | sendOnlineMutation => rfl
  refine fresh.stays (fresh.kept.next (.event event)).1 ?_
  rw [engine]
  obtain ⟨apart,_,predictor,runs,overlay,ended⟩ := @Journal.react_quiet V D s.journal.engine event other
  rw [ended]
  exact fun running => ⟨running,⟨runs,overlay,apart.applied,apart.base,apart.rows,apart.dirty,congrArg Outgoing.outboxChanged apart.outgoing,
    predictor⟩,Engine.react_queries other old⟩

theorem Fresh.newQuery (fresh : s.Fresh) (fn : Reader Key V ScanPattern τ) :
    ({s with journal:=s.journal.next (.event .newQuery),graph:=s.graph.newQuery fn} : Watch V D τ).Fresh := by
  refine ⟨(fresh.kept.next (.event .newQuery)).1,fresh.clean,fun running => ?_,fun _ none => (by cases none),fun running adds row member => ?_⟩
  · exact (fresh.stands running).newQuery fn
  · rcases List.mem_append.mp member with old | new
    · exact fresh.plain running adds row old
    · rw [List.mem_singleton.mp new]

theorem Fresh.close (fresh : s.Fresh) (id : Nat) : ({s with graph:=s.graph.close id} : Watch V D τ).Fresh := by
  refine ⟨fresh.kept,fresh.clean,fun running => (fresh.stands running).close id,fun running none row member => ?_,fun running adds row member => ?_⟩
  · obtain ⟨old,inside,is⟩ := List.mem_map.mp member
    have before := fresh.answered running none old inside
    split at is <;> cases is <;> exact before
  · obtain ⟨old,inside,is⟩ := List.mem_map.mp member
    have before := fresh.plain running adds old inside
    split at is <;> cases is <;> exact before

variable [DecidableEq V]

theorem begin_fresh {journal : Journal V D} (kept : journal.Kept) (parts : StatusParts V) : (begin journal parts : Watch V D τ).Fresh where
  kept := kept
  clean _ := rfl
  stands _ := fun _ none => by cases none
  answered _ _ := fun _ none => by cases none
  plain _ _ := fun _ none => by cases none

-- A pass that comes to its refresh, and through it.
theorem Fresh.refreshed (lawful : ∀ a b, same a b = true → a = b) (fresh : s.Fresh) {weather : Weather} {journal : Journal V D}
    (kept : journal.Kept) {mid after : Engine V D} (telling : s.journal.engine.startCalls.Telling mid)
    (asks : mid.newQueries = s.journal.engine.newQueries) (running : s.journal.engine.ended = false)
    (made : mid.refresh weather false = .ok after) (is : journal.engine = s.journal.engine.startCalls.hand after)
    (status : weather.statusChanged = true ↔ (publish parts s.status).2 ≠ [])
    (throws : (PhaseLock.refreshed same parts mid s.status s.graph).2.isNone = true → weather.throws = true) :
    Fresh ⟨journal,(PhaseLock.refreshed same parts mid s.status s.graph).1,
      (PhaseLock.refreshed same parts mid s.status s.graph).2.getD s.graph⟩ := by
  cases graph : (PhaseLock.refreshed same parts mid s.status s.graph).2 with
  | none =>
    have runs := refreshed_none graph
    rw [← status] at runs
    have calm := Engine.refresh_free made runs
    rw [throws (by rw [graph]; rfl)] at calm
    cases calm
  | some g =>
    have began := Engine.startCalls_still s.journal.engine
    have stands : s.graph.Stands (s.journal.engine.startCalls.view s.status) := by
      rw [view_still began]
      exact fresh.stands running
    obtain ⟨stood,clean,answered⟩ := refreshed_stands lawful telling stands (fresh.clean running) graph
    have shown := Engine.refresh_shows weather false (.inr telling.behind)
    have rests := Engine.refresh_rests weather false mid
    rw [made] at shown rests
    have rests : Engine.Rests [] mid after := rests
    have hand := Engine.hand_still s.journal.engine.startCalls after
    have view : journal.engine.view (PhaseLock.refreshed same parts mid s.status s.graph).1 =
        ({mid with overlay:=predictAll mid.predictor mid.core.store} : Engine V D).view (PhaseLock.refreshed same parts mid s.status s.graph).1 := by
      rw [is,view_still hand]
      unfold Engine.view
      rw [shown.1.overlay,rests.store,rests.applied,rests.predictor]
    refine ⟨kept,fun _ => clean,fun _ => ?_,fun _ none row member => ?_,fun _ adds => ?_⟩
    · show g.Stands (journal.engine.view _)
      rw [view]
      exact stood
    · rcases answered with all | ⟨idle,queries⟩
      · exact all row member
      · have member : row ∈ g.queries := member
        rw [queries] at member
        exact fresh.answered running (asks ▸ idle) row member
    · have adds : Adds journal.engine.predictor := adds
      rw [is,hand.predictor,rests.predictor] at adds
      refine refreshed_plain telling adds (fresh.plain running ?_) graph
      rw [← began.predictor,← telling.predictor]
      exact adds

theorem Fresh.pass (lawful : ∀ a b, same a b = true → a = b) (fresh : s.Fresh) (weather : Weather) (parts : StatusParts V)
    (allowed : Allowed same s (.pass weather parts)) : (s.pass same weather parts).Fresh := by
  have kept := (fresh.kept.next (.event (.pass weather))).1
  have engine : (s.journal.next (.event (.pass weather))).engine = s.journal.engine.pass weather := by
    show (s.journal.pass weather).engine = _
    unfold Journal.pass
    cases s.journal.engine.takes <;> rfl
  have ends : (s.journal.engine.pass weather).ended = true → s.journal.engine.refreshes = none → (s.pass same weather parts).Fresh := by
    intro ended idle
    unfold Watch.pass
    rw [idle]
    refine fresh.stays kept fun running => ?_
    rw [engine,ended] at running
    cases running
  cases taken : s.journal.engine.takes with
  | none => exact ends (Engine.takes_none taken) (by unfold Engine.refreshes; rw [taken])
  | some turn =>
    have running := Engine.takes_running taken
    have began := Engine.startCalls_still s.journal.engine
    have started := fresh.kept.outboxed.quiet (Engine.startCalls_rests s.journal.engine)
    have telling := started.telling (began.shown (fresh.kept.shown running))
    have whole := (Engine.pass_takes weather taken).1
    rw [Engine.handle_parts] at whole
    cases ran : s.journal.engine.startCalls.prepare with
    | error thrown =>
      obtain ⟨failure,after⟩ := thrown
      refine ends ?_ (by unfold Engine.refreshes; rw [taken,ran])
      rw [Engine.pass_error taken ran]
      exact Engine.fail_ended failure after
    | ok mid =>
      rw [ran] at telling whole
      have telling : s.journal.engine.startCalls.Telling mid := telling
      have asks : mid.newQueries = s.journal.engine.newQueries :=
        (Engine.prepare_queries ran).trans (Engine.startCalls_queries s.journal.engine)
      simp only [bind,Except.bind] at whole
      by_cases shows : s.journal.engine.startCalls.shows = true
      · have comes : s.journal.engine.refreshes = some mid := by
          unfold Engine.refreshes
          rw [taken,ran]
          exact if_pos shows
        obtain ⟨status,throws⟩ := allowed mid comes
        rw [if_pos shows] at whole
        unfold Watch.pass
        rw [comes]
        cases made : mid.refresh weather false with
        | error thrown =>
          obtain ⟨failure,after⟩ := thrown
          rw [made] at whole
          have ended : (s.journal.engine.pass weather).ended = true := by
            rw [whole]
            exact Engine.fail_ended failure after
          refine ⟨kept,fun running => ?_,fun running => ?_,fun running => ?_,fun running => ?_⟩ <;>
          · have running : (s.journal.next (.event (.pass weather))).engine.ended = false := running
            rw [engine,ended] at running
            cases running
        | ok after =>
          rw [made] at whole
          exact fresh.refreshed lawful kept telling asks running made (engine.trans whole) status throws
      · have idle : s.journal.engine.refreshes = none := by
          unfold Engine.refreshes
          rw [taken,ran]
          exact if_neg shows
        rw [if_neg shows] at whole
        unfold Watch.pass
        rw [idle]
        refine fresh.stays kept fun _ => ⟨running,?_,?_⟩
        · rw [engine,whole]
          exact began.trans (telling.still (by simpa using shows))
        · rw [engine,whole]
          exact asks

theorem Fresh.next (lawful : ∀ a b, same a b = true → a = b) (fresh : s.Fresh) {happening : Watched V D τ}
    (allowed : Allowed same s happening) : (s.next same happening).Fresh := by
  cases happening with
  | pass weather parts => exact fresh.pass lawful weather parts allowed
  | event event =>
    refine fresh.event (fun weather is => ?_) fun is => ?_
    · subst is
      exact allowed
    · subst is
      exact allowed
  | newQuery fn => exact fresh.newQuery fn
  | close id => exact fresh.close id
  | restart wants weather parts => exact begin_fresh (fresh.kept.next (.restart wants weather)).1 parts

theorem reached_fresh (lawful : ∀ a b, same a b = true → a = b) {wants : List Name} {predictor : Option (Predictor V D)} {weather : Weather}
    {parts : StatusParts V} (path : (machine same).Reaches (first wants predictor weather parts) s) : s.Fresh :=
  path.invariant (begin_fresh (Journal.first_kept wants predictor weather).1 parts) fun _ _ fresh allowed => fresh.next lawful allowed

-- In every run, while the Engine runs, each open query's subscribers have what its function gives
-- run afresh over the base, the predictions and the status as they are, but for one that waits for
-- the base, or whose walk went on from past the last row of a batch that predictions cut short, or
-- was over a base tangled under its pattern then or now; and each query asked for has answered, or
-- waits, once there is none the next pass is to run.
theorem queries_fresh (lawful : ∀ a b, same a b = true → a = b) {wants : List Name} {predictor : Option (Predictor V D)} {weather : Weather}
    {parts : StatusParts V} (path : (machine same).Reaches (first wants predictor weather parts) s)
    (running : s.journal.engine.ended = false) :
    (∀ row ∈ s.graph.queries, row.2.closed = false → 0 < row.2.runs → row.2.held = false →
      row.2.deps.skipped = false ∨ Adds s.journal.engine.predictor → row.2.deps.tangled = false →
      (row.2.fn.run s.view {}).2.tangled = false → row.2.Shows s.view) ∧
    (s.journal.engine.newQueries = false → ∀ row ∈ s.graph.queries, row.2.Answered) := by
  have fresh := reached_fresh lawful path
  refine ⟨fun row member open_ ran free plain calm calm' => ?_,fresh.answered running⟩
  have stands := fresh.stands running row member
  rw [fresh.clean running] at stands
  refine stands.shows open_ ran free ?_ calm calm'
  rcases plain with plain | adds
  · exact plain
  · exact fresh.plain running adds row member

-- A query of a slice's key, and the slice brought over a connection.
def sample : List (Watched Nat Nat (Option (Option Nat))) :=
  let pass : Watched Nat Nat (Option (Option Nat)) := .pass {} ⟨0,0,0⟩
  let push (item : BackfillItem Nat) : Watched Nat Nat (Option (Option Nat)) := .event (.push ⟨0,['s'],0,0,0,none⟩ item)
  [.newQuery (.get ['s','!','a'] .give),pass,pass,pass,.event (.hook 0 (.opened ['e'] 3)),.event (.hook 0 (.view ⟨['1'],1,[['s']]⟩)),
    pass,pass,push (.header 1 1 ((∅ : OrderedMap Name Nat).set ['s'] 1)),push (.page [(['s','!','a'],1)] 1 []),push .pagesDone,
    push .editsDone,pass]

-- Held until the slice has landed, the query then has its value.
theorem queries_fresh_landed : ∃ s, (machine fun a b : Option (Option Nat) => a == b).Reaches (first [['s']] none {} ⟨0,0,0⟩ : Watch Nat Nat _) s ∧
    ∃ row ∈ s.graph.queries, row.2.result = some (some (some 1)) ∧ row.2.Shows s.view := by
  obtain ⟨s,path,found⟩ := Machine.follow_finds (machine fun a b : Option (Option Nat) => a == b) (first [['s']] none {} ⟨0,0,0⟩) sample
    (fun s => !s.journal.engine.ended && s.graph.queries.any fun row => decide (row.2.result = some (some (some 1))) && !row.2.closed &&
      decide (0 < row.2.runs) && !row.2.held && !row.2.deps.skipped && !row.2.deps.tangled &&
      !(row.2.fn.run s.view {}).2.tangled) (by decide +kernel)
  rw [Bool.and_eq_true,List.any_eq_true,Bool.not_eq_true'] at found
  obtain ⟨running,row,member,has⟩ := found
  simp only [Bool.and_eq_true,Bool.not_eq_true',decide_eq_true_eq] at has
  obtain ⟨⟨⟨⟨⟨⟨result,open_⟩,ran⟩,free⟩,plain⟩,calm⟩,calm'⟩ := has
  exact ⟨s,⟨_,path⟩,row,member,result,
    (queries_fresh (fun a b same => eq_of_beq same) ⟨_,path⟩ running).1 row member open_ ran free (.inl plain) calm calm'⟩

-- Every key there is, counted as far as twenty.
def every : ScanPattern := ⟨⟨none,none,[]⟩,_,rfl⟩

def count : Nat → Nat → Reader Key Nat ScanPattern Nat
  | 0,seen => .give seen
  | fuel+1,seen => .take 0 fun answer => match answer with
    | some (some _) => count fuel (seen+1)
    | _ => .give seen

-- A prediction that deletes the last key of a walk's first batch, and its rejection, which the
-- walk's record does not cover: the count is not made again.
example : let base : Base Nat := (List.range 18).foldl (fun base i => base.set [Char.ofNat (97+i)] i) ∅
    let counts : QueryGraph Nat Nat := QueryGraph.newQuery (.walk every false (count 20 0)) {}
    ((counts.run (· == ·) ⟨base,(∅ : Overlay Nat).set ['p'] none,∅,false⟩).bind fun g =>
      ((g.markDirty [['p']]).run (· == ·) ⟨base,∅,∅,false⟩).map fun g =>
        g.queries.map fun row => (row.2.result,(row.2.fn.run ⟨base,∅,∅,false⟩ {}).1)) = some [(some 17,some 18)] := by decide +kernel

end Watch
end PhaseLock
