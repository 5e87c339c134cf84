import PhaseLock.Predictions

namespace PhaseLock
variable {V D : Type}

-- A run by events that are always allowed.
theorem Machine.Runs.follow {σ ε : Type} {m : Machine σ ε} {s : σ} (events : List ε) (free : ∀ s, ∀ event ∈ events, m.allowed s event) :
    m.Runs s events (events.foldl m.next s) := by
  induction events generalizing s with
  | nil => exact .nil
  | cons event rest ih =>
    exact Machine.Runs.cons (free s event List.mem_cons_self) (ih fun s other member => free s other (List.mem_cons_of_mem _ member))

namespace Engine

-- The overlay predicts the outbox onto the base, and the graph has been told all of it.
structure Shown (engine : Engine V D) : Prop where
  dirty : engine.core.dirty = []
  changed : engine.core.outgoing.outboxChanged = false
  overlay : engine.overlay = predictAll engine.predictor engine.core.store

-- What the graph has not been told of, it will be.
def Behind (engine : Engine V D) : Prop :=
  engine.core.dirty = [] → engine.core.outgoing.outboxChanged = false → engine.overlay = predictAll engine.predictor engine.core.store

-- The query runs made since read the base and the outbox as they are now.
def Showing (runs : List (QueryRun V)) (after : Engine V D) : Prop :=
  ∃ fresh, after.runs = runs++fresh ∧
    ∀ run ∈ fresh, run.base = after.core.store.base ∧ run.overlay = predictAll after.predictor after.core.store

-- What leaves alone all the graph shows.
structure Still (engine after : Engine V D) : Prop where
  runs : after.runs = engine.runs
  overlay : after.overlay = engine.overlay
  applied : after.core.applied = engine.core.applied
  base : after.core.store.base = engine.core.store.base
  rows : after.core.store.mutations = engine.core.store.mutations
  dirty : after.core.dirty = engine.core.dirty
  changed : after.core.outgoing.outboxChanged = engine.core.outgoing.outboxChanged
  predictor : after.predictor = engine.predictor

theorem Still.refl (engine : Engine V D) : Still engine engine := ⟨rfl,rfl,rfl,rfl,rfl,rfl,rfl,rfl⟩

theorem Still.trans {a b c : Engine V D} (first : Still a b) (second : Still b c) : Still a c :=
  ⟨second.runs.trans first.runs,second.overlay.trans first.overlay,second.applied.trans first.applied,second.base.trans first.base,second.rows.trans first.rows,second.dirty.trans first.dirty,
    second.changed.trans first.changed,second.predictor.trans first.predictor⟩

theorem Still.predicts {engine after : Engine V D} (still : Still engine after) :
    predictAll after.predictor after.core.store = predictAll engine.predictor engine.core.store := by
  rw [still.predictor]
  exact predictAll_congr _ (fun key => by rw [still.base]) fun ordinal => by rw [still.rows]

theorem Still.shown {engine after : Engine V D} (still : Still engine after) (shown : engine.Shown) : after.Shown where
  dirty := still.dirty.trans shown.dirty
  changed := still.changed.trans shown.changed
  overlay := by
    rw [still.overlay,still.predicts]
    exact shown.overlay

theorem Still.showing {engine after : Engine V D} {runs : List (QueryRun V)} (still : Still engine after) (showing : engine.Showing runs) :
    after.Showing runs := by
  obtain ⟨fresh,made,each⟩ := showing
  refine ⟨fresh,still.runs.trans made,?_⟩
  rw [still.base,still.predicts]
  exact each

theorem Showing.none (engine : Engine V D) : engine.Showing engine.runs := ⟨[],(List.append_nil _).symm,fun _ member => by cases member⟩

theorem Still.none {engine after : Engine V D} (still : Still engine after) : after.Showing engine.runs := still.showing (.none engine)

theorem still_folds {α : Type} {f : Engine V D → α → Engine V D} {items : List α} {engine : Engine V D}
    (each : ∀ engine item, Still engine (f engine item)) : Still engine (items.foldl f engine) :=
  foldl_invariant (P := Still engine) (fun s item _ before => before.trans (each s item)) (.refl engine)

theorem settle_still (engine : Engine V D) (promise : Nat) (settlement : Settlement) : Still engine (engine.settle promise settlement) := by
  unfold settle
  split <;> exact ⟨rfl,rfl,rfl,rfl,rfl,rfl,rfl,rfl⟩

theorem rejectAll_still (engine : Engine V D) (promises : List Nat) (reason : Failure) : Still engine (engine.rejectAll promises reason) :=
  still_folds fun engine promise => settle_still engine promise _

theorem out_still (engine : Engine V D) {outgoing : Outgoing} (changed : outgoing.outboxChanged = engine.core.outgoing.outboxChanged) :
    Still engine (engine.out outgoing) := ⟨rfl,rfl,rfl,rfl,rfl,rfl,changed,rfl⟩

theorem dropped_still (engine : Engine V D) (id promise : Nat) (settlement : Settlement) :
    Still engine ((engine.out {engine.core.outgoing with online:=engine.core.outgoing.online.del id}).settle promise settlement) := by
  have dropped : Still engine (engine.out {engine.core.outgoing with online:=engine.core.outgoing.online.del id}) :=
    ⟨rfl,rfl,rfl,rfl,rfl,rfl,rfl,rfl⟩
  exact dropped.trans (settle_still _ promise settlement)

theorem settleOnline_still (engine : Engine V D) : Still engine engine.settleOnline := by
  unfold settleOnline
  split
  · exact .refl engine
  · refine still_folds fun engine row => ?_
    unfold settleOne
    split
    · exact .refl engine
    · exact dropped_still engine row.1 _ _

theorem rejectOnline_still (engine : Engine V D) (reason : Failure) : Still engine (engine.rejectOnline reason) := by
  unfold rejectOnline
  dsimp only
  exact ((rejectAll_still engine _ reason).trans (rejectAll_still _ _ reason)).trans (out_still _ rfl)

theorem shutdown_still (engine : Engine V D) : Still engine engine.shutdown := by
  have stopped : Still engine {engine with
      retryTimer:=false
      abortedConns:=engine.abortedConns++[engine.conn]
      connection:=false
      core:={engine.core with starts:=[]}
      backfillWork:=[]} := ⟨rfl,rfl,rfl,rfl,rfl,rfl,rfl,rfl⟩
  exact stopped.trans (rejectOnline_still _ _)

theorem fail_still (failure : Failure) (engine : Engine V D) : Still engine (engine.fail failure) := by
  have ended : Still engine {engine with ended:=true} := ⟨rfl,rfl,rfl,rfl,rfl,rfl,rfl,rfl⟩
  exact (ended.trans (rejectOnline_still _ failure)).trans (shutdown_still _)

theorem rejectAll_ended (engine : Engine V D) (promises : List Nat) (reason : Failure) :
    (engine.rejectAll promises reason).ended = engine.ended := by
  refine foldl_invariant (P := fun after : Engine V D => after.ended = engine.ended) (fun s promise _ before => ?_) rfl
  unfold settle
  split <;> exact before

theorem fail_ended (failure : Failure) (engine : Engine V D) : (engine.fail failure).ended = true := by
  unfold fail shutdown rejectOnline
  simp only [out,rejectAll_ended]

theorem takes_running {engine : Engine V D} {turn : Turn} (taken : engine.takes = some turn) : engine.ended = false := by
  unfold takes at taken
  split at taken
  · cases taken
  · rename_i free
    simpa using (not_or.mp free).1

theorem sendCall_still (engine : Engine V D) (call : List (Mutation D) × Option (Nat × OnlineMutation)) :
    Still engine (engine.sendCall call) := by
  obtain ⟨wire,online⟩ := call
  unfold sendCall
  split
  · exact .refl engine
  · cases online <;> exact ⟨rfl,rfl,rfl,rfl,rfl,rfl,rfl,rfl⟩

theorem hand_still (engine after : Engine V D) : Still after (engine.hand after) := by
  unfold hand
  split
  · split
    · exact still_folds sendCall_still
    · exact rejectAll_still after _ _
  · exact .refl after

theorem startCalls_still (engine : Engine V D) : Still engine engine.startCalls := by
  obtain ⟨calls,same⟩ := startCalls_only engine
  rw [same]
  exact ⟨rfl,rfl,rfl,rfl,rfl,rfl,rfl,rfl⟩

theorem failOne_still (engine : Engine V D) (id : Nat) : Still engine (engine.failOne id) := by
  unfold failOne
  split
  · exact .refl engine
  · exact dropped_still engine id _ _

theorem answer_still (state : Engine V D × List Nat) (row : Nat × MutationResult) : Still state.1 (answer state row).1 := by
  unfold answer
  dsimp only
  split
  · split
    · exact out_still _ rfl
    · exact dropped_still state.1 row.1 _ _
  · split
    · split
      · exact out_still _ rfl
      · exact .refl _
    · exact .refl _

theorem onOutcome_still (state : Engine V D × List Nat) (outcome : MutationOutcome) : Still state.1 (onOutcome state outcome).1 := by
  unfold onOutcome
  split
  · have fails : Still state.1 (outcome.ids.foldl failOne state.1) := still_folds failOne_still
    exact ⟨fails.runs,fails.overlay,fails.applied,fails.base,fails.rows,fails.dirty,fails.changed,fails.predictor⟩
  · exact foldl_invariant (P := fun s : Engine V D × List Nat => Still state.1 s.1) (fun s row _ before => before.trans (answer_still s row))
      (.refl _)

theorem outcomes_still (outcomes : List MutationOutcome) (state : Engine V D × List Nat) :
    Still state.1 (outcomes.foldl onOutcome state).1 :=
  foldl_invariant (P := fun s : Engine V D × List Nat => Still state.1 s.1) (fun s outcome _ before => before.trans (onOutcome_still s outcome))
    (.refl _)

-- A run of the graph after its rebuild, or where there was nothing to rebuild.
theorem runGraph_shows (weather : Weather) {engine : Engine V D} (shown : engine.Shown) :
    Ends (fun after => after.Shown ∧ after.Showing engine.runs) (engine.runGraph weather) := by
  have ran : ∀ after : Engine V D, after = {engine with newQueries:=false,runs:=engine.runs++[⟨engine.core.store.base,engine.overlay⟩]} →
      after.Shown ∧ after.Showing engine.runs := by
    rintro after rfl
    refine ⟨⟨shown.dirty,shown.changed,shown.overlay⟩,[⟨engine.core.store.base,engine.overlay⟩],rfl,fun run member => ?_⟩
    cases List.mem_singleton.mp member
    exact ⟨rfl,shown.overlay⟩
  unfold runGraph
  dsimp only
  split <;> exact ran _ rfl

theorem refresh_shows (weather : Weather) (always : Bool) {engine : Engine V D} (behind : always = true ∨ engine.Behind) :
    Ends (fun after => after.Shown ∧ after.Showing engine.runs) (engine.refresh weather always) := by
  have done : ∀ {ran : Except (Thrown V D) (Engine V D)}, Ends (fun after => after.Shown ∧ after.Showing engine.runs) ran →
      Ends (fun after => after.Shown ∧ after.Showing engine.runs) (ran >>= fun engine => .ok engine.settleOnline) := by
    intro ran ends
    exact ends.bind (fun _ => id) fun after kept =>
      ⟨(settleOnline_still after).shown kept.1,(settleOnline_still after).showing kept.2⟩
  unfold refresh
  dsimp only
  split
  · refine done (runGraph_shows weather (show Shown {engine with
      core:={engine.core with
        dirty:=[]
        outgoing:={engine.core.outgoing with outboxChanged:=false}}
      overlay:=_} from ⟨rfl,rfl,rfl⟩))
  · rename_i told
    rw [not_or,not_or,not_not] at told
    obtain ⟨once,same,clean⟩ := told
    have shown : Shown {engine with core:={engine.core with
        dirty:=[]
        outgoing:={engine.core.outgoing with outboxChanged:=false}}} :=
      ⟨rfl,rfl,behind.resolve_left once clean (by simpa using same)⟩
    split
    · exact done (runGraph_shows weather shown)
    · exact done (show Ends _ (.ok _) from ⟨shown,.none _⟩)

theorem Shown.behind {engine after : Engine V D} (shown : engine.Shown) (overlay : after.overlay = engine.overlay)
    (predictor : after.predictor = engine.predictor)
    (base : after.core.dirty = [] → ∀ key, after.core.store.base.get key = engine.core.store.base.get key)
    (rows : after.core.outgoing.outboxChanged = false →
      ∀ ordinal, after.core.store.mutations.get ordinal = engine.core.store.mutations.get ordinal) : after.Behind := by
  intro clean same
  rw [overlay,predictor,shown.overlay]
  exact (predictAll_congr engine.predictor (base clean) (rows same)).symm

-- What a pass's transactions leave the graph to be told.
structure Telling (engine mid : Engine V D) : Prop where
  runs : mid.runs = engine.runs
  predictor : mid.predictor = engine.predictor
  overlay : mid.overlay = engine.overlay
  applied : engine.core.applied ≤ mid.core.applied
  base : ∀ key, key ∉ mid.core.dirty → mid.core.store.base.get key = engine.core.store.base.get key
  behind : mid.Behind
  still : engine.shows = false → Still engine mid

theorem Still.telling {engine mid : Engine V D} (still : Still engine mid) (shown : engine.Shown) : Telling engine mid where
  runs := still.runs
  predictor := still.predictor
  overlay := still.overlay
  applied := le_of_eq still.applied.symm
  base key _ := by rw [still.base]
  behind _ _ := (still.shown shown).overlay
  still _ := still

theorem Telling.moves {engine middle after : Engine V D} {seen : List Nat} {gone : Nat → Bool} {core : Core V D} (shown : engine.Shown)
    (shows : engine.shows = true) (still : Still engine middle) (moves : Core.Moves seen gone middle.core core) (is : after.core = core)
    (runs : after.runs = middle.runs) (overlay : after.overlay = middle.overlay) (predictor : after.predictor = middle.predictor) :
    Telling engine after := by
  subst is
  have further := moves.applied
  rw [still.applied] at further
  exact ⟨runs.trans still.runs,predictor.trans still.predictor,overlay.trans still.overlay,further,
    fun key quiet => by rw [(moves.base key quiet).2,still.base],
    (still.shown shown).behind overlay predictor (fun clean key => (moves.base key (by rw [clean]; exact List.not_mem_nil)).2)
      (fun same => (moves.changed same).2),
    fun quiet => by rw [shows] at quiet; cases quiet⟩

end Engine

namespace Journal
variable {filed entered : List Nat} {answers : List (Nat × MutationResult)} {nextId : Nat}

-- A pass's transactions tell the graph of all they change.
theorem Outboxed.telling {engine : Engine V D} (held : Outboxed filed answers entered nextId engine.core) (shown : engine.Shown) :
    match engine.prepare with
    | .ok mid => engine.Telling mid
    | .error (_,after) => engine.Still after := by
  have self : engine.Telling engine := (Engine.Still.refl engine).telling shown
  unfold Engine.prepare
  cases turn : engine.turn with
  | queries | idle => exact self
  | outcomes =>
    have apart := Core.apart_folds engine.backfillOutcomes (Core.onOutcomeIn_apart engine.conn) engine.core
    have still : engine.Still engine.onBackfillOutcomes :=
      ⟨rfl,rfl,apart.applied,apart.base,apart.rows,apart.dirty,congrArg Outgoing.outboxChanged apart.outgoing,rfl⟩
    exact still.telling shown
  | connect =>
    have apart : ∀ names : List Name, engine.core.Apart (names.foldl Core.startBackfill engine.core) :=
      fun names => Core.apart_folds names Core.startBackfill_apart engine.core
    have still : engine.Still engine.onConnect :=
      ⟨rfl,rfl,(apart _).applied,(apart _).base,(apart _).rows,(apart _).dirty,congrArg Outgoing.outboxChanged (apart _).outgoing,rfl⟩
    exact still.telling shown
  | submitted =>
    dsimp only
    cases made : engine.submittedIn with
    | error failure =>
      have taken : engine.Still {engine with
          submitted:=[]
          resend:=false} := ⟨rfl,rfl,rfl,rfl,rfl,rfl,rfl,rfl⟩
      exact taken.trans (Engine.rejectAll_still _ _ failure)
    | ok m =>
      obtain ⟨wire,ran⟩ := submittedIn_mints made
      have mints := mints_all ran
      refine ⟨rfl,rfl,rfl,le_of_eq mints.applied.symm,fun key _ => by rw [mints.base],
        shown.behind rfl rfl (fun _ key => by rw [mints.base]) fun same ordinal => ?_,fun quiet => ?_⟩
      · have fresh : m.fresh = false := (Bool.or_eq_false_iff.mp same).2
        rw [(mints.fresh fresh).2]
      · unfold Engine.shows at quiet
        rw [turn] at quiet
        cases quiet
  | results =>
    dsimp only
    have first : Hearing answers [] engine.core (({engine with mutationOutcomes:=[]} : Engine V D),[]) := held.hearing rfl
    have all := first.outcomes (fun _ inside => held.apart_online inside) engine.mutationOutcomes
    have taken : engine.Still {engine with mutationOutcomes:=[]} := ⟨rfl,rfl,rfl,rfl,rfl,rfl,rfl,rfl⟩
    have still := taken.trans (Engine.outcomes_still engine.mutationOutcomes ({engine with mutationOutcomes:=[]},[]))
    have shows : engine.shows = true := by
      unfold Engine.shows
      rw [turn]
    exact .moves shown shows still (Core.releaseIn_moves (all.filed_of held.ledger.toFiled) _).1 rfl rfl rfl rfl
  | inbox =>
    dsimp only
    have reads : ∀ rest items, engine.shows = true → match (do
        let engine ← engine.write (engine.core.onItemsIn items)
        return {engine with inbox:=rest}) with
      | .ok mid => engine.Telling mid
      | .error (_,after) => engine.Still after := by
      intro rest items shows
      cases ran : engine.core.onItemsIn items with
      | error failure => exact .refl engine
      | ok core => exact .moves shown shows (.refl engine) (Core.onItemsIn_enters ran held.ledger).2 rfl rfl rfl rfl
    have shows : engine.inbox.head?.any Engine.isEnd = false → engine.shows = true := by
      intro open_
      unfold Engine.shows
      rw [turn]
      dsimp only
      rw [open_]
      rfl
    cases queue : engine.inbox with
    | nil => exact reads [] [] (shows (by rw [queue]; rfl))
    | cons item rest =>
      cases item with
      | opened | view | edits | live | vouch => exact reads _ _ (shows (by rw [queue]; rfl))
      | ended fatal =>
        cases fatal with
        | true => exact ⟨rfl,rfl,rfl,rfl,rfl,rfl,rfl,rfl⟩
        | false =>
          have still : engine.Still ({engine with inbox:=rest} : Engine V D).onEnd := ⟨rfl,rfl,rfl,rfl,rfl,rfl,rfl,rfl⟩
          exact still.telling shown
  | pushes =>
    dsimp only
    cases pushes : engine.backfillWork.filter (engine.core.accepts engine.conn) with
    | nil =>
      rw [if_pos rfl]
      have still : engine.Still {engine with backfillWork:=[]} := ⟨rfl,rfl,rfl,rfl,rfl,rfl,rfl,rfl⟩
      exact still.telling shown
    | cons work rest =>
      rw [if_neg (List.cons_ne_nil work rest)]
      have shows : engine.shows = true := by
        unfold Engine.shows
        rw [turn]
        dsimp only
        rw [pushes]
        rfl
      cases ran : engine.core.onPushesIn (work :: rest) with
      | error failure => exact ⟨rfl,rfl,rfl,rfl,rfl,rfl,rfl,rfl⟩
      | ok core => exact .moves shown shows (.refl engine) (Core.onPushesIn_enters ran held.ledger).2 rfl rfl rfl rfl

-- A running Engine shows all of its outbox, and of nothing else a prediction.
structure Kept (j : Journal V D) : Prop where
  outboxed : Outboxed j.filed j.answers j.entered j.engine.nextId j.engine.core
  shown : j.engine.ended = false → j.engine.Shown

-- A pass's own query runs show what it leaves.
theorem Outboxed.pass_shows {engine : Engine V D} (weather : Weather) (held : Outboxed filed answers entered engine.nextId engine.core)
    (shown : engine.ended = false → engine.Shown) :
    ((engine.pass weather).ended = false → (engine.pass weather).Shown) ∧ (engine.pass weather).Showing engine.runs := by
  cases taken : engine.takes with
  | none =>
    unfold Engine.takes at taken
    unfold Engine.pass
    split
    · exact ⟨shown,.none engine⟩
    · rename_i going
      split
      · have still : engine.Still {engine.shutdown with ended:=true} := by
          have down := Engine.shutdown_still engine
          exact ⟨down.runs,down.overlay,down.applied,down.base,down.rows,down.dirty,down.changed,down.predictor⟩
        exact ⟨fun running => absurd running (by simp),still.none⟩
      · rename_i free
        rw [if_neg (by simp [going,free])] at taken
        cases taken
  | some turn =>
    have began := Engine.startCalls_still engine
    have started := held.quiet (Engine.startCalls_rests engine)
    have shown := began.shown (shown (Engine.takes_running taken))
    have telling := started.telling shown
    rw [(Engine.pass_takes weather taken).1,Engine.handle_parts,← began.runs]
    generalize engine.startCalls = engine at shown telling
    have ends : ∀ after failure, (after : Engine V D).Showing engine.runs →
        ((after.fail failure).ended = false → (after.fail failure).Shown) ∧ (after.fail failure).Showing engine.runs := by
      intro after failure showing
      refine ⟨fun running => ?_,(Engine.fail_still failure after).showing showing⟩
      rw [Engine.fail_ended] at running
      cases running
    cases ran : engine.prepare with
    | error thrown =>
      obtain ⟨failure,after⟩ := thrown
      rw [ran] at telling
      exact ends after failure (Engine.Still.none telling)
    | ok mid =>
      rw [ran] at telling
      have telling : engine.Telling mid := telling
      simp only [bind,Except.bind]
      split
      · have refreshed := Engine.refresh_shows weather false (.inr telling.behind)
        rw [telling.runs] at refreshed
        cases made : mid.refresh weather false with
        | error thrown =>
          obtain ⟨failure,after⟩ := thrown
          rw [made] at refreshed
          exact ends after failure refreshed.2
        | ok after =>
          rw [made] at refreshed
          have hand := Engine.hand_still engine after
          exact ⟨fun _ => hand.shown refreshed.1,hand.showing refreshed.2⟩
      · rename_i quiet
        have still := telling.still (by simpa using quiet)
        exact ⟨fun _ => still.shown shown,still.none⟩

theorem Outboxed.pass_applied {engine : Engine V D} (weather : Weather) (held : Outboxed filed answers entered engine.nextId engine.core)
    (shown : engine.ended = false → engine.Shown) : engine.core.applied ≤ (engine.pass weather).core.applied := by
  cases taken : engine.takes with
  | none => exact le_of_eq (Engine.pass_idle weather taken).applied.symm
  | some turn =>
    have began := Engine.startCalls_still engine
    have started := held.quiet (Engine.startCalls_rests engine)
    have telling := started.telling (began.shown (shown (Engine.takes_running taken)))
    rw [← began.applied]
    cases ran : engine.startCalls.prepare with
    | error thrown =>
      obtain ⟨failure,after⟩ := thrown
      rw [ran] at telling
      have still : engine.startCalls.Still after := telling
      rw [Engine.pass_error taken ran,(Engine.fail_still failure after).applied,still.applied]
    | ok mid =>
      rw [ran] at telling
      have telling : engine.startCalls.Telling mid := telling
      exact telling.applied.trans (le_of_eq (Engine.pass_rests taken ran).applied.symm)

-- A start shows what it loads.
theorem begins {core : Core V D} (held : Outboxed filed answers entered nextId core) (wants : List Name)
    (predictor : Option (Predictor V D)) (series nextEntry : Nat) (weather : Weather) :
    Kept (begin wants predictor core.store series nextId nextEntry weather) ∧
      (begin wants predictor core.store series nextId nextEntry weather).engine.Showing [] := by
  have loaded := loads_outboxed held nextEntry
  unfold begin Engine.start
  dsimp only
  cases ran : (Core.load core.store nextEntry : Core V D).purgeIn wants with
  | error failure =>
    have rests := Engine.fail_rests failure {core:=Core.load core.store nextEntry,predictor,series,nextId}
    have still := Engine.fail_still failure {core:=Core.load core.store nextEntry,predictor,series,nextId}
    refine ⟨⟨?_,fun running => ?_⟩,still.none⟩
    · have kept := Outboxed.quiet loaded rests
      rw [Core.ifRan,List.map_nil,List.filter_nil]
      show Outboxed _ [] [] (Engine.fail failure _).nextId _
      rw [rests.nextId]
      exact kept
    · have going : (Engine.fail failure {core:=Core.load core.store nextEntry,predictor,series,nextId}).ended = false := running
      rw [Engine.fail_ended] at going
      cases going
  | ok purged =>
    have entering := loaded.enters (Core.purgeIn_enters ran)
    have rests := Engine.refresh_rests weather true {core:=purged,predictor,series,nextId}
    have shows := @Engine.refresh_shows V D weather true {core:=purged,predictor,series,nextId} (.inl rfl)
    show Kept ⟨Engine.caught (Engine.refresh weather true {core:=purged,predictor,series,nextId}),_,_,_,_,_⟩ ∧
      (Engine.caught (Engine.refresh weather true {core:=purged,predictor,series,nextId})).Showing []
    cases made : Engine.refresh weather true {core:=purged,predictor,series,nextId} with
    | error thrown =>
      obtain ⟨failure,after⟩ := thrown
      rw [made] at rests shows
      have fails := Engine.Rests.trans rests (Engine.fail_rests failure after)
      refine ⟨⟨?_,fun running => ?_⟩,(Engine.fail_still failure after).showing shows.2⟩
      · have kept := Outboxed.quiet entering fails
        show Outboxed _ [] _ (after.fail failure).nextId _
        rw [fails.nextId]
        exact kept
      · have going : (after.fail failure).ended = false := running
        rw [Engine.fail_ended] at going
        cases going
    | ok after =>
      rw [made] at rests shows
      have rests : Engine.Rests _ _ after := rests
      refine ⟨⟨?_,fun _ => shows.1⟩,shows.2⟩
      have kept := Outboxed.quiet entering rests
      show Outboxed _ [] _ after.nextId _
      rw [rests.nextId]
      exact kept

-- The query runs of this Engine that a happening finds made.
def earlier (j : Journal V D) : Happening V D → List (QueryRun V)
  | .event _ => j.engine.runs
  | .restart _ _ => []

theorem Kept.next {j : Journal V D} (kept : Kept j) (happening : Happening V D) :
    Kept (j.next happening) ∧ (j.next happening).engine.Showing (j.earlier happening) := by
  cases happening with
  | restart wants weather => exact begins kept.outboxed wants _ _ _ weather
  | event event =>
    by_cases passes : ∃ weather, event = .pass weather
    · obtain ⟨weather,rfl⟩ := passes
      obtain ⟨shown,showing⟩ := kept.outboxed.pass_shows weather kept.shown
      have same : (j.pass weather).engine = j.engine.pass weather := by
        unfold pass
        cases j.engine.takes <;> rfl
      refine ⟨⟨kept.outboxed.passes weather,?_⟩,?_⟩
      · show (j.pass weather).engine.ended = false → (j.pass weather).engine.Shown
        rw [same]
        exact shown
      · show (j.pass weather).engine.Showing j.engine.runs
        rw [same]
        exact showing
    · have other : ∀ weather, event ≠ .pass weather := fun weather is => passes ⟨weather,is⟩
      obtain ⟨apart,nextId,predictor,runs,overlay,ended⟩ := @react_quiet V D j.engine event other
      have still : j.engine.Still (j.engine.react event) :=
        ⟨runs,overlay,apart.applied,apart.base,apart.rows,apart.dirty,congrArg Outgoing.outboxChanged apart.outgoing,predictor⟩
      have outboxed := kept.outboxed.apart apart
      rw [← nextId] at outboxed
      have shown : (j.engine.react event).ended = false → (j.engine.react event).Shown := by
        rw [ended]
        exact fun running => still.shown (kept.shown running)
      cases event with
      | pass weather => exact absurd rfl (other weather)
      | hook | push | outcome | results | backoff | retry | sendMutation | newQuery | reconnectNow | abort | sendOnlineMutation =>
        exact ⟨⟨outboxed,shown⟩,still.none⟩

theorem first_outboxed : Outboxed [] [] [] 0 (Core.load {} 0 : Core V D) := by
  refine ⟨⟨⟨fun x o => ?_,fun _ _ none => (by cases none),fun _ _ none => (by cases none)⟩,fun _ _ none => (by cases none)⟩,fun x => ?_,
    fun _ _ none => (by cases none),fun _ _ none => (by cases none),fun _ _ => rfl,fun _ _ none => (by cases none),
    fun _ none => (by cases none),fun _ none => (by cases none),fun _ none => (by cases none)⟩
  · constructor
    · intro none
      cases none
    · rintro ⟨_,none,_⟩
      cases none
  · constructor
    · rintro ⟨_,none⟩
      cases none
    · rintro ⟨none,_⟩
      cases none

theorem first_kept (wants : List Name) (predictor : Option (Predictor V D)) (weather : Weather) :
    Kept (first wants predictor weather) ∧ (first wants predictor weather).engine.Showing [] :=
  begins first_outboxed wants predictor 0 0 weather

-- Until the next start, what was filed stays filed, and what is done stays done.
theorem Kept.done {j : Journal V D} (kept : Kept j) (event : Engine.Event V D) (id : Nat) :
    (id ∈ j.filed → id ∈ (j.next (.event event)).filed) ∧ (Done j.answers j.entered j.engine.core.applied id →
      Done (j.next (.event event)).answers (j.next (.event event)).entered (j.next (.event event)).engine.core.applied id) := by
  by_cases passes : ∃ weather, event = .pass weather
  · obtain ⟨weather,rfl⟩ := passes
    have further := kept.outboxed.pass_applied weather kept.shown
    show (_ → id ∈ (j.pass weather).filed) ∧ (_ → Done (j.pass weather).answers (j.pass weather).entered (j.pass weather).engine.core.applied id)
    unfold pass
    cases j.engine.takes with
    | none => exact ⟨fun member => member,Done.mono (List.Subset.refl _) (List.Subset.refl _) further⟩
    | some turn => exact ⟨List.mem_append_left _,Done.mono (List.subset_append_left _ _) (List.subset_append_left _ _) further⟩
  · have other : ∀ weather, event ≠ .pass weather := fun weather is => passes ⟨weather,is⟩
    have apart := (@react_quiet V D j.engine event other).1.applied
    have same : (j.next (.event event)).filed = j.filed ∧ (j.next (.event event)).answers = j.answers ∧
        (j.next (.event event)).entered = j.entered ∧ (j.next (.event event)).engine = j.engine.react event := by
      cases event with
      | pass weather => exact absurd rfl (other weather)
      | hook | push | outcome | results | backoff | retry | sendMutation | newQuery | reconnectNow | abort | sendOnlineMutation =>
        exact ⟨rfl,rfl,rfl,rfl⟩
    obtain ⟨filed,answers,entered,engine⟩ := same
    rw [filed,answers,entered,engine,apart]
    exact ⟨fun member => member,fun done => done⟩

end Journal
end PhaseLock
