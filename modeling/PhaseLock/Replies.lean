import PhaseLock.Settlements

namespace PhaseLock
variable {V D : Type}

namespace Journal

-- What the @online table says of its mutations is what the Engine has heard of them.
def Heard (given : List (Nat × Nat)) (answers : List (Nat × MutationResult)) (entered : List Nat) (core : Core V D) : Prop :=
  ∀ id online, core.outgoing.online.get id = some online → (online.promise,id) ∈ given ∧
    (∀ position, online.ack = some position → (id,.ok position) ∈ answers) ∧ (online.seen = true → id ∈ entered)

variable {given : List (Nat × Nat)} {answers : List (Nat × MutationResult)} {filed entered ids : List Nat} {nextId : Nat} {core after : Core V D}

theorem Heard.less (heard : Heard given answers entered core)
    (less : ∀ id online, after.outgoing.online.get id = some online → core.outgoing.online.get id = some online) :
    Heard given answers entered after := fun id online sent => heard id online (less id online sent)

theorem Heard.same (heard : Heard given answers entered core) (same : after.outgoing.online = core.outgoing.online) :
    Heard given answers entered after := heard.less fun id online sent => by rw [← same]; exact sent

theorem Heard.more (nextId : Nat) {given' : List (Nat × Nat)} {answers' : List (Nat × MutationResult)} {entered' : List Nat}
    (heard : Heard given answers entered core) (gives : given ⊆ given') (answers_ : ∀ row ∈ answers, row.1 < nextId → row ∈ answers')
    (in_ : ∀ id ∈ entered, id < nextId → id ∈ entered') (known : ∀ id online, core.outgoing.online.get id = some online → id < nextId) :
    Heard given' answers' entered' core := by
  intro id online sent
  obtain ⟨promise,acked,seen⟩ := heard id online sent
  exact ⟨gives promise,fun position ack => answers_ _ (acked position ack) (known id online sent),
    fun shown => in_ id (seen shown) (known id online sent)⟩

theorem Heard.moves {gone : Nat → Bool} (heard : Heard given answers entered core) (moves : Core.Moves ids gone core after) :
    Heard given answers (entered++ids) after := by
  intro id online sent
  rw [moves.online] at sent
  obtain ⟨old,before,rfl⟩ := Option.map_eq_some_iff.mp sent
  obtain ⟨promise,acked,seen⟩ := heard id old before
  refine ⟨promise,acked,fun shown => ?_⟩
  rcases Bool.or_eq_true_iff.mp shown with earlier | now
  · exact List.mem_append_left _ (seen earlier)
  · exact List.mem_append_right _ (of_decide_eq_true now)

-- Edits that enter show in the table those of them that were minted by then.
theorem Heard.enters {gone : Nat → Bool} (heard : Heard given answers entered core)
    (known : ∀ id online, core.outgoing.online.get id = some online → id < nextId) (moves : Core.Moves ids gone core after) :
    Heard given answers (entered++ids.filter (· < nextId)) after := by
  refine Heard.more nextId (heard.moves moves) (List.Subset.refl _) (fun _ member _ => member) (fun id member low => ?_)
    fun id online sent => ?_
  · rcases List.mem_append.mp member with old | new
    · exact List.mem_append_left _ old
    · exact List.mem_append_right _ (List.mem_filter.mpr ⟨new,by simpa using low⟩)
  · rw [moves.online] at sent
    obtain ⟨old,before,_⟩ := Option.map_eq_some_iff.mp sent
    exact known id old before

variable {rows : List (Nat × MutationResult)} {state : Engine V D × List Nat}

theorem Heard.failOne {engine : Engine V D} (heard : Heard given answers entered engine.core) (id : Nat) :
    Heard given answers entered (engine.failOne id).core := by
  unfold Engine.failOne
  split
  · exact heard
  · refine heard.less fun x online sent => ?_
    rw [settle_core] at sent
    have sent : (engine.core.outgoing.online.del id).get x = some online := sent
    rw [OrderedMap.get_del] at sent
    split at sent
    · cases sent
    · exact sent

theorem Heard.answer (heard : Heard given answers entered state.1.core) (row : Nat × MutationResult) :
    Heard given (answers++[row]) entered (Engine.answer state row).1.core := by
  obtain ⟨engine,drop⟩ := state
  obtain ⟨x,result⟩ := row
  have wider : Heard given (answers++[(x,result)]) entered engine.core := fun id online sent => by
    obtain ⟨promise,acked,seen⟩ := heard id online sent
    exact ⟨promise,fun position ack => List.mem_append_left _ (acked position ack),seen⟩
  unfold Engine.answer
  dsimp only
  cases sent : engine.core.outgoing.online.get x with
  | none =>
    dsimp only
    split
    · cases result <;> exact wider
    · exact wider
  | some online =>
    have gone : ∀ settlement : Settlement, Heard given (answers++[(x,result)]) entered
        ((engine.out {engine.core.outgoing with online:=engine.core.outgoing.online.del x}).settle online.promise settlement).core := by
      intro settlement
      refine wider.less fun id other there => ?_
      rw [settle_core] at there
      have there : (engine.core.outgoing.online.del x).get id = some other := there
      rw [OrderedMap.get_del] at there
      split at there
      · cases there
      · exact there
    cases result with
    | reject reason => exact gone _
    | conflict current => exact gone _
    | ok position =>
      intro id other there
      have now : (engine.core.outgoing.online.set x {online with ack:=some position}).get id = some other := there
      rw [OrderedMap.get_set] at now
      split at now
      · rename_i here
        subst here
        injection now with is
        subst is
        obtain ⟨promise,_,seen⟩ := wider x online sent
        refine ⟨promise,fun p ack => ?_,seen⟩
        cases ack
        exact List.mem_append_right _ List.mem_cons_self
      · exact wider id other now

theorem Heard.run (heard : Heard given answers entered state.1.core) (more : List (Nat × MutationResult)) :
    Heard given (answers++more) entered (more.foldl Engine.answer state).1.core := by
  induction more generalizing answers state with
  | nil =>
    rw [List.append_nil]
    exact heard
  | cons row rest ih =>
    rw [List.append_cons]
    exact ih (heard.answer row)

theorem Heard.outcomes (heard : Heard given answers entered state.1.core) (outcomes : List MutationOutcome) :
    Heard given (answers++outcomes.flatMap fun outcome => outcome.ids.zip (outcome.results.getD [])) entered
      (outcomes.foldl Engine.onOutcome state).1.core := by
  induction outcomes generalizing answers state with
  | nil =>
    rw [List.flatMap_nil,List.append_nil]
    exact heard
  | cons outcome rest ih =>
    rw [List.flatMap_cons,← List.append_assoc]
    refine ih ?_
    unfold Engine.onOutcome
    cases outcome.results with
    | none =>
      rw [Option.getD_none,List.zip_nil_right,List.append_nil]
      have fails : Heard given answers entered (outcome.ids.foldl Engine.failOne state.1).core :=
        foldl_invariant (P := fun engine : Engine V D => Heard given answers entered engine.core) (fun s id _ before => before.failOne id) heard
      exact fails
    | some results => exact heard.run _

end Journal

namespace Engine

-- An Engine as its pass's transactions leave it, rolled back or not.
def prepared (engine : Engine V D) : Engine V D :=
  match engine.prepare with
  | .ok mid => mid
  | .error (_,after) => after

theorem prepared_ends {P : Engine V D → Prop} {engine : Engine V D} (ends : Ends P engine.prepare) : P engine.prepared := by
  unfold prepared
  cases ran : engine.prepare with
  | error thrown =>
    rw [ran] at ends
    exact ends
  | ok mid =>
    rw [ran] at ends
    exact ends

theorem pass_prepared {engine : Engine V D} {turn : Turn} (weather : Weather) (taken : engine.takes = some turn) :
    Rests engine.startCalls.handed engine.startCalls.prepared (engine.pass weather) := by
  unfold prepared
  cases ran : engine.startCalls.prepare with
  | error thrown =>
    obtain ⟨failure,after⟩ := thrown
    rw [pass_error taken ran]
    exact (fail_rests failure after).more (List.nil_subset _)
  | ok mid => exact pass_rests taken ran

end Engine

namespace Journal
variable {given : List (Nat × Nat)} {answers : List (Nat × MutationResult)} {filed entered : List Nat} {nextId : Nat}

theorem Heard.prepares {engine : Engine V D} (heard : Heard given answers entered engine.core)
    (held : Outboxed filed answers entered engine.nextId engine.core) :
    Heard given (answers++engine.heard.filter (·.1 < engine.nextId))
      (entered++(engine.entering.map WireEdit.id).filter (· < engine.nextId)) engine.prepared.core := by
  have known := held.online
  have quiet : ∀ {core : Core V D}, Heard given answers entered core →
      Heard given (answers++[].filter (·.1 < engine.nextId)) (entered++(([] : List (WireEdit V)).map WireEdit.id).filter (· < engine.nextId))
        core := by
    intro core same
    simpa using same
  refine Engine.prepared_ends (P := fun after => Heard given (answers++engine.heard.filter (·.1 < engine.nextId))
    (entered++(engine.entering.map WireEdit.id).filter (· < engine.nextId)) after.core) ?_
  unfold Engine.prepare Engine.heard Engine.entering
  cases turn : engine.turn with
  | queries | idle => exact quiet heard
  | outcomes =>
    have apart := Core.apart_folds engine.backfillOutcomes (Core.onOutcomeIn_apart engine.conn) engine.core
    exact quiet (heard.same (congrArg Outgoing.online apart.outgoing))
  | connect =>
    have apart : ∀ names : List Name, engine.core.Apart (names.foldl Core.startBackfill engine.core) :=
      fun names => Core.apart_folds names Core.startBackfill_apart engine.core
    exact quiet (heard.same (congrArg Outgoing.online (apart _).outgoing))
  | submitted =>
    dsimp only
    cases made : engine.submittedIn with
    | error failure =>
      refine quiet (heard.less fun id online sent => ?_)
      have rejected := Engine.rejectAll_rests {engine with
          submitted:=[]
          resend:=false} (engine.submitted.filterMap Submission.promise) failure
      exact (rejected.online id online sent).resolve_right List.not_mem_nil
    | ok m =>
      obtain ⟨wire,ran⟩ := submittedIn_mints made
      exact quiet (heard.same (mints_all ran).online)
  | results =>
    dsimp only
    rw [List.map_nil,List.filter_nil,List.append_nil]
    have first : Hearing answers [] engine.core (({engine with mutationOutcomes:=[]} : Engine V D),[]) := held.hearing rfl
    have all := first.outcomes (fun _ inside => held.apart_online inside) engine.mutationOutcomes
    have moves := (Core.releaseIn_moves (all.filed_of held.ledger.toFiled)
      (engine.mutationOutcomes.foldl Engine.onOutcome (({engine with mutationOutcomes:=[]} : Engine V D),[])).2).1
    have told := @Heard.outcomes V D _ _ _ (({engine with mutationOutcomes:=[]} : Engine V D),[]) heard engine.mutationOutcomes
    have after := told.moves moves
    rw [List.append_nil] at after
    refine Heard.more engine.nextId after (List.Subset.refl _) (fun row member low => ?_) (fun id member _ => member)
      fun id online sent => ?_
    · rcases List.mem_append.mp member with old | new
      · exact List.mem_append_left _ old
      · exact List.mem_append_right _ (List.mem_filter.mpr ⟨new,by simpa using low⟩)
    · rw [moves.online] at sent
      obtain ⟨old,before,_⟩ := Option.map_eq_some_iff.mp sent
      cases kept : engine.core.outgoing.online.get id with
      | none =>
        have none := all.online id kept
        rw [none] at before
        cases before
      | some entry => exact known id entry kept
  | inbox =>
    dsimp only
    rw [List.filter_nil,List.append_nil]
    have reads : ∀ rest items, Engine.Ends (fun after => Heard given answers
        (entered++((Core.ifRan (engine.core.onItemsIn items) (engine.core.brought items)).map WireEdit.id).filter (· < engine.nextId)) after.core)
        (do
          let engine ← engine.write (engine.core.onItemsIn items)
          return {engine with inbox:=rest}) := by
      intro rest items
      cases ran : engine.core.onItemsIn items with
      | error failure =>
        rw [Core.ifRan,List.map_nil,List.filter_nil,List.append_nil]
        exact heard
      | ok core => exact heard.enters known (Core.onItemsIn_enters ran held.ledger).2
    cases queue : engine.inbox with
    | nil => exact reads [] []
    | cons item rest =>
      cases item with
      | opened | view | edits | live | vouch => exact reads _ _
      | ended fatal =>
        rw [if_pos (show (Inbound.ended fatal :: rest).head?.any Engine.isEnd = true from rfl),List.map_nil,List.filter_nil,List.append_nil]
        cases fatal <;> exact heard
  | pushes =>
    dsimp only
    rw [List.filter_nil,List.append_nil]
    generalize engine.backfillWork.filter (engine.core.accepts engine.conn) = pushes
    cases pushes with
    | nil =>
      rw [if_pos rfl,if_pos rfl,List.map_nil,List.filter_nil,List.append_nil]
      exact heard
    | cons work rest =>
      rw [if_neg (List.cons_ne_nil work rest),if_neg (List.cons_ne_nil work rest)]
      cases ran : engine.core.onPushesIn (work :: rest) with
      | error failure =>
        rw [Core.ifRan,List.map_nil,List.filter_nil,List.append_nil]
        exact heard
      | ok core => exact heard.enters known (Core.onPushesIn_enters ran held.ledger).2

end Journal

namespace Engine
variable {core : Core V D} {engine after : Engine V D}

-- A step that settles each promise once, ok where that is due.
def Settles (core : Core V D) (engine after : Engine V D) : Prop :=
  ((engine.settled.map Prod.fst).Nodup → (after.settled.map Prod.fst).Nodup) ∧ ∀ row ∈ after.settled, row ∈ engine.settled ∨ Due core row

theorem Minds.settles {hand : List Nat} (minds : Minds core hand engine after) : Settles core engine after := ⟨minds.once,minds.due⟩

theorem Settles.trans {a b c : Engine V D} (first : Settles core a b) (second : Settles core b c) : Settles core a c :=
  ⟨fun apart => second.1 (first.1 apart),fun row member => (second.2 row member).elim (first.2 row) .inr⟩

theorem fail_settled (failure : Failure) (engine : Engine V D) : Settles core engine (engine.fail failure) := by
  obtain ⟨_,once,due,_⟩ := @fail_minds V D core failure engine
  exact ⟨once,due⟩

theorem hand_settles (engine after : Engine V D) : Settles core after (engine.hand after) := by
  have same : ∀ calls : List (List (Mutation D) × Option (Nat × OnlineMutation)), (calls.foldl sendCall after).settled = after.settled := by
    intro calls
    refine foldl_invariant (P := fun s : Engine V D => s.settled = after.settled) (fun s call _ before => ?_) rfl
    unfold sendCall
    split <;> exact before
  unfold hand
  split
  · split
    · unfold Settles
      rw [same]
      exact ⟨id,fun _ => .inl⟩
    · exact (rejectAll_minds after _ _).settles
  · exact ⟨id,fun _ => .inl⟩

end Engine

namespace Journal
variable {given : List (Nat × Nat)} {answers : List (Nat × MutationResult)} {filed entered : List Nat}

theorem Outboxed.pass_settles {engine : Engine V D} {turn : Turn} (weather : Weather)
    (held : Outboxed filed answers entered engine.nextId engine.core) (taken : engine.takes = some turn) :
    Engine.Settles engine.startCalls.prepared.core engine (engine.pass weather) := by
  have started := held.quiet (Engine.startCalls_rests engine)
  have minds := @Outboxed.minds V D _ _ _ _ engine.startCalls.prepared.core _ started
  obtain ⟨_,_,settled,_,_⟩ := Engine.startCalls_same engine
  have first : Engine.Settles engine.startCalls.prepared.core engine engine.startCalls := by
    unfold Engine.Settles
    rw [settled]
    exact ⟨id,fun _ => .inl⟩
  refine first.trans ?_
  rw [(Engine.pass_takes weather taken).1,Engine.handle_parts]
  unfold Engine.prepared at minds ⊢
  generalize engine.startCalls = engine at minds ⊢
  cases ran : engine.prepare with
  | error thrown =>
    obtain ⟨failure,after⟩ := thrown
    rw [ran] at minds
    have minds : Engine.Minds after.core [] engine after := minds
    exact minds.settles.trans (Engine.fail_settled failure after)
  | ok mid =>
    rw [ran] at minds
    have minds : Engine.Minds mid.core engine.inHand engine mid := minds
    have refreshed := Engine.refresh_minds weather false mid
    refine minds.settles.trans ?_
    simp only [bind,Except.bind]
    split
    · cases made : mid.refresh weather false with
      | error thrown =>
        obtain ⟨failure,after⟩ := thrown
        rw [made] at refreshed
        have refreshed : Engine.Minds mid.core [] mid after := refreshed
        exact refreshed.settles.trans (Engine.fail_settled failure after)
      | ok after =>
        rw [made] at refreshed
        have refreshed : Engine.Minds mid.core [] mid after := refreshed
        exact refreshed.settles.trans (Engine.hand_settles engine after)
    · exact ⟨id,fun _ => .inl⟩

-- What an ok that settles has behind it: an answer to its own mutation, and a round trip that an
-- unfrozen base shows.
def Earned (j : Journal V D) (row : Nat × Settlement) : Prop :=
  ∀ position, row.2 = .resolved (.ok position) → ∃ id, (row.1,id) ∈ j.given ∧ (id,.ok position) ∈ j.answers ∧
    (id ∈ j.entered ∨ position ≤ j.engine.core.applied) ∧ 0 ≤ j.engine.core.applied ∧ j.engine.core.frozen = false

structure Settling (j : Journal V D) : Prop where
  kept : Kept j
  heard : Heard j.given j.answers j.entered j.engine.core
  once : (j.engine.settled.map Prod.fst).Nodup

theorem Settling.pass {j : Journal V D} (settling : Settling j) (weather : Weather) :
    Heard (j.pass weather).given (j.pass weather).answers (j.pass weather).entered (j.pass weather).engine.core ∧
      ((j.pass weather).engine.settled.map Prod.fst).Nodup ∧
      ∀ row ∈ (j.pass weather).engine.settled, row ∈ j.engine.settled ∨ Earned (j.pass weather) row := by
  have outboxed := settling.kept.outboxed
  unfold Journal.pass
  cases taken : j.engine.takes with
  | none =>
    have rests := Engine.pass_idle weather taken
    have settles : ∀ core : Core V D, Engine.Settles core j.engine (j.engine.pass weather) := by
      intro core
      unfold Engine.takes at taken
      unfold Engine.pass
      split
      · exact ⟨id,fun _ => .inl⟩
      · rename_i going
        split
        · have minds := @Engine.shutdown_minds V D core j.engine
          exact ⟨minds.once,minds.due⟩
        · rename_i free
          rw [if_neg (by simp [going,free])] at taken
          cases taken
    refine ⟨settling.heard.less fun id online sent => (rests.online id online sent).resolve_right List.not_mem_nil,
      (settles j.engine.core).1 settling.once,fun row member => ?_⟩
    refine ((settles {j.engine.core with outgoing:={j.engine.core.outgoing with online:=∅}}).2 row member).imp_right fun due position is => ?_
    obtain ⟨id,online,none,_⟩ := due position is
    cases none
  | some turn =>
    have began := Engine.startCalls_rests j.engine
    have started := outboxed.quiet began
    rw [← began.nextId] at started
    have heard := settling.heard.less fun id online sent => (began.online id online sent).resolve_right List.not_mem_nil
    have told := heard.prepares started
    have settles := outboxed.pass_settles weather taken
    have rests := Engine.pass_prepared weather taken
    rw [began.nextId] at told
    refine ⟨fun id online sent => ?_,settles.1 settling.once,fun row member => (settles.2 row member).imp_right fun due position is => ?_⟩
    · rcases rests.online id online sent with before | new
      · obtain ⟨given,acked,seen⟩ := told id online before
        exact ⟨List.mem_append_left _ given,acked,seen⟩
      · unfold Engine.handed at new
        split at new
        · rename_i submits
          rw [Engine.callsOf_onlines submits] at new
          obtain ⟨⟨promise,x⟩,given,same⟩ := List.mem_map.mp new
          cases same
          exact ⟨List.mem_append_right _ given,fun _ none => (by cases none),fun none => (by cases none)⟩
        · cases new
    · obtain ⟨id,online,sent,same,acked,shown,based,thawed⟩ := due position is
      obtain ⟨given,answered,seen⟩ := told id online sent
      refine ⟨id,List.mem_append_left _ (same ▸ given),answered position acked,?_,?_,?_⟩
      · show id ∈ _ ∨ position ≤ (j.engine.pass weather).core.applied
        rw [rests.applied]
        exact shown.imp_left seen
      · show 0 ≤ (j.engine.pass weather).core.applied
        rw [rests.applied]
        exact based
      · show (j.engine.pass weather).core.frozen = false
        unfold Core.frozen
        rw [rests.backfills]
        exact thawed

-- What is neither a pass nor a promise asked for leaves the promises alone.
theorem react_minds {core : Core V D} {engine : Engine V D} {event : Engine.Event V D} (other : ∀ weather, event ≠ .pass weather)
    (asks : ∀ data promise, event ≠ .sendOnlineMutation data promise) :
    Engine.Minds core [] engine (engine.react event) ∧ (engine.react event).settled = engine.settled := by
  have same := congrArg Outgoing.online (@react_quiet V D engine event other).1.outgoing
  have ended := (@react_quiet V D engine event other).2.2.2.2.2
  have quiet : (engine.react event).settled = engine.settled → (engine.react event).submitted = engine.submitted →
      Engine.Minds core [] engine (engine.react event) ∧ (engine.react event).settled = engine.settled :=
    fun settled submitted => ⟨Engine.minds_same settled submitted same ended,settled⟩
  cases event with
  | pass weather => exact absurd rfl (other weather)
  | sendOnlineMutation data promise => exact absurd rfl (asks data promise)
  | hook | push | backoff =>
    refine quiet ?_ ?_ <;>
    · unfold Engine.react
      dsimp only
      split <;> rfl
  | outcome | results | retry | newQuery | reconnectNow | abort => exact quiet rfl rfl
  | sendMutation data =>
    refine ⟨?_,rfl⟩
    refine ⟨fun promise held => .inl (held.imp_right (Or.imp_left fun queued => ?_)),id,fun _ => .inl,rfl⟩
    show promise ∈ (engine.submitted++[Submission.outbox data]).filterMap Submission.promise
    rw [List.filterMap_append]
    exact List.mem_append_left _ queued

-- What is asked for waits, or is settled at once where the Engine has ended.
theorem asks_minds (engine : Engine V D) (data : Option D) (promise : Nat) :
    Engine.Minds {engine.core with outgoing:={engine.core.outgoing with online:=∅}} [] engine
        (engine.react (.sendOnlineMutation data promise)) ∧
      (engine.react (.sendOnlineMutation data promise)).Awaits promise ∧
      (engine.ended = true → promise ∈ (engine.react (.sendOnlineMutation data promise)).settled.map Prod.fst) := by
  unfold Engine.react
  dsimp only
  split
  · have now := Engine.settle_settles engine promise (.rejected .engineEnded)
    exact ⟨Engine.settle_minds engine (Engine.due_refused fun _ is => by cases is),.inl now,fun _ => now⟩
  · rename_i running
    have queued : promise ∈ (engine.submitted++[Submission.online data promise]).filterMap Submission.promise := by
      rw [List.filterMap_append]
      exact List.mem_append_right _ List.mem_cons_self
    refine ⟨⟨fun other held => .inl (held.imp_right (Or.imp_left fun before => ?_)),id,fun _ => .inl,rfl⟩,.inr (.inl queued),
      fun ended => absurd (.inl ended) running⟩
    show other ∈ (engine.submitted++[Submission.online data promise]).filterMap Submission.promise
    rw [List.filterMap_append]
    exact List.mem_append_left _ before

theorem event_same (j : Journal V D) {event : Engine.Event V D} (other : ∀ weather, event ≠ .pass weather)
    (asks : ∀ data promise, event ≠ .sendOnlineMutation data promise) :
    (j.next (.event event)).engine = j.engine.react event ∧ (j.next (.event event)).asked = j.asked ∧
      (j.next (.event event)).given = j.given ∧ (j.next (.event event)).answers = j.answers ∧
      (j.next (.event event)).entered = j.entered := by
  cases event with
  | pass weather => exact absurd rfl (other weather)
  | sendOnlineMutation data promise => exact absurd rfl (asks data promise)
  | hook | push | outcome | results | backoff | retry | sendMutation | newQuery | reconnectNow | abort => exact ⟨rfl,rfl,rfl,rfl,rfl⟩

theorem Settling.event {j : Journal V D} (settling : Settling j) (event : Engine.Event V D) :
    Settling (j.next (.event event)) ∧
      ∀ row ∈ (j.next (.event event)).engine.settled, row ∈ j.engine.settled ∨ Earned (j.next (.event event)) row := by
  have kept := (settling.kept.next (.event event)).1
  by_cases passes : ∃ weather, event = .pass weather
  · obtain ⟨weather,rfl⟩ := passes
    obtain ⟨heard,once,due⟩ := settling.pass weather
    exact ⟨⟨kept,heard,once⟩,due⟩
  · have other : ∀ weather, event ≠ .pass weather := fun weather is => passes ⟨weather,is⟩
    have online := congrArg Outgoing.online (@react_quiet V D j.engine event other).1.outgoing
    have heard : Heard j.given j.answers j.entered (j.engine.react event).core := settling.heard.same online
    by_cases asks : ∃ data promise, event = .sendOnlineMutation data promise
    · obtain ⟨data,promise,rfl⟩ := asks
      have minds := (asks_minds j.engine data promise).1
      refine ⟨⟨kept,heard,minds.once settling.once⟩,fun row member => (minds.due row member).imp_right fun due position is => ?_⟩
      obtain ⟨id,entry,none,_⟩ := due position is
      cases none
    · have asks : ∀ data promise, event ≠ .sendOnlineMutation data promise := fun data promise is => asks ⟨data,promise,is⟩
      have quiet := (@react_minds V D j.engine.core j.engine event other asks).2
      obtain ⟨engine,_,given,answers,entered⟩ := event_same j other asks
      refine ⟨⟨kept,?_,?_⟩,?_⟩
      · rw [engine,given,answers,entered]
        exact heard
      · rw [engine,quiet]
        exact settling.once
      · rw [engine,quiet]
        exact fun _ => .inl

theorem Minded.event {j : Journal V D} (minded : Minded j) (event : Engine.Event V D)
    (keeps : ∀ weather, event = .pass weather → ¬j.engine.Drops weather) : Minded (j.next (.event event)) := by
  have kept := (minded.kept.next (.event event)).1
  by_cases passes : ∃ weather, event = .pass weather
  · obtain ⟨weather,rfl⟩ := passes
    have same : (j.pass weather).engine = j.engine.pass weather ∧ (j.pass weather).asked = j.asked := by
      unfold Journal.pass
      cases j.engine.takes <;> exact ⟨rfl,rfl⟩
    have minds : ∀ promise ∈ (j.pass weather).asked, (j.pass weather).engine.Awaits promise ∧
        ((j.pass weather).engine.ended = true → promise ∈ (j.pass weather).engine.settled.map Prod.fst) := by
      rw [same.1,same.2]
      exact fun promise member => minded.kept.outboxed.pass_minds weather minded.kept.shown (keeps weather rfl)
        (minded.asked promise member) fun ended => minded.ended ended promise member
    exact ⟨kept,fun promise member => (minds promise member).1,fun ended promise member => (minds promise member).2 ended⟩
  · have other : ∀ weather, event ≠ .pass weather := fun weather is => passes ⟨weather,is⟩
    by_cases asks : ∃ data promise, event = .sendOnlineMutation data promise
    · obtain ⟨data,promise,rfl⟩ := asks
      obtain ⟨minds,awaits,settled⟩ := asks_minds j.engine data promise
      refine ⟨kept,fun asked member => ?_,fun ended asked member => ?_⟩
      · rcases List.mem_append.mp member with before | now
        · exact (minds.awaits asked (minded.asked asked before)).resolve_right List.not_mem_nil
        · cases List.mem_singleton.mp now
          exact awaits
      · have ended : j.engine.ended = true := minds.ended.symm.trans ended
        rcases List.mem_append.mp member with before | now
        · have still := minded.ended ended asked before
          show asked ∈ (j.engine.react _).settled.map Prod.fst
          unfold Engine.react
          dsimp only
          rw [if_pos (.inl ended)]
          exact Engine.settle_keeps j.engine promise _ still
        · cases List.mem_singleton.mp now
          exact settled ended
    · have asks : ∀ data promise, event ≠ .sendOnlineMutation data promise := fun data promise is => asks ⟨data,promise,is⟩
      have minds := @react_minds V D j.engine.core j.engine event other asks
      obtain ⟨engine,asked,_⟩ := event_same j other asks
      refine ⟨kept,?_,?_⟩
      · rw [engine,asked]
        exact fun promise member => (minds.1.awaits promise (minded.asked promise member)).resolve_right List.not_mem_nil
      · rw [engine,asked,minds.1.ended,minds.2]
        exact minded.ended

-- A start has no promise to settle.
theorem begins_settling {core : Core V D} {nextId : Nat} (held : Outboxed filed answers entered nextId core) (wants : List Name)
    (predictor : Option (Predictor V D)) (series nextEntry : Nat) (weather : Weather) :
    Settling (begin wants predictor core.store series nextId nextEntry weather) ∧
      ∀ row ∈ (begin wants predictor core.store series nextId nextEntry weather).engine.settled,
        Earned (begin wants predictor core.store series nextId nextEntry weather) row := by
  have kept := (begins held wants predictor series nextEntry weather).1
  have unsent : ∀ id, (Core.load core.store nextEntry : Core V D).outgoing.online.get id = none := by
    intro id
    have online := (@loads_outbox D core.store.mutations.scan (distinct_rows held) {}).2.2
    rw [show (Core.load core.store nextEntry : Core V D).outgoing.online = ∅ from online]
    rfl
  have quiet : ∀ {loaded : Core V D} {after : Engine V D}, (∀ id, loaded.outgoing.online.get id = none) →
      Engine.Settles loaded {core:=loaded,predictor,series,nextId} after → (after.settled.map Prod.fst).Nodup ∧
        ∀ row ∈ after.settled, ∀ position, row.2 ≠ .resolved (.ok position) := by
    intro loaded after none settles
    refine ⟨settles.1 List.nodup_nil,fun row member position is => ?_⟩
    rcases settles.2 row member with before | due
    · cases before
    · obtain ⟨id,online,sent,_⟩ := due position is
      cases (none id).symm.trans sent
  suffices done : ((begin wants predictor core.store series nextId nextEntry weather).engine.settled.map Prod.fst).Nodup ∧
      (∀ row ∈ (begin wants predictor core.store series nextId nextEntry weather).engine.settled,
        ∀ position, row.2 ≠ .resolved (.ok position)) ∧
      ∀ id, (begin wants predictor core.store series nextId nextEntry weather).engine.core.outgoing.online.get id = none by
    obtain ⟨once,refused,unsent⟩ := done
    refine ⟨⟨kept,fun id online sent => ?_,once⟩,
      fun row member position is => absurd is (refused row member position)⟩
    cases (unsent id).symm.trans sent
  have table : ∀ {loaded : Core V D} {after : Engine V D}, (∀ id, loaded.outgoing.online.get id = none) →
      Engine.Rests [] {core:=loaded,predictor,series,nextId} after → ∀ id, after.core.outgoing.online.get id = none := by
    intro loaded after none rests id
    refine Option.eq_none_iff_forall_ne_some.mpr fun entry sent => ?_
    have before := (rests.online id entry sent).resolve_right List.not_mem_nil
    cases (none id).symm.trans before
  unfold begin Engine.start
  dsimp only
  cases ran : (Core.load core.store nextEntry : Core V D).purgeIn wants with
  | error failure =>
    have settled := quiet unsent (Engine.fail_settled failure {core:=Core.load core.store nextEntry,predictor,series,nextId})
    exact ⟨settled.1,settled.2,table unsent (Engine.fail_rests failure _)⟩
  | ok purged =>
    have loaded := loads_outboxed held nextEntry
    have moves := (Core.purgeIn_enters ran loaded.ledger).2
    have unsent : ∀ id, purged.outgoing.online.get id = none := by
      intro id
      rw [moves.online,unsent]
      rfl
    have minds := Engine.refresh_minds weather true {core:=purged,predictor,series,nextId}
    have rests := Engine.refresh_rests weather true {core:=purged,predictor,series,nextId}
    show ((Engine.caught (Engine.refresh weather true {core:=purged,predictor,series,nextId})).settled.map Prod.fst).Nodup ∧
      (∀ row ∈ (Engine.caught (Engine.refresh weather true {core:=purged,predictor,series,nextId})).settled,
        ∀ position, row.2 ≠ .resolved (.ok position)) ∧
      ∀ id, (Engine.caught (Engine.refresh weather true {core:=purged,predictor,series,nextId})).core.outgoing.online.get id = none
    cases made : Engine.refresh weather true {core:=purged,predictor,series,nextId} with
    | error thrown =>
      obtain ⟨failure,after⟩ := thrown
      rw [made] at minds rests
      have settled := quiet unsent ((Engine.Minds.settles minds).trans (Engine.fail_settled failure after))
      exact ⟨settled.1,settled.2,table unsent (Engine.Rests.trans rests (Engine.fail_rests failure after))⟩
    | ok after =>
      rw [made] at minds rests
      have settled := quiet unsent (Engine.Minds.settles minds)
      exact ⟨settled.1,settled.2,table unsent rests⟩

-- Runs none of whose passes throws with @online mutations in hand.
def Keeps (j : Journal V D) : Happening V D → Prop
  | .event (.pass weather) => ¬j.engine.Drops weather
  | _ => True

-- What this Engine had settled before.
def settledBefore (j : Journal V D) : Happening V D → List (Nat × Settlement)
  | .event _ => j.engine.settled
  | .restart _ _ => []

theorem Settling.next {j : Journal V D} (settling : Settling j) (happening : Happening V D) :
    Settling (j.next happening) ∧
      ∀ row ∈ (j.next happening).engine.settled, row ∈ j.settledBefore happening ∨ Earned (j.next happening) row := by
  cases happening with
  | restart wants weather =>
    obtain ⟨began,earned⟩ := begins_settling settling.kept.outboxed wants j.engine.predictor (j.engine.series+1) j.engine.core.nextEntry weather
    exact ⟨began,fun row member => .inr (earned row member)⟩
  | event event => exact settling.event event

theorem begins_minded {j : Journal V D} (kept : Kept j) (none : j.asked = []) : Minded j := by
  refine ⟨kept,fun promise member => ?_,fun _ promise member => ?_⟩ <;>
  · rw [none] at member
    cases member

theorem Minded.next {j : Journal V D} (minded : Minded j) (happening : Happening V D) (keeps : Keeps j happening) :
    Minded (j.next happening) := by
  cases happening with
  | restart wants weather => exact begins_minded (minded.kept.next (.restart wants weather)).1 rfl
  | event event =>
    refine minded.event event fun weather is => ?_
    subst is
    exact keeps

-- In every run each promise settles at most once, ok only where it is earned; and in one that
-- throws with none of them in hand, an Engine that has ended has settled every one it was asked for.
theorem promises_settle {wants : List Name} {predictor : Option (Predictor V D)} {weather : Weather} {j : Journal V D}
    (path : machine.Reaches (first wants predictor weather) j) :
    (j.engine.settled.map Prod.fst).Nodup ∧
    (∀ happening, ∀ row ∈ (j.next happening).engine.settled, row ∈ j.settledBefore happening ∨ Earned (j.next happening) row) ∧
    (∀ row ∈ (first wants predictor weather).engine.settled, Earned (first wants predictor weather) row) ∧
    ((machine.under Keeps).Reaches (first wants predictor weather) j → j.engine.ended = true →
      ∀ promise ∈ j.asked, promise ∈ j.engine.settled.map Prod.fst) := by
  obtain ⟨start,earned⟩ := begins_settling (first_outboxed (V := V) (D := D)) wants predictor 0 0 weather
  have settling : Settling j := path.invariant (P := Settling) start fun s happening settling _ => (settling.next happening).1
  refine ⟨settling.once,fun happening => (settling.next happening).2,earned,fun kept => ?_⟩
  have minded : Minded j := by
    refine Machine.Reaches.invariant (P := Minded) (begins_minded start.kept rfl) ?_ kept
    intro s happening minded allowed
    exact minded.next happening allowed.2
  exact minded.ended

-- One sent while there is no connection, and the app's end.
def ending : List (Happening Nat Nat) := [.event (.pass {}),.event (.pass {}),.event .abort,.event (.pass {})]

def stopped : Journal Nat Nat := ending.foldl next ((first [] none {}).next (.event (.sendOnlineMutation (some 5) 0)))

theorem stopped_settled : 0 ∈ stopped.engine.settled.map Prod.fst := by
  have free : ∀ (s : Journal Nat Nat), ∀ event ∈ ending, (machine.under Keeps).allowed s event := by
    intro s event member
    have calm : ¬s.engine.Drops {} := fun drops => by cases drops.2.1
    rcases List.mem_cons.mp member with rfl | member
    · exact ⟨trivial,calm⟩
    rcases List.mem_cons.mp member with rfl | member
    · exact ⟨trivial,calm⟩
    rcases List.mem_cons.mp member with rfl | member
    · exact ⟨trivial,trivial⟩
    · cases List.mem_singleton.mp member
      exact ⟨trivial,calm⟩
  have asked : (machine.under Keeps).allowed (first [] none {} : Journal Nat Nat) (.event (.sendOnlineMutation (some 5) 0)) :=
    ⟨(List.not_mem_nil : 0 ∉ ([] : List Nat)),trivial⟩
  have path : (machine.under Keeps).Reaches (first [] none {}) stopped := ⟨_,Machine.Runs.cons asked (Machine.Runs.follow ending free)⟩
  exact (promises_settle (Exists.imp (fun _ => Machine.Runs.weaken) path)).2.2.2 path (by decide) 0 (by decide)

-- A query that throws with a call in hand leaves its promise waiting.
example : let dropped : Journal Nat Nat := [.event (.sendMutation (some 5)),.event (.sendOnlineMutation (some 5) 0),
    .event (.pass {throws:=true})].foldl next (first [] none {})
    dropped.engine.ended = true ∧ 0 ∈ dropped.asked ∧ 0 ∉ dropped.engine.settled.map Prod.fst := by decide

end Journal
end PhaseLock
