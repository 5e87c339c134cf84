import PhaseLock.Promises

namespace PhaseLock
variable {V D : Type}

namespace Engine
variable {core : Core V D} {engine after : Engine V D} {promise : Nat}

theorem minds_moved (settled : after.settled = engine.settled) (submitted : after.submitted = engine.submitted)
    (ended : after.ended = engine.ended) (online : ∀ id old, engine.core.outgoing.online.get id = some old →
      ∃ new, after.core.outgoing.online.get id = some new ∧ new.promise = old.promise) : Minds core [] engine after := by
  refine ⟨fun promise held => .inl ?_,fun apart => ?_,fun row member => .inl ?_,ended⟩
  · rcases held with before | queued | ⟨id,old,sent,rfl⟩
    · exact .inl (settled ▸ before)
    · exact .inr (.inl (submitted ▸ queued))
    · obtain ⟨new,now,same⟩ := online id old sent
      exact .inr (.inr ⟨id,new,now,same⟩)
  · rw [settled]
    exact apart
  · rw [← settled]
    exact member

theorem moves_minds {seen : List Nat} {gone : Nat → Bool} (moves : Core.Moves seen gone engine.core after.core)
    (settled : after.settled = engine.settled) (submitted : after.submitted = engine.submitted) (ended : after.ended = engine.ended) :
    Minds core [] engine after := by
  refine minds_moved settled submitted ended fun id old sent => ?_
  rw [moves.online,sent]
  exact ⟨_,rfl,rfl⟩

theorem failOne_minds (engine : Engine V D) (id : Nat) : Minds core [] engine (engine.failOne id) := by
  unfold failOne
  cases sent : engine.core.outgoing.online.get id with
  | none => exact .refl engine
  | some online =>
    refine dropped_minds (fun other here => ?_) (due_refused fun _ is => by cases is)
    rw [sent] at here
    cases here
    rfl

theorem answer_minds (state : Engine V D × List Nat) (row : Nat × MutationResult) : Minds core [] state.1 (answer state row).1 := by
  obtain ⟨engine,drop⟩ := state
  obtain ⟨id,result⟩ := row
  unfold answer
  dsimp only
  cases sent : engine.core.outgoing.online.get id with
  | none =>
    dsimp only
    split
    · cases result <;> exact minds_same rfl rfl rfl rfl
    · exact .refl engine
  | some online =>
    have alone : ∀ other, engine.core.outgoing.online.get id = some other → other.promise = online.promise := by
      intro other here
      rw [sent] at here
      cases here
      rfl
    cases result with
    | reject reason => exact dropped_minds alone (due_refused fun _ is => by cases is)
    | conflict current => exact dropped_minds alone (due_refused fun _ is => by cases is)
    | ok position =>
      refine minds_moved rfl rfl rfl fun x old before => ?_
      show ∃ new, (engine.core.outgoing.online.set id {online with ack:=some position}).get x = some new ∧ _
      rw [OrderedMap.get_set]
      split
      · rename_i here
        subst here
        exact ⟨_,rfl,(alone old before).symm⟩
      · exact ⟨old,before,rfl⟩

theorem onOutcome_minds (state : Engine V D × List Nat) (outcome : MutationOutcome) :
    Minds core [] state.1 (onOutcome state outcome).1 := by
  unfold onOutcome
  cases outcome.results with
  | none =>
    have fails : Minds core [] state.1 (outcome.ids.foldl failOne state.1) := minds_folds failOne_minds
    exact ⟨fails.awaits,fails.once,fails.due,fails.ended⟩
  | some results =>
    exact foldl_invariant (P := fun s : Engine V D × List Nat => Minds core [] state.1 s.1)
      (fun s row _ before => before.trans (answer_minds s row)) (.refl state.1)

theorem outcomes_minds (outcomes : List MutationOutcome) (state : Engine V D × List Nat) :
    Minds core [] state.1 (outcomes.foldl onOutcome state).1 :=
  foldl_invariant (P := fun s : Engine V D × List Nat => Minds core [] state.1 s.1)
    (fun s outcome _ before => before.trans (onOutcome_minds s outcome)) (.refl state.1)

-- The promises a submission pass has in hand until it sends their calls.
theorem minted_promises (turn : engine.turn = .submitted) {m : Minting V D} (made : engine.submittedIn = .ok m) :
    (engine.minted.filterMap Submission.given).map Prod.fst = engine.submitted.filterMap Submission.promise := by
  unfold minted
  rw [turn,made]
  dsimp only
  generalize engine.nextId = first
  induction engine.submitted generalizing first with
  | nil => rfl
  | cons submission rest ih =>
    rw [List.zipIdx_cons]
    cases submission with
    | outbox data => exact ih (first+1)
    | online data promise => exact congrArg (promise :: ·) (ih (first+1))

theorem minted_ids (engine : Engine V D) : ((engine.minted.filterMap Submission.given).map Prod.snd).Nodup := by
  unfold minted
  split
  · have part : ∀ rows : List (Submission D × Nat), ((rows.filterMap Submission.given).map Prod.snd).Sublist (rows.map Prod.snd) := by
      intro rows
      induction rows with
      | nil => exact .refl _
      | cons row rest ih =>
        obtain ⟨submission,id⟩ := row
        cases submission with
        | outbox data => exact ih.cons id
        | online data promise => exact ih.cons_cons id
    refine (part _).nodup ?_
    rw [List.zipIdx_map_snd]
    exact List.nodup_range'
  · exact List.nodup_nil

def inHand (engine : Engine V D) : List Nat := (engine.minted.filterMap Submission.given).map Prod.fst

theorem minted_other (other : engine.turn ≠ .submitted) : engine.minted = [] := by
  unfold minted
  split
  · rename_i turn _
    exact absurd turn other
  · rfl

end Engine

namespace Journal
variable {filed entered : List Nat} {answers : List (Nat × MutationResult)} {nextId : Nat} {core : Core V D}

-- A pass's transactions lose no promise but those in hand.
theorem Outboxed.minds {engine : Engine V D} (held : Outboxed filed answers entered nextId engine.core) :
    match engine.prepare with
    | .ok mid => Engine.Minds core engine.inHand engine mid
    | .error (_,after) => Engine.Minds core [] engine after := by
  have free : ∀ {mid : Engine V D}, engine.turn ≠ .submitted → Engine.Minds core [] engine mid → Engine.Minds core engine.inHand engine mid := by
    intro mid other minds
    rw [show engine.inHand = [] by unfold Engine.inHand; rw [Engine.minted_other other]; rfl]
    exact minds
  unfold Engine.prepare
  cases turn : engine.turn with
  | queries | idle => exact free (by rw [turn]; decide) (.refl engine)
  | outcomes =>
    have apart := Core.apart_folds engine.backfillOutcomes (Core.onOutcomeIn_apart engine.conn) engine.core
    exact free (by rw [turn]; decide) (Engine.minds_same rfl rfl (congrArg Outgoing.online apart.outgoing) rfl)
  | connect =>
    have apart : ∀ names : List Name, engine.core.Apart (names.foldl Core.startBackfill engine.core) :=
      fun names => Core.apart_folds names Core.startBackfill_apart engine.core
    exact free (by rw [turn]; decide) (Engine.minds_same rfl rfl (congrArg Outgoing.online (apart _).outgoing) rfl)
  | submitted =>
    dsimp only
    cases made : engine.submittedIn with
    | error failure =>
      have rejected := @Engine.rejectAll_minds V D core {engine with
          submitted:=[]
          resend:=false} (engine.submitted.filterMap Submission.promise) failure
      refine ⟨fun promise awaits => .inl ?_,rejected.once,rejected.due,rejected.ended⟩
      rcases awaits with settled | queued | sent
      · exact (rejected.awaits promise (.inl settled)).resolve_right List.not_mem_nil
      · exact .inl (Engine.rejectAll_settles _ _ failure promise queued)
      · exact (rejected.awaits promise (.inr (.inr sent))).resolve_right List.not_mem_nil
    | ok m =>
      obtain ⟨wire,ran⟩ := submittedIn_mints made
      have mints := mints_all ran
      refine ⟨fun promise awaits => ?_,id,fun _ => .inl,rfl⟩
      rcases awaits with settled | queued | ⟨id,online,sent,same⟩
      · exact .inl (.inl settled)
      · refine .inr ?_
        unfold Engine.inHand
        rw [Engine.minted_promises turn made]
        exact queued
      · refine .inl (.inr (.inr ⟨id,online,?_,same⟩))
        show m.core.outgoing.online.get id = some online
        rw [mints.online]
        exact sent
  | results =>
    dsimp only
    have first : Hearing answers [] engine.core (({engine with mutationOutcomes:=[]} : Engine V D),[]) := held.hearing rfl
    have all := first.outcomes (fun _ inside => held.apart_online inside) engine.mutationOutcomes
    have taken : Engine.Minds core [] engine {engine with mutationOutcomes:=[]} := Engine.minds_same rfl rfl rfl rfl
    have minds := taken.trans (Engine.outcomes_minds engine.mutationOutcomes ({engine with mutationOutcomes:=[]},[]))
    have moves := (Core.releaseIn_moves (all.filed_of held.ledger.toFiled)
      (engine.mutationOutcomes.foldl Engine.onOutcome (({engine with mutationOutcomes:=[]} : Engine V D),[])).2).1
    exact free (by rw [turn]; decide) (minds.trans (Engine.moves_minds moves rfl rfl rfl))
  | inbox =>
    dsimp only
    have reads : ∀ rest items, match (do
        let engine ← engine.write (engine.core.onItemsIn items)
        return {engine with inbox:=rest}) with
      | .ok mid => Engine.Minds core engine.inHand engine mid
      | .error (_,after) => Engine.Minds core [] engine after := by
      intro rest items
      cases ran : engine.core.onItemsIn items with
      | error failure => exact .refl engine
      | ok core =>
        have moves := (Core.onItemsIn_enters ran held.ledger).2
        exact free (by rw [turn]; decide) (Engine.moves_minds moves rfl rfl rfl)
    cases queue : engine.inbox with
    | nil => exact reads [] []
    | cons item rest =>
      cases item with
      | opened | view | edits | live | vouch => exact reads _ _
      | ended fatal =>
        cases fatal with
        | true => exact Engine.minds_same rfl rfl rfl rfl
        | false => exact free (by rw [turn]; decide) (Engine.minds_same rfl rfl rfl rfl)
  | pushes =>
    dsimp only
    generalize engine.backfillWork.filter (engine.core.accepts engine.conn) = pushes
    cases pushes with
    | nil =>
      rw [if_pos rfl]
      exact free (by rw [turn]; decide) (Engine.minds_same rfl rfl rfl rfl)
    | cons work rest =>
      rw [if_neg (List.cons_ne_nil work rest)]
      cases ran : engine.core.onPushesIn (work :: rest) with
      | error failure => exact Engine.minds_same rfl rfl rfl rfl
      | ok core =>
        have moves := (Core.onPushesIn_enters ran held.ledger).2
        exact free (by rw [turn]; decide) (Engine.moves_minds moves rfl rfl rfl)

end Journal

namespace Engine
variable {core : Core V D} {engine after : Engine V D} {promise : Nat}

-- A call that carries an @online mutation is never an empty one.
theorem callsOf_wired (engine : Engine V D) : ∀ call ∈ engine.callsOf, call.2 ≠ none → call.1 ≠ [] := by
  have wired : ∀ {submissions : List (Submission D)} {m final : Minting V D},
      (∀ call ∈ m.done, call.2 ≠ none → call.1 ≠ []) → submissions.foldlM (mintIn engine.series) m = .ok final →
      ∀ call ∈ final.done, call.2 ≠ none → call.1 ≠ [] := by
    intro submissions m final start ran
    refine foldlM_invariant (P := fun m : Minting V D => ∀ call ∈ m.done, call.2 ≠ none → call.1 ≠ []) ?_ start ran
    intro m submission next _ before minted
    cases submission with
    | outbox data =>
      cases data with
      | none => cases minted
      | some data =>
        cases minted
        exact before
    | online data promise =>
      cases data with
      | none => cases minted
      | some data =>
        cases minted
        intro call member online
        rcases List.mem_append.mp member with old | new
        · exact before call old online
        · rcases List.mem_cons.mp new with rfl | new
          · exact absurd rfl online
          · cases List.mem_singleton.mp new
            exact List.cons_ne_nil _ _
  unfold callsOf
  cases made : engine.submittedIn with
  | error failure => exact fun _ none => absurd none List.not_mem_nil
  | ok m =>
    obtain ⟨wire,ran⟩ := Journal.submittedIn_mints made
    intro call member online
    rcases List.mem_append.mp member with old | last
    · exact wired (fun _ none => absurd none List.not_mem_nil) ran call old online
    · cases List.mem_singleton.mp last
      exact absurd rfl online

-- Every @online mutation of the calls is in the table once they are sent, and what was there stays.
theorem sends_online {calls : List (List (Mutation D) × Option (Nat × OnlineMutation))} (engine : Engine V D)
    (wired : ∀ call ∈ calls, call.2 ≠ none → call.1 ≠ []) (distinct : ((onlines calls).map Prod.fst).Nodup) :
    (∀ row ∈ onlines calls, (calls.foldl sendCall engine).core.outgoing.online.get row.1 = some row.2) ∧
      ∀ id, id ∉ (onlines calls).map Prod.fst →
        (calls.foldl sendCall engine).core.outgoing.online.get id = engine.core.outgoing.online.get id := by
  induction calls generalizing engine with
  | nil => exact ⟨fun _ none => absurd none List.not_mem_nil,fun _ _ => rfl⟩
  | cons call rest ih =>
    obtain ⟨wire,online⟩ := call
    have later : ∀ call ∈ rest, call.2 ≠ none → call.1 ≠ [] := fun call member => wired call (List.mem_cons_of_mem _ member)
    rw [List.foldl_cons]
    cases online with
    | none =>
      obtain ⟨sent,kept⟩ := ih (engine.sendCall (wire,none)) later distinct
      have same : (engine.sendCall (wire,none)).core.outgoing.online = engine.core.outgoing.online := by
        unfold sendCall
        split <;> rfl
      refine ⟨sent,fun id absent => ?_⟩
      rw [kept id absent,same]
    | some row =>
      obtain ⟨apart,distinct⟩ := List.nodup_cons.mp (show (row.1 :: (onlines rest).map Prod.fst).Nodup from distinct)
      obtain ⟨sent,kept⟩ := ih (engine.sendCall (wire,some row)) later distinct
      have now : (engine.sendCall (wire,some row)).core.outgoing.online = engine.core.outgoing.online.set row.1 row.2 := by
        unfold sendCall
        rw [if_neg (wired (wire,some row) List.mem_cons_self (Option.some_ne_none row))]
        rfl
      refine ⟨fun other member => ?_,fun id absent => ?_⟩
      · rcases List.mem_cons.mp (show other ∈ row :: onlines rest from member) with rfl | old
        · rw [kept other.1 apart,now,OrderedMap.get_set,if_pos rfl]
        · exact sent other old
      · have absent : id ∉ row.1 :: (onlines rest).map Prod.fst := absent
        rw [List.mem_cons,not_or] at absent
        rw [kept id absent.2,now,OrderedMap.get_set,if_neg fun here => absent.1 here.symm]

-- What is in hand is sent, or rejected where there is no connection to send it on.
theorem hand_minds (turn : engine.turn = .submitted)
    (fresh : ∀ promise id, (promise,id) ∈ engine.minted.filterMap Submission.given → after.core.outgoing.online.get id = none) :
    Minds core [] after (engine.hand after) ∧ ∀ promise ∈ engine.inHand, (engine.hand after).Awaits promise := by
  have rows := callsOf_onlines turn
  have ids : (onlines engine.callsOf).map Prod.fst = (engine.minted.filterMap Submission.given).map Prod.snd := by
    rw [rows,List.map_map]
    rfl
  unfold hand
  rw [turn]
  dsimp only
  split
  · obtain ⟨sent,kept⟩ := sends_online after (callsOf_wired engine) (by rw [ids]; exact minted_ids engine)
    have quiet : ∀ (s : Engine V D) (call : List (Mutation D) × Option (Nat × OnlineMutation)),
        (s.sendCall call).settled = s.settled ∧ (s.sendCall call).submitted = s.submitted ∧ (s.sendCall call).ended = s.ended := by
      intro s call
      unfold sendCall
      split <;> exact ⟨rfl,rfl,rfl⟩
    obtain ⟨settled,submitted,ended⟩ := @foldl_invariant _ _ _
      (fun s : Engine V D => s.settled = after.settled ∧ s.submitted = after.submitted ∧ s.ended = after.ended) engine.callsOf _
      (fun s call _ before => ⟨(quiet s call).1.trans before.1,(quiet s call).2.1.trans before.2.1,(quiet s call).2.2.trans before.2.2⟩)
      ⟨rfl,rfl,rfl⟩
    refine ⟨minds_moved settled submitted ended fun id old before => ⟨old,?_,rfl⟩,fun promise member => ?_⟩
    · rw [kept id ?_]
      · exact before
      · rw [ids]
        intro new
        obtain ⟨⟨promise,id⟩,given,rfl⟩ := List.mem_map.mp new
        rw [fresh promise id given] at before
        cases before
    · obtain ⟨⟨promise,id⟩,given,rfl⟩ := List.mem_map.mp member
      refine .inr (.inr ⟨id,⟨promise,none,false⟩,sent (id,⟨promise,none,false⟩) ?_,rfl⟩)
      rw [rows]
      exact List.mem_map.mpr ⟨(promise,id),given,rfl⟩
  · refine ⟨rejectAll_minds after _ _,fun promise member => .inl (rejectAll_settles after _ _ promise ?_)⟩
    rw [rows,List.map_map]
    exact member

theorem hand_other (other : engine.turn ≠ .submitted) : engine.hand after = after := by
  unfold hand
  split
  · rename_i turn
    exact absurd turn other
  · rfl

-- A refresh throws only where the graph runs, and a query or a subscriber throws in it.
theorem refresh_throws {weather : Weather} {thrown : Thrown V D} (threw : engine.refresh weather false = .error thrown) :
    weather.throws = true ∧ (engine.core.outgoing.outboxChanged = true ∨ engine.core.dirty ≠ [] ∨ weather.statusChanged = true ∨
      engine.newQueries = true) := by
  have ran : ∀ start : Engine V D, ((start.runGraph weather) >>= fun engine => .ok engine.settleOnline) = .error thrown →
      weather.throws = true := by
    intro start threw
    unfold runGraph at threw
    dsimp only at threw
    split at threw
    · rename_i throws
      exact throws
    · cases threw
  unfold refresh at threw
  dsimp only at threw
  split at threw
  · rename_i rebuilds
    refine ⟨ran _ threw,?_⟩
    rcases rebuilds with never | changed | dirty
    · cases never
    · exact .inl changed
    · exact .inr (.inl dirty)
  · split at threw
    · rename_i runs
      refine ⟨ran _ threw,?_⟩
      rcases runs with status | queries
      · exact .inr (.inr (.inl status))
      · exact .inr (.inr (.inr queries))
    · cases threw

theorem prepare_online {mid : Engine V D} (turn : engine.turn = .submitted) (ran : engine.prepare = .ok mid) :
    mid.core.outgoing.online = engine.core.outgoing.online := by
  unfold prepare at ran
  rw [turn] at ran
  dsimp only at ran
  cases made : engine.submittedIn with
  | error failure =>
    rw [made] at ran
    cases ran
  | ok m =>
    rw [made] at ran
    cases ran
    obtain ⟨wire,minted⟩ := Journal.submittedIn_mints made
    exact (Journal.mints_all minted).online

theorem startCalls_same (engine : Engine V D) : engine.startCalls.submitted = engine.submitted ∧
    engine.startCalls.newQueries = engine.newQueries ∧ engine.startCalls.settled = engine.settled ∧ engine.startCalls.ended = engine.ended ∧
    engine.startCalls.core.outgoing = engine.core.outgoing := by
  obtain ⟨calls,same⟩ := startCalls_only engine
  rw [same]
  exact ⟨rfl,rfl,rfl,rfl,rfl⟩

end Engine

def Submission.data : Submission D → Option D
  | .outbox data => data
  | .online data _ => data

namespace Engine
variable {core : Core V D} {engine after : Engine V D} {promise : Nat}

theorem minted_data {submissions : List (Submission D)} {series : Nat} {m final : Minting V D}
    (ran : submissions.foldlM (mintIn series) m = .ok final) : ∀ submission ∈ submissions, submission.data ≠ none := by
  induction submissions generalizing m with
  | nil => exact fun _ none => absurd none List.not_mem_nil
  | cons first rest ih =>
    obtain ⟨next,one,ran⟩ := foldlM_ok.mp ran
    intro submission member
    rcases List.mem_cons.mp member with rfl | later
    · intro absent
      cases submission with
      | outbox data =>
        cases data with
        | none => cases one
        | some data => cases absent
      | online data promise =>
        cases data with
        | none => cases one
        | some data => cases absent
    · exact ih ran submission later

theorem minted_outbox {submissions : List (Submission D)} {series : Nat} {m final : Minting V D}
    (ran : submissions.foldlM (mintIn series) m = .ok final) (stale : m.fresh = false) (fresh : final.fresh = true) :
    ∃ data, Submission.outbox data ∈ submissions := by
  have told : final.fresh = true → ∃ data, Submission.outbox data ∈ submissions := by
    refine foldlM_invariant (P := fun m : Minting V D => m.fresh = true → ∃ data, Submission.outbox data ∈ submissions)
      (fun m submission next member before minted => ?_) (fun fresh => by rw [stale] at fresh; cases fresh) ran
    cases submission with
    | outbox data => exact fun _ => ⟨data,member⟩
    | online data promise =>
      cases data with
      | none => cases minted
      | some data =>
        cases minted
        exact before
  exact told fresh

-- The pass that loses a promise: it has taken @online mutations from the queue, and a query or a
-- subscriber throws before it sends their calls.
def Drops (engine : Engine V D) (weather : Weather) : Prop :=
  engine.takes = some .submitted ∧ weather.throws = true ∧ (∃ data promise, Submission.online data promise ∈ engine.submitted) ∧
    (∀ submission ∈ engine.submitted, submission.data ≠ none) ∧
    (weather.statusChanged = true ∨ engine.newQueries = true ∨ ∃ data, Submission.outbox data ∈ engine.submitted)

theorem drops_thrown {weather : Weather} {mid : Engine V D} {thrown : Thrown V D} (shown : engine.Shown) (turn : engine.turn = .submitted)
    (ran : engine.prepare = .ok mid) (threw : mid.refresh weather false = .error thrown) :
    engine.inHand = [] ∨ weather.throws = true ∧ (∃ data promise, Submission.online data promise ∈ engine.submitted) ∧
      (∀ submission ∈ engine.submitted, submission.data ≠ none) ∧
      (weather.statusChanged = true ∨ engine.newQueries = true ∨ ∃ data, Submission.outbox data ∈ engine.submitted) := by
  unfold prepare at ran
  rw [turn] at ran
  dsimp only at ran
  cases made : engine.submittedIn with
  | error failure =>
    rw [made] at ran
    cases ran
  | ok m =>
    rw [made] at ran
    cases ran
    obtain ⟨wire,minted⟩ := Journal.submittedIn_mints made
    have mints := Journal.mints_all minted
    obtain ⟨throws,runs⟩ := refresh_throws threw
    cases hand : engine.inHand with
    | nil => exact .inl rfl
    | cons promise rest =>
      refine .inr ⟨throws,?_,minted_data minted,?_⟩
      · have inside : promise ∈ engine.submitted.filterMap Submission.promise := by
          rw [← minted_promises turn made,show (engine.minted.filterMap Submission.given).map Prod.fst = engine.inHand from rfl,hand]
          exact List.mem_cons_self
        obtain ⟨submission,member,is⟩ := List.mem_filterMap.mp inside
        cases submission with
        | outbox data => cases is
        | online data other => exact ⟨data,other,member⟩
      · rcases runs with changed | dirty | status | queries
        · have changed : (engine.core.outgoing.outboxChanged || m.fresh) = true := changed
          rw [shown.changed,Bool.false_or] at changed
          exact .inr (.inr (minted_outbox minted rfl changed))
        · exact absurd (mints.dirty.trans shown.dirty) dirty
        · exact .inl status
        · exact .inr (.inl queries)

end Engine

namespace Journal

-- No promise is lost, and an ended Engine has settled every one.
structure Minded (j : Journal V D) : Prop where
  kept : Kept j
  asked : ∀ promise ∈ j.asked, j.engine.Awaits promise
  ended : j.engine.ended = true → ∀ promise ∈ j.asked, promise ∈ j.engine.settled.map Prod.fst

-- A pass loses no promise, but for one that throws with calls in hand.
theorem Outboxed.pass_minds {filed entered : List Nat} {answers : List (Nat × MutationResult)} {engine : Engine V D} (weather : Weather)
    (held : Outboxed filed answers entered engine.nextId engine.core) (shown : engine.ended = false → engine.Shown)
    (keeps : ¬engine.Drops weather) {promise : Nat} (awaits : engine.Awaits promise)
    (done : engine.ended = true → promise ∈ engine.settled.map Prod.fst) :
    (engine.pass weather).Awaits promise ∧ ((engine.pass weather).ended = true → promise ∈ (engine.pass weather).settled.map Prod.fst) := by
  have all : ∀ {after : Engine V D}, promise ∈ after.settled.map Prod.fst →
      after.Awaits promise ∧ (after.ended = true → promise ∈ after.settled.map Prod.fst) := fun settled => ⟨.inl settled,fun _ => settled⟩
  cases taken : engine.takes with
  | none =>
    unfold Engine.takes at taken
    unfold Engine.pass
    split
    · exact ⟨awaits,done⟩
    · rename_i going
      split
      · exact all (Engine.shutdown_settles engine awaits)
      · rename_i free
        rw [if_neg (by simp [going,free])] at taken
        cases taken
  | some turn =>
    have began := Engine.startCalls_still engine
    have started := held.quiet (Engine.startCalls_rests engine)
    rw [← (Engine.startCalls_rests engine).nextId] at started
    have shown := began.shown (shown (Engine.takes_running taken))
    obtain ⟨submitted,newQueries,settled,ended,outgoing⟩ := Engine.startCalls_same engine
    have minds := @Outboxed.minds V D _ _ _ _ engine.core _ started
    have awaits : engine.startCalls.Awaits promise := by
      unfold Engine.Awaits
      rw [submitted,settled,outgoing]
      exact awaits
    have going : engine.startCalls.ended = false := ended.trans (Engine.takes_running taken)
    have turn_ := (Engine.pass_takes weather taken).2
    have keeps : ¬(turn = .submitted ∧ weather.throws = true ∧
        (∃ data promise, Submission.online data promise ∈ engine.startCalls.submitted) ∧
        (∀ submission ∈ engine.startCalls.submitted, submission.data ≠ none) ∧
        (weather.statusChanged = true ∨ engine.startCalls.newQueries = true ∨
          ∃ data, Submission.outbox data ∈ engine.startCalls.submitted)) := by
      rw [submitted,newQueries]
      rintro ⟨rfl,rest⟩
      exact keeps ⟨taken,rest⟩
    rw [(Engine.pass_takes weather taken).1,Engine.handle_parts]
    generalize engine.startCalls = engine at started shown minds awaits going turn_ keeps
    have lone : turn ≠ .submitted → engine.inHand = [] := by
      intro other
      unfold Engine.inHand
      rw [Engine.minted_other (turn_ ▸ other)]
      rfl
    cases ran : engine.prepare with
    | error thrown =>
      obtain ⟨failure,after⟩ := thrown
      rw [ran] at minds
      have minds : Engine.Minds _ [] engine after := minds
      exact all (Engine.fail_settles failure after ((minds.awaits promise awaits).resolve_right List.not_mem_nil))
    | ok mid =>
      rw [ran] at minds
      have minds : Engine.Minds _ engine.inHand engine mid := minds
      simp only [bind,Except.bind]
      split
      · have refreshed := Engine.refresh_minds weather false mid
        cases made : mid.refresh weather false with
        | error thrown =>
          obtain ⟨failure,after⟩ := thrown
          rw [made] at refreshed
          have refreshed : Engine.Minds _ [] mid after := refreshed
          have empty : engine.inHand = [] := by
            by_cases submits : turn = .submitted
            · exact (Engine.drops_thrown shown (turn_.trans submits) ran made).resolve_right fun drops => keeps ⟨submits,drops⟩
            · exact lone submits
          have middle : mid.Awaits promise := by
            refine (minds.awaits promise awaits).resolve_right fun lost => ?_
            rw [empty] at lost
            exact absurd lost List.not_mem_nil
          exact all (Engine.fail_settles failure after ((refreshed.awaits promise middle).resolve_right List.not_mem_nil))
        | ok after =>
          rw [made] at refreshed
          have refreshed : Engine.Minds _ [] mid after := refreshed
          have still : after.ended = false := (refreshed.ended.trans minds.ended).trans going
          by_cases submits : turn = .submitted
          · have sends := @Engine.hand_minds V D engine.core _ after (turn_.trans submits) fun other id given => by
              refine Option.eq_none_iff_forall_ne_some.mpr fun entry sent => ?_
              have rests := Engine.refresh_rests weather false mid
              rw [made] at rests
              have before := (Engine.Rests.online rests id entry sent).resolve_right List.not_mem_nil
              rw [Engine.prepare_online (turn_.trans submits) ran] at before
              have low := (Engine.minted_fresh given).1
              have high := started.online id entry before
              omega
            obtain ⟨kept,handed⟩ := sends
            have awaits : (engine.hand after).Awaits promise := by
              rcases minds.awaits promise awaits with middle | inHand
              · have last := (refreshed.awaits promise middle).resolve_right List.not_mem_nil
                exact (kept.awaits promise last).resolve_right List.not_mem_nil
              · exact handed promise inHand
            refine ⟨awaits,fun ended => ?_⟩
            have ended : (engine.hand after).ended = true := ended
            rw [kept.ended,still] at ended
            cases ended
          · rw [show Except.map engine.hand (.ok after) = (.ok (engine.hand after) : Except (Engine.Thrown V D) (Engine V D)) from rfl,
              Engine.hand_other (turn_ ▸ submits)]
            have middle : mid.Awaits promise := by
              refine (minds.awaits promise awaits).resolve_right fun lost => ?_
              rw [lone submits] at lost
              exact absurd lost List.not_mem_nil
            refine ⟨(refreshed.awaits promise middle).resolve_right List.not_mem_nil,fun ended => ?_⟩
            have ended : after.ended = true := ended
            rw [still] at ended
            cases ended
      · rename_i quiet
        have other : turn ≠ .submitted := by
          rintro rfl
          unfold Engine.shows at quiet
          rw [turn_] at quiet
          exact quiet rfl
        have middle : mid.Awaits promise := by
          refine (minds.awaits promise awaits).resolve_right fun lost => ?_
          rw [lone other] at lost
          exact absurd lost List.not_mem_nil
        refine ⟨middle,fun ended => ?_⟩
        have ended : mid.ended = true := ended
        rw [minds.ended,going] at ended
        cases ended

end Journal
end PhaseLock
