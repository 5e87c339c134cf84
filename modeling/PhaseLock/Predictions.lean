import PhaseLock.Outboxes

namespace PhaseLock
variable {V D : Type}

-- What a run of the graph shows depends on the base and the outbox's rows alone.
theorem scan_congr {κ ν : Type} [LinearOrder κ] {a b : OrderedMap κ ν} (same : ∀ k, a.get k = b.get k) : a.scan = b.scan := by
  have apart : ∀ m : OrderedMap κ ν, m.scan.Nodup := fun m => m.scan_sorted.imp fun {x y} less same => by
    subst same
    exact lt_irrefl _ less
  have perm := (List.perm_ext_iff_of_nodup (apart a) (apart b)).mpr fun row => by
    rw [OrderedMap.mem_scan,OrderedMap.mem_scan,same]
  exact perm.eq_of_pairwise (fun x y _ _ less more => absurd less (lt_asymm more)) a.scan_sorted b.scan_sorted

theorem predictAll_congr (predictor : Option (Predictor V D)) {a b : Store V D} (base : ∀ key, a.base.get key = b.base.get key)
    (rows : ∀ ordinal, a.mutations.get ordinal = b.mutations.get ordinal) : predictAll predictor a = predictAll predictor b := by
  unfold predictAll
  cases predictor with
  | none => rfl
  | some predictor =>
    have views : ∀ overlay : Overlay V, overlay.view a.base = overlay.view b.base := by
      intro overlay
      funext key
      unfold Overlay.view
      rw [base]
    have ones : predictOne predictor a.base = predictOne (D:=D) predictor b.base := by
      funext overlay m
      unfold predictOne
      rw [views]
    dsimp only
    rw [scan_congr rows,ones]

namespace Journal

-- What minting leaves besides the outbox.
structure Mints (first final : Engine.Minting V D) (rows : List (Submission D × Nat)) : Prop where
  onlines : Engine.onlines final.done = Engine.onlines first.done++
    (rows.filterMap Submission.given).map fun row => (row.2,(⟨row.1,none,false⟩ : OnlineMutation))
  nextId : final.nextId = first.nextId+rows.length
  online : final.core.outgoing.online = first.core.outgoing.online
  base : final.core.store.base = first.core.store.base
  dirty : final.core.dirty = first.core.dirty
  changed : final.core.outgoing.outboxChanged = first.core.outgoing.outboxChanged
  frozen : final.core.backfills = first.core.backfills
  applied : final.core.applied = first.core.applied
  fresh : final.fresh = false → first.fresh = false ∧ final.core.store.mutations = first.core.store.mutations

theorem Mints.refl (m : Engine.Minting V D) : Mints m m [] :=
  ⟨by simp,rfl,rfl,rfl,rfl,rfl,rfl,rfl,fun fresh => ⟨fresh,rfl⟩⟩

theorem Mints.trans {a b c : Engine.Minting V D} {rows rows' : List (Submission D × Nat)} (first : Mints a b rows) (second : Mints b c rows') :
    Mints a c (rows++rows') where
  onlines := by rw [second.onlines,first.onlines,List.filterMap_append,List.map_append,List.append_assoc]
  nextId := by rw [second.nextId,first.nextId,List.length_append,Nat.add_assoc]
  online := second.online.trans first.online
  base := second.base.trans first.base
  dirty := second.dirty.trans first.dirty
  changed := second.changed.trans first.changed
  frozen := second.frozen.trans first.frozen
  applied := second.applied.trans first.applied
  fresh none := by
    obtain ⟨middle,rows⟩ := second.fresh none
    obtain ⟨before,rows'⟩ := first.fresh middle
    exact ⟨before,rows.trans rows'⟩

theorem mint_mints {m final : Engine.Minting V D} {submission : Submission D} (ran : Engine.mintIn series m submission = .ok final) :
    Mints m final [(submission,m.nextId)] := by
  cases submission with
  | online data promise =>
    cases data with
    | none => cases ran
    | some data =>
      cases ran
      exact ⟨by simp [Engine.onlines,Submission.given],rfl,rfl,rfl,rfl,rfl,rfl,rfl,fun fresh => ⟨fresh,rfl⟩⟩
  | outbox data =>
    cases data with
    | none => cases ran
    | some data =>
      cases ran
      exact ⟨by simp [Submission.given],rfl,rfl,rfl,rfl,rfl,rfl,rfl,fun fresh => by cases fresh⟩

theorem mints_all {submissions : List (Submission D)} {m final : Engine.Minting V D}
    (ran : submissions.foldlM (Engine.mintIn series) m = .ok final) : Mints m final (submissions.zipIdx m.nextId) := by
  induction submissions generalizing m with
  | nil =>
    cases ran
    exact .refl _
  | cons submission rest ih =>
    obtain ⟨next,one,ran⟩ := foldlM_ok.mp ran
    have all := ih ran
    rw [(mint_mints one).nextId] at all
    exact (mint_mints one).trans all

end Journal

namespace Engine

-- What rests of a pass once its transactions are through: the outbox and its store stay, and of
-- the @online mutations only those it sends are new.
structure Rests (more : List (Nat × OnlineMutation)) (engine after : Engine V D) : Prop where
  store : after.core.store = engine.core.store
  applied : after.core.applied = engine.core.applied
  backfills : after.core.backfills = engine.core.backfills
  outbox : after.core.outgoing.outbox = engine.core.outgoing.outbox
  acked : after.core.outgoing.acked = engine.core.outgoing.acked
  ordinal : after.core.outgoing.nextOrdinal = engine.core.outgoing.nextOrdinal
  nextId : after.nextId = engine.nextId
  predictor : after.predictor = engine.predictor
  online : ∀ id entry, after.core.outgoing.online.get id = some entry →
    engine.core.outgoing.online.get id = some entry ∨ (id,entry) ∈ more

theorem Rests.refl (engine : Engine V D) : Rests [] engine engine :=
  ⟨rfl,rfl,rfl,rfl,rfl,rfl,rfl,rfl,fun _ _ => .inl⟩

theorem Rests.trans {a b c : Engine V D} {more more' : List (Nat × OnlineMutation)} (first : Rests more a b) (second : Rests more' b c) :
    Rests (more++more') a c := by
  refine ⟨second.store.trans first.store,second.applied.trans first.applied,second.backfills.trans first.backfills,
    second.outbox.trans first.outbox,second.acked.trans first.acked,second.ordinal.trans first.ordinal,
    second.nextId.trans first.nextId,second.predictor.trans first.predictor,fun id entry sent => ?_⟩
  rcases second.online id entry sent with before | new
  · rcases first.online id entry before with old | new
    · exact .inl old
    · exact .inr (List.mem_append_left _ new)
  · exact .inr (List.mem_append_right _ new)

theorem rests_folds {α : Type} {f : Engine V D → α → Engine V D} {items : List α} {engine : Engine V D}
    (each : ∀ engine item, Rests [] engine (f engine item)) : Rests [] engine (items.foldl f engine) :=
  foldl_invariant (P := Rests [] engine) (fun s item _ before => before.trans (each s item)) (.refl engine)

theorem settle_rests (engine : Engine V D) (promise : Nat) (settlement : Settlement) : Rests [] engine (engine.settle promise settlement) := by
  unfold settle
  split <;> exact ⟨rfl,rfl,rfl,rfl,rfl,rfl,rfl,rfl,fun _ _ => .inl⟩

theorem rejectAll_rests (engine : Engine V D) (promises : List Nat) (reason : Failure) :
    Rests [] engine (engine.rejectAll promises reason) := rests_folds fun engine promise => settle_rests engine promise _

theorem drop_rests (engine : Engine V D) (id : Nat) :
    Rests [] engine (engine.out {engine.core.outgoing with online:=engine.core.outgoing.online.del id}) := by
  refine ⟨rfl,rfl,rfl,rfl,rfl,rfl,rfl,rfl,fun x entry sent => .inl ?_⟩
  have sent : (engine.core.outgoing.online.del id).get x = some entry := sent
  rw [OrderedMap.get_del] at sent
  split at sent
  · cases sent
  · exact sent

theorem settleOnline_rests (engine : Engine V D) : Rests [] engine engine.settleOnline := by
  unfold settleOnline
  split
  · exact .refl engine
  · refine rests_folds fun engine row => ?_
    unfold settleOne
    split
    · exact .refl engine
    · exact (drop_rests engine row.1).trans (settle_rests _ _ _)

theorem runGraph_rests (weather : Weather) (engine : Engine V D) : Ends (Rests [] engine) (engine.runGraph weather) := by
  unfold runGraph
  dsimp only
  split <;> exact ⟨rfl,rfl,rfl,rfl,rfl,rfl,rfl,rfl,fun _ _ => .inl⟩

theorem refresh_rests (weather : Weather) (always : Bool) (engine : Engine V D) : Ends (Rests [] engine) (engine.refresh weather always) := by
  unfold refresh
  dsimp only
  have cleared : Rests [] engine {engine with core:={engine.core with
      dirty:=[]
      outgoing:={engine.core.outgoing with outboxChanged:=false}}} := ⟨rfl,rfl,rfl,rfl,rfl,rfl,rfl,rfl,fun _ _ => .inl⟩
  have done : ∀ {ran : Except (Thrown V D) (Engine V D)}, Ends (Rests [] engine) ran →
      Ends (Rests [] engine) (ran >>= fun engine => .ok engine.settleOnline) := by
    intro ran ends
    exact ends.bind (fun _ => id) fun after kept => kept.trans (settleOnline_rests after)
  split
  · have rebuilt : ∀ overlay : Overlay V, Rests [] engine {engine with
        core:={engine.core with
          dirty:=[]
          outgoing:={engine.core.outgoing with outboxChanged:=false}}
        overlay} := fun _ => ⟨rfl,rfl,rfl,rfl,rfl,rfl,rfl,rfl,fun _ _ => .inl⟩
    exact done (Ends.imp (runGraph_rests weather _) fun _ kept => (rebuilt _).trans kept)
  · split
    · exact done ((runGraph_rests weather _).imp fun _ kept => cleared.trans kept)
    · exact cleared.trans (settleOnline_rests _)

theorem rejectOnline_rests (engine : Engine V D) (reason : Failure) : Rests [] engine (engine.rejectOnline reason) := by
  unfold rejectOnline
  dsimp only
  have cleared : ∀ engine : Engine V D, Rests [] engine (engine.out {engine.core.outgoing with online:=∅}) :=
    fun engine => ⟨rfl,rfl,rfl,rfl,rfl,rfl,rfl,rfl,fun _ _ none => by cases none⟩
  exact ((rejectAll_rests engine _ reason).trans (rejectAll_rests _ _ reason)).trans (cleared _)

theorem shutdown_rests (engine : Engine V D) : Rests [] engine engine.shutdown := by
  have stopped : Rests [] engine {engine with
      retryTimer:=false
      abortedConns:=engine.abortedConns++[engine.conn]
      connection:=false
      core:={engine.core with starts:=[]}
      backfillWork:=[]} := ⟨rfl,rfl,rfl,rfl,rfl,rfl,rfl,rfl,fun _ _ => .inl⟩
  exact stopped.trans (rejectOnline_rests _ _)

theorem fail_rests (failure : Failure) (engine : Engine V D) : Rests [] engine (engine.fail failure) := by
  have ended : Rests [] engine {engine with ended:=true} := ⟨rfl,rfl,rfl,rfl,rfl,rfl,rfl,rfl,fun _ _ => .inl⟩
  exact (ended.trans (rejectOnline_rests _ failure)).trans (shutdown_rests _)

theorem sendCall_rests (engine : Engine V D) (call : List (Mutation D) × Option (Nat × OnlineMutation)) :
    Rests call.2.toList engine (engine.sendCall call) := by
  obtain ⟨wire,online⟩ := call
  unfold sendCall
  split
  · exact ⟨rfl,rfl,rfl,rfl,rfl,rfl,rfl,rfl,fun _ _ => .inl⟩
  · cases online with
    | none => exact ⟨rfl,rfl,rfl,rfl,rfl,rfl,rfl,rfl,fun _ _ => .inl⟩
    | some row =>
      refine ⟨rfl,rfl,rfl,rfl,rfl,rfl,rfl,rfl,fun x entry sent => ?_⟩
      have sent : (engine.core.outgoing.online.set row.1 row.2).get x = some entry := sent
      rw [OrderedMap.get_set] at sent
      split at sent
      · rename_i here
        cases sent
        exact .inr (by simp [← here])
      · exact .inl sent

theorem sends_rests (calls : List (List (Mutation D) × Option (Nat × OnlineMutation))) (engine : Engine V D) :
    Rests (onlines calls) engine (calls.foldl sendCall engine) := by
  induction calls generalizing engine with
  | nil => exact .refl engine
  | cons call rest ih =>
    have whole := (sendCall_rests engine call).trans (ih (engine.sendCall call))
    have split : onlines (call :: rest) = call.2.toList++onlines rest := by
      unfold onlines
      rw [List.filterMap_cons]
      cases call.2 <;> rfl
    rw [split]
    exact whole

theorem Rests.more {more more' : List (Nat × OnlineMutation)} {engine after : Engine V D} (rests : Rests more engine after)
    (in_ : more ⊆ more') : Rests more' engine after :=
  {rests with online := fun id entry sent => (rests.online id entry sent).imp_right fun new => in_ new}

theorem hand_rests (engine after : Engine V D) : Rests (onlines engine.callsOf) after (engine.hand after) := by
  unfold hand
  split
  · split
    · exact sends_rests engine.callsOf after
    · exact (rejectAll_rests after _ _).more (List.nil_subset _)
  · exact (Rests.refl after).more (List.nil_subset _)

theorem onlines_append (first second : List (List (Mutation D) × Option (Nat × OnlineMutation))) :
    onlines (first++second) = onlines first++onlines second := List.filterMap_append

-- The calls of a submission pass send the @online mutations it minted.
theorem callsOf_onlines {engine : Engine V D} (turn : engine.turn = .submitted) :
    onlines engine.callsOf = (engine.minted.filterMap Submission.given).map fun row => (row.2,(⟨row.1,none,false⟩ : OnlineMutation)) := by
  unfold callsOf minted
  rw [turn]
  cases made : engine.submittedIn with
  | error failure => rfl
  | ok m =>
    obtain ⟨wire,ran⟩ := Journal.submittedIn_mints made
    have mints := (Journal.mints_all ran).onlines
    dsimp only
    rw [onlines_append,mints]
    simp [onlines]

theorem minted_fresh {engine : Engine V D} {promise id : Nat} (given : (promise,id) ∈ engine.minted.filterMap Submission.given) :
    engine.nextId ≤ id ∧ id ∉ engine.minted.filterMap Submission.filed := by
  unfold minted at given ⊢
  split at given
  · obtain ⟨⟨submission,x⟩,member,is⟩ := List.mem_filterMap.mp given
    cases submission with
    | outbox data => cases is
    | online data promise' =>
      cases is
      obtain ⟨low,at_⟩ := List.mk_mem_zipIdx_iff_le_and_getElem?_sub.mp member
      refine ⟨low,fun filed => ?_⟩
      obtain ⟨⟨other,x⟩,member',is'⟩ := List.mem_filterMap.mp filed
      cases other with
      | online data promise' => cases is'
      | outbox data' =>
        cases is'
        obtain ⟨_,at'⟩ := List.mk_mem_zipIdx_iff_le_and_getElem?_sub.mp member'
        rw [at_] at at'
        cases at'
  · cases given

-- Answers mint nothing.
theorem outcomes_nextId (outcomes : List MutationOutcome) (state : Engine V D × List Nat) :
    (outcomes.foldl onOutcome state).1.nextId = state.1.nextId := by
  have settled : ∀ (engine : Engine V D) (promise : Nat) (settlement : Settlement),
      (engine.settle promise settlement).nextId = engine.nextId := fun engine promise settlement =>
    (settle_rests engine promise settlement).nextId
  refine foldl_invariant (P := fun s : Engine V D × List Nat => s.1.nextId = state.1.nextId) (fun s outcome _ before => ?_) rfl
  refine Eq.trans ?_ before
  unfold onOutcome
  split
  · refine foldl_invariant (P := fun engine : Engine V D => engine.nextId = s.1.nextId) (fun engine id _ before => ?_) rfl
    refine Eq.trans ?_ before
    unfold failOne
    split
    · rfl
    · exact settled _ _ _
  · refine foldl_invariant (P := fun s' : Engine V D × List Nat => s'.1.nextId = s.1.nextId) (fun s' row _ before => ?_) rfl
    refine Eq.trans ?_ before
    unfold answer
    dsimp only
    split
    · split
      · rfl
      · exact settled _ _ _
    · split
      · split <;> rfl
      · rfl

theorem prepare_minted {engine mid : Engine V D} (turn : engine.turn = .submitted) (ran : engine.prepare = .ok mid)
    {promise id : Nat} (given : (promise,id) ∈ engine.minted.filterMap Submission.given) : id < mid.nextId := by
  obtain ⟨⟨submission,x⟩,member,is⟩ := List.mem_filterMap.mp given
  have same : x = id := by
    cases submission with
    | outbox data => cases is
    | online data promise' =>
      cases is
      rfl
  subst same
  unfold minted at member
  unfold prepare at ran
  rw [turn] at member ran
  dsimp only at ran
  cases made : engine.submittedIn with
  | error failure =>
    rw [made] at ran
    cases ran
  | ok m =>
    rw [made] at ran member
    cases ran
    obtain ⟨wire,minted⟩ := Journal.submittedIn_mints made
    have next := (Journal.mints_all minted).nextId
    obtain ⟨low,at_⟩ := List.mk_mem_zipIdx_iff_le_and_getElem?_sub.mp member
    obtain ⟨inside,_⟩ := List.getElem?_eq_some_iff.mp at_
    rw [List.length_zipIdx] at next
    show x < m.nextId
    dsimp only at next
    omega

end Engine

namespace Journal
variable {filed entered : List Nat} {answers : List (Nat × MutationResult)} {nextId : Nat}

theorem Outboxed.rests {engine after : Engine V D} {more : List (Nat × OnlineMutation)}
    (held : Outboxed filed answers entered nextId engine.core) (rests : Engine.Rests more engine after)
    (new : ∀ row ∈ more, row.1 ∉ filed ∧ row.1 < nextId) : Outboxed filed answers entered nextId after.core := by
  refine ⟨⟨⟨fun x o => ?_,fun o m row => ?_,fun x position acked => ?_⟩,fun x position acked => ?_⟩,fun x => ?_,
    fun x position answer inside => ?_,fun x position acked => ?_,fun x member => ?_,fun x entry sent => ?_,
    held.filed,held.answered,held.entered⟩
  · rw [rests.outbox,rests.store]
    exact held.ledger.rows x o
  · rw [rests.store] at row
    rw [rests.ordinal]
    exact held.ledger.minted o m row
  · rw [rests.acked] at acked
    rw [rests.outbox]
    exact held.ledger.acked x position acked
  · rw [rests.acked] at acked
    rw [rests.applied]
    exact held.ledger.above x position acked
  · rw [rests.outbox,rests.applied]
    exact held.stays x
  · rw [rests.outbox] at inside
    rw [rests.acked]
    exact held.acks x position answer inside
  · rw [rests.acked] at acked
    exact held.told x position acked
  · refine Option.eq_none_iff_forall_ne_some.mpr fun entry sent => ?_
    rcases rests.online x entry sent with old | now
    · rw [held.alone x member] at old
      cases old
    · exact (new _ now).1 member
  · rcases rests.online x entry sent with old | now
    · exact held.online x entry old
    · exact (new _ now).2

theorem Outboxed.quiet {engine after : Engine V D} (held : Outboxed filed answers entered nextId engine.core)
    (rests : Engine.Rests [] engine after) : Outboxed filed answers entered nextId after.core :=
  held.rests rests fun _ member => by cases member

-- A pass's transactions keep the outbox to what is filed and not done.
theorem Outboxed.prepares {engine : Engine V D} (held : Outboxed filed answers entered engine.nextId engine.core) :
    Engine.Ends (fun after => Outboxed (filed++engine.minted.filterMap Submission.filed)
      (answers++engine.heard.filter (·.1 < engine.nextId)) (entered++(engine.entering.map WireEdit.id).filter (· < engine.nextId))
      after.nextId after.core) engine.prepare := by
  unfold Engine.prepare Engine.minted Engine.heard Engine.entering
  have idle : ∀ {core : Core V D} {nextId : Nat}, Outboxed filed answers entered nextId core →
      Outboxed (filed++([] : List (Submission D × Nat)).filterMap Submission.filed) (answers++[].filter (·.1 < engine.nextId))
        (entered++(([] : List (WireEdit V)).map WireEdit.id).filter (· < engine.nextId)) nextId core := by
    intro core nextId same
    simpa using same
  cases turn : engine.turn with
  | queries | idle => exact idle held
  | outcomes =>
    have apart := Core.apart_folds engine.backfillOutcomes (Core.onOutcomeIn_apart engine.conn) engine.core
    exact idle (held.apart apart)
  | connect =>
    have apart : ∀ names : List Name, engine.core.Apart (names.foldl Core.startBackfill engine.core) :=
      fun names => Core.apart_folds names Core.startBackfill_apart engine.core
    exact idle (held.apart (apart _))
  | submitted =>
    dsimp only
    cases made : engine.submittedIn with
    | error failure =>
      have taken : Engine.Rests [] engine {engine with
          submitted:=[]
          resend:=false} := ⟨rfl,rfl,rfl,rfl,rfl,rfl,rfl,rfl,fun _ _ => .inl⟩
      have rests := taken.trans (Engine.rejectAll_rests _ (engine.submitted.filterMap Submission.promise) failure)
      have after := idle (held.quiet rests)
      show Outboxed _ _ _ (Engine.rejectAll _ _ _).nextId (Engine.rejectAll _ _ _).core
      rw [rests.nextId]
      exact after
    | ok m =>
      obtain ⟨wire,ran⟩ := submittedIn_mints made
      have minted := held.mints ran
      rw [List.filter_nil,List.map_nil,List.filter_nil,List.append_nil,List.append_nil]
      exact ⟨⟨⟨minted.ledger.rows,minted.ledger.minted,minted.ledger.acked⟩,minted.ledger.above⟩,minted.stays,minted.acks,minted.told,
        minted.alone,minted.online,minted.filed,minted.answered,minted.entered⟩
  | results =>
    dsimp only
    have first : Hearing answers [] engine.core (({engine with mutationOutcomes:=[]} : Engine V D),[]) := held.hearing rfl
    have all := first.outcomes (fun _ inside => held.apart_online inside) engine.mutationOutcomes
    have after := held.hears all
    have same := Engine.outcomes_nextId engine.mutationOutcomes (({engine with mutationOutcomes:=[]} : Engine V D),[])
    rw [List.nil_append] at after
    rw [List.filterMap_nil,List.append_nil,List.map_nil,List.filter_nil,List.append_nil]
    show Outboxed _ _ _ (engine.mutationOutcomes.foldl Engine.onOutcome _).1.nextId _
    rw [same]
    exact after
  | inbox =>
    dsimp only
    rw [List.filterMap_nil,List.append_nil,List.filter_nil,List.append_nil]
    have reads : ∀ rest items, Engine.Ends (fun after => Outboxed filed answers
        (entered++((Core.ifRan (engine.core.onItemsIn items) (engine.core.brought items)).map WireEdit.id).filter (· < engine.nextId))
        after.nextId after.core)
        (do
          let engine ← engine.write (engine.core.onItemsIn items)
          return {engine with inbox:=rest}) := by
      intro rest items
      cases ran : engine.core.onItemsIn items with
      | error failure =>
        rw [Core.ifRan,List.map_nil,List.filter_nil,List.append_nil]
        exact held
      | ok core => exact held.enters (Core.onItemsIn_enters ran)
    cases queue : engine.inbox with
    | nil => exact reads [] []
    | cons item rest =>
      cases item with
      | opened | view | edits | live | vouch => exact reads _ _
      | ended fatal =>
        rw [if_pos (show (Inbound.ended fatal :: rest).head?.any Engine.isEnd = true from rfl),List.map_nil,List.filter_nil,List.append_nil]
        cases fatal with
        | true => exact held
        | false => exact ⟨⟨⟨held.ledger.rows,held.ledger.minted,held.ledger.acked⟩,held.ledger.above⟩,held.stays,held.acks,held.told,
            held.alone,held.online,held.filed,held.answered,held.entered⟩
  | pushes =>
    dsimp only
    rw [List.filterMap_nil,List.append_nil,List.filter_nil,List.append_nil]
    generalize engine.backfillWork.filter (engine.core.accepts engine.conn) = pushes
    cases pushes with
    | nil =>
      rw [if_pos rfl,if_pos rfl,List.map_nil,List.filter_nil,List.append_nil]
      exact held
    | cons work rest =>
      rw [if_neg (List.cons_ne_nil work rest),if_neg (List.cons_ne_nil work rest)]
      cases ran : engine.core.onPushesIn (work :: rest) with
      | error failure =>
        rw [Core.ifRan,List.map_nil,List.filter_nil,List.append_nil]
        exact held
      | ok core => exact held.enters (Core.onPushesIn_enters ran)

end Journal

namespace Engine

theorem startCalls_rests (engine : Engine V D) : Rests [] engine engine.startCalls := by
  obtain ⟨calls,same⟩ := startCalls_only engine
  rw [same]
  exact ⟨rfl,rfl,rfl,rfl,rfl,rfl,rfl,rfl,fun _ _ => .inl⟩

-- The @online mutations a pass sends, if it comes to that.
def handed (engine : Engine V D) : List (Nat × OnlineMutation) :=
  if engine.turn = .submitted then onlines engine.callsOf else []

theorem hand_handed (engine after : Engine V D) : Rests engine.handed after (engine.hand after) := by
  unfold handed
  split
  · exact hand_rests engine after
  · rename_i other
    have same : engine.hand after = after := by
      unfold hand
      split
      · rename_i turn
        exact absurd turn other
      · rfl
    rw [same]
    exact .refl after

-- A pass is its transactions, and what rests of it.
theorem pass_error {engine after : Engine V D} {weather : Weather} {turn : Turn} {failure : Failure} (taken : engine.takes = some turn)
    (threw : engine.startCalls.prepare = .error (failure,after)) : engine.pass weather = after.fail failure := by
  rw [(pass_takes weather taken).1,handle_parts,threw]
  rfl

theorem pass_rests {engine mid : Engine V D} {weather : Weather} {turn : Turn} (taken : engine.takes = some turn)
    (ran : engine.startCalls.prepare = .ok mid) : Rests engine.startCalls.handed mid (engine.pass weather) := by
  rw [(pass_takes weather taken).1,handle_parts,ran]
  show Rests _ mid (caught (if engine.startCalls.shows = true then (mid.refresh weather false).map engine.startCalls.hand else .ok mid))
  split
  · have refreshed := refresh_rests weather false mid
    cases made : mid.refresh weather false with
    | error thrown =>
      obtain ⟨failure,after⟩ := thrown
      rw [made] at refreshed
      exact (Rests.trans refreshed (fail_rests failure after)).more (List.nil_subset _)
    | ok after =>
      rw [made] at refreshed
      exact Rests.trans refreshed (hand_handed engine.startCalls after)
  · exact (Rests.refl mid).more (List.nil_subset _)

theorem pass_idle {engine : Engine V D} (weather : Weather) (taken : engine.takes = none) : Rests [] engine (engine.pass weather) := by
  unfold takes at taken
  unfold pass
  split
  · exact .refl engine
  · rename_i going
    split
    · have down := shutdown_rests engine
      exact ⟨down.store,down.applied,down.backfills,down.outbox,down.acked,down.ordinal,down.nextId,down.predictor,down.online⟩
    · rename_i free
      rw [if_neg (by simp [going,free])] at taken
      cases taken

end Engine

namespace Journal
variable {filed entered : List Nat} {answers : List (Nat × MutationResult)} {nextId : Nat}

theorem Outboxed.passes {j : Journal V D} (weather : Weather)
    (held : Outboxed j.filed j.answers j.entered j.engine.nextId j.engine.core) :
    Outboxed (j.pass weather).filed (j.pass weather).answers (j.pass weather).entered (j.pass weather).engine.nextId
      (j.pass weather).engine.core := by
  unfold pass
  cases taken : j.engine.takes with
  | none =>
    have rests := Engine.pass_idle weather taken
    dsimp only
    rw [rests.nextId]
    exact held.quiet rests
  | some turn =>
    have began := Engine.startCalls_rests j.engine
    have started := held.quiet began
    rw [← began.nextId] at started
    have prepared := started.prepares
    dsimp only
    rw [← began.nextId]
    cases ran : j.engine.startCalls.prepare with
    | error thrown =>
      obtain ⟨failure,after⟩ := thrown
      rw [ran] at prepared
      rw [Engine.pass_error taken ran]
      have rests := Engine.fail_rests failure after
      rw [rests.nextId]
      exact Outboxed.quiet prepared rests
    | ok mid =>
      rw [ran] at prepared
      have rests : Engine.Rests _ mid (j.engine.pass weather) := Engine.pass_rests taken ran
      rw [rests.nextId]
      refine Outboxed.rests prepared rests fun row member => ?_
      unfold Engine.handed at member
      split at member
      · rename_i turn
        rw [Engine.callsOf_onlines turn] at member
        obtain ⟨⟨promise,id⟩,given,rfl⟩ := List.mem_map.mp member
        obtain ⟨low,fresh⟩ := Engine.minted_fresh given
        refine ⟨fun filed => ?_,?_⟩
        · rcases List.mem_append.mp filed with old | new
          · have := started.filed id old
            omega
          · exact fresh new
        · exact Engine.prepare_minted turn ran given
      · cases member

-- What is not a pass leaves the outbox and what the graph shows alone.
theorem react_quiet {engine : Engine V D} {event : Engine.Event V D} (other : ∀ weather, event ≠ .pass weather) :
    engine.core.Apart (engine.react event).core ∧ (engine.react event).nextId = engine.nextId ∧
      (engine.react event).predictor = engine.predictor ∧ (engine.react event).runs = engine.runs ∧
      (engine.react event).overlay = engine.overlay ∧ (engine.react event).ended = engine.ended := by
  have stays : ∀ after : Engine V D, after = engine → engine.core.Apart after.core ∧ after.nextId = engine.nextId ∧
      after.predictor = engine.predictor ∧ after.runs = engine.runs ∧ after.overlay = engine.overlay ∧ after.ended = engine.ended := by
    rintro after rfl
    exact ⟨.refl _,rfl,rfl,rfl,rfl,rfl⟩
  cases event with
  | pass weather => exact absurd rfl (other weather)
  | hook conn item =>
    unfold Engine.react
    dsimp only
    split
    · exact stays _ rfl
    · exact ⟨.refl _,rfl,rfl,rfl,rfl,rfl⟩
  | push call item =>
    unfold Engine.react
    dsimp only
    split
    · exact stays _ rfl
    · exact ⟨.refl _,rfl,rfl,rfl,rfl,rfl⟩
  | backoff timer =>
    unfold Engine.react
    dsimp only
    split
    · exact ⟨⟨rfl,rfl,rfl,rfl,rfl⟩,rfl,rfl,rfl,rfl,rfl⟩
    · exact ⟨Core.onRetryTimer_apart engine.core timer,rfl,rfl,rfl,rfl,rfl⟩
  | sendOnlineMutation data promise =>
    unfold Engine.react
    dsimp only
    split
    · unfold Engine.settle
      split
      · exact stays _ rfl
      · exact ⟨.refl _,rfl,rfl,rfl,rfl,rfl⟩
    · exact ⟨.refl _,rfl,rfl,rfl,rfl,rfl⟩
  | outcome | results | retry | sendMutation | newQuery | reconnectNow | abort => exact ⟨.refl _,rfl,rfl,rfl,rfl,rfl⟩

theorem loads_outbox {rows : List (Nat × Mutation D)} (distinct : rows.Pairwise fun a b => a.2.id ≠ b.2.id) (first : Outgoing) :
    let loaded := rows.foldl (fun outgoing row =>
      {outgoing with outbox:=outgoing.outbox.set row.2.id row.1,nextOrdinal:=row.1+1}) first
    (∀ id o, loaded.outbox.get id = some o ↔ (∃ m, (o,m) ∈ rows ∧ m.id = id) ∨
      first.outbox.get id = some o ∧ ∀ row ∈ rows, row.2.id ≠ id) ∧ loaded.acked = first.acked ∧ loaded.online = first.online := by
  dsimp only
  induction rows generalizing first with
  | nil => exact ⟨fun id o => by simp,rfl,rfl⟩
  | cons row rest ih =>
    obtain ⟨apart,later⟩ := List.pairwise_cons.mp distinct
    obtain ⟨boxes,acked,online⟩ := ih later {first with outbox:=first.outbox.set row.2.id row.1,nextOrdinal:=row.1+1}
    refine ⟨fun id o => ?_,acked,online⟩
    rw [List.foldl_cons,boxes,OrderedMap.get_set]
    by_cases here : row.2.id = id
    · subst here
      rw [if_pos rfl]
      constructor
      · rintro (⟨m,member,same⟩ | ⟨at_,_⟩)
        · exact absurd same.symm (apart _ member)
        · cases at_
          exact .inl ⟨row.2,List.mem_cons_self,rfl⟩
      · rintro (⟨m,member,same⟩ | ⟨_,none⟩)
        · rcases List.mem_cons.mp member with is | old
          · subst is
            exact .inr ⟨rfl,fun other member => (apart other member).symm⟩
          · exact absurd same.symm (apart _ old)
        · exact absurd rfl (none row List.mem_cons_self)
    · rw [if_neg here]
      constructor
      · rintro (⟨m,member,same⟩ | ⟨at_,none⟩)
        · exact .inl ⟨m,List.mem_cons_of_mem _ member,same⟩
        · exact .inr ⟨at_,fun other member => (List.mem_cons.mp member).elim (fun is => is ▸ here) (none other)⟩
      · rintro (⟨m,member,same⟩ | ⟨at_,none⟩)
        · rcases List.mem_cons.mp member with is | old
          · subst is
            exact absurd same here
          · exact .inl ⟨m,old,same⟩
        · exact .inr ⟨at_,fun other member => none other (List.mem_cons_of_mem _ member)⟩

theorem loads_ordinal {rows : List (Nat × Mutation D)} (sorted : rows.Pairwise fun a b => a.1 < b.1) (first : Outgoing) :
    ∀ row ∈ rows, row.1 < (rows.foldl (fun (outgoing : Outgoing) row =>
      {outgoing with outbox:=outgoing.outbox.set row.2.id row.1,nextOrdinal:=row.1+1}) first).nextOrdinal := by
  induction rows generalizing first with
  | nil => exact fun _ member => by cases member
  | cons row rest ih =>
    obtain ⟨below,later⟩ := List.pairwise_cons.mp sorted
    have rest_ := ih later {first with outbox:=first.outbox.set row.2.id row.1,nextOrdinal:=row.1+1}
    intro other member
    rw [List.foldl_cons]
    rcases List.mem_cons.mp member with is | old
    · subst is
      cases rest with
      | nil => exact Nat.lt_succ_self _
      | cons next rest => exact (below next List.mem_cons_self).trans (rest_ next List.mem_cons_self)
    · exact rest_ other old

-- No two rows are of one mutation.
theorem distinct_rows {core : Core V D} (held : Outboxed filed answers entered nextId core) :
    core.store.mutations.scan.Pairwise fun a b => a.2.id ≠ b.2.id := by
  have one : ∀ o o' m m', core.store.mutations.get o = some m → core.store.mutations.get o' = some m' → m.id = m'.id → o = o' := by
    intro o o' m m' row row' same
    have first := (held.ledger.rows m.id o).mpr ⟨m,row,rfl⟩
    have second := (held.ledger.rows m.id o').mpr ⟨m',row',same.symm⟩
    rw [first] at second
    exact Option.some.inj second
  refine core.store.mutations.scan_sorted.imp_of_mem fun {a b} left right less same => ?_
  have := one a.1 b.1 a.2 b.2 ((core.store.mutations.mem_scan a.1 a.2).mp left) ((core.store.mutations.mem_scan b.1 b.2).mp right) same
  omega

-- The outbox a start loads is what the store was left with.
theorem loads_outboxed {core : Core V D} (held : Outboxed filed answers entered nextId core) (nextEntry : Nat) :
    Outboxed (core.store.mutations.scan.map (·.2.id)) [] [] nextId (Core.load core.store nextEntry : Core V D) := by
  have known : ∀ o m, core.store.mutations.get o = some m → m.id < nextId := by
    intro o m row
    exact held.filed m.id ((held.stays m.id).mp ⟨o,(held.ledger.rows m.id o).mpr ⟨m,row,rfl⟩⟩).1
  have distinct := distinct_rows held
  obtain ⟨boxes,acked,online⟩ := loads_outbox distinct {}
  have ordinals := loads_ordinal core.store.mutations.scan_sorted {}
  have loaded : ∀ id o, (Core.loadOutbox core.store.mutations).outbox.get id = some o ↔
      ∃ m, core.store.mutations.get o = some m ∧ m.id = id := by
    intro id o
    refine (boxes id o).trans ⟨?_,?_⟩
    · rintro (⟨m,member,same⟩ | ⟨none,_⟩)
      · exact ⟨m,(core.store.mutations.mem_scan o m).mp member,same⟩
      · cases none
    · rintro ⟨m,row,same⟩
      exact .inl ⟨m,(core.store.mutations.mem_scan o m).mpr row,same⟩
  have unacked : ∀ id, (Core.loadOutbox core.store.mutations).acked.get id = none := by
    intro id
    rw [show (Core.loadOutbox core.store.mutations).acked = ∅ from acked]
    rfl
  have unsent : ∀ id, (Core.loadOutbox core.store.mutations).online.get id = none := by
    intro id
    rw [show (Core.loadOutbox core.store.mutations).online = ∅ from online]
    rfl
  refine ⟨⟨⟨loaded,fun o m row => ?_,fun x position held => ?_⟩,fun x position held => ?_⟩,fun x => ?_,fun _ _ none => absurd none List.not_mem_nil,
    fun x position held => ?_,fun x _ => unsent x,fun x entry sent => ?_,fun x member => ?_,
    fun _ none => absurd none List.not_mem_nil,fun _ none => absurd none List.not_mem_nil⟩
  · exact ordinals (o,m) ((core.store.mutations.mem_scan o m).mpr row)
  · cases (unacked x).symm.trans held
  · cases (unacked x).symm.trans held
  · have open_ : ¬Done [] [] (Core.load core.store nextEntry : Core V D).applied x := by
      rintro (none | ⟨_,none,_⟩ | ⟨_,none,_⟩) <;> cases none
    rw [and_iff_left open_,List.mem_map]
    constructor
    · rintro ⟨o,inside⟩
      obtain ⟨m,row,same⟩ := (loaded x o).mp inside
      exact ⟨(o,m),(core.store.mutations.mem_scan o m).mpr row,same⟩
    · rintro ⟨⟨o,m⟩,member,same⟩
      exact ⟨o,(loaded x o).mpr ⟨m,(core.store.mutations.mem_scan o m).mp member,same⟩⟩
  · cases (unacked x).symm.trans held
  · cases (unsent x).symm.trans sent
  · obtain ⟨⟨o,m⟩,row,rfl⟩ := List.mem_map.mp member
    exact known o m ((core.store.mutations.mem_scan o m).mp row)

end Journal
end PhaseLock
