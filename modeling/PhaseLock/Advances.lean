import PhaseLock.SendOrder
import PhaseLock.Settlements
import PhaseLock.Origins

namespace PhaseLock
variable {V D : Type}

namespace Engine
open Stamp
variable {P : WireEdit V → Prop} {engine after : Engine V D}

-- What waits to be taken up, edits and answers, is some of what did.
structure Leaves (engine after : Engine V D) : Prop where
  inbox : after.inbox ⊆ engine.inbox
  pushes : after.backfillWork ⊆ engine.backfillWork
  told : after.mutationOutcomes ⊆ engine.mutationOutcomes
  fewer : engine.core.Fewer after.core

theorem Leaves.refl (engine : Engine V D) : Leaves engine engine := ⟨fun _ => id,fun _ => id,fun _ => id,.refl _⟩

theorem Leaves.trans {a b c : Engine V D} (first : Leaves a b) (second : Leaves b c) : Leaves a c :=
  ⟨fun _ member => first.inbox (second.inbox member),fun _ member => first.pushes (second.pushes member),
    fun _ member => first.told (second.told member),first.fewer.trans second.fewer⟩

theorem Leaves.carries (leaves : Leaves engine after) (held : engine.Carries P) : after.Carries P :=
  ⟨fun item member => held.inbox item (leaves.inbox member),fun work member => held.pushes work (leaves.pushes member),
    leaves.fewer.parked held.parked⟩

theorem leaves_same (inbox : after.inbox = engine.inbox) (pushes : after.backfillWork = engine.backfillWork)
    (told : after.mutationOutcomes = engine.mutationOutcomes) (parked : after.core.store.parkedEdits = engine.core.store.parkedEdits) :
    Leaves engine after :=
  ⟨inbox ▸ fun _ => id,pushes ▸ fun _ => id,told ▸ fun _ => id,.same parked⟩

theorem leaves_folds {α : Type} {f : Engine V D → α → Engine V D} (items : List α) (each : ∀ engine item, Leaves engine (f engine item))
    (engine : Engine V D) : Leaves engine (items.foldl f engine) :=
  foldl_invariant (P := Leaves engine) (fun s item _ before => before.trans (each s item)) (.refl engine)

theorem settle_leaves (engine : Engine V D) (promise : Nat) (settlement : Settlement) : Leaves engine (engine.settle promise settlement) := by
  unfold settle
  split
  · exact .refl engine
  · exact leaves_same rfl rfl rfl rfl

theorem rejectAll_leaves (engine : Engine V D) (promises : List Nat) (reason : Failure) : Leaves engine (engine.rejectAll promises reason) :=
  leaves_folds promises (fun engine promise => settle_leaves engine promise _) engine

theorem out_leaves (engine : Engine V D) (outgoing : Outgoing) : Leaves engine (engine.out outgoing) := leaves_same rfl rfl rfl rfl

theorem settleOnline_leaves (engine : Engine V D) : Leaves engine engine.settleOnline := by
  unfold settleOnline
  split
  · exact .refl engine
  · refine leaves_folds _ (fun engine row => ?_) engine
    unfold settleOne
    split
    · exact .refl engine
    · exact (out_leaves engine _).trans (settle_leaves _ _ _)

theorem rejectOnline_leaves (engine : Engine V D) (reason : Failure) : Leaves engine (engine.rejectOnline reason) := by
  unfold rejectOnline
  dsimp only
  exact ((rejectAll_leaves engine _ reason).trans (rejectAll_leaves _ _ reason)).trans (out_leaves _ _)

theorem shutdown_leaves (engine : Engine V D) : Leaves engine engine.shutdown := by
  refine Leaves.trans ?_ (rejectOnline_leaves _ _)
  exact ⟨fun _ => id,fun _ none => (by cases none),fun _ => id,.same rfl⟩

theorem fail_leaves (failure : Failure) (engine : Engine V D) : Leaves engine (engine.fail failure) := by
  refine Leaves.trans (Leaves.trans ?_ (rejectOnline_leaves _ failure)) (shutdown_leaves _)
  exact leaves_same rfl rfl rfl rfl

theorem runGraph_leaves (weather : Weather) (engine : Engine V D) : Ends (Leaves engine) (engine.runGraph weather) := by
  unfold runGraph
  dsimp only
  split <;> exact leaves_same rfl rfl rfl rfl

theorem rebuildOverlay_leaves (weather : Weather) (engine : Engine V D) : Ends (Leaves engine) (engine.rebuildOverlay weather) := by
  refine (runGraph_leaves weather _).imp fun after leaves => Leaves.trans ?_ leaves
  exact leaves_same rfl rfl rfl rfl

theorem refresh_leaves (weather : Weather) (always : Bool) (engine : Engine V D) : Ends (Leaves engine) (engine.refresh weather always) := by
  unfold refresh
  dsimp only
  have cleared : Leaves engine {engine with core:={engine.core with
      dirty:=[]
      outgoing:={engine.core.outgoing with outboxChanged:=false}}} := leaves_same rfl rfl rfl rfl
  have done : ∀ {ran : Except (Thrown V D) (Engine V D)}, Ends (Leaves engine) ran →
      Ends (Leaves engine) (ran >>= fun engine => .ok engine.settleOnline) := by
    intro ran ends
    exact ends.bind (fun _ => id) fun after leaves => leaves.trans (settleOnline_leaves after)
  split
  · exact done ((rebuildOverlay_leaves weather _).imp fun _ leaves => cleared.trans leaves)
  · split
    · exact done ((runGraph_leaves weather _).imp fun _ leaves => cleared.trans leaves)
    · exact cleared.trans (settleOnline_leaves _)

theorem startCalls_leaves (engine : Engine V D) : Leaves engine engine.startCalls := by
  obtain ⟨calls,same⟩ := startCalls_only engine
  rw [same]
  exact leaves_same rfl rfl rfl rfl

theorem answer_leaves (state : Engine V D × List Nat) (row : Nat × MutationResult) : Leaves state.1 (answer state row).1 := by
  unfold answer
  dsimp only
  split
  · split
    · exact out_leaves _ _
    · exact (out_leaves _ _).trans (settle_leaves _ _ _)
  · split
    · split
      · exact out_leaves _ _
      · exact .refl _
    · exact .refl _

theorem onOutcome_leaves (state : Engine V D × List Nat) (outcome : MutationOutcome) : Leaves state.1 (onOutcome state outcome).1 := by
  unfold onOutcome
  split
  · have failed : Leaves state.1 (outcome.ids.foldl failOne state.1) := by
      refine leaves_folds _ (fun engine id => ?_) state.1
      unfold failOne
      split
      · exact .refl engine
      · exact (out_leaves engine _).trans (settle_leaves _ _ _)
    exact failed.trans (leaves_same rfl rfl rfl rfl)
  · exact foldl_invariant (P := fun at_ : Engine V D × List Nat => Leaves state.1 at_.1)
      (fun s row _ before => before.trans (answer_leaves s row)) (.refl state.1)

theorem sendCall_leaves (engine : Engine V D) (call : List (Mutation D) × Option (Nat × OnlineMutation)) :
    Leaves engine (engine.sendCall call) := by
  unfold sendCall
  split
  · exact .refl engine
  · exact leaves_same rfl rfl rfl rfl

theorem hand_leaves (engine after : Engine V D) : Leaves after (engine.hand after) := by
  unfold hand
  split
  · split
    · exact leaves_folds _ sendCall_leaves after
    · exact rejectAll_leaves after _ _
  · exact .refl after

-- A step that takes up edits only as they waited, and no answer twice.
def Bears (P : WireEdit V → Prop) (engine after : Engine V D) : Prop :=
  (engine.Carries P → after.Carries P) ∧ after.mutationOutcomes ⊆ engine.mutationOutcomes

theorem Leaves.bears (leaves : Leaves engine after) : Bears P engine after := ⟨leaves.carries,leaves.told⟩

theorem Bears.trans {a b c : Engine V D} (first : Bears P a b) (second : Bears P b c) : Bears P a c :=
  ⟨fun held => second.1 (first.1 held),fun _ member => first.2 (second.2 member)⟩

-- What sends nothing and mints nothing.
structure Silent (engine after : Engine V D) : Prop where
  sends : after.sends = engine.sends
  stamp : after.stamp = engine.stamp
  conn : engine.conn ≤ after.conn
  rows : ∀ o m, after.core.store.mutations.get o = some m → engine.core.store.mutations.get o = some m

theorem Silent.trans {a b c : Engine V D} (first : Silent a b) (second : Silent b c) : Silent a c :=
  ⟨second.sends.trans first.sends,second.stamp.trans first.stamp,first.conn.trans second.conn,
    fun o m row => first.rows o m (second.rows o m row)⟩

theorem Calm.silent (calm : Calm engine after) : Silent engine after := ⟨calm.sends,calm.stamp,le_of_eq calm.conn.symm,calm.rows⟩

theorem silent_same (sends : after.sends = engine.sends) (stamp : after.stamp = engine.stamp) (conn : engine.conn ≤ after.conn)
    (rows : after.core.store.mutations = engine.core.store.mutations) : Silent engine after :=
  ⟨sends,stamp,conn,fun _ _ row => rows ▸ row⟩

theorem fail_silent (failure : Failure) (engine : Engine V D) : Silent engine (engine.fail failure) := by
  have ended : Silent engine {engine with ended:=true} := silent_same rfl rfl le_rfl rfl
  have stopped : ∀ engine : Engine V D, Silent engine engine.shutdown := fun engine =>
    Silent.trans (b := {engine with
      retryTimer:=false
      abortedConns:=engine.abortedConns++[engine.conn]
      connection:=false
      core:={engine.core with starts:=[]}
      backfillWork:=[]}) (silent_same rfl rfl le_rfl rfl) (rejectOnline_calm _ _).silent
  exact (ended.trans (rejectOnline_calm _ failure).silent).trans (stopped _)

end Engine

namespace Journal
open Engine
variable {P : WireEdit V → Prop} {filed entered : List Nat} {answers : List (Nat × MutationResult)} {nextId : Nat} {engine : Engine V D}

-- A turn other than the app's own mints nothing, and takes up what waits.
theorem Outboxed.bears (held : Outboxed filed answers entered nextId engine.core) (other : engine.turn ≠ .submitted) :
    Ends (fun after => Silent engine after ∧ Bears P engine after) engine.prepare := by
  have still : ∀ {after : Engine V D}, Silent engine after → Leaves engine after → Silent engine after ∧ Bears P engine after :=
    fun silent leaves => ⟨silent,leaves.bears⟩
  have moved : ∀ {core : Core V D} {seen : List Nat} {gone : Nat → Bool}, Core.Moves seen gone engine.core core →
      ∀ o m, core.store.mutations.get o = some m → engine.core.store.mutations.get o = some m := by
    intro core seen gone moves o m row
    rw [moves.rows] at row
    exact (Option.filter_eq_some_iff.mp row).1
  unfold Engine.prepare
  cases turn : engine.turn with
  | submitted => exact absurd turn other
  | queries | idle => exact still (silent_same rfl rfl le_rfl rfl) (.refl engine)
  | outcomes =>
    have apart := Core.apart_folds engine.backfillOutcomes (Core.onOutcomeIn_apart engine.conn) engine.core
    exact still ⟨rfl,rfl,le_rfl,moved apart.moves⟩ ⟨fun _ => id,fun _ => id,fun _ => id,
      Core.fewer_folds _ (Core.onOutcomeIn_fewer engine.conn) engine.core⟩
  | connect =>
    have apart : engine.core.Apart engine.onConnect.core := Core.apart_folds _ Core.startBackfill_apart engine.core
    exact still ⟨rfl,rfl,le_rfl,moved apart.moves⟩ ⟨fun _ => id,fun _ => id,fun _ => id,Core.fewer_folds _ Core.startBackfill_fewer engine.core⟩
  | results =>
    dsimp only
    have first : Hearing answers [] engine.core (({engine with mutationOutcomes:=[]} : Engine V D),[]) := held.hearing rfl
    have all := first.outcomes (fun _ inside => held.apart_online inside) engine.mutationOutcomes
    have taken : Calm engine {engine with mutationOutcomes:=[]} := calm_same rfl rfl rfl rfl rfl rfl rfl rfl rfl rfl
    have heard := taken.trans (outcomes_calm engine.mutationOutcomes ({engine with mutationOutcomes:=[]},[]))
    have moves := (Core.releaseIn_moves (all.filed_of held.ledger.toFiled)
      (engine.mutationOutcomes.foldl Engine.onOutcome (({engine with mutationOutcomes:=[]} : Engine V D),[])).2).1
    have left : Leaves engine (engine.mutationOutcomes.foldl Engine.onOutcome (({engine with mutationOutcomes:=[]} : Engine V D),[])).1 :=
      foldl_invariant (P := fun s : Engine V D × List Nat => Leaves engine s.1)
        (fun s outcome _ before => before.trans (onOutcome_leaves s outcome)) ⟨fun _ => id,fun _ => id,fun _ none => (by cases none),.refl _⟩
    refine still (heard.silent.trans ⟨rfl,rfl,le_rfl,fun o m row => ?_⟩)
      (left.trans ⟨fun _ => id,fun _ => id,fun _ => id,Core.fewer_folds _ Core.release_fewer _⟩)
    have row : (Core.releaseIn _ _).store.mutations.get o = some m := row
    rw [moves.rows] at row
    exact (Option.filter_eq_some_iff.mp row).1
  | inbox =>
    dsimp only
    have reads : ∀ rest items, items ⊆ engine.inbox → rest ⊆ engine.inbox → Ends (fun after => Silent engine after ∧ Bears P engine after)
        (do
          let engine ← engine.write (engine.core.onItemsIn items)
          return {engine with inbox:=rest}) := by
      intro rest items some_ left
      cases ran : engine.core.onItemsIn items with
      | error failure => exact still (silent_same rfl rfl le_rfl rfl) (.refl engine)
      | ok core =>
        have moves := (Core.onItemsIn_enters ran held.ledger).2
        refine ⟨⟨rfl,rfl,le_rfl,moved moves⟩,fun carries => ⟨fun item member => carries.inbox item (left member),carries.pushes,?_⟩,fun _ => id⟩
        exact Core.onItemsIn_parked carries.parked (fun item member => carries.inbox item (some_ member)) ran
    have plain := reads (engine.inbox.dropWhile (!isEnd ·)) (engine.inbox.takeWhile (!isEnd ·)) (List.takeWhile_subset _)
      (List.dropWhile_subset _)
    cases queue : engine.inbox with
    | nil =>
      rw [queue] at plain
      exact plain
    | cons item rest =>
      rw [queue] at plain
      cases item with
      | opened | view | edits | live | vouch => exact plain
      | ended fatal =>
        have left : rest ⊆ engine.inbox := by
          rw [queue]
          exact List.subset_cons_self _ _
        cases fatal with
        | true => exact still (silent_same rfl rfl le_rfl rfl) ⟨left,fun _ => id,fun _ => id,.refl _⟩
        | false => exact still (silent_same rfl rfl (Nat.le_succ _) rfl) ⟨left,fun _ => id,fun _ => id,.same rfl⟩
  | pushes =>
    dsimp only
    have taken : Leaves engine {engine with backfillWork:=[]} := ⟨fun _ => id,fun _ none => (by cases none),fun _ => id,.refl _⟩
    have some_ : engine.backfillWork.filter (engine.core.accepts engine.conn) ⊆ engine.backfillWork :=
      fun _ member => (List.mem_filter.mp member).1
    generalize engine.backfillWork.filter (engine.core.accepts engine.conn) = pushes at some_
    cases pushes with
    | nil =>
      rw [if_pos rfl]
      exact still (silent_same rfl rfl le_rfl rfl) taken
    | cons work rest =>
      rw [if_neg (List.cons_ne_nil work rest)]
      cases ran : engine.core.onPushesIn (work :: rest) with
      | error failure => exact still (silent_same rfl rfl le_rfl rfl) taken
      | ok core =>
        have moves := (Core.onPushesIn_enters ran held.ledger).2
        refine ⟨⟨rfl,rfl,le_rfl,moved moves⟩,fun carries => ⟨carries.inbox,fun _ none => (by cases none),?_⟩,fun _ => id⟩
        exact Core.onPushesIn_parked carries.parked (fun work member => carries.pushes work (some_ member)) ran

end Journal

namespace Engine
open Stamp
variable {P : WireEdit V → Prop} {engine mid after : Engine V D} {m final : Minting V D}

-- What a step mints and sends: among the mutations it lines up, in the order of their stamps, each
-- is one stored before or one minted now, and every new row and every call is of them.
structure Advance (engine after : Engine V D) (wires : List (Mutation D)) (extra : List (SendCall D)) : Prop where
  later : engine.stamp = after.stamp ∨ Before engine.stamp after.stamp
  conn : engine.conn ≤ after.conn
  order : wires.Pairwise fun a b => Before a.stamp b.stamp
  below : ∀ x ∈ wires, Before x.stamp after.stamp
  fresh : ∀ x ∈ wires, (∃ o, engine.core.store.mutations.get o = some x) ∨ engine.stamp = x.stamp ∨ Before engine.stamp x.stamp
  rows : ∀ o x, after.core.store.mutations.get o = some x → engine.core.store.mutations.get o = some x ∨ x ∈ wires
  sends : after.sends = engine.sends++extra
  calls : ∀ call ∈ extra, call.conn = engine.conn ∧ after.conn = engine.conn ∧ ∀ x ∈ call.wire, x ∈ wires

theorem Silent.advance (silent : Silent engine after) : Advance engine after [] [] :=
  ⟨.inl silent.stamp.symm,silent.conn,.nil,fun _ none => (by cases none),fun _ none => (by cases none),fun o x row => .inl (silent.rows o x row),
    by rw [silent.sends,List.append_nil],fun _ none => (by cases none)⟩

-- What is silent before or after changes nothing of it.
theorem Advance.begun {wires : List (Mutation D)} {extra : List (SendCall D)} (advance : Advance mid after wires extra) (calm : Calm engine mid) :
    Advance engine after wires extra := by
  have calls := advance.calls
  rw [calm.conn] at calls
  have later := advance.later
  have fresh := advance.fresh
  have conn := advance.conn
  rw [calm.stamp] at later fresh
  rw [calm.conn] at conn
  refine ⟨later,conn,advance.order,advance.below,fun x member => ?_,fun o x row => ?_,by rw [advance.sends,calm.sends],calls⟩
  · refine (fresh x member).imp (fun stored => ?_) id
    obtain ⟨o,row⟩ := stored
    exact ⟨o,calm.rows o x row⟩
  · exact (advance.rows o x row).imp (calm.rows o x) id

theorem Advance.done {wires : List (Mutation D)} (advance : Advance engine mid wires []) (silent : Silent mid after) :
    Advance engine after wires [] := by
  refine ⟨?_,advance.conn.trans silent.conn,advance.order,?_,advance.fresh,fun o x row => advance.rows o x (silent.rows o x row),by rw [silent.sends,advance.sends],
    fun _ none => (by cases none)⟩
  · rw [silent.stamp]
    exact advance.later
  · rw [silent.stamp]
    exact advance.below

theorem mintIn_wires {submission : Submission D} (ran : mintIn engine.series m submission = .ok final) :
    ∃ x : Mutation D, final.wires = m.wires++[x] ∧ x.stamp = m.mark engine.series ∧ Before (m.mark engine.series) (final.mark engine.series) ∧
      ∀ o y, final.core.store.mutations.get o = some y → m.core.store.mutations.get o = some y ∨ y = x := by
  have next : Before (m.nextId,engine.series,m.nextN) (m.nextId+1,engine.series,m.nextN+1) := ⟨Nat.lt_succ_self _,.inr ⟨rfl,Nat.lt_succ_self _⟩⟩
  cases submission with
  | online data promise =>
    cases data with
    | none => cases ran
    | some data =>
      cases ran
      exact ⟨⟨m.nextId,engine.series,m.nextN,data⟩,by simp [Minting.wires],rfl,next,fun _ _ => .inl⟩
  | outbox data =>
    cases data with
    | none => cases ran
    | some data =>
      cases ran
      refine ⟨⟨m.nextId,engine.series,m.nextN,data⟩,by simp [Minting.wires],rfl,next,fun o y row => ?_⟩
      have row : (m.core.store.mutations.set m.core.outgoing.nextOrdinal ⟨m.nextId,engine.series,m.nextN,data⟩).get o = some y := row
      rw [OrderedMap.get_set] at row
      split at row
      · exact .inr (Option.some.inj row).symm
      · exact .inl row

-- What is lined up was stored, or is minted now; what is stored was, or is lined up.
theorem submittedIn_wires (filed : engine.core.Filed) (lined : engine.Lined) (made : engine.submittedIn = .ok m) :
    (∀ x ∈ m.wires, (∃ o, engine.core.store.mutations.get o = some x) ∨ engine.stamp = x.stamp ∨ Before engine.stamp x.stamp) ∧
      ∀ o x, m.core.store.mutations.get o = some x → engine.core.store.mutations.get o = some x ∨ x ∈ m.wires := by
  let J : Minting V D → Prop := fun m => (engine.stamp = m.mark engine.series ∨ Before engine.stamp (m.mark engine.series)) ∧
    (∀ x ∈ m.wires, (∃ o, engine.core.store.mutations.get o = some x) ∨ engine.stamp = x.stamp ∨ Before engine.stamp x.stamp) ∧
    ∀ o x, m.core.store.mutations.get o = some x → engine.core.store.mutations.get o = some x ∨ x ∈ m.wires
  have runs : ∀ {pending : List (Mutation D)}, (∀ x ∈ pending, ∃ o, engine.core.store.mutations.get o = some x) →
      engine.submitted.foldlM (mintIn engine.series) {core:=engine.core,nextN:=engine.nextN,nextId:=engine.nextId,wire:=pending} = .ok m → J m := by
    intro pending rows ran
    refine foldlM_invariant (P := J) (fun m submission final _ before minted => ?_)
      ⟨.inl rfl,fun x member => .inl (rows x (by simpa [Minting.wires] using member)),fun _ _ => .inl⟩ ran
    obtain ⟨later,fresh,stored⟩ := before
    obtain ⟨x,wires,stamped,next,row⟩ := mintIn_wires minted
    refine ⟨.inr ?_,fun y member => ?_,fun o y held => ?_⟩
    · rcases later with same | before
      · rw [same]
        exact next
      · exact before.trans next
    · rw [wires] at member
      rcases List.mem_append.mp member with old | new
      · exact fresh y old
      · rw [List.mem_singleton.mp new,stamped]
        exact .inr later
    · rw [wires]
      rcases row o y held with old | rfl
      · exact (stored o y old).imp id (List.mem_append_left _)
      · exact .inr (List.mem_append_right _ List.mem_cons_self)
  have all : J m := by
    unfold submittedIn at made
    by_cases resends : engine.resend = true ∧ engine.connection = true
    · rw [if_pos resends] at made
      obtain ⟨pending,read,ran⟩ := bind_ok.mp made
      exact runs (pendingRows_lines filed lined read).2.1 ran
    · rw [if_neg resends] at made
      exact runs (fun _ none => absurd none List.not_mem_nil) made
  exact all.2

theorem prepare_leaves (turn : engine.turn = .submitted) (ran : engine.prepare = .ok mid) : Leaves engine mid := by
  unfold prepare at ran
  rw [turn] at ran
  dsimp only at ran
  cases made : engine.submittedIn with
  | error failure =>
    rw [made] at ran
    cases ran
  | ok m =>
    rw [made] at ran
    cases ran
    obtain ⟨mutations,outgoing,dirty,same⟩ := submittedIn_beside made
    refine leaves_same rfl rfl rfl ?_
    show m.core.store.parkedEdits = _
    rw [same]
    rfl

theorem sends_calls (calls : List (List (Mutation D) × Option (Nat × OnlineMutation))) (engine : Engine V D) :
    ∃ extra, (calls.foldl sendCall engine).sends = engine.sends++extra ∧
      ∀ call ∈ extra, call.conn = engine.conn ∧ ∃ sent ∈ calls, call.wire = sent.1 := by
  refine foldl_invariant (P := fun s : Engine V D => s.conn = engine.conn ∧ ∃ extra, s.sends = engine.sends++extra ∧
    ∀ call ∈ extra, call.conn = engine.conn ∧ ∃ sent ∈ calls, call.wire = sent.1) ?_ ⟨rfl,[],(List.append_nil _).symm,fun _ none => (by cases none)⟩ |>.2
  rintro s call member ⟨conn,extra,same,each⟩
  unfold sendCall
  split
  · exact ⟨conn,extra,same,each⟩
  · refine ⟨conn,extra++[⟨s.conn,call.1⟩],?_,fun sent inside => ?_⟩
    · show s.sends++[⟨s.conn,call.1⟩] = _
      rw [same,List.append_assoc]
    · rcases List.mem_append.mp inside with old | new
      · exact each sent old
      · rw [List.mem_singleton.mp new]
        exact ⟨conn,call,member,rfl⟩

-- The app's own turn mints first, and sends once the graph has run.
theorem Ready.advance {pending : List (Mutation D)} (ready : Ready engine m mid) (lines : m.Lines engine pending)
    (filed : engine.core.Filed) (lined : engine.Lined) (made : engine.submittedIn = .ok m) : Advance engine mid m.wires [] := by
  obtain ⟨fresh,rows⟩ := submittedIn_wires filed lined made
  refine ⟨?_,le_of_eq ready.conn.symm,lines.order,?_,fresh,fun o x row => rows o x (ready.rows o x row),by rw [ready.sends,List.append_nil],
    fun _ none => (by cases none)⟩
  · rw [ready.stamp]
    exact lines.later
  · rw [ready.stamp]
    exact lines.below

theorem hand_advance {pending : List (Mutation D)} (turn : engine.turn = .submitted) (calls : engine.callsOf = m.done++[(m.wire,none)])
    (ready : Ready engine m mid) (lines : m.Lines engine pending) (filed : engine.core.Filed) (lined : engine.Lined)
    (made : engine.submittedIn = .ok m) : ∃ extra, Advance engine (engine.hand mid) m.wires extra := by
  have middle := ready.advance lines filed lined made
  unfold hand
  rw [turn]
  dsimp only
  split
  · rw [calls]
    have sent := sends_sent (m.done++[(m.wire,none)]) mid
    obtain ⟨extra,sends,each⟩ := sends_calls (m.done++[(m.wire,none)]) mid
    refine ⟨extra,?_,le_of_eq (sent.conn.trans ready.conn).symm,middle.order,?_,middle.fresh,fun o x row => middle.rows o x (sent.rows ▸ row),?_,fun call member => ?_⟩
    · rw [sent.stamp]
      exact middle.later
    · rw [sent.stamp]
      exact middle.below
    · rw [sends,ready.sends]
    · obtain ⟨here,own,inside,wire⟩ := each call member
      refine ⟨here.trans ready.conn,sent.conn.trans ready.conn,fun x there => ?_⟩
      rw [← wires_calls]
      rw [wire] at there
      exact List.mem_flatMap.mpr ⟨own,inside,there⟩
  · exact ⟨[],middle.done (rejectAll_calm _ _ _).silent⟩

end Engine

namespace Journal
open Engine
variable {P : WireEdit V → Prop} {filed entered : List Nat} {answers : List (Nat × MutationResult)} {nextId : Nat} {engine : Engine V D}

-- A start over a store sends nothing, and lands at most what the store has parked.
theorem Outboxed.starts {core : Core V D} (held : Outboxed filed answers entered nextId core) (wants : List Name)
    (predictor : Option (Predictor V D)) (series nextEntry : Nat) (weather : Weather) :
    Silent {core:=Core.load core.store nextEntry,predictor,series,nextId} (Engine.start wants predictor core.store series nextId nextEntry weather) ∧
      Leaves {core:=Core.load core.store nextEntry,predictor,series,nextId}
        (Engine.start wants predictor core.store series nextId nextEntry weather) := by
  have loaded := loads_outboxed held nextEntry
  unfold Engine.start
  dsimp only
  cases ran : (Core.load core.store nextEntry : Core V D).purgeIn wants with
  | error failure => exact ⟨fail_silent failure _,fail_leaves failure _⟩
  | ok purged =>
    have moves := (Core.purgeIn_enters ran loaded.ledger).2
    have first : Silent {core:=Core.load core.store nextEntry,predictor,series,nextId} {core:=purged,predictor,series,nextId} := by
      refine ⟨rfl,rfl,le_rfl,fun o m row => ?_⟩
      rw [moves.rows] at row
      exact (Option.filter_eq_some_iff.mp row).1
    have left : Leaves {core:=Core.load core.store nextEntry,predictor,series,nextId} {core:=purged,predictor,series,nextId} :=
      ⟨fun _ => id,fun _ => id,fun _ => id,Core.purgeIn_fewer ran⟩
    have calm := refresh_calm weather true {core:=purged,predictor,series,nextId}
    have leaves := refresh_leaves weather true {core:=purged,predictor,series,nextId}
    show Silent _ (Engine.caught (Engine.refresh weather true {core:=purged,predictor,series,nextId})) ∧
      Leaves _ (Engine.caught (Engine.refresh weather true {core:=purged,predictor,series,nextId}))
    cases made : Engine.refresh weather true {core:=purged,predictor,series,nextId} with
    | error thrown =>
      obtain ⟨failure,after⟩ := thrown
      rw [made] at calm leaves
      exact ⟨(first.trans (Calm.silent calm)).trans (fail_silent failure after),(left.trans leaves).trans (fail_leaves failure after)⟩
    | ok after =>
      rw [made] at calm leaves
      exact ⟨first.trans (Calm.silent calm),left.trans leaves⟩

theorem Outboxed.pass_advances (weather : Weather) (held : Outboxed filed answers entered nextId engine.core) (sending : Sending engine) :
    (∃ wires extra, Advance engine (engine.pass weather) wires extra) ∧ Bears P engine (engine.pass weather) := by
  cases taken : engine.takes with
  | none =>
    unfold Engine.takes at taken
    unfold Engine.pass
    split
    · exact ⟨⟨[],[],(Calm.refl engine).silent.advance⟩,(Leaves.refl engine).bears⟩
    · rename_i going
      split
      · have stopped : Silent engine {engine.shutdown with ended:=true} :=
          Silent.trans (Silent.trans (b := {engine with
            retryTimer:=false
            abortedConns:=engine.abortedConns++[engine.conn]
            connection:=false
            core:={engine.core with starts:=[]}
            backfillWork:=[]}) (silent_same rfl rfl le_rfl rfl) (rejectOnline_calm _ _).silent) (silent_same rfl rfl le_rfl rfl)
        have left : Leaves engine {engine.shutdown with ended:=true} := (shutdown_leaves engine).trans (leaves_same rfl rfl rfl rfl)
        exact ⟨⟨[],[],stopped.advance⟩,left.bears⟩
      · rename_i free
        rw [if_neg (by simp [going,free])] at taken
        cases taken
  | some turn =>
    have began := startCalls_calm engine
    have left := startCalls_leaves engine
    have started := held.quiet (startCalls_rests engine)
    have lined := began.lined sending.lined
    rw [(pass_takes weather taken).1,handle_parts]
    suffices last : ∀ start : Engine V D, Calm engine start → Leaves engine start → start.Lined →
        Outboxed filed answers entered nextId start.core → ∀ after,
        after = caught (start.prepare >>= fun mid => if start.shows then (mid.refresh weather false).map start.hand else .ok mid) →
        (∃ wires extra, Advance start after wires extra) ∧ Bears P start after by
      obtain ⟨⟨wires,extra,advance⟩,bears⟩ := last _ began left lined started _ rfl
      exact ⟨⟨wires,extra,advance.begun began⟩,left.bears.trans bears⟩
    rintro start - - lined started after rfl
    by_cases submits : start.turn = .submitted
    · cases ran : start.prepare with
      | error thrown =>
        obtain ⟨failure,after⟩ := thrown
        unfold Engine.prepare at ran
        rw [submits] at ran
        dsimp only at ran
        cases made : start.submittedIn with
        | error reason =>
          rw [made] at ran
          cases ran
          have taken : Silent start {start with
              submitted:=[]
              resend:=false} := silent_same rfl rfl le_rfl rfl
          have first : Leaves start {start with
              submitted:=[]
              resend:=false} := leaves_same rfl rfl rfl rfl
          exact ⟨⟨[],[],((taken.trans (rejectAll_calm _ _ _).silent).trans (fail_silent _ _)).advance⟩,
            ((first.trans (rejectAll_leaves _ _ _)).trans (fail_leaves _ _)).bears⟩
        | ok m =>
          rw [made] at ran
          cases ran
      | ok mid =>
        obtain ⟨m,made,calls,ready⟩ := prepare_ready submits ran
        obtain ⟨pending,lines,_⟩ := submittedIn_lines started.ledger.toFiled lined made
        have first := prepare_leaves submits ran
        have shows : start.shows = true := by
          unfold Engine.shows
          rw [submits]
        have calm := refresh_calm weather false mid
        have leaves := refresh_leaves weather false mid
        simp only [bind,Except.bind,shows,if_true]
        cases done : mid.refresh weather false with
        | error thrown =>
          obtain ⟨failure,after⟩ := thrown
          rw [done] at calm leaves
          have advance := (ready.calm calm).advance lines started.ledger.toFiled lined made
          exact ⟨⟨m.wires,[],advance.done (fail_silent failure after)⟩,((first.trans leaves).trans (fail_leaves failure after)).bears⟩
        | ok after =>
          rw [done] at calm leaves
          obtain ⟨extra,advance⟩ := hand_advance submits calls (ready.calm calm) lines started.ledger.toFiled lined made
          exact ⟨⟨m.wires,extra,advance⟩,((first.trans leaves).trans (hand_leaves start after)).bears⟩
    · have both := @Outboxed.bears V D P _ _ _ _ start started submits
      cases ran : start.prepare with
      | error thrown =>
        obtain ⟨failure,after⟩ := thrown
        rw [ran] at both
        exact ⟨⟨[],[],(both.1.trans (fail_silent failure after)).advance⟩,both.2.trans (fail_leaves failure after).bears⟩
      | ok mid =>
        rw [ran] at both
        obtain ⟨silent,bears⟩ := both
        simp only [bind,Except.bind]
        split
        · have calm := refresh_calm weather false mid
          have leaves := refresh_leaves weather false mid
          cases done : mid.refresh weather false with
          | error thrown =>
            obtain ⟨failure,after⟩ := thrown
            rw [done] at calm leaves
            exact ⟨⟨[],[],((silent.trans (Calm.silent calm)).trans (fail_silent failure after)).advance⟩,
              (bears.trans (Leaves.bears leaves)).trans (fail_leaves failure after).bears⟩
          | ok after =>
            rw [done] at calm leaves
            show (∃ wires extra, Advance start (start.hand after) wires extra) ∧ Bears P start (start.hand after)
            rw [hand_other submits]
            exact ⟨⟨[],[],(silent.trans (Calm.silent calm)).advance⟩,bears.trans (Leaves.bears leaves)⟩
        · exact ⟨⟨[],[],silent.advance⟩,bears⟩

end Journal

namespace Engine
variable {P : WireEdit V → Prop} {engine : Engine V D}

-- The edits an event brings to the Engine.
def Event.carried : Event V D → List (WireEdit V)
  | .hook _ item => item.carried
  | .push _ item => item.carried
  | _ => []

-- Outside a pass only an event's own edits and answers come in.
theorem react_carries {event : Event V D} (other : ∀ weather, event ≠ .pass weather) (held : engine.Carries P)
    (all : ∀ e ∈ event.carried, P e) : (engine.react event).Carries P := by
  cases event with
  | pass weather => exact absurd rfl (other weather)
  | hook conn item =>
    unfold react
    dsimp only
    split
    · exact held
    · refine ⟨fun x member => ?_,held.pushes,held.parked⟩
      rcases List.mem_append.mp member with old | new
      · exact held.inbox x old
      · rw [List.mem_singleton.mp new]
        exact all
  | push call item =>
    unfold react
    dsimp only
    split
    · exact held
    · refine ⟨held.inbox,fun x member => ?_,held.parked⟩
      rcases List.mem_append.mp member with old | new
      · exact held.pushes x old
      · rw [List.mem_singleton.mp new]
        exact all
  | backoff timer =>
    unfold react
    dsimp only
    split
    · exact ⟨held.inbox,held.pushes,held.parked⟩
    · exact ⟨held.inbox,held.pushes,(Core.onRetryTimer_fewer engine.core timer).parked held.parked⟩
  | sendOnlineMutation data promise =>
    unfold react
    dsimp only
    split
    · exact (settle_leaves engine promise _).carries held
    · exact ⟨held.inbox,held.pushes,held.parked⟩
  | outcome | results | retry | sendMutation | newQuery | reconnectNow | abort => exact ⟨held.inbox,held.pushes,held.parked⟩

theorem react_told {event : Event V D} (other : ∀ weather, event ≠ .pass weather) :
    ∀ outcome ∈ (engine.react event).mutationOutcomes, outcome ∈ engine.mutationOutcomes ∨ event = .results outcome := by
  intro outcome member
  cases event with
  | pass weather => exact absurd rfl (other weather)
  | results told =>
    rcases List.mem_append.mp member with old | new
    · exact .inl old
    · exact .inr (by rw [List.mem_singleton.mp new])
  | hook | push | backoff =>
    refine .inl ?_
    unfold react at member
    dsimp only at member
    split at member <;> exact member
  | sendOnlineMutation data promise =>
    unfold react at member
    dsimp only at member
    split at member
    · exact .inl ((settle_leaves engine promise _).told member)
    · exact .inl member
  | outcome | retry | sendMutation | newQuery | reconnectNow | abort => exact .inl member

end Engine
end PhaseLock
