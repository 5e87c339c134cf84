import PhaseLock.World
import PhaseLock.StartSteps

namespace PhaseLock
variable {V D : Type} {db : Database V}

-- What leaves the sync's state as it is: the outbox, the calls and the promises may
-- change, and what the Engine runs of its own.
structure Core.Alike (core after : Core V D) : Prop where
  replica : after.replica = core.replica
  mirrors : core.Mirrors → after.Mirrors

namespace Core

theorem Beside.alike {core after : Core V D} (beside : core.Beside after) : core.Alike after := ⟨beside.replica,beside.mirrors⟩

theorem Alike.refl (core : Core V D) : core.Alike core := ⟨rfl,id⟩

theorem Alike.trans {a b c : Core V D} (first : a.Alike b) (second : b.Alike c) : a.Alike c :=
  ⟨second.replica.trans first.replica,fun mirrors => second.mirrors (first.mirrors mirrors)⟩

theorem Alike.cursor {core after : Core V D} (alike : core.Alike after) : after.cursor = core.cursor := by
  show after.replica.cursor = core.replica.cursor
  rw [alike.replica]

theorem Alike.synced {core after : Core V D} {s : Stream} (alike : core.Alike after) (synced : core.Synced db s) :
    after.Synced db s := (synced.same (alike.mirrors synced.mirrors) alike.replica).1

theorem alike_starts (core : Core V D) (starts : List (Name × Nat)) : core.Alike {core with starts} := ⟨rfl,fun mirrors => {mirrors with}⟩

theorem alike_outgoing (core : Core V D) (outgoing : Outgoing) : core.Alike {core with outgoing} :=
  Beside.alike ⟨core.store.mutations,outgoing,core.dirty,rfl⟩

end Core

namespace Engine

-- The sync's state, the inbox and the connection stay.
structure Keeps (engine after : Engine V D) : Prop where
  core : engine.core.Alike after.core
  inbox : after.inbox = engine.inbox
  conn : after.conn = engine.conn

theorem Keeps.refl (engine : Engine V D) : engine.Keeps engine := ⟨.refl _,rfl,rfl⟩

theorem Keeps.trans {a b c : Engine V D} (first : a.Keeps b) (second : b.Keeps c) : a.Keeps c :=
  ⟨first.core.trans second.core,second.inbox.trans first.inbox,second.conn.trans first.conn⟩

theorem keeps_settle (engine : Engine V D) (promise : Nat) (settlement : Settlement) :
    engine.Keeps (engine.settle promise settlement) := by
  unfold settle
  split
  · exact .refl _
  · exact ⟨.refl _,rfl,rfl⟩

theorem keeps_rejectAll (engine : Engine V D) (promises : List Nat) (reason : Failure) :
    engine.Keeps (engine.rejectAll promises reason) :=
  foldl_invariant (fun s promise _ kept => Keeps.trans kept (keeps_settle s promise _)) (.refl engine)

theorem keeps_out (engine : Engine V D) (outgoing : Outgoing) : engine.Keeps (engine.out outgoing) :=
  ⟨Core.alike_outgoing _ _,rfl,rfl⟩

theorem keeps_rejectOnline (engine : Engine V D) (reason : Failure) : engine.Keeps (engine.rejectOnline reason) := by
  unfold rejectOnline
  dsimp only
  exact ((keeps_rejectAll engine _ reason).trans (keeps_rejectAll _ _ reason)).trans (keeps_out _ _)

theorem keeps_shutdown (engine : Engine V D) : engine.Keeps engine.shutdown := by
  refine Keeps.trans ?_ (keeps_rejectOnline _ _)
  exact ⟨Core.alike_starts _ _,rfl,rfl⟩

theorem keeps_fail (failure : Failure) (engine : Engine V D) : engine.Keeps (engine.fail failure) := by
  refine Keeps.trans (Keeps.trans ?_ (keeps_rejectOnline _ failure)) (keeps_shutdown _)
  exact ⟨.refl _,rfl,rfl⟩

-- Where a step ends, whether it threw or not.
def Ends (P : Engine V D → Prop) : Except (Thrown V D) (Engine V D) → Prop
  | .ok engine => P engine
  | .error (_,engine) => P engine

theorem Ends.imp {P Q : Engine V D → Prop} {ran : Except (Thrown V D) (Engine V D)} (ends : Ends P ran)
    (implied : ∀ engine, P engine → Q engine) : Ends Q ran := by
  cases ran with
  | ok engine => exact implied _ ends
  | error thrown => exact implied _ ends

theorem Ends.bind {P Q : Engine V D → Prop} {ran : Except (Thrown V D) (Engine V D)}
    {then_ : Engine V D → Except (Thrown V D) (Engine V D)} (ends : Ends P ran) (first : ∀ engine, P engine → Q engine)
    (second : ∀ engine, P engine → Ends Q (then_ engine)) : Ends Q (ran >>= then_) := by
  cases ran with
  | ok engine => exact second _ ends
  | error thrown => exact first _ ends

theorem caught_keeps {engine : Engine V D} {ran : Except (Thrown V D) (Engine V D)} (ends : Ends engine.Keeps ran) :
    engine.Keeps (caught ran) := by
  cases ran with
  | ok after => exact ends
  | error thrown => exact Keeps.trans ends (keeps_fail _ _)

theorem runGraph_keeps (weather : Weather) (engine : Engine V D) : Ends engine.Keeps (engine.runGraph weather) := by
  unfold runGraph
  dsimp only
  split <;> exact ⟨.refl _,rfl,rfl⟩

theorem rebuildOverlay_keeps (weather : Weather) (engine : Engine V D) : Ends engine.Keeps (engine.rebuildOverlay weather) := by
  refine (runGraph_keeps weather _).imp fun after kept => Keeps.trans ?_ kept
  exact ⟨.refl _,rfl,rfl⟩

theorem keeps_settleOnline (engine : Engine V D) : engine.Keeps engine.settleOnline := by
  unfold settleOnline
  split
  · exact .refl _
  · refine foldl_invariant (fun s row _ kept => Keeps.trans kept ?_) (.refl engine)
    unfold settleOne
    split
    · exact .refl _
    · exact (keeps_out _ _).trans (keeps_settle _ _ _)

theorem refresh_keeps (weather : Weather) (always : Bool) (engine : Engine V D) :
    Ends engine.Keeps (engine.refresh weather always) := by
  unfold refresh
  dsimp only
  have cleared : engine.Keeps {engine with core:={engine.core with
      dirty:=[]
      outgoing:={engine.core.outgoing with outboxChanged:=false}}} :=
    ⟨Core.Beside.alike ⟨engine.core.store.mutations,{engine.core.outgoing with outboxChanged:=false},[],rfl⟩,rfl,rfl⟩
  have done : ∀ {ran : Except (Thrown V D) (Engine V D)}, Ends engine.Keeps ran →
      Ends engine.Keeps (ran >>= fun engine => .ok engine.settleOnline) := by
    intro ran ends
    exact ends.bind (fun _ => id) fun after kept => kept.trans (keeps_settleOnline after)
  split
  · exact done ((rebuildOverlay_keeps weather _).imp fun _ kept => cleared.trans kept)
  · split
    · exact done ((runGraph_keeps weather _).imp fun _ kept => cleared.trans kept)
    · exact cleared.trans (keeps_settleOnline _)

theorem keeps_startCalls (engine : Engine V D) : engine.Keeps engine.startCalls := by
  unfold startCalls
  refine foldl_invariant (fun s start _ kept => Keeps.trans kept ?_) ⟨Core.alike_starts _ _,rfl,rfl⟩
  unfold startCall
  split
  · exact .refl _
  · split
    · exact ⟨.refl _,rfl,rfl⟩
    · exact .refl _

theorem mintIn_beside {series : Nat} {m after : Minting V D} {submission : Submission D}
    (minted : mintIn series m submission = .ok after) : m.core.Beside after.core := by
  unfold mintIn at minted
  split at minted
  · cases minted
  · cases minted
  · cases minted; exact .refl _
  · cases minted; exact ⟨_,_,m.core.dirty,rfl⟩

theorem submittedIn_beside {engine : Engine V D} {m : Minting V D} (minted : engine.submittedIn = .ok m) :
    engine.core.Beside m.core := by
  unfold submittedIn at minted
  have folds : ∀ wire, engine.submitted.foldlM (mintIn engine.series)
      {core:=engine.core,nextN:=engine.nextN,nextId:=engine.nextId,wire} = .ok m → engine.core.Beside m.core :=
    fun wire ran => foldlM_invariant (P := fun m : Minting V D => engine.core.Beside m.core)
      (fun _ _ _ _ beside stepped => Core.Beside.trans beside (mintIn_beside stepped)) (Core.Beside.refl _) ran
  split at minted
  · obtain ⟨wire,_,minted⟩ := bind_ok.mp minted
    exact folds wire minted
  · exact folds [] minted

theorem keeps_sendCall (engine : Engine V D) (call : List (Mutation D) × Option (Nat × OnlineMutation)) :
    engine.Keeps (engine.sendCall call) := by
  unfold sendCall
  split
  · exact .refl _
  · exact (keeps_out engine _).trans ⟨.refl _,rfl,rfl⟩

theorem onSubmitted_keeps (weather : Weather) (engine : Engine V D) : Ends engine.Keeps (engine.onSubmitted weather) := by
  unfold onSubmitted
  dsimp only
  have taken : engine.Keeps {engine with submitted:=[],resend:=false} := ⟨.refl _,rfl,rfl⟩
  cases minted : engine.submittedIn with
  | error failure => exact taken.trans (keeps_rejectAll _ _ _)
  | ok m =>
    have beside := (submittedIn_beside minted).alike
    refine Ends.bind ((refresh_keeps weather false _).imp fun after kept => Keeps.trans ?_ kept) (fun _ => id) fun after kept => ?_
    · exact ⟨beside.trans (Core.alike_outgoing _ _),rfl,rfl⟩
    · split
      · exact foldl_invariant (fun s call _ kept => Keeps.trans kept (keeps_sendCall s call)) kept
      · exact kept.trans (keeps_rejectAll _ _ _)

theorem keeps_answer (state : Engine V D × List Nat) (row : Nat × MutationResult) : state.1.Keeps (answer state row).1 := by
  unfold answer
  dsimp only
  split
  · split
    · exact keeps_out _ _
    · exact (keeps_out _ _).trans (keeps_settle _ _ _)
  · split
    · split
      · exact keeps_out _ _
      · exact .refl _
    · exact .refl _

theorem keeps_failOne (engine : Engine V D) (id : Nat) : engine.Keeps (engine.failOne id) := by
  unfold failOne
  split
  · exact .refl _
  · exact (keeps_out _ _).trans (keeps_settle _ _ _)

theorem keeps_onOutcome (state : Engine V D × List Nat) (outcome : MutationOutcome) :
    state.1.Keeps (onOutcome state outcome).1 := by
  unfold onOutcome
  split
  · have failed : state.1.Keeps (outcome.ids.foldl failOne state.1) :=
      foldl_invariant (fun s id _ kept => Keeps.trans kept (keeps_failOne s id)) (.refl state.1)
    exact failed.trans ⟨.refl _,rfl,rfl⟩
  · exact foldl_invariant (P := fun at_ : Engine V D × List Nat => state.1.Keeps at_.1)
      (fun s row _ kept => Keeps.trans kept (keeps_answer s row)) (.refl state.1)

theorem onMutationOutcomes_keeps (weather : Weather) (engine : Engine V D) :
    Ends engine.Keeps (engine.onMutationOutcomes weather) := by
  unfold onMutationOutcomes
  have answered : engine.Keeps (engine.mutationOutcomes.foldl onOutcome ({engine with mutationOutcomes:=[]},[])).1 :=
    foldl_invariant (P := fun at_ : Engine V D × List Nat => engine.Keeps at_.1)
      (fun s outcome _ kept => Keeps.trans kept (keeps_onOutcome s outcome)) ⟨.refl _,rfl,rfl⟩
  generalize engine.mutationOutcomes.foldl onOutcome ({engine with mutationOutcomes:=[]},[]) = answers at answered ⊢
  obtain ⟨after,drop⟩ := answers
  refine (refresh_keeps weather false _).imp fun final kept => Keeps.trans (answered.trans ?_) kept
  exact ⟨(Core.beside_releaseIn after.core drop).alike,rfl,rfl⟩

theorem startCalls_only (engine : Engine V D) : ∃ calls, engine.startCalls = {engine with
    core:={engine.core with starts:=[]}
    calls} := by
  unfold startCalls
  refine foldl_invariant (P := fun s : Engine V D => ∃ calls, s = {engine with
    core:={engine.core with starts:=[]}
    calls}) ?_ ⟨engine.calls,rfl⟩
  rintro s start _ ⟨calls,rfl⟩
  unfold startCall
  split
  · exact ⟨calls,rfl⟩
  · split
    · exact ⟨_,rfl⟩
    · exact ⟨calls,rfl⟩

theorem startCalls_turn (engine : Engine V D) : engine.startCalls.turn = engine.turn := by
  obtain ⟨calls,same⟩ := startCalls_only engine
  rw [same]
  rfl

-- A pass that takes up a turn.
theorem pass_takes {engine : Engine V D} {turn : Turn} (weather : Weather) (taken : engine.takes = some turn) :
    engine.pass weather = caught (engine.startCalls.handle weather) ∧ engine.startCalls.turn = turn := by
  unfold takes at taken
  split at taken
  · cases taken
  · rename_i running
    rw [not_or] at running
    obtain ⟨going,free⟩ := running
    refine ⟨?_,(startCalls_turn engine).trans (Option.some.inj taken)⟩
    unfold pass
    rw [if_neg going,if_neg free]

end Engine

namespace World

-- The Engine accounts for what it has heard of the stream, which the inbox carries on
-- to where it has been delivered.
structure Sound (db : Database V) (w : World V D) : Prop where
  synced : w.engine.core.Synced db w.heard
  carried : w.heard.Carries db w.wants w.engine.inbox w.stream
  types : ∀ want ∈ w.wants, SliceType want
  vouched : w.vouched ≤ w.engine.core.cursor

-- What no step of the sync may do, for its accounting to hold: a view frame or a start
-- that ends a freeze finds no edit parked past the cursor, and a token is taken as
-- current only while the stored view is the one it names.
def Cleanly (w : World V D) : Step V D → Prop
  | .engine (.pass _) current => w.engine.startCalls.core.Along Core.Cleanly w.reads ∧
      (w.engine.takes = some .connect → ∀ selectors ∈ current, selectors = w.engine.core.selectors)
  | .restart wants _ => (Core.load w.engine.core.store w.engine.core.nextEntry : Core V D).PurgesCleanly wants
  | _ => True

theorem closed_synced {core : Core V D} (mirrors : core.Mirrors) (inv : core.replica.Invariant db sent) :
    core.Synced db (closedStream core) :=
  ⟨mirrors,inv.shrink le_rfl inv.1.cursor_le,rfl⟩

theorem close_synced {core : Core V D} {s : Stream} (synced : core.Synced db s) : core.Synced db (s.close core.cursor) :=
  ⟨synced.mirrors,synced.invariant.shrink le_rfl synced.invariant.1.cursor_le,synced.view⟩

theorem reopen_synced {core : Core V D} {s : Stream} {current : Option (List Name)} (synced : core.Synced db s)
    (named : ∀ selectors ∈ current, selectors = core.selectors) : core.Synced db (s.reopen core.cursor current) := by
  refine ⟨synced.mirrors,synced.invariant.shrink le_rfl synced.invariant.1.cursor_le,?_⟩
  show current.getD s.selectors = core.selectors
  cases current with
  | none => exact synced.view
  | some selectors => exact named selectors rfl

variable {w : World V D}

theorem Sound.keeps {after : Engine V D} (sound : w.Sound db) (kept : w.engine.Keeps after) :
    Sound db {w with engine:=after} ∧ after.core.cursor = w.engine.core.cursor := by
  obtain ⟨synced,carried,types,vouched⟩ := sound
  refine ⟨⟨kept.core.synced synced,?_,types,?_⟩,kept.core.cursor⟩
  · rw [kept.inbox]; exact carried
  · rw [kept.core.cursor]; exact vouched

-- Pushes that continue their downloads, and the land after them.
theorem pushes_synced {core after : Core V D} {s : Stream} {pushes : List (BackfillWork V)} (synced : core.Synced db s)
    (legal : db.PushesAll core pushes)
    (ran : pushes.foldlM (fun core work => core.parkPushIn work.call.selector work.item) core = .ok after) :
    after.Synced db s ∧ after.cursor = core.cursor := by
  induction pushes generalizing core with
  | nil => cases ran; exact ⟨synced,rfl⟩
  | cons work rest ih =>
    obtain ⟨next,one,ran⟩ := foldlM_ok.mp ran
    obtain ⟨pushed,legal⟩ := legal
    rw [one] at legal
    cases held : core.backfills.get work.call.selector with
    | none =>
      unfold Core.parkPushIn at one
      rw [held] at one
      cases one
    | some entry =>
      obtain ⟨synced',same⟩ := Core.parkPushIn_synced synced held (pushed entry held) one
      obtain ⟨final,same'⟩ := ih synced' legal ran
      exact ⟨final,same'.trans same⟩

theorem onPushesIn_synced {core after : Core V D} {s : Stream} {pushes : List (BackfillWork V)} (synced : core.Synced db s)
    (legal : db.PushesAll core pushes) (ran : core.onPushesIn pushes = .ok after) : after.Synced db s ∧ after.cursor = core.cursor := by
  obtain ⟨middle,parked,ran⟩ := bind_ok.mp ran
  obtain ⟨synced',cursor⟩ := pushes_synced synced legal parked
  obtain ⟨landed,stood⟩ := Core.tryLandIn_synced synced' ran
  exact ⟨landed,stood.trans cursor⟩

-- A turn that only the sync's state survives of: the Engine as a step of it has ended.
theorem Sound.moves {core : Core V D} {after : Engine V D} (sound : w.Sound db) (synced : core.Synced db w.heard)
    (cursor : core.cursor = w.engine.core.cursor) (alike : core.Alike after.core) (inbox : after.inbox = w.engine.inbox) :
    Sound db {w with engine:=after} ∧ after.core.cursor = w.engine.core.cursor := by
  have same := alike.cursor.trans cursor
  refine ⟨⟨alike.synced synced,?_,sound.types,?_⟩,same⟩
  · rw [inbox]; exact sound.carried
  · rw [same]; exact sound.vouched

theorem pushes_sound (sound : w.Sound db) (weather : Weather) (legal : db.PushesAll w.engine.startCalls.core
      (w.engine.backfillWork.filter (w.engine.startCalls.core.accepts w.engine.conn))) :
    Sound db {w with engine:=Engine.caught (w.engine.startCalls.onBackfillWork weather)} ∧
      (Engine.caught (w.engine.startCalls.onBackfillWork weather)).core.cursor = w.engine.core.cursor := by
  obtain ⟨calls,started⟩ := Engine.startCalls_only w.engine
  have synced : w.engine.startCalls.core.Synced db w.heard := (Engine.keeps_startCalls w.engine).core.synced sound.synced
  have cursor := (Engine.keeps_startCalls w.engine).core.cursor
  have inbox : w.engine.startCalls.inbox = w.engine.inbox := by rw [started]
  have work : w.engine.startCalls.backfillWork = w.engine.backfillWork := by rw [started]
  have conn : w.engine.startCalls.conn = w.engine.conn := by rw [started]
  generalize w.engine.startCalls = engine at synced cursor inbox work conn legal ⊢
  rw [← work,← conn] at legal
  unfold Engine.onBackfillWork
  dsimp only
  by_cases none : engine.backfillWork.filter (engine.core.accepts engine.conn) = []
  · rw [if_pos none]
    exact sound.moves synced cursor (.refl _) inbox
  · rw [if_neg none]
    cases ran : engine.core.onPushesIn (engine.backfillWork.filter (engine.core.accepts engine.conn)) with
    | error failure =>
      have kept := Engine.keeps_fail failure ({engine with backfillWork:=[]} : Engine V D)
      exact sound.moves synced cursor kept.core (kept.inbox.trans inbox)
    | ok core =>
      obtain ⟨synced',same⟩ := onPushesIn_synced synced legal ran
      have kept := Engine.caught_keeps (Engine.refresh_keeps weather false ({engine with
        backfillWork:=[]
        core
        resolvedPushes:=engine.resolvedPushes++engine.backfillWork.filter (engine.core.accepts engine.conn)} : Engine V D))
      exact sound.moves synced' (same.trans cursor) kept.core (kept.inbox.trans inbox)

theorem outcomes_sound (sound : w.Sound db) :
    Sound db {w with engine:=w.engine.startCalls.onBackfillOutcomes} ∧
      w.engine.startCalls.onBackfillOutcomes.core.cursor = w.engine.core.cursor := by
  obtain ⟨calls,started⟩ := Engine.startCalls_only w.engine
  have synced : w.engine.startCalls.core.Synced db w.heard := (Engine.keeps_startCalls w.engine).core.synced sound.synced
  have cursor := (Engine.keeps_startCalls w.engine).core.cursor
  have inbox : w.engine.startCalls.inbox = w.engine.inbox := by rw [started]
  generalize w.engine.startCalls = engine at synced cursor inbox ⊢
  obtain ⟨synced',same⟩ := Core.onOutcomesIn_synced synced engine.conn engine.backfillOutcomes
  exact sound.moves synced' (same.trans cursor) (.refl _) inbox

-- A new connection's downloads start again, and its stream starts at the cursor.
theorem connect_sound (current : Option (List Name)) (sound : w.Sound db) (empty : w.engine.inbox = [])
    (named : ∀ selectors ∈ current, selectors = w.engine.core.selectors) :
    Sound db {w with
      engine:=w.engine.startCalls.onConnect
      stream:=w.heard.reopen w.engine.startCalls.onConnect.core.cursor current
      heard:=w.heard.reopen w.engine.startCalls.onConnect.core.cursor current} ∧
      w.engine.startCalls.onConnect.core.cursor = w.engine.core.cursor := by
  obtain ⟨calls,started⟩ := Engine.startCalls_only w.engine
  have kept := Engine.keeps_startCalls w.engine
  have synced : w.engine.startCalls.core.Synced db w.heard := kept.core.synced sound.synced
  have selectors : w.engine.startCalls.core.selectors = w.engine.core.selectors := by rw [started]; rfl
  have inbox : w.engine.startCalls.inbox = [] := kept.inbox.trans empty
  have restarts : ∀ names : List Name, ∀ {core : Core V D}, core.Synced db w.heard →
      (names.foldl Core.startBackfill core).Synced db w.heard ∧ (names.foldl Core.startBackfill core).cursor = core.cursor ∧
        (names.foldl Core.startBackfill core).selectors = core.selectors := by
    intro names
    induction names with
    | nil => exact fun synced => ⟨synced,rfl,rfl⟩
    | cons name rest ih =>
      intro core synced
      obtain ⟨one,same⟩ := Core.startBackfill_synced synced name
      obtain ⟨all,same',views⟩ := ih one
      refine ⟨all,same'.trans same,views.trans ?_⟩
      unfold Core.startBackfill
      cases core.backfills.get name <;> rfl
  obtain ⟨synced',cursor,views⟩ := restarts _ synced
  have opened : w.engine.startCalls.onConnect.core.Synced db w.heard := {synced' with mirrors:={synced'.mirrors with}}
  refine ⟨⟨reopen_synced opened ?_,?_,sound.types,?_⟩,cursor.trans kept.core.cursor⟩
  · intro given current
    exact (named given current).trans (selectors.symm.trans views.symm)
  · show Stream.Carries db _ _ w.engine.startCalls.inbox _
    rw [inbox]
    rfl
  · show w.vouched ≤ (w.engine.startCalls.onConnect).core.cursor
    exact le_trans sound.vouched (le_of_eq (cursor.trans kept.core.cursor).symm)

-- The connection's end: nothing is left to hear.
theorem ended_sound (sound : w.Sound db) (fatal : Bool) (weather : Weather) {rest : List (Inbound V)}
    (first : w.engine.inbox = .ended fatal :: rest) :
    let engine := Engine.caught (w.engine.startCalls.onInbox weather)
    Sound db {w with engine,stream:=w.heard.close engine.core.cursor,heard:=w.heard.close engine.core.cursor} ∧
      engine.core.cursor = w.engine.core.cursor := by
  have kept := Engine.keeps_startCalls w.engine
  have synced : w.engine.startCalls.core.Synced db w.heard := kept.core.synced sound.synced
  have empty : rest = [] := by
    obtain ⟨_,tail⟩ : _ ∧ (w.heard.after (.ended fatal)).Carries db w.wants rest w.stream := by
      have carried := sound.carried
      rw [first] at carried
      exact carried
    cases rest with
    | nil => rfl
    | cons item more => exact absurd tail.1.1 (by simp [Stream.after])
  have inbox := kept.inbox.trans first
  have cursor := kept.core.cursor
  generalize w.engine.startCalls = engine at synced inbox cursor ⊢
  have ends : (Engine.caught (engine.onInbox weather)).inbox = rest ∧
      engine.core.Alike (Engine.caught (engine.onInbox weather)).core := by
    unfold Engine.onInbox
    rw [inbox]
    dsimp only
    split
    · have kept := Engine.keeps_fail .fatalEnd ({engine with inbox:=rest} : Engine V D)
      exact ⟨kept.inbox,kept.core⟩
    · exact ⟨rfl,rfl,fun mirrors => {mirrors with}⟩
  obtain ⟨left,alike⟩ := ends
  have moved := alike.synced synced
  have stands := alike.cursor.trans cursor
  generalize Engine.caught (engine.onInbox weather) = after at left alike moved stands ⊢
  refine ⟨⟨close_synced moved,?_,sound.types,?_⟩,stands⟩
  · show Stream.Carries db _ (w.heard.close after.core.cursor) after.inbox (w.heard.close after.core.cursor)
    rw [left,empty]
    rfl
  · show w.vouched ≤ after.core.cursor
    rw [stands]
    exact sound.vouched

-- The inbox's frames, which are read in one transaction or not at all.
theorem inbox_sound (sound : w.Sound db) (weather : Weather) (takes : w.engine.takes = some .inbox)
    (frames : w.engine.inbox.head?.any Engine.isEnd = false) (nonempty : w.engine.inbox ≠ [])
    (clean : w.engine.startCalls.core.Along Core.Cleanly w.reads) :
    match w.engine.startCalls.core.onItemsIn w.reads with
    | .error _ => Sound db {w with engine:=Engine.caught (w.engine.startCalls.onInbox weather)} ∧
        (Engine.caught (w.engine.startCalls.onInbox weather)).core.cursor = w.engine.core.cursor
    | .ok _ => Sound db {w with
          engine:=Engine.caught (w.engine.startCalls.onInbox weather)
          heard:=w.heard.reads w.reads
          named:=w.reads.foldl namedBy w.named
          vouched:=w.reads.foldl vouchedBy w.vouched} ∧
        w.engine.core.cursor ≤ (Engine.caught (w.engine.startCalls.onInbox weather)).core.cursor := by
  have kept := Engine.keeps_startCalls w.engine
  have synced : w.engine.startCalls.core.Synced db w.heard := kept.core.synced sound.synced
  have items : w.reads = w.engine.startCalls.inbox.takeWhile (!Engine.isEnd ·) := by
    unfold World.reads
    rw [if_pos takes,kept.inbox]
  have carried := sound.carried
  rw [← kept.inbox,← List.takeWhile_append_dropWhile (p := (!Engine.isEnd ·)) (l := w.engine.startCalls.inbox)] at carried
  rw [← items] at carried
  obtain ⟨front,back⟩ := carried.split
  have types := sound.types
  rw [← kept.inbox] at frames nonempty
  have cursor := kept.core.cursor
  have inbox := kept.inbox
  generalize w.engine.startCalls = engine at synced items front back types clean frames nonempty cursor inbox ⊢
  have handled : engine.onInbox weather = (engine.write (engine.core.onItemsIn w.reads) >>= fun after =>
      Engine.refresh weather false {after with inbox:=engine.inbox.dropWhile (!Engine.isEnd ·)}) := by
    unfold Engine.onInbox
    rw [items]
    cases waiting : engine.inbox with
    | nil => exact absurd waiting nonempty
    | cons item more =>
      rw [waiting] at frames
      cases item <;> first | rfl | cases frames
  rw [handled]
  cases ran : engine.core.onItemsIn w.reads with
  | error failure =>
    have kept := Engine.keeps_fail failure engine
    exact sound.moves synced cursor kept.core (kept.inbox.trans inbox)
  | ok core =>
    obtain ⟨synced',up⟩ := Core.onItemsIn_synced synced types front clean ran
    have kept := Engine.caught_keeps (Engine.refresh_keeps weather false ({engine with
      core
      inbox:=engine.inbox.dropWhile (!Engine.isEnd ·)} : Engine V D))
    have above : w.reads.foldl vouchedBy w.engine.core.cursor ≤ core.cursor := by rw [← cursor]; exact up
    have written : (engine.write (.ok core) >>= fun after =>
        Engine.refresh weather false {after with inbox:=engine.inbox.dropWhile (!Engine.isEnd ·)}) =
      Engine.refresh weather false {engine with
        core
        inbox:=engine.inbox.dropWhile (!Engine.isEnd ·)} := rfl
    rw [written]
    obtain ⟨alike,left,_⟩ := kept
    generalize Engine.caught (Engine.refresh weather false ({engine with
      core
      inbox:=engine.inbox.dropWhile (!Engine.isEnd ·)} : Engine V D)) = after at alike left ⊢
    have reached := alike.cursor
    refine ⟨⟨alike.synced synced',?_,sound.types,?_⟩,?_⟩
    · show Stream.Carries db w.wants (w.heard.reads w.reads) after.inbox w.stream
      rw [left]
      exact back
    · show w.reads.foldl vouchedBy w.vouched ≤ after.core.cursor
      rw [reached]
      exact le_trans (vouchedBys_mono w.reads sound.vouched) above
    · rw [reached]
      exact le_trans (le_vouchedBys w.reads _) above

-- A crash, and a start of a build over the store.
theorem restart_sound (sound : w.Sound db) {wants : List Name} (weather : Weather) (types : ∀ want ∈ wants, SliceType want)
    (clean : (Core.load w.engine.core.store w.engine.core.nextEntry : Core V D).PurgesCleanly wants) :
    Sound db (w.next (.restart wants weather)) ∧ (w.next (.restart wants weather)).engine.core.cursor = w.engine.core.cursor := by
  have mirrors := Core.load_mirrors sound.synced.mirrors w.engine.core.nextEntry
  have replica := Core.load_replica sound.synced.mirrors w.engine.core.nextEntry
  have inv := sound.synced.invariant.reload
  rw [← replica] at inv
  have cursor : (Core.load w.engine.core.store w.engine.core.nextEntry : Core V D).cursor = w.engine.core.cursor := by
    show (Core.load w.engine.core.store w.engine.core.nextEntry : Core V D).replica.cursor = w.engine.core.replica.cursor
    rw [replica]
  -- whether the start's transaction commits or not, the Engine stands accounted for
  have ended : ∀ {core : Core V D} {after : Engine V D}, core.Mirrors → core.replica.Invariant db w.heard.sent →
      core.cursor = w.engine.core.cursor → core.Alike after.core → after.inbox = [] →
      Sound db {w with engine:=after,wants,stream:=closedStream after.core,heard:=closedStream after.core} ∧
        after.core.cursor = w.engine.core.cursor := by
    intro core after mirrors inv same alike inbox
    have stands := alike.cursor.trans same
    have inv' : after.core.replica.Invariant db w.heard.sent := by rw [alike.replica]; exact inv
    refine ⟨⟨closed_synced (alike.mirrors mirrors) inv',?_,types,?_⟩,stands⟩
    · show Stream.Carries db _ (closedStream after.core) after.inbox (closedStream after.core)
      rw [inbox]
      rfl
    · show w.vouched ≤ after.core.cursor
      rw [stands]
      exact sound.vouched
  show Sound db {w with engine:=_,wants,stream:=closedStream (Engine.start _ _ _ _ _ _ _).core,heard:=closedStream (Engine.start _ _ _ _ _ _ _).core} ∧
    (Engine.start _ _ _ _ _ _ _).core.cursor = _
  unfold Engine.start
  dsimp only
  cases ran : (Core.load w.engine.core.store w.engine.core.nextEntry : Core V D).purgeIn wants with
  | error failure =>
    have kept := Engine.keeps_fail failure ({
      core:=Core.load w.engine.core.store w.engine.core.nextEntry
      predictor:=w.engine.predictor
      series:=w.engine.series+1
      nextId:=w.engine.nextId} : Engine V D)
    exact ended mirrors inv cursor kept.core kept.inbox
  | ok core =>
    obtain ⟨mirrors',inv',same,_⟩ := Core.purgeIn_invariant mirrors inv types clean ran
    have kept := Engine.caught_keeps (Engine.refresh_keeps weather true ({
      core
      predictor:=w.engine.predictor
      series:=w.engine.series+1
      nextId:=w.engine.nextId} : Engine V D))
    exact ended mirrors' inv' (same.trans cursor) kept.core kept.inbox

-- Outside a pass, only a timer and a frame delivered touch the sync.
theorem react_sound (sound : w.Sound db) {event : Engine.Event V D} (current : Option (List Name))
    (allowed : w.Allowed db builds (.engine event current)) (outside : ∀ weather, event ≠ .pass weather) :
    Sound db (w.next (.engine event current)) ∧
      (w.next (.engine event current)).engine.core.cursor = w.engine.core.cursor := by
  have plain : ∀ {after : Engine V D}, w.engine.Keeps after →
      Sound db {w with engine:=after} ∧ after.core.cursor = w.engine.core.cursor := fun kept => sound.keeps kept
  cases event with
  | pass weather => exact absurd rfl (outside weather)
  | hook conn item =>
    by_cases dropped : w.engine.ended = true ∨ conn ≠ w.engine.conn
    · have same : w.next (.engine (.hook conn item) current) = w := by
        show {w with
          engine:=if w.engine.ended ∨ conn ≠ w.engine.conn then w.engine else _
          stream:=if w.engine.ended ∨ conn ≠ w.engine.conn then w.stream else _} = w
        rw [if_pos dropped,if_pos dropped]
      rw [same]
      exact ⟨sound,rfl⟩
    · have delivered : w.next (.engine (.hook conn item) current) = {w with
          engine:={w.engine with inbox:=w.engine.inbox++[item]}
          stream:=w.stream.after item} := by
        show {w with
          engine:=if w.engine.ended ∨ conn ≠ w.engine.conn then w.engine else _
          stream:=if w.engine.ended ∨ conn ≠ w.engine.conn then w.stream else _} = _
        rw [if_neg dropped,if_neg dropped]
      rw [delivered]
      rw [not_or,not_not] at dropped
      have legal := allowed (by simpa using dropped.1) dropped.2
      refine ⟨⟨sound.synced,?_,sound.types,sound.vouched⟩,rfl⟩
      exact sound.carried.append ⟨legal,rfl⟩
  | backoff timer =>
    show Sound db {w with engine:=ite _ _ _} ∧ _
    dsimp only [next,Engine.react]
    split
    · exact plain ⟨⟨rfl,fun mirrors => {mirrors with}⟩,rfl,rfl⟩
    · obtain ⟨synced,cursor⟩ := Core.onRetryTimer_synced sound.synced timer
      exact sound.moves synced cursor (.refl _) rfl
  | push call item =>
    show Sound db {w with engine:=ite _ _ _} ∧ _
    dsimp only [next,Engine.react]
    split
    · exact plain (.refl _)
    · exact plain ⟨.refl _,rfl,rfl⟩
  | sendOnlineMutation data promise =>
    show Sound db {w with engine:=ite _ _ _} ∧ _
    dsimp only [next,Engine.react]
    split
    · exact plain (Engine.keeps_settle _ _ _)
    · exact plain ⟨.refl _,rfl,rfl⟩
  | outcome call outcome => exact plain ⟨.refl _,rfl,rfl⟩
  | results outcome => exact plain ⟨.refl _,rfl,rfl⟩
  | retry => exact plain ⟨.refl _,rfl,rfl⟩
  | sendMutation data => exact plain ⟨.refl _,rfl,rfl⟩
  | newQuery => exact plain ⟨.refl _,rfl,rfl⟩
  | reconnectNow => exact plain ⟨.refl _,rfl,rfl⟩
  | abort => exact plain ⟨.refl _,rfl,rfl⟩

theorem pass_sound (sound : w.Sound db) {weather : Weather} {current : Option (List Name)}
    (allowed : w.Allowed db builds (.engine (.pass weather) current)) (clean : w.Cleanly (.engine (.pass weather) current)) :
    Sound db (w.next (.engine (.pass weather) current)) ∧
      w.engine.core.cursor ≤ (w.next (.engine (.pass weather) current)).engine.core.cursor := by
  cases taken : w.engine.takes with
  | none =>
    have kept : w.engine.Keeps (w.engine.pass weather) := by
      unfold Engine.takes at taken
      split at taken
      · rename_i stopped
        unfold Engine.pass
        split
        · exact .refl _
        · rename_i going
          rw [if_pos (stopped.resolve_left going)]
          exact (Engine.keeps_shutdown _).trans ⟨.refl _,rfl,rfl⟩
      · cases taken
    have same : w.next (.engine (.pass weather) current) = {w with engine:=w.engine.pass weather} := by
      dsimp only [next,Engine.react]
      rw [taken]
    rw [same]
    obtain ⟨sound',cursor⟩ := sound.keeps kept
    exact ⟨sound',le_of_eq cursor.symm⟩
  | some turn =>
    obtain ⟨passes,turns⟩ := Engine.pass_takes weather taken
    have started := Engine.keeps_startCalls w.engine
    -- a turn that touches no more than the outbox and the promises
    have aside : turn ≠ .inbox → turn ≠ .connect → w.engine.Keeps (w.engine.pass weather) →
        Sound db (w.next (.engine (.pass weather) current)) ∧
          w.engine.core.cursor ≤ (w.next (.engine (.pass weather) current)).engine.core.cursor := by
      intro notInbox notConnect kept
      have same : w.next (.engine (.pass weather) current) = {w with engine:=w.engine.pass weather} := by
        dsimp only [next,Engine.react]
        rw [taken]
        cases turn <;> first | rfl | exact absurd rfl notInbox | exact absurd rfl notConnect
      rw [same]
      obtain ⟨sound',cursor⟩ := sound.keeps kept
      exact ⟨sound',le_of_eq cursor.symm⟩
    have nexts : w.engine.pass weather = Engine.caught (w.engine.startCalls.handle weather) := passes
    unfold Engine.handle at nexts
    rw [turns] at nexts
    cases turn with
    | submitted =>
      exact aside (by simp) (by simp) (by
        rw [nexts]; exact started.trans (Engine.caught_keeps (Engine.onSubmitted_keeps _ _)))
    | queries =>
      exact aside (by simp) (by simp) (by
        rw [nexts]; exact started.trans (Engine.caught_keeps (Engine.refresh_keeps _ _ _)))
    | results =>
      exact aside (by simp) (by simp) (by
        rw [nexts]; exact started.trans (Engine.caught_keeps (Engine.onMutationOutcomes_keeps _ _)))
    | idle =>
      exact aside (by simp) (by simp) (by
        rw [nexts]; exact started.trans (Engine.caught_keeps (Engine.refresh_keeps _ _ _)))
    | outcomes =>
      have same : w.next (.engine (.pass weather) current) = {w with engine:=w.engine.startCalls.onBackfillOutcomes} := by
        dsimp only [next,Engine.react]
        rw [taken,nexts]
        rfl
      rw [same]
      obtain ⟨sound',cursor⟩ := outcomes_sound sound
      exact ⟨sound',le_of_eq cursor.symm⟩
    | pushes =>
      have same : w.next (.engine (.pass weather) current) =
          {w with engine:=Engine.caught (w.engine.startCalls.onBackfillWork weather)} := by
        dsimp only [next,Engine.react]
        rw [taken,nexts]
      dsimp only [Allowed] at allowed
      rw [taken] at allowed
      rw [same]
      obtain ⟨sound',cursor⟩ := pushes_sound sound weather allowed
      exact ⟨sound',le_of_eq cursor.symm⟩
    | connect =>
      have same : w.next (.engine (.pass weather) current) = {w with
          engine:=w.engine.startCalls.onConnect
          stream:=w.heard.reopen w.engine.startCalls.onConnect.core.cursor current
          heard:=w.heard.reopen w.engine.startCalls.onConnect.core.cursor current} := by
        dsimp only [next,Engine.react]
        rw [taken,nexts]
        rfl
      have empty : w.engine.inbox = [] := by
        rw [Engine.startCalls_turn] at turns
        unfold Engine.turn at turns
        by_contra waiting
        split at turns
        · cases turns
        · split at turns
          · cases turns
          · cases turns
      rw [same]
      obtain ⟨sound',cursor⟩ := connect_sound current sound empty (clean.2 taken)
      exact ⟨sound',le_of_eq cursor.symm⟩
    | inbox =>
      have nonempty : w.engine.inbox ≠ [] := by
        rw [Engine.startCalls_turn] at turns
        unfold Engine.turn at turns
        intro empty
        rw [empty] at turns
        simp only [ne_eq,not_true_eq_false,if_false] at turns
        repeat' split at turns
        all_goals cases turns
      cases ends : w.engine.inbox.head?.any Engine.isEnd with
      | true =>
        obtain ⟨rest,fatal,first⟩ : ∃ rest fatal, w.engine.inbox = .ended fatal :: rest := by
          cases waiting : w.engine.inbox with
          | nil => exact absurd waiting nonempty
          | cons item more =>
            rw [waiting] at ends
            cases item with
            | ended fatal => exact ⟨more,fatal,rfl⟩
            | _ => cases ends
        have same : w.next (.engine (.pass weather) current) = {w with
            engine:=Engine.caught (w.engine.startCalls.onInbox weather)
            stream:=w.heard.close (Engine.caught (w.engine.startCalls.onInbox weather)).core.cursor
            heard:=w.heard.close (Engine.caught (w.engine.startCalls.onInbox weather)).core.cursor} := by
          dsimp only [next,Engine.react]
          rw [taken,nexts]
          dsimp only
          rw [if_pos ends]
        rw [same]
        obtain ⟨sound',cursor⟩ := ended_sound sound fatal weather first
        exact ⟨sound',le_of_eq cursor.symm⟩
      | false =>
        have read := inbox_sound sound weather taken ends nonempty clean.1
        have same : w.next (.engine (.pass weather) current) = (match w.engine.startCalls.core.onItemsIn w.reads with
            | .error _ => {w with engine:=Engine.caught (w.engine.startCalls.onInbox weather)}
            | .ok _ => {w with
                engine:=Engine.caught (w.engine.startCalls.onInbox weather)
                heard:=w.heard.reads w.reads
                named:=w.reads.foldl namedBy w.named
                vouched:=w.reads.foldl vouchedBy w.vouched}) := by
          dsimp only [next,Engine.react]
          rw [taken,nexts]
          dsimp only
          refine (if_neg (by simp [ends])).trans ?_
          cases w.engine.startCalls.core.onItemsIn w.reads <;> rfl
        rw [same]
        cases ran : w.engine.startCalls.core.onItemsIn w.reads with
        | error failure =>
          rw [ran] at read
          obtain ⟨sound',cursor⟩ := read
          exact ⟨sound',le_of_eq cursor.symm⟩
        | ok core => rw [ran] at read; exact read

-- One step of the sync.
theorem next_sound (sound : w.Sound db) {step : Step V D} (allowed : w.Allowed db builds step) (clean : w.Cleanly step) :
    Sound db (w.next step) ∧ w.engine.core.cursor ≤ (w.next step).engine.core.cursor := by
  cases step with
  | restart wants weather =>
    obtain ⟨sound',cursor⟩ := restart_sound sound weather allowed.2 clean
    exact ⟨sound',le_of_eq cursor.symm⟩
  | engine event current =>
    by_cases inside : ∃ weather, event = .pass weather
    · obtain ⟨weather,rfl⟩ := inside
      exact pass_sound sound allowed clean
    · obtain ⟨sound',cursor⟩ := react_sound sound current allowed fun weather same => inside ⟨weather,same⟩
      exact ⟨sound',le_of_eq cursor.symm⟩

end World
end PhaseLock
