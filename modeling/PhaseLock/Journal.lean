import PhaseLock.Entering
import PhaseLock.Sync

namespace PhaseLock
variable {V D : Type}

namespace Engine

def prepare (engine : Engine V D) : Except (Thrown V D) (Engine V D) :=
  match engine.turn with
  | .submitted =>
    let taken : Engine V D := {engine with submitted:=[],resend:=false}
    match engine.submittedIn with
    | .error failure => .error (failure,taken.rejectAll (engine.submitted.filterMap Submission.promise) failure)
    | .ok m =>
      let outboxChanged := engine.core.outgoing.outboxChanged || m.fresh
      .ok {taken with
        core:={m.core with outgoing:={m.core.outgoing with outboxChanged}}
        nextN:=m.nextN
        nextId:=m.nextId}
  | .inbox => match engine.inbox with
    | .ended fatal :: rest =>
      let engine : Engine V D := {engine with inbox:=rest}
      if fatal then .error (.fatalEnd,engine) else .ok engine.onEnd
    | inbox => do
      let engine ← engine.write (engine.core.onItemsIn (inbox.takeWhile (!isEnd ·)))
      return {engine with inbox:=inbox.dropWhile (!isEnd ·)}
  | .results =>
    let (engine,drop) := engine.mutationOutcomes.foldl onOutcome ({engine with mutationOutcomes:=[]},[])
    .ok {engine with core:=engine.core.releaseIn drop}
  | .pushes =>
    let pushes := engine.backfillWork.filter (engine.core.accepts engine.conn)
    let taken : Engine V D := {engine with backfillWork:=[]}
    if pushes = [] then .ok taken
    else do
      let engine ← taken.write (taken.core.onPushesIn pushes)
      return {engine with resolvedPushes:=engine.resolvedPushes++pushes}
  | .outcomes => .ok engine.onBackfillOutcomes
  | .connect => .ok engine.onConnect
  | .queries | .idle => .ok engine

def shows (engine : Engine V D) : Bool :=
  match engine.turn with
  | .submitted | .queries | .results | .idle => true
  | .inbox => !engine.inbox.head?.any isEnd
  | .pushes => !(engine.backfillWork.filter (engine.core.accepts engine.conn)).isEmpty
  | .outcomes | .connect => false

def callsOf (engine : Engine V D) : List (List (Mutation D) × Option (Nat × OnlineMutation)) :=
  match engine.submittedIn with
  | .ok m => m.done++[(m.wire,none)]
  | .error _ => []

def hand (engine after : Engine V D) : Engine V D :=
  match engine.turn with
  | .submitted =>
    if after.connection then engine.callsOf.foldl sendCall after
    else after.rejectAll ((onlines engine.callsOf).map (·.2.promise)) .noConnection
  | _ => after

theorem handle_parts (weather : Weather) (engine : Engine V D) :
    engine.handle weather = engine.prepare >>= fun mid =>
      if engine.shows then (mid.refresh weather false).map engine.hand else .ok mid := by
  have shown : ∀ {turn : Turn}, engine.turn = turn → turn ≠ .submitted → ∀ ran : Except (Thrown V D) (Engine V D),
      ran.map engine.hand = ran := by
    intro turn is other ran
    have stays : ∀ after, engine.hand after = after := by
      intro after
      unfold hand
      rw [is]
      cases turn <;> first | rfl | exact absurd rfl other
    cases ran with
    | error thrown => rfl
    | ok after => exact congrArg Except.ok (stays after)
  unfold handle prepare shows
  cases is : engine.turn with
  | submitted =>
    dsimp only
    unfold onSubmitted
    cases minted : engine.submittedIn with
    | error failure => rfl
    | ok m =>
      have hands : ∀ after, engine.hand after = if after.connection then (m.done++[(m.wire,none)]).foldl sendCall after
          else after.rejectAll ((onlines (m.done++[(m.wire,none)])).map (·.2.promise)) .noConnection := by
        intro after
        unfold hand callsOf
        rw [is,minted]
      simp only [bind,Except.bind,if_true]
      generalize refresh weather false _ = ran
      cases ran with
      | error thrown => rfl
      | ok after =>
        dsimp only [Except.map]
        rw [hands]
        split <;> rfl
  | queries | idle =>
    dsimp only
    exact (shown is (by decide) _).symm
  | inbox =>
    dsimp only
    unfold onInbox
    cases queue : engine.inbox with
    | nil =>
      dsimp only
      cases engine.write (engine.core.onItemsIn _) with
      | error thrown => rfl
      | ok after => exact (shown is (by decide) _).symm
    | cons item rest =>
      cases item with
      | ended fatal => cases fatal <;> rfl
      | opened | view | edits | live | vouch =>
        dsimp only
        cases engine.write (engine.core.onItemsIn _) with
        | error thrown => rfl
        | ok after => exact (shown is (by decide) _).symm
  | results =>
    dsimp only
    unfold onMutationOutcomes
    exact (shown is (by decide) _).symm
  | outcomes | connect => rfl
  | pushes =>
    dsimp only
    unfold onBackfillWork
    dsimp only
    generalize engine.backfillWork.filter (engine.core.accepts engine.conn) = pushes
    cases pushes with
    | nil => rfl
    | cons work rest =>
      rw [if_neg (List.cons_ne_nil work rest),if_neg (List.cons_ne_nil work rest)]
      cases write _ (Core.onPushesIn _ _) with
      | error thrown => rfl
      | ok after => exact (shown is (by decide) _).symm

-- What a pass takes up of the app's mutations: the submissions it mints, each with its id, the
-- answers it hears and the edits it brings into the base.
def minted (engine : Engine V D) : List (Submission D × Nat) :=
  match engine.turn,engine.submittedIn with
  | .submitted,.ok _ => engine.submitted.zipIdx engine.nextId
  | _,_ => []

def heard (engine : Engine V D) : List (Nat × MutationResult) :=
  match engine.turn with
  | .results => engine.mutationOutcomes.flatMap fun outcome => outcome.ids.zip (outcome.results.getD [])
  | _ => []

def entering (engine : Engine V D) : List (WireEdit V) :=
  match engine.turn with
  | .inbox =>
    let items := engine.inbox.takeWhile (!isEnd ·)
    if engine.inbox.head?.any isEnd then [] else Core.ifRan (engine.core.onItemsIn items) (engine.core.brought items)
  | .pushes =>
    let pushes := engine.backfillWork.filter (engine.core.accepts engine.conn)
    if pushes = [] then [] else Core.ifRan (engine.core.onPushesIn pushes) (engine.core.pushed pushes)
  | _ => []

end Engine

def Submission.filed : Submission D × Nat → Option Nat
  | (.outbox _,id) => some id
  | (.online _ _,_) => none

def Submission.given : Submission D × Nat → Option (Nat × Nat)
  | (.outbox _,_) => none
  | (.online _ promise,id) => some (promise,id)

-- An Engine and what has passed at it since it started: the promises it handed out and which
-- mutation each is of, the outbox mutations it loaded or filed, and, of the mutations minted by
-- then, the answers it has taken up and the edits that have entered its base.
structure Journal (V D : Type) where
  engine : Engine V D
  asked : List Nat := []
  given : List (Nat × Nat) := []
  filed : List Nat := []
  answers : List (Nat × MutationResult) := []
  entered : List Nat := []

-- What happens to an Engine, a crash and a new start of the stored state included.
inductive Happening (V D : Type) where
  | event (event : Engine.Event V D)
  | restart (wants : List Name) (weather : Weather)

namespace Journal

def pass (weather : Weather) (j : Journal V D) : Journal V D :=
  let after := j.engine.pass weather
  match j.engine.takes with
  | none => {j with engine:=after}
  | some _ =>
    let started := j.engine.startCalls
    {j with
      engine:=after
      given:=j.given++started.minted.filterMap Submission.given
      filed:=j.filed++started.minted.filterMap Submission.filed
      answers:=j.answers++started.heard.filter (·.1 < j.engine.nextId)
      entered:=j.entered++(started.entering.map WireEdit.id).filter (· < j.engine.nextId)}

def begin (wants : List Name) (predictor : Option (Predictor V D)) (store : Store V D) (series nextId nextEntry : Nat)
    (weather : Weather) : Journal V D where
  engine := Engine.start wants predictor store series nextId nextEntry weather
  filed := store.mutations.scan.map (·.2.id)
  entered := let loaded : Core V D := Core.load store nextEntry
    ((Core.ifRan (loaded.purgeIn wants) (loaded.purges wants)).map WireEdit.id).filter (· < nextId)

def next (j : Journal V D) : Happening V D → Journal V D
  | .event (.pass weather) => j.pass weather
  | .event (.sendOnlineMutation data promise) => {j with engine:=j.engine.react (.sendOnlineMutation data promise),asked:=j.asked++[promise]}
  | .event event => {j with engine:=j.engine.react event}
  | .restart wants weather => begin wants j.engine.predictor j.engine.core.store (j.engine.series+1) j.engine.nextId
      j.engine.core.nextEntry weather

-- A promise is a new one each time.
def Allowed (j : Journal V D) : Happening V D → Prop
  | .event (.sendOnlineMutation _ promise) => promise ∉ j.asked
  | _ => True

def machine : Machine (Journal V D) (Happening V D) := ⟨Allowed,next⟩

-- The first start of a build, over an empty store.
def first (wants : List Name) (predictor : Option (Predictor V D)) (weather : Weather) : Journal V D :=
  begin wants predictor {} 0 0 0 weather

end Journal
end PhaseLock
