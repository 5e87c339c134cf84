import PhaseLock.Frames
import PhaseLock.Downloads

namespace PhaseLock

-- The database's answer to a mutation.
inductive MutationResult where
  | ok (position : Int)
  | reject (reason : Name)
  | conflict (current : List (Name × Nat))
deriving DecidableEq

inductive Settlement where
  | resolved (result : MutationResult)
  | rejected (reason : Failure)
deriving DecidableEq

-- What the app submits: an outbox mutation, or an @online one with its promise.  One
-- that does not convert to wire bytes has no data.
inductive Submission (D : Type) where
  | outbox (data : Option D)
  | online (data : Option D) (promise : Nat)
deriving DecidableEq

-- How a sendMutations() call ended, a failed one without results.
structure MutationOutcome where
  ids : List Nat
  results : Option (List MutationResult)
  conn : Nat
deriving DecidableEq

structure SendCall (D : Type) where
  conn : Nat
  wire : List (Mutation D)
deriving DecidableEq

-- Predictions over the base: each key a prediction set, or deleted.
abbrev Overlay (V : Type) := OrderedMap Key (Option V)

-- A predictor over what it reads, none when it throws or cannot read the mutation.
abbrev Predictor (V D : Type) := (Key → Option V) → D → Option (List (Key × Option V))

-- What a run of the query graph read.
structure QueryRun (V : Type) where
  base : Base V
  overlay : Overlay V

-- What a pass meets outside the Engine: whether a part of the status it publishes
-- changed, and whether a query or a subscriber throws if the graph runs.
structure Weather where
  statusChanged : Bool := false
  throws : Bool := false
deriving DecidableEq

-- The branches of the advancer's loop.
inductive Turn where
  | submitted | queries | inbox | results | outcomes | pushes | connect | idle
deriving DecidableEq

structure Engine (V D : Type) where
  core : Core V D
  predictor : Option (Predictor V D)
  series : Nat
  nextN : Nat := 1
  nextId : Nat
  ended : Bool := false
  aborted : Bool := false
  connection : Bool := false
  conn : Nat := 0
  abortedConns : List Nat := []
  retryTimer : Bool := false
  connectNow : Bool := true
  inbox : List (Inbound V) := []
  backfillWork : List (BackfillWork V) := []
  backfillOutcomes : List Ended := []
  mutationOutcomes : List MutationOutcome := []
  submitted : List (Submission D) := []
  newQueries : Bool := false
  resend : Bool := false
  overlay : Overlay V := (∅ : OrderedMap Key (Option V))
  -- what it has done: query runs, calls, pushes resolved, promises settled
  runs : List (QueryRun V) := []
  calls : List BackfillCall := []
  sends : List (SendCall D) := []
  resolvedPushes : List (BackfillWork V) := []
  settled : List (Nat × Settlement) := []

variable {V D : Type}

def Submission.promise : Submission D → Option Nat
  | .outbox _ => none
  | .online _ promise => some promise

def Overlay.view (overlay : Overlay V) (base : Base V) (key : Key) : Option V :=
  match overlay.get key with
  | some value => value
  | none => base.get key

-- One mutation predicts in its own scratch layer, so a throw cancels its writes alone.
def predictOne (predictor : Predictor V D) (base : Base V) (overlay : Overlay V) (m : Mutation D) : Overlay V :=
  match predictor (overlay.view base) m.data with
  | none => overlay
  | some ops => ops.foldl (fun overlay op => overlay.set op.1 op.2) overlay

-- A fresh overlay over the base, every outbox mutation predicted onto it in order.
def predictAll (predictor : Option (Predictor V D)) (store : Store V D) : Overlay V :=
  match predictor with
  | none => ∅
  | some predictor => store.mutations.scan.foldl (fun overlay row => predictOne predictor store.base overlay row.2) ∅

namespace Engine

-- The error that ends the Engine, with the Engine as it stood.
abbrev Thrown (V D : Type) := Failure × Engine V D

-- What memory holds of the app's mutations changes alone.
def out (engine : Engine V D) (outgoing : Outgoing) : Engine V D := {engine with core:={engine.core with outgoing}}

-- A promise settles once; what comes after is of no effect.
def settle (engine : Engine V D) (promise : Nat) (settlement : Settlement) : Engine V D :=
  if promise ∈ engine.settled.map Prod.fst then engine
  else {engine with settled:=engine.settled++[(promise,settlement)]}

def rejectAll (engine : Engine V D) (promises : List Nat) (reason : Failure) : Engine V D :=
  promises.foldl (fun engine promise => engine.settle promise (.rejected reason)) engine

-- The store is read once for a run of the graph, so every query sees one snapshot.
def runGraph (weather : Weather) (engine : Engine V D) : Except (Thrown V D) (Engine V D) :=
  let engine := {engine with newQueries:=false,runs:=engine.runs++[⟨engine.core.store.base,engine.overlay⟩]}
  if weather.throws then .error (.userCode,engine) else .ok engine

def rebuildOverlay (weather : Weather) (engine : Engine V D) : Except (Thrown V D) (Engine V D) :=
  runGraph weather {engine with overlay:=predictAll engine.predictor engine.core.store}

-- An acked @online mutation has made its round trip once an edit carrying its id is
-- applied, or the base is applied through its ack's position.
def roundTripped (core : Core V D) (online : OnlineMutation) : Option Int :=
  match online.ack with
  | none => none
  | some position => if online.seen ∨ position ≤ core.applied then some position else none

def settleOne (engine : Engine V D) (row : Nat × OnlineMutation) : Engine V D :=
  match roundTripped engine.core row.2 with
  | none => engine
  | some position =>
    (engine.out {engine.core.outgoing with online:=engine.core.outgoing.online.del row.1}).settle row.2.promise
      (.resolved (.ok position))

def settleOnline (engine : Engine V D) : Engine V D :=
  if engine.core.applied < 0 ∨ engine.core.frozen then engine
  else engine.core.outgoing.online.entries.foldl settleOne engine

-- After a commit, the graph learns what changed: a base change or an outbox change
-- rebuilds the overlay, a changed status or a new query alone runs the graph over the
-- overlay as it is, and then what made its round trip settles.
def refresh (weather : Weather) (always : Bool) (engine : Engine V D) : Except (Thrown V D) (Engine V D) := do
  let rebuilds := always ∨ engine.core.outgoing.outboxChanged ∨ engine.core.dirty ≠ []
  let engine : Engine V D := {engine with core:={engine.core with
    dirty:=[]
    outgoing:={engine.core.outgoing with outboxChanged:=false}}}
  let engine ← if rebuilds then engine.rebuildOverlay weather
    else if weather.statusChanged ∨ engine.newQueries then engine.runGraph weather
    else .ok engine
  return engine.settleOnline

-- A transaction: what it throws rolls the store back.
def write (engine : Engine V D) (ran : Except Failure (Core V D)) : Except (Thrown V D) (Engine V D) :=
  match ran with
  | .error failure => .error (failure,engine)
  | .ok core => .ok {engine with core}

-- A submission pass as its transaction mints it: the calls complete so far, the outbox
-- mutations of the last, and whether the outbox took one.
structure Minting (V D : Type) where
  core : Core V D
  nextN : Nat
  nextId : Nat
  done : List (List (Mutation D) × Option (Nat × OnlineMutation)) := []
  wire : List (Mutation D) := []
  fresh : Bool := false

-- An outbox mutation takes the next ordinal and joins the current call; an @online
-- mutation goes in a call of its own.
def mintIn (series : Nat) (m : Minting V D) : Submission D → Except Failure (Minting V D)
  | .online none _ => .error .unwritableMutation
  | .outbox none => .error .unwritableMutation
  | .online (some data) promise =>
    .ok {m with
      nextN:=m.nextN+1
      nextId:=m.nextId+1
      done:=m.done++[(m.wire,none),([⟨m.nextId,series,m.nextN,data⟩],some (m.nextId,⟨promise,none,false⟩))]
      wire:=[]}
  | .outbox (some data) =>
    let mutation : Mutation D := ⟨m.nextId,series,m.nextN,data⟩
    let ordinal := m.core.outgoing.nextOrdinal
    .ok {m with
      core:=m.core.withOutgoing (m.core.store.mutations.set ordinal mutation)
        {m.core.outgoing with outbox:=m.core.outgoing.outbox.set mutation.id ordinal,nextOrdinal:=ordinal+1}
      nextN:=m.nextN+1
      nextId:=m.nextId+1
      wire:=m.wire++[mutation]
      fresh:=true}

-- Every outbox mutation the connection has not been handed, in ordinal order, as stored.
def pendingRows (core : Core V D) : Except Failure (List (Mutation D)) :=
  ((core.outgoing.outbox.entries.filter (fun row => row.1 ∉ core.outgoing.sent ∧ ¬core.outgoing.acked.has row.1)).insertionSort
      (fun a b => a.2 ≤ b.2)).mapM fun row =>
    match core.store.mutations.get row.2 with
    | none => .error .nullRead
    | some mutation => .ok mutation

def submittedIn (engine : Engine V D) : Except Failure (Minting V D) := do
  let wire ← if engine.resend ∧ engine.connection then pendingRows engine.core else .ok []
  engine.submitted.foldlM (mintIn engine.series) {core:=engine.core,nextN:=engine.nextN,nextId:=engine.nextId,wire}

def onlines (calls : List (List (Mutation D) × Option (Nat × OnlineMutation))) : List (Nat × OnlineMutation) :=
  calls.filterMap Prod.snd

-- One call on the connection, its mutations remembered until it answers.
def sendCall (engine : Engine V D) (call : List (Mutation D) × Option (Nat × OnlineMutation)) : Engine V D :=
  if call.1 = [] then engine
  else
    let outgoing := engine.core.outgoing
    let outgoing := match call.2 with
      | some (id,online) => {outgoing with online:=outgoing.online.set id online}
      | none => {outgoing with sent:=outgoing.sent++(call.1.map Mutation.id).filter (· ∉ outgoing.sent)}
    {engine.out outgoing with sends:=engine.sends++[⟨engine.conn,call.1⟩]}

-- The app's submissions, sent in submission order, behind the resend a new connection
-- asked for.
def onSubmitted (weather : Weather) (engine : Engine V D) : Except (Thrown V D) (Engine V D) :=
  let taken : Engine V D := {engine with submitted:=[],resend:=false}
  match engine.submittedIn with
  | .error failure => .error (failure,taken.rejectAll (engine.submitted.filterMap Submission.promise) failure)
  | .ok m => do
    let outboxChanged := engine.core.outgoing.outboxChanged || m.fresh
    let minted : Engine V D := {taken with
      core:={m.core with outgoing:={m.core.outgoing with outboxChanged}}
      nextN:=m.nextN
      nextId:=m.nextId}
    -- the @online mutations are in these calls alone until they are sent
    let calls := m.done++[(m.wire,none)]
    let engine ← minted.refresh weather false
    if engine.connection then return calls.foldl sendCall engine
    else return engine.rejectAll ((onlines calls).map (·.2.promise)) .noConnection

-- The connection ended: every call in flight on it is dead, and mutations handed to it
-- are unsent again for the next resend.
def onEnd (engine : Engine V D) : Engine V D :=
  {engine with
    connection:=false
    abortedConns:=engine.abortedConns++[engine.conn]
    conn:=engine.conn+1
    core:={engine.core with epoch:=none,outgoing:={engine.core.outgoing with sent:=[]}}
    retryTimer:=true}

def isEnd : Inbound V → Bool
  | .ended _ => true
  | _ => false

-- Every queued item, in arrival order, in one transaction; the connection's end is
-- handled on its own, and one no reconnect can mend ends the Engine.
def onInbox (weather : Weather) (engine : Engine V D) : Except (Thrown V D) (Engine V D) :=
  match engine.inbox with
  | .ended fatal :: rest =>
    let engine : Engine V D := {engine with inbox:=rest}
    if fatal then .error (.fatalEnd,engine) else .ok engine.onEnd
  | inbox => do
    let engine ← engine.write (engine.core.onItemsIn (inbox.takeWhile (!isEnd ·)))
    refresh weather false {engine with inbox:=inbox.dropWhile (!isEnd ·)}

-- An answer to one mutation.  A mutation can be answered twice, and every answer bounds
-- the decision from above, so the lowest is the closest.
def answer (state : Engine V D × List Nat) (row : Nat × MutationResult) : Engine V D × List Nat :=
  let (engine,drop) := state
  let outgoing := engine.core.outgoing
  match outgoing.online.get row.1 with
  | some online =>
    match row.2 with
    | .ok position => (engine.out {outgoing with online:=outgoing.online.set row.1 {online with ack:=some position}},drop)
    | result => ((engine.out {outgoing with online:=outgoing.online.del row.1}).settle online.promise (.resolved result),drop)
  | none =>
    if outgoing.outbox.has row.1 then
      match row.2 with
      | .ok position =>
        let position := min position ((outgoing.acked.get row.1).getD position)
        (engine.out {outgoing with acked:=outgoing.acked.set row.1 position},
          if position ≤ engine.core.applied then drop++[row.1] else drop)
      | _ => (engine,drop++[row.1])
    else state

-- A failed call rejects its @online mutation, which is never resent.
def failOne (engine : Engine V D) (id : Nat) : Engine V D :=
  match engine.core.outgoing.online.get id with
  | none => engine
  | some online =>
    (engine.out {engine.core.outgoing with online:=engine.core.outgoing.online.del id}).settle online.promise
      (.rejected .callFailed)

def onOutcome (state : Engine V D × List Nat) (outcome : MutationOutcome) : Engine V D × List Nat :=
  match outcome.results with
  | none =>
    let engine := outcome.ids.foldl failOne state.1
    ({engine with abortedConns:=engine.abortedConns++(if outcome.conn = engine.conn then [outcome.conn] else [])},state.2)
  | some results => (outcome.ids.zip results).foldl answer state

-- Every queued sendMutations result, and one release for all of them.
def onMutationOutcomes (weather : Weather) (engine : Engine V D) : Except (Thrown V D) (Engine V D) :=
  let (engine,drop) := engine.mutationOutcomes.foldl onOutcome ({engine with mutationOutcomes:=[]},[])
  refresh weather false {engine with core:=engine.core.releaseIn drop}

def onBackfillOutcomes (engine : Engine V D) : Engine V D :=
  {engine with core:=engine.core.onOutcomesIn engine.conn engine.backfillOutcomes,backfillOutcomes:=[]}

-- Every queued push in one transaction, each resolved after the commit.
def onBackfillWork (weather : Weather) (engine : Engine V D) : Except (Thrown V D) (Engine V D) :=
  let pushes := engine.backfillWork.filter (engine.core.accepts engine.conn)
  let taken : Engine V D := {engine with backfillWork:=[]}
  if pushes = [] then .ok taken
  else do
    let engine ← taken.write (taken.core.onPushesIn pushes)
    refresh weather false {engine with resolvedPushes:=engine.resolvedPushes++pushes}

-- A new connection restarts every backfill that is still downloading and is not waiting
-- on its own backoff timer, and resends the outbox.
def onConnect (engine : Engine V D) : Engine V D :=
  let restarts := engine.core.backfills.entries.filter (fun row => row.2.status = .downloading ∧ ¬row.2.retryTimer)
  {engine with
    core:=(restarts.map Prod.fst).foldl Core.startBackfill engine.core
    connection:=true
    connectNow:=false
    retryTimer:=false
    resend:=true}

-- One backfill() call, on the connection.
def callBackfill (engine : Engine V D) (selector : Name) (entry : BackfillEntry) : Engine V D :=
  {engine with calls:=engine.calls++[⟨engine.calls.length,selector,entry.id,engine.conn,entry.record.untilPosition,
    entry.record.resume⟩]}

def startCall (engine : Engine V D) (start : Name × Nat) : Engine V D :=
  match engine.core.backfills.get start.1 with
  | none => engine
  | some entry => if engine.connection ∧ entry.id = start.2 then engine.callBackfill start.1 entry else engine

-- Every backfill call asked for, each started if its backfill is still the one asked for.
def startCalls (engine : Engine V D) : Engine V D :=
  engine.core.starts.foldl startCall {engine with core:={engine.core with starts:=[]}}

-- What a pass takes up: what the user is waiting on first, then the live connection,
-- then the outcomes of our own calls, then background work, and a new connection last.
def turn (engine : Engine V D) : Turn :=
  if engine.submitted ≠ [] ∨ engine.resend then .submitted
  else if engine.newQueries then .queries
  else if engine.inbox ≠ [] then .inbox
  else if engine.mutationOutcomes ≠ [] then .results
  else if engine.backfillOutcomes ≠ [] then .outcomes
  else if engine.backfillWork ≠ [] then .pushes
  else if ¬engine.connection ∧ (engine.connectNow ∨ ¬engine.retryTimer) then .connect
  else .idle

def handle (weather : Weather) (engine : Engine V D) : Except (Thrown V D) (Engine V D) :=
  match engine.turn with
  | .submitted => engine.onSubmitted weather
  | .queries => engine.refresh weather false
  | .inbox => engine.onInbox weather
  | .results => engine.onMutationOutcomes weather
  | .outcomes => .ok engine.onBackfillOutcomes
  | .pushes => engine.onBackfillWork weather
  | .connect => .ok engine.onConnect
  | .idle => engine.refresh weather false

-- Every @online mutation, queued or in flight, rejects with the reason the Engine ended.
def rejectOnline (engine : Engine V D) (reason : Failure) : Engine V D :=
  let engine := (engine.rejectAll (engine.submitted.filterMap Submission.promise) reason).rejectAll
    (engine.core.outgoing.online.entries.map (·.2.promise)) reason
  engine.out {engine.core.outgoing with online:=∅}

def shutdown (engine : Engine V D) : Engine V D :=
  ({engine with
    retryTimer:=false
    abortedConns:=engine.abortedConns++[engine.conn]
    connection:=false
    core:={engine.core with starts:=[]}
    backfillWork:=[]} : Engine V D).rejectOnline .engineShutDown

-- A throw out of a pass ends the Engine.
def fail (failure : Failure) (engine : Engine V D) : Engine V D :=
  (({engine with ended:=true} : Engine V D).rejectOnline failure).shutdown

def caught : Except (Thrown V D) (Engine V D) → Engine V D
  | .ok engine => engine
  | .error (failure,engine) => engine.fail failure

-- One pass of the advancer's loop.
def pass (weather : Weather) (engine : Engine V D) : Engine V D :=
  if engine.ended then engine
  else if engine.aborted then {engine.shutdown with ended:=true}
  else caught (engine.startCalls.handle weather)

-- A new Engine over a store, as it has initialized: what it loads, purged of what its
-- build does not want.
def start (wants : List Name) (predictor : Option (Predictor V D)) (store : Store V D) (series nextId nextEntry : Nat)
    (weather : Weather) : Engine V D :=
  let loaded : Engine V D := {core:=Core.load store nextEntry,predictor,series,nextId}
  caught do
    let engine ← loaded.write (loaded.core.purgeIn wants)
    refresh weather true engine

-- What reaches the Engine from outside a pass.
inductive Event (V D : Type) where
  | pass (weather : Weather)
  | hook (conn : Nat) (item : Inbound V)
  | push (call : BackfillCall) (item : BackfillItem V)
  | outcome (call : BackfillCall) (outcome : BackfillOutcome)
  | results (outcome : MutationOutcome)
  | backoff (timer : Name × Nat)
  | retry
  | sendMutation (data : Option D)
  | sendOnlineMutation (data : Option D) (promise : Nat)
  | newQuery
  | reconnectNow
  | abort

def react (engine : Engine V D) : Event V D → Engine V D
  | .pass weather => engine.pass weather
  -- a hook from a connection since replaced is dropped
  | .hook conn item => if engine.ended ∨ conn ≠ engine.conn then engine else {engine with inbox:=engine.inbox++[item]}
  | .push call item => if engine.ended then engine else {engine with backfillWork:=engine.backfillWork++[⟨call,item⟩]}
  | .outcome call outcome => {engine with backfillOutcomes:=engine.backfillOutcomes++[⟨call,outcome⟩]}
  | .results outcome => {engine with mutationOutcomes:=engine.mutationOutcomes++[outcome]}
  | .backoff timer =>
    if engine.ended ∨ engine.aborted then {engine with core:={engine.core with timers:=engine.core.timers.erase timer}}
    else {engine with core:=engine.core.onRetryTimer timer}
  | .retry => {engine with retryTimer:=false}
  | .sendMutation data => {engine with submitted:=engine.submitted++[.outbox data]}
  | .sendOnlineMutation data promise =>
    if engine.ended ∨ engine.aborted then engine.settle promise (.rejected .engineEnded)
    else {engine with submitted:=engine.submitted++[.online data promise]}
  | .newQuery => {engine with newQueries:=true}
  | .reconnectNow => {engine with connectNow:=true}
  | .abort => {engine with aborted:=true}

end Engine
end PhaseLock
