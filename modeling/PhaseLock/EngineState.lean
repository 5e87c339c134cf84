import PhaseLock.Store

namespace PhaseLock

inductive BackfillStatus where
  | downloading | ready
deriving DecidableEq

-- The in-memory side of a backfill.  Its number tells its entry, and the
-- controller that aborts it, from those of other backfills of one selector.
structure BackfillEntry where
  id : Nat
  record : BackfillRecord
  status : BackfillStatus := .downloading
  attempts : Nat := 0
  retryTimer : Bool := false
  length : Option Nat := none
  scanned : Int := -1
deriving DecidableEq

structure OnlineMutation where
  promise : Nat
  ack : Option Int := none
  seen : Bool := false
deriving DecidableEq

-- What memory holds of the app's mutations: the outbox by id and ordinal, those
-- handed to the connection, those acked with their positions, and the @online ones.
structure Outgoing where
  outbox : OrderedMap Nat Nat := ∅
  nextOrdinal : Nat := 0
  sent : List Nat := []
  acked : OrderedMap Nat Int := ∅
  online : OrderedMap Nat OnlineMutation := ∅
  outboxChanged : Bool := false

-- The store and the memory the Engine's transactions keep beside it, with the
-- downloads asked for and the retry timers running, each under its entry's number.
structure Core (V D : Type) where
  store : Store V D := {}
  view : Option ViewRecord := none
  checkpoint : Option CheckpointRecord := none
  slices : OrderedMap Name Nat := ∅
  backfills : OrderedMap Name BackfillEntry := ∅
  nextEntry : Nat := 0
  aborted : List Nat := []
  starts : List (Name × Nat) := []
  timers : List (Name × Nat) := []
  outgoing : Outgoing := {}
  applied : Int := -1
  epoch : Option Name := none
  dirty : List Key := []

variable {V D : Type}

namespace Core

def cursor (core : Core V D) : Int := (core.checkpoint.map CheckpointRecord.position).getD (-1)
def selectors (core : Core V D) : List Name := (core.view.map ViewRecord.selectors).getD []
def frozen (core : Core V D) : Bool := 0 < core.backfills.size
def inView (core : Core V D) (slice : Name) : Bool := covered core.selectors slice

-- Everything but the outbox and its rows stays as it was.
def withOutgoing (core : Core V D) (mutations : OrderedMap Nat (Mutation D)) (outgoing : Outgoing) : Core V D :=
  {core with store:={core.store with mutations},outgoing}

def markDirty (core : Core V D) (keys : List Key) : Core V D := {core with dirty:=core.dirty++keys}

-- One mutation leaves the outbox.
def release (core : Core V D) (id : Nat) : Core V D :=
  match core.outgoing.outbox.get id with
  | none => core
  | some ordinal => core.withOutgoing (core.store.mutations.del ordinal)
      {core.outgoing with
        outbox:=core.outgoing.outbox.del id
        sent:=core.outgoing.sent.filter (· ≠ id)
        acked:=core.outgoing.acked.del id
        outboxChanged:=true}

def releaseIn (core : Core V D) (ids : List Nat) : Core V D := ids.foldl release core

-- The acked mutations at or below a position.
def ackedThrough (core : Core V D) (position : Int) : List Nat :=
  (core.outgoing.acked.entries.filter (fun entry => entry.2 ≤ position)).map Prod.fst

def releaseThroughIn (core : Core V D) (position : Int) : Core V D :=
  if position ≤ core.applied then core
  else ({core with applied:=position} : Core V D).releaseIn (core.ackedThrough position)

def writeCheckpoint (core : Core V D) (record : CheckpointRecord) : Core V D :=
  {core with checkpoint:=some record,store:={core.store with checkpoint:=some record}}

def writeView (core : Core V D) (record : ViewRecord) : Core V D :=
  {core with view:=some record,store:={core.store with view:=some record}}

-- The checkpoint is written when the cursor or the applied position moved.
def saveCursor (core : Core V D) (epoch : Name) (position : Int) : Core V D :=
  let cursor := max position core.cursor
  if core.checkpoint.any (fun c => c.position = cursor ∧ c.applied = core.applied) then core
  else core.writeCheckpoint ⟨epoch,cursor,core.applied⟩

-- The cursor moves forward, never back, under the connection's epoch, and with
-- applied the base is applied through it too.
def advanceCursorIn (core : Core V D) (position : Int) (applied : Bool) : Except Failure (Core V D) :=
  match core.epoch with
  | none => .error .cursorWithNoEpoch
  | some epoch => .ok ((if applied then core.releaseThroughIn position else core).saveCursor epoch position)

def saveApplied (core : Core V D) (position : Int) : Core V D :=
  match core.checkpoint with
  | none => core
  | some c => core.writeCheckpoint {c with applied:=position}

-- The base has been applied through a position, the cursor as it stands.
def appliedTo (core : Core V D) (position : Int) : Core V D :=
  if position ≤ core.applied then core else (core.releaseThroughIn position).saveApplied position

def markSeen (core : Core V D) (id : Nat) : Core V D :=
  match core.outgoing.online.get id with
  | none => core
  | some online => {core with outgoing:={core.outgoing with
      online:=core.outgoing.online.set id {online with seen:=true}}}

-- An edit entering the base is the round trip of the mutation whose id it carries.
def roundTrip (core : Core V D) (id : Nat) : Core V D :=
  (if core.outgoing.outbox.has id then core.releaseIn [id] else core).markSeen id

def headerOf (core : Core V D) (selector : Name) : OrderedMap Name Nat :=
  (core.store.backfillSeqs.get selector).getD ∅

-- A backfill to download on the current connection, once this transaction commits.
def startBackfill (core : Core V D) (selector : Name) : Core V D :=
  match core.backfills.get selector with
  | none => core
  | some entry => {core with
      backfills:=core.backfills.set selector {entry with status:=.downloading}
      starts:=core.starts++[(selector,entry.id)]}

def writeBackfill (core : Core V D) (selector : Name) (entry : BackfillEntry) : Core V D :=
  {core with
    backfills:=core.backfills.set selector entry
    store:={core.store with backfills:=core.store.backfills.set selector entry.record}}

-- A backfill whose run broke downloads again from a fresh snapshot.
def restartIn (core : Core V D) (selector : Name) : Core V D :=
  match core.backfills.get selector with
  | none => core
  | some entry =>
    let core := {core with store:={core.store.delPages selector with
      backfillSeqs:=core.store.backfillSeqs.del selector}}
    (core.writeBackfill selector
      {entry with record:={entry.record with resume:=none},status:=.downloading,attempts:=0}).startBackfill selector

-- A new backfill, downloading at once; the base is frozen from here until it lands.
def spawnIn (core : Core V D) (selector : Name) (untilPosition : Int) : Core V D :=
  let entry : BackfillEntry := {id:=core.nextEntry,record:=⟨untilPosition,none⟩}
  (({core with nextEntry:=core.nextEntry+1} : Core V D).writeBackfill selector entry).startBackfill selector

-- An in-flight backfill ends: its download is aborted, and its parked pages and records go.
def dropBackfillIn (core : Core V D) (selector : Name) : Core V D :=
  match core.backfills.get selector with
  | none => core
  | some entry => {core with
      aborted:=core.aborted++[entry.id]
      backfills:=core.backfills.del selector
      store:={core.store.delPages selector with
        backfills:=core.store.backfills.del selector
        backfillSeqs:=core.store.backfillSeqs.del selector}}

-- The parked edits of every slice outside keep go.
def dropParkedIn (core : Core V D) (keep : Name → Bool) : Core V D :=
  {core with store:=(core.store.parkedSlices.filter (!keep ·)).foldl Store.delParked core.store}

-- Each edit parks under its slice and seq, so an edit delivered twice parks once.
def parkEdits (core : Core V D) (edits : List (WireEdit V)) : Core V D :=
  {core with store:={core.store with
    parkedEdits:=edits.foldl (fun parked e => parked.set (e.slice,e.seq) e) core.store.parkedEdits}}

def forgetIn (core : Core V D) (slice : Name) : Core V D :=
  {core with slices:=core.slices.del slice,store:={core.store with seqs:=core.store.seqs.del slice}}

def holdIn (core : Core V D) (slice : Name) (seq : Nat) : Core V D :=
  {core with slices:=core.slices.set slice seq,store:={core.store with seqs:=core.store.seqs.set slice seq}}

-- A slice is held at a seq, or forgotten.
def settleIn (core : Core V D) (slice : Name) : Option Nat → Core V D
  | none => core.forgetIn slice
  | some seq => core.holdIn slice seq

-- A slice's keys go from the base.
def clearIn (core : Core V D) (slice : Name) : Core V D :=
  ({core with store:=(core.store.delSlicePrefix slice).1} : Core V D).markDirty (core.store.delSlicePrefix slice).2

-- A slice leaves the Engine: its state, its seq, and its parked edits.
def dropSliceIn (core : Core V D) (slice : Name) : Core V D :=
  let core := core.clearIn slice
  {core with
    slices:=core.slices.del slice
    store:={core.store.delParked slice with seqs:=core.store.seqs.del slice}}

-- Each held slice outside keep leaves.
def dropSlicesIn (core : Core V D) (keep : Name → Bool) : Core V D :=
  (core.slices.keys.filter (!keep ·)).foldl dropSliceIn core

end Core
end PhaseLock
