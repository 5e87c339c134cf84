import PhaseLock.Land

namespace PhaseLock

-- What a connection pushes of a backfill.
inductive BackfillItem (V : Type) where
  | length (length : Nat)
  | header (position visible : Int) (seqs : OrderedMap Name Nat)
  | page (ops : List (Key × V)) (skip : Nat) (checksum : Name)
  | pagesDone
  | edits (edits : List (WireEdit V)) (scanned : Int)
  | editsDone

inductive BackfillOutcome where
  | done | stale | failed
deriving DecidableEq

-- A backfill() call: for which backfill, on which connection, and with the record as
-- it stood.
structure BackfillCall where
  number : Nat
  selector : Name
  entry : Nat
  conn : Nat
  untilPosition : Int
  resume : Option Resume
deriving DecidableEq

-- A push of a call, waiting for the pass that parks it, and how a call ended.
structure BackfillWork (V : Type) where
  call : BackfillCall
  item : BackfillItem V

structure Ended where
  call : BackfillCall
  outcome : BackfillOutcome
deriving DecidableEq

variable {V D : Type}

-- The record after a push, and the pages, header and edits it parks.
def Resume.fresh (position visible fromPosition : Int) : Resume :=
  ⟨position,visible,0,[],fromPosition,false,false⟩

namespace Core

-- A push is written through: a record with both halves in is ready to land.
def saveResume (core : Core V D) (selector : Name) (entry : BackfillEntry) (resume : Resume) : Core V D :=
  core.writeBackfill selector {entry with
    record:={entry.record with resume:=some resume}
    status:=if resume.snapshotDone ∧ resume.tailDone then .ready else entry.status}

-- A push for a backfill that was dropped while it was queued fails on its own, even
-- when a regrant has since made a new backfill of the same selector, and so does one
-- from a call on a connection that has since ended.
def accepts (core : Core V D) (conn : Nat) (work : BackfillWork V) : Bool :=
  (core.backfills.get work.call.selector).any (·.id = work.call.entry) && work.call.conn = conn

-- One push of a backfill: what it delivered is parked, and the record carries the
-- resume point it brought the download to.
def parkPushIn (core : Core V D) (selector : Name) (item : BackfillItem V) : Except Failure (Core V D) :=
  match core.backfills.get selector with
  | none => .error .nullRead
  | some entry =>
    match item,entry.record.resume with
    | .length length,_ => .ok {core with backfills:=core.backfills.set selector {entry with length:=some length}}
    | .header position visible seqs,resume =>
      let fromPosition := max ((resume.map Resume.fromPosition).getD position) position
      .ok (({core with store:={core.store with
          backfillSeqs:=core.store.backfillSeqs.set selector seqs}} : Core V D).saveResume selector entry
        (Resume.fresh position visible fromPosition))
    | .page ops skip checksum,some resume =>
      .ok (({core with store:={core.store with
          parkedPages:=core.store.parkedPages.set (selector,resume.skipBytes) ops}} : Core V D).saveResume
        selector entry {resume with skipBytes:=skip,checksum})
    | .pagesDone,some resume => .ok (core.saveResume selector entry {resume with snapshotDone:=true})
    | .edits edits scanned,some resume =>
      let fromPosition := edits.foldl (fun reached e => max reached e.position) resume.fromPosition
      .ok ((core.parkEdits edits).saveResume selector {entry with scanned:=max entry.scanned scanned}
        {resume with fromPosition})
    | .editsDone,some resume => .ok (core.saveResume selector entry {resume with tailDone:=true})
    | _,none => .error .nullRead

-- A stale's blob is no longer there: its pages go, and both halves start over from
-- the record it leaves.
def startOver (core : Core V D) (selector : Name) (entry : BackfillEntry) : Core V D :=
  let resume := entry.record.resume.map (fun r => {r with skipBytes:=0,checksum:=[],snapshotDone:=false,tailDone:=false})
  (({core with store:=core.store.delPages selector} : Core V D).writeBackfill selector
    {entry with record:={entry.record with resume},attempts:=0}).startBackfill selector

-- Every push of a pass, and the land of whatever they completed.
def onPushesIn (core : Core V D) (pushes : List (BackfillWork V)) : Except Failure (Core V D) := do
  let core ← pushes.foldlM (fun core work => core.parkPushIn work.call.selector work.item) core
  core.tryLandIn

-- One outcome.  Completion is known from the pushes, so a done only clears the
-- attempts; a stale starts over, and a failure retries after backoff.
def onOutcomeIn (conn : Nat) (core : Core V D) (ended : Ended) : Core V D :=
  if ended.call.conn ≠ conn then core
  else match core.backfills.get ended.call.selector with
    | none => core
    | some entry =>
      if entry.id ≠ ended.call.entry then core
      else match ended.outcome with
        | .done => {core with backfills:=core.backfills.set ended.call.selector {entry with attempts:=0}}
        | .stale => core.startOver ended.call.selector entry
        | .failed =>
          if entry.id ∈ core.aborted ∨ entry.status = .ready then core
          else {core with
            backfills:=core.backfills.set ended.call.selector {entry with attempts:=entry.attempts+1,retryTimer:=true}
            timers:=core.timers++[(ended.call.selector,entry.id)]}

def onOutcomesIn (conn : Nat) (core : Core V D) (outcomes : List Ended) : Core V D :=
  outcomes.foldl (onOutcomeIn conn) core

-- A backoff's timer fires: the download starts again if its backfill is still the
-- one the timer was set for.
def onRetryTimer (core : Core V D) (timer : Name × Nat) : Core V D :=
  let core := {core with timers:=core.timers.erase timer}
  match core.backfills.get timer.1 with
  | none => core
  | some entry =>
    if entry.id ≠ timer.2 then core
    else ({core with
      backfills:=core.backfills.set timer.1 {entry with retryTimer:=false}} : Core V D).startBackfill timer.1

-- A stored backfill, ready to land when its download had finished.
def loadEntry (id : Nat) (record : BackfillRecord) : BackfillEntry where
  id := id
  record := record
  status := if record.resume.any (fun r => r.snapshotDone ∧ r.tailDone) then .ready else .downloading

def loadBackfills (store : Store V D) (nextEntry : Nat) : OrderedMap Name BackfillEntry :=
  (store.backfills.entries.zipIdx nextEntry).foldl
    (fun backfills row => backfills.set row.1.1 (loadEntry row.2 row.1.2)) ∅

-- The outbox a store holds, in ordinal order.
def loadOutbox (mutations : OrderedMap Nat (Mutation D)) : Outgoing :=
  mutations.scan.foldl (fun outgoing row =>
    {outgoing with outbox:=outgoing.outbox.set row.2.id row.1,nextOrdinal:=row.1+1}) {}

-- The persisted state, loaded into memory.
def load (store : Store V D) (nextEntry : Nat) : Core V D where
  store := store
  view := store.view
  checkpoint := store.checkpoint
  slices := store.seqs
  backfills := loadBackfills store nextEntry
  nextEntry := nextEntry+store.backfills.size
  outgoing := loadOutbox store.mutations
  applied := (store.checkpoint.map CheckpointRecord.applied).getD (-1)

def filterView (core : Core V D) (keep : Name → Bool) : Core V D :=
  match core.view with
  | none => core
  | some view => if view.selectors.all keep then core
    else core.writeView {view with selectors:=view.selectors.filter keep}

-- What this build does not want goes: every backfill, slice, parked edit and view
-- selector outside the wants; and whatever waits ready lands.
def purgeIn (core : Core V D) (wants : List Name) : Except Failure (Core V D) := do
  let wasFrozen := core.frozen
  let core := core.dropBackfillsIn (core.backfills.keys.filter (!covered wants ·))
  let core := ((core.dropSlicesIn (covered wants)).dropParkedIn (covered wants)).filterView (covered wants)
  if wasFrozen then core.tryLandIn else return core

end Core
end PhaseLock
