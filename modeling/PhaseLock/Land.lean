import PhaseLock.EngineState

namespace PhaseLock

-- A backfill's blob as a land reads it: its cut and its header.
structure Blob where
  selector : Name
  cut : Int
  header : OrderedMap Name Nat

-- A slice's parked edits chaining: the last seq, the run since the last reset or
-- the base, and whether a gap broke it.
structure Chain (V : Type) where
  last : Option Nat
  run : List (WireEdit V) := []
  gap : Bool := false

structure Plan (V : Type) where
  slice : Name
  blob : Bool
  seq : Option Nat
  run : List (WireEdit V)
  gap : Bool

variable {V D : Type}

def Chain.step (cut : Int) (chain : Chain V) (e : WireEdit V) : Chain V :=
  if e.position ≤ cut ∨ chain.last.any (e.seq ≤ ·) then chain
  else if e.lifecycle ≠ .normal then ⟨some e.seq,[e],false⟩
  else if chain.gap ∨ chain.last.map (·+1) ≠ some e.seq then ⟨some e.seq,[],true⟩
  else ⟨some e.seq,chain.run++[e],chain.gap⟩

-- The seq a slice is held at after its plan, none when it ends dead or was never held.
def Plan.heldAt (plan : Plan V) : Option Nat :=
  match plan.run.getLast? with
  | none => plan.seq
  | some e => if e.lifecycle = .death then none else some e.seq

-- The covering blob with the newest cut.
def winner (blobs : List Blob) (slice : Name) : Option Blob :=
  blobs.foldl (fun best b =>
    if selectorCovers b.selector slice ∧ best.all (·.cut < b.cut) then some b else best) none

-- A blob's slices that another blob wins, or that keep their own state.
def skipOf (blobs : List Blob) (plans : List (Plan V)) (b : Blob) : List Name :=
  b.header.keys.filter (fun slice => (winner blobs slice).map Blob.selector ≠ some b.selector ∨
    ¬plans.any (fun plan => plan.slice = slice ∧ plan.blob))

namespace Core

def blobsFrom (core : Core V D) : List (Name × BackfillEntry) → Except Failure (List Blob)
  | [] => .ok []
  | (selector,entry) :: rest =>
    match entry.record.resume with
    | none => .error .nullRead
    | some resume => (core.blobsFrom rest).map (⟨selector,resume.position,core.headerOf selector⟩ :: ·)

def blobs (core : Core V D) : Except Failure (List Blob) := core.blobsFrom core.backfills.entries

def parkedPast (core : Core V D) (cursor : Int) : Bool :=
  core.store.parkedEdits.entries.any (fun row => cursor < row.2.position)

-- Every slice the land touches: the slices with parked edits, the blobs' slices,
-- and the held slices they cover.
def touched (core : Core V D) (blobs : List Blob) : List Name :=
  (core.store.parkedSlices++blobs.flatMap (·.header.keys)++
    core.slices.keys.filter (fun slice => (winner blobs slice).isSome)).dedup

-- Does a held slice keep its own state, at or past the blob's seq, or under a
-- blob cut at or below the base?
def newer (core : Core V D) (w : Blob) (slice : Name) : Bool :=
  match core.slices.get slice with
  | none => false
  | some held => w.cut ≤ core.applied ∨ (w.header.get slice).any (· ≤ held)

def planOf (core : Core V D) (blobs : List Blob) (slice : Name) : Plan V :=
  let own := (core.slices.get slice,(-1 : Int),false)
  let (seq,cut,blob) := match winner blobs slice with
    | none => own
    | some w => if core.newer w slice then own else (w.header.get slice,w.cut,true)
  let chain := (core.store.parkedOf slice).foldl (Chain.step cut) ⟨seq,[],false⟩
  ⟨slice,blob,seq,chain.run,chain.gap⟩

-- A broken slice downloads afresh, past its break.
def mendIn (cursor : Int) (core : Core V D) (slice : Name) : Core V D :=
  if core.backfills.has slice then core.restartIn slice else core.spawnIn slice (cursor+1)

def writeBlobIn (core : Core V D) (b : Blob) (skip : List Name) : Except Failure (Core V D) := do
  let (store,changed) ← core.store.applySnapshot b.selector skip
  return ({core with store} : Core V D).markDirty changed

def applyRunIn (core : Core V D) (plan : Plan V) : Except Failure (Core V D) :=
  match plan.run with
  | [] => .ok core
  | first :: _ => do
    let (store,changed) ← core.store.applyParked plan.slice first.seq
    return plan.run.foldl (fun core e => core.roundTrip e.id) (({core with store} : Core V D).markDirty changed)

-- A slice's run applies, and it is held at the run's last seq or forgotten.
def settlePlanIn (core : Core V D) (plan : Plan V) : Except Failure (Core V D) := do
  let core ← core.applyRunIn plan
  return core.settleIn plan.slice plan.heldAt

def clearParked (core : Core V D) : Core V D := {core with store:={core.store with parkedEdits:=∅}}

def dropBackfillsIn (core : Core V D) (selectors : List Name) : Core V D := selectors.foldl dropBackfillIn core

-- Every plan of a land none of which is broken, and all that ends with it.
def landPlansIn (core : Core V D) (blobs : List Blob) (plans : List (Plan V)) (cursor : Int) :
    Except Failure (Core V D) := do
  let core := (plans.filter (·.blob)).foldl (fun core plan => core.clearIn plan.slice) core
  let core ← blobs.foldlM (fun core b => core.writeBlobIn b (skipOf blobs plans b)) core
  let core ← plans.foldlM settlePlanIn core
  let core := (core.dropSlicesIn core.inView).clearParked
  return (core.dropBackfillsIn core.backfills.keys).appliedTo cursor

def plansOf (core : Core V D) (blobs : List Blob) : List (Plan V) :=
  ((core.touched blobs).filter core.inView).map (core.planOf blobs)

-- The land, in one transaction: every backfill's blob, then every parked edit,
-- then the view's drops.  A tail edit past the cursor, or a slice whose run does
-- not chain, makes it wait.
def landIn (core : Core V D) : Except Failure (Core V D) := do
  let blobs ← core.blobs
  if core.parkedPast core.cursor then return core
  else
    let plans := core.plansOf blobs
    let broken := plans.filter (·.gap)
    if broken = [] then core.landPlansIn blobs plans core.cursor
    else return (broken.map Plan.slice).foldl (mendIn core.cursor) core

-- Does a backfill still wait, for its download or for the cursor to reach its visible?
def waits (cursor : Int) : List (Name × BackfillEntry) → Except Failure Bool
  | [] => .ok false
  | (_,entry) :: rest =>
    if entry.status ≠ .ready then .ok true
    else match entry.record.resume with
      | none => .error .nullRead
      | some resume => if cursor < resume.visible then .ok true else waits cursor rest

def tryLandIn (core : Core V D) : Except Failure (Core V D) := do
  if ← waits core.cursor core.backfills.entries then return core else core.landIn

end Core
end PhaseLock
