import PhaseLock.Land
import Mathlib.Data.List.Sort

namespace PhaseLock

-- What a connection's hooks deliver.
inductive Inbound (V : Type) where
  | opened (epoch : Name) (head : Int)
  | view (record : ViewRecord)
  | edits (edits : List (WireEdit V))
  | live (position : Int)
  | vouch (position : Int)
  | ended (fatal : Bool)
deriving DecidableEq

-- One frame's edits as they chain: those to apply, each slice's seq as the frame
-- leaves it, none for one that dies, and those that break.
structure Frame (V : Type) where
  apply : List (WireEdit V) := []
  seqs : OrderedMap Name (Option Nat) := ∅
  breaks : List (WireEdit V) := []

variable {V D : Type}

def Frame.held (slices : OrderedMap Name Nat) (frame : Frame V) (slice : Name) : Option Nat :=
  match frame.seqs.get slice with
  | some seq => seq
  | none => slices.get slice

def Frame.step (slices : OrderedMap Name Nat) (frame : Frame V) (e : WireEdit V) : Frame V :=
  let held := frame.held slices e.slice
  if held.any (e.seq ≤ ·) then frame
  else if e.lifecycle = .normal ∧ held.map (·+1) ≠ some e.seq then {frame with breaks:=frame.breaks++[e]}
  else {frame with
    apply:=frame.apply++[e]
    seqs:=frame.seqs.set e.slice (if e.lifecycle = .death then none else some e.seq)}

namespace Core

def spawnBreak (core : Core V D) (e : WireEdit V) : Core V D :=
  if core.backfills.has e.slice then core else core.spawnIn e.slice e.position

def applyEditsIn (core : Core V D) (edits : List (WireEdit V)) : Except Failure (Core V D) := do
  let (base,changed) ← core.store.base.applyEdits edits
  return ({core with store:={core.store with base}} : Core V D).markDirty changed

-- A frame that applies whole: each edit its mutation's round trip, and each slice
-- held at its new seq.
def applyFrameIn (core : Core V D) (frame : Frame V) : Except Failure (Core V D) := do
  let core := frame.apply.foldl (fun core e => core.roundTrip e.id) core
  let core ← core.applyEditsIn frame.apply
  return frame.seqs.entries.foldl (fun core row => core.settleIn row.1 row.2) core

-- One frame's edits, which apply whole or not at all.  While frozen they park; a
-- frame with an edit that does not chain parks, and each slice it breaks backfills.
def onEditsIn (core : Core V D) (edits : List (WireEdit V)) : Except Failure (Core V D) :=
  match edits.getLast? with
  | none => .ok core
  | some last =>
    let frame : Frame V := if core.frozen then {} else edits.foldl (Frame.step core.slices) {}
    if core.frozen ∨ frame.breaks ≠ [] then
      ((frame.breaks.foldl spawnBreak core).parkEdits edits).advanceCursorIn last.position false
    else do
      let core ← core.applyFrameIn frame
      core.advanceCursorIn last.position true

-- A vouch, or the live mark: unless frozen, the base is applied through it.
def onCursorIn (core : Core V D) (position : Int) : Except Failure (Core V D) :=
  core.advanceCursorIn position (!core.frozen)

-- A selector of a new view that nothing accounts for starts a backfill: no
-- backfill in flight covers it, and it is not held, covered by the old view with
-- no backfill over it at the frame's start.
def grantIn (old atStart : List Name) (untilPosition : Int) (core : Core V D) (selector : Name) : Core V D :=
  if core.backfills.keys.any (selectorCovers · selector) then core
  else if covered old selector ∧ ¬covered atStart selector then core
  else core.spawnIn selector untilPosition

def broadestFirst (selectors : List Name) : List Name :=
  selectors.insertionSort (fun a b => (selectorPrefix a).length ≤ (selectorPrefix b).length)

-- The backfills of a view: those it does not wholly cover go, and those it grants start.
def diffIn (core : Core V D) (view : ViewRecord) : Core V D :=
  let canceled := core.backfills.keys.filter (!covered view.selectors ·)
  (broadestFirst view.selectors).foldl
    (grantIn core.selectors core.backfills.keys (view.position+1)) (core.dropBackfillsIn canceled)

-- What a new view drops: frozen, the land drops it; a cancel that ended the freeze
-- lands what waited, the drops with it; and unfrozen, it goes now.
def dropsIn (wasFrozen : Bool) (core : Core V D) : Except Failure (Core V D) :=
  if core.frozen then .ok core
  else if wasFrozen then core.landIn
  else .ok (core.dropSlicesIn core.inView)

def onViewIn (core : Core V D) (view : ViewRecord) : Except Failure (Core V D) := do
  let after := (core.diffIn view).writeView view
  let after ← if after.checkpoint = none then after.advanceCursorIn view.position false else .ok after
  after.dropsIn core.frozen

def onOpenIn (core : Core V D) (epoch : Name) : Except Failure (Core V D) :=
  match core.checkpoint with
  | none => .ok {core with epoch:=some epoch}
  | some c => if c.epoch ≠ epoch then .error (.otherEpoch epoch c.epoch) else .ok {core with epoch:=some epoch}

-- One item of the inbox, in the inbox's transaction; an end is not of it.
def onItemIn (core : Core V D) : Inbound V → Except Failure (Core V D)
  | .edits edits => core.onEditsIn edits
  | .opened epoch _ => core.onOpenIn epoch
  | .view record => core.onViewIn record
  | .vouch position => core.onCursorIn position
  | .live position => core.onCursorIn position
  | .ended _ => .ok core

-- The inbox's transaction: each item in turn, and the land that the cursor may
-- have made possible.
def onItemsIn (core : Core V D) (items : List (Inbound V)) : Except Failure (Core V D) := do
  let core ← items.foldlM onItemIn core
  if core.frozen then core.tryLandIn else return core

end Core
end PhaseLock
