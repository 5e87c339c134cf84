import PhaseLock.StoreScans
import PhaseLock.Engine

namespace PhaseLock
open Skeleton (spanCovers utf16)

-- What one scan batch read: a stretch of the keys its pattern picks out.
structure ScanSpan where
  pattern : ScanPattern
  reverse : Bool
  from_ : Option Key
  to_ : Option Key
deriving DecidableEq

def ScanSpan.covers (span : ScanSpan) (key : Key) : Bool :=
  spanCovers ⟨span.pattern.compiled,span.reverse,span.from_.map utf16,span.to_.map utf16⟩ (utf16 key)

-- What a query's run read: the keys it got, the spans of its walks with the pattern of the last,
-- and whether the Engine held a read.  With them, whether a walk went on from a batch that ended
-- past the last row it handed out, and whether one was over a base tangled under its pattern.
structure ReadDeps where
  keys : List Key := []
  spans : List ScanSpan := []
  last : Option ScanPattern := none
  held : Bool := false
  skipped : Bool := false
  tangled : Bool := false
deriving DecidableEq

namespace ReadDeps

-- A batch that resumes where the last span ends, under the same pattern, extends it.
def record (deps : ReadDeps) (pattern : ScanPattern) (reverse : Bool) (after next : Option Key) : ReadDeps :=
  if deps.spans.getLast?.any fun last => last.to_.isSome && last.to_ = after && last.reverse = reverse && deps.last = some pattern then
    {deps with spans:=deps.spans.modify (deps.spans.length-1) fun last => {last with to_:=next}}
  else {deps with spans:=deps.spans++[⟨pattern,reverse,after,next⟩],last:=some pattern}

-- A span reaches what its walk has handed out, or the walk's end.
def cut (deps : ReadDeps) (span : Nat) (to_ : Option Key) : ReadDeps :=
  {deps with spans:=deps.spans.modify span fun s => {s with to_:=to_}}

-- Whether the run read a key, by getting it or by walking past where it lies.
def reads (deps : ReadDeps) (key : Key) : Bool := decide (key ∈ deps.keys) || deps.spans.any (·.covers key)

end ReadDeps

variable {V D τ : Type}

-- The live keys of the predictions' layer, in order.
def layerRows (overlay : Overlay V) (keep : Key → Bool) : List (Key × V) :=
  (OrderedMap.scan overlay).filterMap fun row => if keep row.1 then row.2.map fun value => (row.1,value) else none

-- The base's batch with the layer's keys inside its stretch merged in, cut to one batch.
def OverlayTxn.scan (base : Base V) (overlay : Overlay V) (pattern : ScanPattern) (reverse : Bool) (after : Option Key) (limit : Nat) :
    StoreScan V :=
  let result := base.storeScan pattern reverse after limit
  let span : ScanSpan := ⟨pattern,reverse,after,result.next⟩
  let merged := (result.entries.filter (fun row => !overlay.has row.1)++layerRows overlay span.covers).insertionSort fun a b => a.1 ≤ b.1
  let keys := if reverse then merged.reverse else merged
  -- where the base's batch was full, the walk resumes past it even if the merge was short
  ⟨keys.take limit,if limit ≤ keys.length then (keys.take limit).getLast?.map Prod.fst else result.next⟩

-- What queries read: the status, and the overlay over the base, held until the base exists.
structure QueryView (V : Type) where
  base : Base V
  overlay : Overlay V
  status : OrderedMap Key V := ∅
  held : Bool := false

-- A fetched batch: the rows still to hand out, where the next one resumes, its span, and whether
-- it ends past its last row.
structure Fetched (V : Type) where
  rows : List (Key × V)
  next : Option Key
  span : Nat
  skips : Bool
deriving DecidableEq

-- The entries of a walk, fetched in batches of growing size.
structure Batches (V : Type) where
  pattern : ScanPattern
  reverse : Bool
  after : Option Key := none
  limit : Nat := 16
  batch : Option (Fetched V) := none
  ended : Bool := false
deriving DecidableEq

namespace Batches

-- A batch, whose span the fetch just recorded or extended.
def fetch (view : QueryView V) (deps : ReadDeps) (w : Batches V) : ReadDeps × Batches V :=
  let page := OverlayTxn.scan view.base view.overlay w.pattern w.reverse w.after w.limit
  let deps := {deps.record w.pattern w.reverse w.after page.next with
    tangled:=deps.tangled || !decide (view.base.Untangled w.pattern w.reverse)}
  let skips := page.next.isSome && page.entries ≠ [] && page.entries.getLast?.map Prod.fst ≠ page.next
  (deps,{w with batch:=some ⟨page.entries,page.next,deps.spans.length-1,skips⟩})

-- The walk's next entry: of the batch in hand, or of the next one that has any.
def take (view : QueryView V) : Nat → ReadDeps → Batches V → Option (Key × V) × ReadDeps × Batches V
  | 0, deps, w => (none,deps,w)
  | fuel+1, deps, w => match w.batch with
    | none =>
      let (deps,w) := w.fetch view deps
      take view fuel deps w
    | some b => match b.rows,b.next with
      | row :: rows, _ => (some row,deps.cut b.span (some row.1),{w with batch:=some {b with rows}})
      | [], none => (none,deps.cut b.span none,{w with ended:=true})
      | [], some next =>
        let (deps,w) := fetch view {deps with skipped:=deps.skipped || b.skips} {w with after:=some next,limit:=min (w.limit*2) 256}
        take view fuel deps w

-- Each fetch but the last walks past a key of the base.
def fuel (view : QueryView V) : Nat := view.base.size+2

end Batches

-- A run of a query's function, with the walks it has opened.
structure QueryRunning (V : Type) where
  deps : ReadDeps := {}
  walks : List (Batches V) := []

namespace Reader

-- A read of the status, or one the Engine holds, or one of the overlay over the base.
def got (view : QueryView V) (key : Key) : Option (Option V) :=
  match view.status.get key with
  | some value => some (some value)
  | none => if view.held then none else some (view.overlay.view view.base key)

-- A query's function run, recording what it reads.
def run (view : QueryView V) : Reader Key V ScanPattern τ → QueryRunning V → Option τ × ReadDeps
  | .give result, s => (some result,s.deps)
  | .fail, s => (none,s.deps)
  | .get key more, s =>
    let answer := got view key
    run view (more answer) {s with deps:={s.deps with keys:=s.deps.keys++[key],held:=s.deps.held || answer.isNone}}
  | .walk pattern reverse more, s => run view more {s with walks:=s.walks++[{pattern,reverse}]}
  | .take i more, s => match s.walks[i]? with
    | none => run view (more (some none)) s
    | some w =>
      if w.ended then run view (more (some none)) s
      -- a held fetch throws out of the walk, which is over with it
      else if view.held then
        run view (more none)
          {s with
            deps:={s.deps with held:=true}
            walks:=s.walks.set i {w with ended:=true}}
      else
        let (row,deps,w) := w.take view (Batches.fuel view) s.deps
        run view (more (some row)) ⟨deps,s.walks.set i w⟩

end Reader

namespace Batches

theorem record_keeps (deps : ReadDeps) (pattern : ScanPattern) (reverse : Bool) (after next : Option Key) :
    (deps.record pattern reverse after next).held = deps.held ∧ (deps.record pattern reverse after next).keys = deps.keys ∧
      (deps.record pattern reverse after next).skipped = deps.skipped ∧ (deps.record pattern reverse after next).tangled = deps.tangled := by
  unfold ReadDeps.record
  split <;> exact ⟨rfl,rfl,rfl,rfl⟩

theorem take_keeps (view : QueryView V) (fuel : Nat) (deps : ReadDeps) (w : Batches V) :
    (take view fuel deps w).2.1.held = deps.held ∧ (take view fuel deps w).2.1.keys = deps.keys := by
  induction fuel generalizing deps w with
  | zero => exact ⟨rfl,rfl⟩
  | succ fuel ih =>
    have fetched : ∀ (deps : ReadDeps) (w : Batches V), (take view fuel (fetch view deps w).1 (fetch view deps w).2).2.1.held = deps.held ∧
        (take view fuel (fetch view deps w).1 (fetch view deps w).2).2.1.keys = deps.keys := by
      intro deps w
      rw [(ih _ _).1,(ih _ _).2]
      obtain ⟨held,keys,_⟩ := record_keeps deps w.pattern w.reverse w.after (OverlayTxn.scan view.base view.overlay w.pattern w.reverse w.after w.limit).next
      exact ⟨held,keys⟩
    unfold take
    split
    · exact fetched deps w
    · split
      · exact ⟨rfl,rfl⟩
      · exact ⟨rfl,rfl⟩
      · exact fetched _ _

end Batches

namespace Reader

theorem run_keeps_held (view : QueryView V) (program : Reader Key V ScanPattern τ) {s : QueryRunning V} (held : s.deps.held = true) :
    (program.run view s).2.held = true := by
  induction program generalizing s with
  | give | fail => exact held
  | get key more ih => exact ih _ (by simp [held])
  | walk pattern reverse more ih => exact ih held
  | take i more ih =>
    simp only [run]
    split
    · exact ih _ held
    · split
      · exact ih _ held
      · split
        · exact ih _ rfl
        · exact ih _ ((Batches.take_keeps _ _ _ _).1.trans held)

end Reader
end PhaseLock
