import PhaseLock.History
import PhaseLock.Names
import PhaseLock.Runs

namespace PhaseLock

inductive Lifecycle where
  | normal | birth | death
deriving DecidableEq

-- An edit as a connection delivers it: its envelope, and its payload's
-- operations, of which a set carries a value and a deletion none.
structure WireEdit (V : Type) where
  position : Int
  slice : Name
  seq : Nat
  id : Nat
  lifecycle : Lifecycle
  ops : List (Key × Option V)
deriving DecidableEq

-- What a slice is after the edits of a prefix of the log: its last seq and its keys.
structure SliceState (V : Type) where
  seq : Nat
  keys : Key → Option V

def writes (ops : List (Key × Option V)) (keys : Key → Option V) : Key → Option V :=
  ops.foldl (fun keys op k => if op.1 = k then op.2 else keys k) keys

def keysOf : Option (SliceState V) → Key → Option V
  | some s => s.keys
  | none => fun _ => none

-- One edit of a slice: a birth clears the slice and then writes, a death clears
-- it and forgets it, and a normal edit writes over what the slice holds.
def WireEdit.apply (e : WireEdit V) (before : Option (SliceState V)) : Option (SliceState V) :=
  match e.lifecycle with
  | .death => none
  | .birth => some ⟨e.seq,writes e.ops (keysOf none)⟩
  | .normal => some ⟨e.seq,writes e.ops (keysOf before)⟩

def editsOf (log : List (WireEdit V)) (slice : Name) : List (WireEdit V) :=
  log.filter (fun e => e.slice = slice)

-- The server's state of a slice at a position: the fold of its edits through it.
def serverState (log : List (WireEdit V)) (slice : Name) (p : Int) : Option (SliceState V) :=
  History.stateAt WireEdit.position (fun s e => e.apply s) none (editsOf log slice) p

-- A log as the database writes it: in position order, a slice edited at most
-- once at a position, its seqs increasing, and each edit writing under its own
-- slice.  Seqs need not be dense, so a log read after an erasure is one too.
structure ValidLog (log : List (WireEdit V)) : Prop where
  ordered : History.Ordered WireEdit.position log
  chained : log.Pairwise (fun a b => a.slice = b.slice → a.position < b.position ∧ a.seq < b.seq)
  positive : ∀ e ∈ log, 0 < e.position
  plain : ∀ e ∈ log, PlainName e.slice
  under : ∀ e ∈ log, ∀ op ∈ e.ops, sliceOf op.1 = some e.slice

variable {V : Type} {log : List (WireEdit V)} {slice : Name} {p q : Int}

theorem WireEdit.apply_seq (e : WireEdit V) (before : Option (SliceState V)) :
    (e.apply before).map SliceState.seq = if e.lifecycle = .death then none else some e.seq := by
  unfold WireEdit.apply
  cases e.lifecycle <;> rfl

theorem mem_editsOf {e : WireEdit V} : e ∈ editsOf log slice ↔ e ∈ log ∧ e.slice = slice := by
  simp [editsOf]

theorem ValidLog.edits_ordered (valid : ValidLog log) (slice : Name) :
    History.Ordered WireEdit.position (editsOf log slice) := valid.ordered.filter _

theorem ValidLog.edits_chained (valid : ValidLog log) (slice : Name) :
    (editsOf log slice).Pairwise (fun a b => a.position < b.position ∧ a.seq < b.seq) := by
  refine (valid.chained.filter _).imp_of_mem ?_
  intro a b left right chained
  exact chained ((mem_editsOf.mp left).2.trans (mem_editsOf.mp right).2.symm)

-- Two edits of one slice are the same, or stand in one order by position and by seq.
theorem ValidLog.order (valid : ValidLog log) {a b : WireEdit V} (left : a ∈ log) (right : b ∈ log)
    (same : a.slice = b.slice) : a = b ∨ (a.position < b.position ∧ a.seq < b.seq) ∨
      (b.position < a.position ∧ b.seq < a.seq) := by
  let R := fun a b : WireEdit V => a.slice = b.slice → a = b ∨ (a.position < b.position ∧ a.seq < b.seq) ∨
    (b.position < a.position ∧ b.seq < a.seq)
  have symmetric : Std.Symm R := ⟨by
    intro x y xy equal
    rcases xy equal.symm with rfl | before | after
    · exact .inl rfl
    · exact .inr (.inr before)
    · exact .inr (.inl after)⟩
  have reflexive : ∀ x ∈ log, R x x := fun _ _ _ => .inl rfl
  have ordered : log.Pairwise R := valid.chained.imp (fun before equal => .inr (.inl (before equal)))
  exact List.Pairwise.forall_of_forall reflexive ordered left right same

theorem ValidLog.seq_lt (valid : ValidLog log) {a b : WireEdit V} (left : a ∈ log) (right : b ∈ log)
    (same : a.slice = b.slice) : a.seq < b.seq ↔ a.position < b.position := by
  rcases valid.order left right same with rfl | before | after
  · simp
  · simp [before]
  · constructor <;> intro less <;> omega

theorem ValidLog.seq_eq (valid : ValidLog log) {a b : WireEdit V} (left : a ∈ log) (right : b ∈ log)
    (same : a.slice = b.slice) (equal : a.seq = b.seq) : a = b := by
  rcases valid.order left right same with rfl | before | after
  · rfl
  · omega
  · omega

theorem ValidLog.position_eq (valid : ValidLog log) {a b : WireEdit V} (left : a ∈ log) (right : b ∈ log)
    (same : a.slice = b.slice) (equal : a.position = b.position) : a = b := by
  rcases valid.order left right same with rfl | before | after
  · rfl
  · omega
  · omega

theorem serverState_quiet (valid : ValidLog log) (le : p ≤ q)
    (quiet : ∀ e ∈ log, e.slice = slice → p < e.position → q < e.position) :
    serverState log slice q = serverState log slice p :=
  History.stateAt_quiet (valid.edits_ordered slice) le fun e member =>
    quiet e (mem_editsOf.mp member).1 (mem_editsOf.mp member).2

-- Either no edit of a slice stands at or below a position, or its last one there
-- gives the state.
theorem serverState_last (valid : ValidLog log) (slice : Name) (p : Int) :
    (serverState log slice p = none ∧ ∀ e ∈ log, e.slice = slice → p < e.position) ∨
    ∃ last ∈ log, last.slice = slice ∧ last.position ≤ p ∧
      (∀ e ∈ log, e.slice = slice → e.position ≤ p → e.position ≤ last.position) ∧
      ∃ before, serverState log slice p = last.apply before := by
  have chained := (valid.edits_chained slice).filter (fun e => e.position ≤ p)
  have members : ∀ e, e ∈ History.upTo WireEdit.position (editsOf log slice) p ↔
      (e ∈ log ∧ e.slice = slice) ∧ e.position ≤ p := by
    intro e; simp [History.upTo,mem_editsOf]
  change (History.upTo WireEdit.position (editsOf log slice) p).Pairwise _ at chained
  unfold serverState History.stateAt
  generalize History.upTo WireEdit.position (editsOf log slice) p = edits at chained members
  rcases List.eq_nil_or_concat' edits with rfl | ⟨earlier,last,rfl⟩
  · refine .inl ⟨rfl,?_⟩
    intro e member same
    by_contra early
    exact absurd ((members e).mpr ⟨⟨member,same⟩,by omega⟩) (by simp)
  · obtain ⟨⟨member,same⟩,reached⟩ := (members last).mp (by simp)
    refine .inr ⟨last,member,same,reached,?_,earlier.foldl (fun s e => e.apply s) none,
      by rw [List.foldl_append]; rfl⟩
    intro e inLog sameSlice early
    rcases List.mem_append.mp ((members e).mpr ⟨⟨inLog,sameSlice⟩,early⟩) with old | new
    · have before := (List.pairwise_append.mp chained).2.2 e old last (by simp)
      omega
    · simp only [List.mem_singleton] at new
      rw [new]

-- A live slice's seq is that of its last edit, and tells the edits at or below
-- the position from those above it.
theorem serverState_some (valid : ValidLog log) {state : SliceState V}
    (live : serverState log slice p = some state) {e : WireEdit V} (member : e ∈ log)
    (same : e.slice = slice) : e.seq ≤ state.seq ↔ e.position ≤ p := by
  rcases serverState_last valid slice p with ⟨none,_⟩ | ⟨last,inLog,sameSlice,reached,latest,before,given⟩
  · rw [live] at none; cases none
  · have seq : state.seq = last.seq := by
      rw [live] at given
      unfold WireEdit.apply at given
      split at given
      · cases given
      · cases given; rfl
      · cases given; rfl
    have order := valid.seq_lt inLog member (sameSlice.trans same.symm)
    constructor
    · intro le
      by_contra past
      have above := order.mpr (by omega)
      omega
    · intro early
      have most := latest e member same early
      have nope : ¬last.seq < e.seq := fun less => absurd (order.mp less) (by omega)
      omega

theorem serverState_seq (valid : ValidLog log) {state : SliceState V}
    (live : serverState log slice p = some state) :
    ∃ last ∈ log, last.slice = slice ∧ last.position ≤ p ∧ last.seq = state.seq ∧ last.lifecycle ≠ .death := by
  rcases serverState_last valid slice p with ⟨none,_⟩ | ⟨last,inLog,sameSlice,reached,_,before,given⟩
  · rw [live] at none; cases none
  · rw [live] at given
    unfold WireEdit.apply at given
    refine ⟨last,inLog,sameSlice,reached,?_⟩
    split at given
    · cases given
    · rename_i kind; cases given; exact ⟨rfl,by simp [kind]⟩
    · rename_i kind; cases given; exact ⟨rfl,by simp [kind]⟩

-- A slice that is not live has no edit at or below the position, or died there.
theorem serverState_none (valid : ValidLog log) (dead : serverState log slice p = none)
    {e : WireEdit V} (member : e ∈ log) (same : e.slice = slice) (early : e.position ≤ p) :
    ∃ death ∈ log, death.slice = slice ∧ death.lifecycle = .death ∧ e.position ≤ death.position ∧
      death.position ≤ p := by
  rcases serverState_last valid slice p with ⟨_,above⟩ | ⟨last,inLog,sameSlice,reached,latest,before,given⟩
  · exact absurd (above e member same) (by omega)
  · refine ⟨last,inLog,sameSlice,?_,latest e member same early,reached⟩
    rw [dead] at given
    unfold WireEdit.apply at given
    split at given
    · assumption
    · cases given
    · cases given

-- A slice's keys stand under its name.
def Under (slice : Name) (keys : Key → Option V) : Prop := ∀ k v, keys k = some v → sliceOf k = some slice

theorem writes_under {ops : List (Key × Option V)} {keys : Key → Option V} (unders : ∀ op ∈ ops, sliceOf op.1 = some slice)
    (before : Under slice keys) : Under slice (writes ops keys) := by
  refine foldl_invariant ?_ before
  intro keys op member before k v held
  by_cases here : op.1 = k
  · exact here ▸ unders op member
  · simp only [if_neg here] at held
    exact before k v held

theorem WireEdit.apply_under {e : WireEdit V} {state : Option (SliceState V)} (unders : ∀ op ∈ e.ops, sliceOf op.1 = some slice)
    (before : Under slice (keysOf state)) : Under slice (keysOf (e.apply state)) := by
  unfold WireEdit.apply
  have none : Under slice (keysOf (none : Option (SliceState V))) := by intro k v held; cases held
  cases e.lifecycle with
  | normal => exact writes_under unders before
  | birth => exact writes_under unders none
  | death => exact none

theorem serverState_under (valid : ValidLog log) : Under slice (keysOf (serverState log slice p)) := by
  refine foldl_invariant (P := fun state => Under slice (keysOf state)) ?_ (by intro k v held; cases held)
  intro state e member before
  obtain ⟨inLog,same⟩ := mem_editsOf.mp (List.mem_filter.mp member).1
  exact WireEdit.apply_under (fun op inside => same ▸ valid.under e inLog op inside) before

theorem serverState_plain (valid : ValidLog log) {state : SliceState V}
    (live : serverState log slice p = some state) : PlainName slice := by
  obtain ⟨last,member,same,_⟩ := serverState_seq valid live
  exact same ▸ valid.plain last member

end PhaseLock
