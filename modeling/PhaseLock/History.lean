import Mathlib.Algebra.Order.Ring.Int
import Mathlib.Data.List.Pairwise
import Mathlib.Order.MinMax
import Mathlib.Data.Int.Order.Basic

-- Histories whose events stand at positions, and the states folded from them.
namespace PhaseLock.History
variable {α β : Type} (pos : α → Int)

def Ordered (log : List α) : Prop := log.Pairwise (fun a b => pos a ≤ pos b)

def upTo (log : List α) (p : Int) : List α := log.filter (fun e => pos e ≤ p)
def between (log : List α) (p q : Int) : List α := log.filter (fun e => p < pos e ∧ pos e ≤ q)

def stateAt (step : β → α → β) (start : β) (log : List α) (p : Int) : β :=
  (upTo pos log p).foldl step start

variable {pos} {log : List α} {p q r : Int} {step : β → α → β} {start : β}

theorem mem_between {e : α} : e ∈ between pos log p q ↔ e ∈ log ∧ p < pos e ∧ pos e ≤ q := by
  simp [between]

theorem between_split (ordered : Ordered pos log) (left : p ≤ q) (right : q ≤ r) :
    between pos log p r = between pos log p q++between pos log q r := by
  induction log with
  | nil => rfl
  | cons head rest ih =>
    obtain ⟨first,tail⟩ := List.pairwise_cons.mp ordered
    have prior := ih tail
    simp only [between,List.filter_cons] at prior ⊢
    by_cases early : pos head ≤ q
    · have held : ¬q < pos head := by omega
      have whole : pos head ≤ r := by omega
      by_cases inside : p < pos head <;> simpa [inside,early,whole,held] using prior
    · -- the head is past q, so nothing after it is at or before q
      have none : rest.filter (fun e => p < pos e ∧ pos e ≤ q) = [] := by
        rw [List.filter_eq_nil_iff]
        intro e member
        have later := first e member
        simp only [decide_eq_true_eq]
        omega
      rw [none,List.nil_append] at prior
      have past : p < pos head := by omega
      have beyond : q < pos head := by omega
      simp only [decide_eq_true_eq,none,prior,past,beyond,true_and,if_neg early,List.nil_append]

theorem upTo_between (ordered : Ordered pos log) (le : p ≤ q) :
    upTo pos log q = upTo pos log p++between pos log p q := by
  -- a position below every event makes the whole prefix a segment
  obtain ⟨low,below⟩ : ∃ low, low ≤ p ∧ ∀ e ∈ log, low < pos e := by
    clear ordered le
    induction log with
    | nil => exact ⟨p,le_refl p,by simp⟩
    | cons head rest ih =>
      obtain ⟨low,under,all⟩ := ih
      refine ⟨min low (pos head-1),by omega,?_⟩
      intro e member
      rcases List.mem_cons.mp member with rfl | old
      · omega
      · have far := all e old
        omega
  have whole : ∀ top, upTo pos log top = between pos log low top := by
    intro top
    apply List.filter_congr
    intro e member
    simp [below.2 e member]
  rw [whole q,whole p]
  exact between_split ordered below.1 le

theorem stateAt_between (ordered : Ordered pos log) (le : p ≤ q) :
    stateAt pos step start log q = (between pos log p q).foldl step (stateAt pos step start log p) := by
  rw [stateAt,upTo_between ordered le,List.foldl_append,stateAt]

theorem between_nil : between pos log p q = [] ↔ ∀ e ∈ log, p < pos e → q < pos e := by
  simp [between]

-- A stretch without events leaves the state as it was.
theorem stateAt_quiet (ordered : Ordered pos log) (le : p ≤ q) (quiet : ∀ e ∈ log, p < pos e → q < pos e) :
    stateAt pos step start log q = stateAt pos step start log p := by
  rw [stateAt_between ordered le,between_nil.mpr quiet,List.foldl_nil]

end PhaseLock.History
