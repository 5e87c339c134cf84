import PhaseLock.Selectors

namespace PhaseLock
open Selectors (intersect sortDedup viewToken)

-- What the grantor allows a principal, or why it failed.  A failure's text is never empty.
abbrev Grant := Except Name (List Name)

-- What a view result carries of a grant.
def viewFill (grant : Grant) : Grant := grant.map sortDedup

-- What the core compares to see a grant change: the hash of its selectors, and whether it
-- failed.
def grantMark : Grant → Name × Bool
  | .ok granted => (viewToken (sortDedup granted),false)
  | .error _ => (viewToken [],true)

-- The selectors a grant gives, in order, unless it failed.
def grantSelectors (grant : Grant) : Option (List Name) := (viewFill grant).toOption

-- A grant cut down to a connection's wants; one that failed grants nothing.
def viewOf (wants : List Name) : Grant → List Name
  | .ok granted => intersect granted wants
  | .error _ => []

-- The cut to the wants is one for every list of the same selectors.
theorem intersect_same (same : ∀ m, m ∈ granted ↔ m ∈ other) (wants : List Name) : intersect granted wants = intersect other wants := by
  unfold intersect
  refine Selectors.sortDedup_ext fun r => ?_
  rw [List.mem_flatMap,List.mem_flatMap]
  exact exists_congr fun m => and_congr_left fun _ => same m

theorem intersect_sorted (granted wants : List Name) : intersect (sortDedup granted) wants = intersect granted wants :=
  intersect_same (fun _ => Selectors.mem_sortDedup) wants

-- Two grants whose cuts to the wants have one token are cut to one view.
def Parted (wants : List Name) (was now : Option (List Name)) : Prop :=
  ∀ x ∈ was, ∀ y ∈ now, viewToken (intersect x wants) = viewToken (intersect y wants) → intersect x wants = intersect y wants

instance (wants : List Name) (was now : Option (List Name)) : Decidable (Parted wants was now) :=
  inferInstanceAs (Decidable (∀ x ∈ was, ∀ y ∈ now, _ → _))

-- A view of no wants covers what the grant does.
@[simp] theorem covered_all (granted : List Name) (name : Name) : covered (intersect granted []) name = covered granted name := by
  have everything : ∀ m : Name, selectorCovers ['*'] m = true := fun m => by simp [selectorCovers]
  have same : ∀ selector, selector ∈ intersect granted [] ↔ selector ∈ granted := by
    intro selector
    rw [Selectors.mem_intersect]
    simp [Selectors.wanted,everything]
  rw [Bool.eq_iff_iff,covered_iff,covered_iff]
  simp only [same]

end PhaseLock
