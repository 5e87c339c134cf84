import Mathlib.Algebra.Order.Ring.Int
import Mathlib.Data.List.Basic

namespace PhaseLock
namespace Searches
variable {α : Type} (cmp : α → Ordering)

-- A binary search of a list in order: the place of an element that compares equal, or the
-- place one would be put at.  The half that may hold it starts at base and has size elements.
def narrow (l : List α) : Nat → Nat → Nat → Nat
  | 0,base,_ => base
  | fuel+1,base,size =>
    if size ≤ 1 then base
    else
      let mid := base+size/2
      narrow l fuel (if (l[mid]?).map cmp = some .gt then base else mid) (size-size/2)

def binarySearchBy (l : List α) : Except Nat Nat :=
  if l.length = 0 then .error 0
  else
    let base := narrow cmp l l.length 0 l.length
    match (l[base]?).map cmp with
    | some .eq => .ok base
    | some .lt => .error (base+1)
    | _ => .error base

-- Elements that compare less, then one that compares equal at most, then those that compare greater.
def Ordered (l : List α) : Prop := l.Pairwise fun a b => cmp a ≠ .lt → cmp b = .gt

variable {cmp} {l : List α}

theorem Ordered.later (ordered : Ordered cmp l) {i j : Nat} {a b : α} (less : i < j) (first : l[i]? = some a) (second : l[j]? = some b)
    (past : cmp a ≠ .lt) : cmp b = .gt := by
  obtain ⟨low,rfl⟩ := List.getElem?_eq_some_iff.mp first
  obtain ⟨high,rfl⟩ := List.getElem?_eq_some_iff.mp second
  exact List.pairwise_iff_getElem.mp ordered i j low high less past

-- What a search knows: nothing past its half is equal or less, and its first element, if not
-- the list's, is not greater.
structure Half (cmp : α → Ordering) (l : List α) (base size : Nat) : Prop where
  some : 0 < size
  inside : base+size ≤ l.length
  above : ∀ i a, base+size ≤ i → l[i]? = .some a → cmp a = .gt
  below : 0 < base → ∀ a, l[base]? = .some a → cmp a ≠ .gt

theorem narrow_half (ordered : Ordered cmp l) {fuel base size : Nat} (half : Half cmp l base size) (enough : size ≤ fuel) :
    Half cmp l (narrow cmp l fuel base size) 1 := by
  induction fuel generalizing base size with
  | zero => exact absurd enough (Nat.not_le.mpr half.some)
  | succ fuel ih =>
    have positive := half.some
    have inside := half.inside
    rw [narrow]
    by_cases one : size ≤ 1
    · have is : size = 1 := by omega
      rw [if_pos one]
      exact is ▸ half
    · rw [if_neg one]
      dsimp only
      have within : base+size/2 < l.length := by omega
      by_cases greater : (l[base+size/2]?).map cmp = some .gt
      · rw [if_pos greater]
        obtain ⟨m,at_,is⟩ := Option.map_eq_some_iff.mp greater
        refine ih ⟨by omega,by omega,fun i a past held => ?_,half.below⟩ (by omega)
        rcases Nat.lt_or_eq_of_le (show base+size/2 ≤ i by omega) with less | same
        · exact ordered.later less at_ held (by rw [is]; decide)
        · rw [← same,at_] at held
          cases held
          exact is
      · rw [if_neg greater]
        refine ih ⟨by omega,by omega,fun i a past held => half.above i a (by omega) held,fun _ a held same => ?_⟩ (by omega)
        rw [held,Option.map_some,same] at greater
        exact greater rfl

-- A search finds the element that compares equal, or parts the list where it would stand.
theorem binarySearchBy_spec (ordered : Ordered cmp l) : match binarySearchBy cmp l with
    | .ok i => ∃ t, l[i]? = some t ∧ cmp t = .eq
    | .error i => i ≤ l.length ∧ (∀ t ∈ l.take i, cmp t = .lt) ∧ ∀ t ∈ l.drop i, cmp t = .gt := by
  unfold binarySearchBy
  by_cases none : l.length = 0
  · rw [if_pos none,List.length_eq_zero_iff.mp none]
    simp
  · rw [if_neg none]
    have whole : Half cmp l 0 l.length := by
      refine ⟨Nat.pos_of_ne_zero none,by omega,fun i a past held => ?_,fun low => absurd low (Nat.lt_irrefl 0)⟩
      rw [List.getElem?_eq_none (by omega)] at held
      cases held
    have half := narrow_half ordered whole (Nat.le_refl _)
    generalize narrow cmp l l.length 0 l.length = base at half
    dsimp only
    have inside := half.inside
    have at_ : l[base]? = some l[base] := List.getElem?_eq_getElem (by omega)
    -- an element before another that is not greater is less
    have before : cmp l[base] ≠ .gt → ∀ t ∈ l.take base, cmp t = .lt := by
      intro low t member
      obtain ⟨i,bound,rfl⟩ := List.mem_take_iff_getElem.mp member
      by_contra past
      exact low (ordered.later (by omega) (List.getElem?_eq_getElem (by omega)) at_ past)
    have after : ∀ t ∈ l.drop (base+1), cmp t = .gt := by
      intro t member
      obtain ⟨i,bound,rfl⟩ := List.mem_drop_iff_getElem.mp member
      exact half.above (base+1+i) _ (by omega) (List.getElem?_eq_getElem (by omega))
    have split : l.drop base = l[base] :: l.drop (base+1) := List.drop_eq_getElem_cons (by omega)
    rw [at_,Option.map_some]
    cases is : cmp l[base] with
    | eq => exact ⟨_,at_,is⟩
    | lt =>
      refine ⟨inside,fun t member => ?_,after⟩
      rw [List.take_add_one,at_,Option.toList_some,List.mem_append,List.mem_singleton] at member
      rcases member with earlier | rfl
      · exact before (by rw [is]; decide) t earlier
      · exact is
    | gt =>
      have start : base = 0 := by
        by_contra some_
        exact half.below (Nat.pos_of_ne_zero some_) _ at_ is
      refine ⟨by omega,fun t member => ?_,fun t member => ?_⟩
      · rw [start,List.take_zero] at member
        cases member
      · rw [split] at member
        rcases List.mem_cons.mp member with rfl | later
        · exact is
        · exact after t later

end Searches
end PhaseLock
