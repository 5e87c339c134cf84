import PhaseLock.Texts
import Mathlib.Data.List.TakeWhile

namespace PhaseLock
namespace Texts
variable {α β : Type} [LinearOrder α] {s t x y : List α} {sep : α}

-- Texts with a separator after a head of higher characters stand in the order of their heads.
theorem heads_le (above : ∀ c ∈ s, sep < c) (less : s++sep :: x < t++sep :: y) : s ≤ t := by
  by_contra back
  rcases lt_cases (not_le.mp back) with ⟨c,rest,is⟩ | apart
  · have high : sep < c := above c (by rw [is]; simp)
    rw [is,List.append_assoc,append_lt_iff,List.cons_append,List.cons_lt_cons_iff] at less
    rcases less with low | ⟨same,_⟩
    · exact lt_asymm high low
    · exact absurd high (same ▸ lt_irrefl c)
  · exact lt_asymm less (apart _ _)

-- In rows in the order of their keys, those that start with a text are one run from the text on.
theorem run_filter {rows : List (List α × β)} (sorted : rows.Pairwise fun a b => a.1 < b.1) (p : List α) :
    (rows.dropWhile (·.1 < p)).takeWhile (p.isPrefixOf ·.1) = rows.filter (p.isPrefixOf ·.1) := by
  induction rows with
  | nil => rfl
  | cons row rows ih =>
    obtain ⟨first,rest⟩ := List.pairwise_cons.mp sorted
    by_cases low : row.1 < p
    · have outside : ¬p.isPrefixOf row.1 = true := fun starts =>
        absurd (prefix_le (List.isPrefixOf_iff_prefix.mp starts)) (not_le.mpr low)
      rw [List.dropWhile_cons_of_pos (by simpa using low),List.filter_cons_of_neg (p:=fun row : List α × β => p.isPrefixOf row.1) outside,ih rest]
    · rw [List.dropWhile_cons_of_neg (by simpa using low)]
      by_cases starts : p.isPrefixOf row.1 = true
      · have past : rows.dropWhile (·.1 < p) = rows := by
          cases rows with
          | nil => rfl
          | cons next rows =>
            have beyond := lt_of_le_of_lt (not_lt.mp low) (first next List.mem_cons_self)
            rw [List.dropWhile_cons_of_neg (by simpa using le_of_lt beyond)]
        rw [List.takeWhile_cons_of_pos (p:=fun row : List α × β => p.isPrefixOf row.1) starts,
          List.filter_cons_of_pos (p:=fun row : List α × β => p.isPrefixOf row.1) starts,← ih rest,past]
      · have none : ∀ row' ∈ rows, ¬p.isPrefixOf row'.1 = true := by
          intro row' member again
          have le := prefix_between (List.prefix_refl p) (List.isPrefixOf_iff_prefix.mp again) (not_lt.mp low) (le_of_lt (first row' member))
          exact starts (List.isPrefixOf_iff_prefix.mpr le)
        rw [List.takeWhile_cons_of_neg (p:=fun row : List α × β => p.isPrefixOf row.1) starts,
          List.filter_cons_of_neg (p:=fun row : List α × β => p.isPrefixOf row.1) starts,List.filter_eq_nil_iff.mpr none]

section Sign
variable {γ δ : Type} [DecidableEq γ] [DecidableEq δ] {e : γ → List δ} {c : γ} {sign : δ}

theorem splitOn_apart {front : List δ} (apart : sign ∉ front) (rest : List δ) :
    (front++rest).splitOn sign = (rest.splitOn sign).modifyHead (front++·) := by
  induction front with
  | nil => cases parts : rest.splitOn sign <;> simp [parts]
  | cons first front ih =>
    rw [List.mem_cons,not_or] at apart
    rw [List.cons_append,List.splitOn_cons_eq_if_modifyHead,if_neg (by simpa using Ne.symm apart.1),ih apart.2,List.modifyHead_modifyHead]
    rfl

theorem Sign.dropWhile (is : Sign e c sign) (v : List γ) :
    (v.flatMap e).dropWhile (· ≠ sign) = (v.dropWhile (· ≠ c)).flatMap e := by
  have split := List.takeWhile_append_dropWhile (p := (· ≠ sign)) (l := v.flatMap e)
  rw [is.takeWhile] at split
  have own := congrArg (List.flatMap e) (List.takeWhile_append_dropWhile (p := (· ≠ c)) (l := v))
  rw [List.flatMap_append] at own
  exact List.append_cancel_left (split.trans own.symm)

-- A coded text's fields are the codes of its own.
theorem Sign.splitOn (is : Sign e c sign) (v : List γ) : (v.flatMap e).splitOn sign = (v.splitOn c).map (List.flatMap e) := by
  induction v with
  | nil => rfl
  | cons x v ih =>
    rw [List.flatMap_cons,List.splitOn_cons_eq_if_modifyHead]
    by_cases same : x = c
    · rw [same,is.here,List.singleton_append,List.splitOn_cons_eq_if_modifyHead,if_pos (by simp),if_pos (by simp),ih]
      rfl
    · rw [if_neg (by simpa using same),splitOn_apart (is.only x same),ih]
      cases v.splitOn c with
      | nil => rfl
      | cons first more => simp

end Sign

end Texts
end PhaseLock
