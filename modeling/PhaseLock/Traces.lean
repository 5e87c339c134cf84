import Mathlib.Data.List.Basic

namespace PhaseLock

-- A property of each entry of a trace and what came before it.
def Along (P : List α → α → Prop) : List α → List α → Prop
  | _,[] => True
  | seen,x :: rest => P seen x ∧ Along P (seen++[x]) rest

variable {P Q : List α → α → Prop} {seen xs ys : List α}

instance instDecidableAlong (P : List α → α → Prop) [∀ seen x, Decidable (P seen x)] : ∀ seen xs, Decidable (Along P seen xs)
  | _,[] => .isTrue trivial
  | seen,x :: rest => have := instDecidableAlong P (seen++[x]) rest; inferInstanceAs (Decidable (_ ∧ _))

@[simp] theorem along_nil : Along P seen [] := trivial

theorem along_append : Along P seen (xs++ys) ↔ Along P seen xs ∧ Along P (seen++xs) ys := by
  induction xs generalizing seen with
  | nil => simp
  | cons x xs ih => simp only [List.cons_append,Along,ih,and_assoc,List.append_assoc,List.nil_append]

theorem along_single {x : α} : Along P seen [x] ↔ P seen x := by simp [Along]

theorem Along.imp (implies : ∀ earlier x, P earlier x → Q earlier x) (along : Along P seen xs) : Along Q seen xs := by
  induction xs generalizing seen with
  | nil => trivial
  | cons x xs ih => exact ⟨implies _ _ along.1,ih along.2⟩

-- Along a trace is at each of its entries.
theorem along_iff : Along P seen xs ↔ ∀ earlier x later, xs = earlier++x :: later → P (seen++earlier) x := by
  constructor
  · rintro along earlier x later rfl
    exact (along_append.mp along).2.1
  · intro each
    induction xs generalizing seen with
    | nil => trivial
    | cons x xs ih =>
      refine ⟨by simpa using each [] x xs rfl,ih fun earlier y later split => ?_⟩
      simpa using each (x :: earlier) y later (by rw [split]; rfl)

end PhaseLock
