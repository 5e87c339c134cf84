import PhaseLock.OrderedMap
import Mathlib.Data.Finset.Basic

namespace PhaseLock

-- A map of sets, which holds no set that is empty.
abbrev Shelves (κ τ : Type) := OrderedMap κ (Finset τ)

namespace Shelves
variable {κ τ : Type} [DecidableEq κ]

def at_ (m : Shelves κ τ) (k : κ) : Finset τ := (m.get k).getD ∅

-- The map holds what is so and nothing else.
structure Holds (m : Shelves κ τ) (so : κ → τ → Prop) : Prop where
  member : ∀ k x, x ∈ m.at_ k ↔ so k x
  full : ∀ k, m.get k ≠ some ∅

variable {m other : Shelves κ τ} {so : κ → τ → Prop}

theorem holds_empty : Holds (∅ : Shelves κ τ) fun _ _ => False := ⟨fun k x => by simp [at_],fun k => by simp⟩

theorem Holds.congr (holds : Holds m so) (same : ∀ k x, so k x ↔ still k x) : Holds m still :=
  ⟨fun k x => (holds.member k x).trans (same k x),holds.full⟩

-- What maps hold is all they are.
theorem Holds.same (left : Holds m so) (right : Holds other so) (k : κ) : m.get k = other.get k := by
  have members : m.at_ k = other.at_ k := Finset.ext fun x => (left.member k x).trans (right.member k x).symm
  unfold at_ at members
  cases held : m.get k with
  | none =>
    cases also : other.get k with
    | none => rfl
    | some set =>
      rw [held,also,Option.getD_none,Option.getD_some] at members
      rw [← members] at also
      exact absurd also (right.full k)
  | some set =>
    cases also : other.get k with
    | none =>
      rw [held,also,Option.getD_none,Option.getD_some] at members
      rw [members] at held
      exact absurd held (left.full k)
    | some set' =>
      rw [held,also,Option.getD_some,Option.getD_some] at members
      rw [members]

variable [DecidableEq τ]

def file (m : Shelves κ τ) (k : κ) (x : τ) : Shelves κ τ := m.set k (insert x (m.at_ k))

-- Drops an entry, and its set once it is empty.
def remove (m : Shelves κ τ) (k : κ) (x : τ) : Shelves κ τ :=
  match m.get k with
  | none => m
  | some set => if set.erase x = ∅ then m.del k else m.set k (set.erase x)

theorem at_file (m : Shelves κ τ) (k : κ) (x : τ) (k' : κ) : (m.file k x).at_ k' = if k = k' then insert x (m.at_ k) else m.at_ k' := by
  unfold file
  rw [at_,OrderedMap.get_set]
  split <;> rfl

theorem Holds.file (holds : Holds m so) (k : κ) (x : τ) : Holds (m.file k x) fun k' x' => k' = k ∧ x' = x ∨ so k' x' := by
  refine ⟨fun k' x' => ?_,fun k' => ?_⟩
  · rw [at_file]
    by_cases here : k = k'
    · subst here
      rw [if_pos rfl,Finset.mem_insert,holds.member]
      simp
    · rw [if_neg here,holds.member]
      simp [Ne.symm here]
  · unfold Shelves.file
    rw [OrderedMap.get_set]
    split
    · exact fun none => absurd (Option.some.inj none) (Finset.insert_ne_empty x _)
    · exact holds.full k'

theorem get_remove (m : Shelves κ τ) (k : κ) (x : τ) (k' : κ) : (m.remove k x).get k' =
    if k = k' then (m.get k).bind fun set => if set.erase x = ∅ then none else some (set.erase x) else m.get k' := by
  unfold remove
  cases held : m.get k with
  | none =>
    by_cases here : k = k'
    · subst here
      simp [held]
    · simp [here]
  | some set =>
    by_cases empty : set.erase x = ∅
    · simp [empty,OrderedMap.get_del]
    · simp [empty,OrderedMap.get_set]

theorem at_remove (m : Shelves κ τ) (k : κ) (x : τ) (k' : κ) : (m.remove k x).at_ k' = if k = k' then (m.at_ k).erase x else m.at_ k' := by
  unfold at_
  rw [get_remove]
  by_cases here : k = k'
  · rw [if_pos here,if_pos here]
    cases m.get k with
    | none => rfl
    | some set =>
      by_cases empty : set.erase x = ∅ <;> simp [empty]
  · rw [if_neg here,if_neg here]

theorem Holds.remove (holds : Holds m so) (k : κ) (x : τ) : Holds (m.remove k x) fun k' x' => ¬(k' = k ∧ x' = x) ∧ so k' x' := by
  refine ⟨fun k' x' => ?_,fun k' => ?_⟩
  · rw [at_remove]
    by_cases here : k = k'
    · subst here
      rw [if_pos rfl,Finset.mem_erase,holds.member]
      simp
    · rw [if_neg here,holds.member]
      simp [Ne.symm here]
  · rw [get_remove]
    split
    · cases m.get k with
      | none =>
        intro is
        cases is
      | some set =>
        rw [Option.bind_some]
        split
        · intro is
          cases is
        · rename_i some
          exact fun none => some (Option.some.inj none)
    · exact holds.full k'

-- Entries filed, and entries dropped, one after another.
theorem Holds.files (holds : Holds m so) (rows : List (κ × τ)) :
    Holds (rows.foldl (fun m row => m.file row.1 row.2) m) fun k x => (k,x) ∈ rows ∨ so k x := by
  induction rows generalizing m so with
  | nil => exact holds.congr fun k x => by simp
  | cons row rest ih =>
    refine (ih (holds.file row.1 row.2)).congr fun k x => ?_
    rw [List.mem_cons,Prod.ext_iff]
    tauto

theorem Holds.removes (holds : Holds m so) (rows : List (κ × τ)) :
    Holds (rows.foldl (fun m row => m.remove row.1 row.2) m) fun k x => (k,x) ∉ rows ∧ so k x := by
  induction rows generalizing m so with
  | nil => exact holds.congr fun k x => by simp
  | cons row rest ih =>
    refine (ih (holds.remove row.1 row.2)).congr fun k x => ?_
    rw [List.mem_cons,Prod.ext_iff]
    tauto

end Shelves
end PhaseLock
