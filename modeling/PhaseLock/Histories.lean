import Mathlib.Data.List.Infix

namespace PhaseLock
variable {α : Type} {rule weak : List α → α → Prop} {history later : List α} {a b : α}

-- A history each of whose entries meets a rule over what came before it.
def Traced (rule : List α → α → Prop) (history : List α) : Prop := ∀ before a after, history = before++a :: after → rule before a

namespace Traced

theorem nil : Traced rule [] := fun before a after same => by simp at same

theorem concat (traced : Traced rule history) (meets : rule history a) : Traced rule (history++[a]) := by
  intro before b after same
  rcases List.eq_nil_or_concat after with rfl | ⟨rest,last,rfl⟩
  · obtain ⟨rfl,is⟩ := List.append_inj' same rfl
    rw [← List.singleton_inj.mp is]
    exact meets
  · have ends : history++[a] = (before++b :: rest)++[last] := by simpa using same
    exact traced before b rest (List.append_inj' ends rfl).1

-- What has come to pass stays as it was.
theorem of_prefix (traced : Traced rule later) (front : history <+: later) : Traced rule history := by
  obtain ⟨more,rfl⟩ := front
  intro before a after same
  refine traced before a (after++more) ?_
  rw [same]
  simp

theorem imp (traced : Traced rule history) (implied : ∀ before a, before <+: history → a ∈ history → rule before a → weak before a) :
    Traced weak history := by
  intro before a after same
  refine implied before a ⟨a :: after,same.symm⟩ ?_ (traced before a after same)
  rw [same]
  exact List.mem_append_right _ List.mem_cons_self

-- An entry of a history stands right behind all that came before it.
theorem at_mem (traced : Traced rule history) (member : a ∈ history) : ∃ before, before <+: history ∧ a ∉ before ∧ rule before a := by
  classical
  obtain ⟨before,after,same,first⟩ := List.eq_append_cons_of_mem member
  exact ⟨before,⟨a :: after,same.symm⟩,first,traced before a after same⟩

end Traced
end PhaseLock
