import PhaseLock.Serving

namespace PhaseLock
open Selectors (intersect viewToken)

-- The grant a batch left: the batch is in the history, at its head.
def Backed (host : Host σ) (history : List (Nat × σ)) (position : Nat) (mark : Option (List Name)) : Prop :=
  ∃ entry ∈ history, entry.1 = position ∧ grantSelectors (host.grant entry.2) = mark

-- An edit a connection may be sent: the view its commit left, or a later one, covers it.
def Permitted (host : Host σ) (history : List (Nat × σ)) (wants : List Name) (row : LogRow) : Prop :=
  ∃ entry ∈ history, row.position ≤ entry.1 ∧ covered (viewOf wants (host.grant entry.2)) row.slice = true

-- The results on their way to a connection that has last heard of a grant: each commit's edits
-- are filtered by a grant as of it, and a grant comes ahead of its batch's commit, its view told
-- from the one before by its token.
def Heard (host : Host σ) (wants : List Name) (history : List (Nat × σ)) :
    Option (Option (List Name)) → List Res → Option (Option (List Name)) → Prop
  | mark,[],final => mark = final
  | mark,.view grant at_ :: rest,final => Backed host history at_ grant.toOption ∧ (∀ m ∈ mark, Parted wants m grant.toOption) ∧
      Heard host wants history (some grant.toOption) rest final
  | mark,.commit at_ _ :: rest,final => (∀ m ∈ mark, Backed host history at_ m) ∧ Heard host wants history mark rest final
  | mark,.registered grant at_ :: rest,final => mark = none ∧ (∀ g ∈ grant, Backed host history at_ g.toOption) ∧
      Heard host wants history (grant.map Except.toOption) rest final
  | mark,_ :: rest,final => Heard host wants history mark rest final

variable {σ : Type} {host : Host σ} {wants : List Name} {history : List (Nat × σ)}

theorem Backed.grow (backed : Backed host history position mark) (more : List (Nat × σ)) :
    Backed host (history++more) position mark := by
  obtain ⟨entry,member,le,same⟩ := backed
  exact ⟨entry,List.mem_append_left _ member,le,same⟩

theorem Permitted.grow {row : LogRow} (permitted : Permitted host history wants row) (more : List (Nat × σ)) :
    Permitted host (history++more) wants row := by
  obtain ⟨entry,member,le,covers⟩ := permitted
  exact ⟨entry,List.mem_append_left _ member,le,covers⟩

-- A name in a backed view is in the view its batch left.
theorem Backed.covers {name : Name} (backed : Backed host history position (some granted))
    (covers : covered (intersect granted wants) name = true) :
    ∃ entry ∈ history, entry.1 = position ∧ covered (viewOf wants (host.grant entry.2)) name = true := by
  obtain ⟨entry,member,placed,same⟩ := backed
  refine ⟨entry,member,placed,?_⟩
  cases found : host.grant entry.2 with
  | error why =>
    rw [found] at same
    cases same
  | ok selectors =>
    rw [found] at same
    cases same
    rw [viewOf,← intersect_sorted]
    exact covers

theorem Heard.grow (heard : Heard host wants history mark channel final) (more : List (Nat × σ)) :
    Heard host wants (history++more) mark channel final := by
  induction channel generalizing mark with
  | nil => exact heard
  | cons res rest ih =>
    cases res with
    | view grant at_ => exact ⟨heard.1.grow more,heard.2.1,ih heard.2.2⟩
    | commit at_ items => exact ⟨fun m is => (heard.1 m is).grow more,ih heard.2⟩
    | registered grant at_ => exact ⟨heard.1,fun g is => (heard.2.1 g is).grow more,ih heard.2.2⟩
    | account generation => exact ih heard
    | forgotten => exact ih heard
    | shutdown => exact ih heard

-- A connection that has heard of a grant goes on hearing of one.
theorem heard_some (heard : Heard host wants history (some m) channel final) : final ≠ none := by
  induction channel generalizing m with
  | nil =>
    rintro rfl
    cases heard
  | cons res rest ih =>
    cases res with
    | view grant at_ => exact ih heard.2.2
    | commit at_ items => exact ih heard.2
    | registered grant at_ => exact absurd heard.1 (by simp)
    | account generation => exact ih heard
    | forgotten => exact ih heard
    | shutdown => exact ih heard

theorem Heard.append (left : Heard host wants history mark channel middle) (right : Heard host wants history middle more final) :
    Heard host wants history mark (channel++more) final := by
  induction channel generalizing mark with
  | nil =>
    cases left
    exact right
  | cons res rest ih =>
    cases res with
    | view grant at_ => exact ⟨left.1,left.2.1,ih left.2.2⟩
    | commit at_ items => exact ⟨left.1,ih left.2⟩
    | registered grant at_ => exact ⟨left.1,left.2.1,ih left.2.2⟩
    | account generation => exact ih left
    | forgotten => exact ih left
    | shutdown => exact ih left

end PhaseLock
