import Mathlib.Algebra.Order.Ring.Int
import Mathlib.Data.List.Basic
import Mathlib.Data.List.Flatten
import Mathlib.Data.List.Pairwise
import Mathlib.Order.Nat

namespace PhaseLock

-- Rows in the order of their places, read in pages that never part the rows of one place.
namespace Paging
variable {α : Type} (place : α → Nat)

-- Rows until there are so many, and then those at the last one's place.
def page (limit : Nat) (out : List α) : List α → List α
  | [] => out
  | row :: rest =>
    if limit ≤ out.length ∧ out.getLast?.any (fun last => place last ≠ place row) then out
    else page limit (out++[row]) rest

-- The runs of rows at one place.
def groups : List α → List (List α)
  | [] => []
  | row :: rest => match groups rest with
    | [] => [[row]]
    | group :: more => if group.head?.any (fun next => place row = place next) then (row :: group) :: more else [row] :: group :: more

-- Each run the other way around.
def regroup (rows : List α) : List α := (groups place rows).flatMap List.reverse

variable {place}

-- A page is the first of the rows, and stops short of the rest only when it is full, between
-- two places.
theorem page_cut (place : α → Nat) (limit : Nat) (out rows : List α) : ∃ taken left, rows = taken++left ∧ page place limit out rows = out++taken ∧
    (left = [] ∨ limit ≤ (out++taken).length ∧
      ∃ last ∈ (out++taken).getLast?, ∃ next ∈ left.head?, place last ≠ place next) := by
  induction rows generalizing out with
  | nil => exact ⟨[],[],rfl,(List.append_nil out).symm,.inl rfl⟩
  | cons row rest ih =>
    unfold page
    by_cases full : limit ≤ out.length ∧ out.getLast?.any (fun last => place last ≠ place row) = true
    · rw [if_pos full]
      obtain ⟨last,held,apart⟩ := (Option.any_eq_true _ _).mp full.2
      refine ⟨[],row :: rest,rfl,(List.append_nil out).symm,.inr ?_⟩
      rw [List.append_nil]
      exact ⟨full.1,last,held,row,rfl,of_decide_eq_true apart⟩
    · rw [if_neg full]
      obtain ⟨taken,left,rfl,is,stops⟩ := ih (out++[row])
      rw [List.append_assoc] at is stops
      exact ⟨row :: taken,left,rfl,is,stops⟩

theorem groups_flatten (place : α → Nat) (rows : List α) : (groups place rows).flatten = rows := by
  induction rows with
  | nil => rfl
  | cons row rest ih =>
    unfold groups
    cases held : groups place rest with
    | nil =>
      rw [held] at ih
      rw [← ih]
      rfl
    | cons group more =>
      rw [held,List.flatten_cons] at ih
      dsimp only
      split
      · rw [List.flatten_cons,List.cons_append,ih]
      · rw [List.flatten_cons,List.flatten_cons,ih]
        rfl

theorem regroup_perm (place : α → Nat) (rows : List α) : (regroup place rows).Perm rows := by
  have each : ∀ runs : List (List α), (runs.flatMap List.reverse).Perm runs.flatten := by
    intro runs
    induction runs with
    | nil => exact .nil
    | cons run more ih =>
      rw [List.flatMap_cons,List.flatten_cons]
      exact (List.reverse_perm run).append ih
  exact (each _).trans (List.Perm.of_eq (groups_flatten place rows))

theorem groups_same (place : α → Nat) (rows : List α) : ∀ group ∈ groups place rows, group ≠ [] ∧ ∀ x ∈ group, ∀ y ∈ group, place x = place y := by
  induction rows with
  | nil => exact fun group member => (by cases member)
  | cons row rest ih =>
    unfold groups
    have alone : [row] ≠ [] ∧ ∀ x ∈ [row], ∀ y ∈ [row], place x = place y := by simp
    cases held : groups place rest with
    | nil =>
      intro group member
      rw [List.mem_singleton.mp member]
      exact alone
    | cons group more =>
      rw [held] at ih
      dsimp only
      split
      · rename_i joins
        obtain ⟨next,first,equal⟩ := (Option.any_eq_true _ _).mp joins
        have inside := List.mem_of_mem_head? first
        have all : ∀ x ∈ row :: group, place x = place next := by
          intro x member
          rcases List.mem_cons.mp member with rfl | later
          · exact of_decide_eq_true equal
          · exact (ih group List.mem_cons_self).2 x later next inside
        intro other member
        rcases List.mem_cons.mp member with rfl | later
        · exact ⟨List.cons_ne_nil _ _,fun x left y right => (all x left).trans (all y right).symm⟩
        · exact ih other (List.mem_cons_of_mem _ later)
      · intro other member
        rcases List.mem_cons.mp member with rfl | later
        · exact alone
        · exact ih other later

-- Over rows whose places fall, each run's place is below those before it.
theorem groups_apart {rows : List α} (falls : rows.Pairwise fun a b => place b ≤ place a) :
    (groups place rows).Pairwise fun g h => ∀ x ∈ g, ∀ y ∈ h, place y < place x := by
  induction rows with
  | nil => exact .nil
  | cons row rest ih =>
    obtain ⟨below,later⟩ := List.pairwise_cons.mp falls
    have sorted := ih later
    have same := groups_same place rest
    have whole := groups_flatten place rest
    unfold groups
    cases held : groups place rest with
    | nil => exact List.pairwise_singleton _ _
    | cons group more =>
      rw [held] at sorted same whole
      obtain ⟨first,others⟩ := List.pairwise_cons.mp sorted
      have under : ∀ y, y ∈ group ∨ (∃ h ∈ more, y ∈ h) → place y ≤ place row := by
        intro y inside
        refine below y ?_
        rw [← whole,List.flatten_cons,List.mem_append,List.mem_flatten]
        exact inside
      dsimp only
      split
      · rename_i joins
        obtain ⟨next,head,equal⟩ := (Option.any_eq_true _ _).mp joins
        refine List.pairwise_cons.mpr ⟨fun h member x left y right => ?_,others⟩
        rcases List.mem_cons.mp left with rfl | inside
        · rw [of_decide_eq_true equal]
          exact first h member next (List.mem_of_mem_head? head) y right
        · exact first h member x inside y right
      · rename_i apart
        obtain ⟨filled,equal⟩ := same group List.mem_cons_self
        obtain ⟨next,tail,rfl⟩ := List.exists_cons_of_ne_nil filled
        have differ : place row ≠ place next := by simpa using apart
        have strict : place next < place row := lt_of_le_of_ne (under next (.inl List.mem_cons_self)) (Ne.symm differ)
        refine List.pairwise_cons.mpr ⟨fun h member x left y right => ?_,sorted⟩
        rw [List.mem_singleton.mp left]
        rcases List.mem_cons.mp member with rfl | among
        · rw [equal y right next List.mem_cons_self]
          exact strict
        · exact lt_trans (first h among next List.mem_cons_self y right) strict

-- Rows in the reverse of an order, regrouped: by falling places, and within one in the order.
theorem regroup_sorted {tie : α → α → Prop} {rows : List α}
    (sorted : rows.Pairwise fun a b => place b < place a ∨ place a = place b ∧ tie b a) :
    (regroup place rows).Pairwise fun a b => place b < place a ∨ place a = place b ∧ tie a b := by
  have falls : rows.Pairwise fun a b => place b ≤ place a := sorted.imp fun either => by
    rcases either with less | ⟨same,_⟩
    · exact le_of_lt less
    · exact le_of_eq same.symm
  have apart := groups_apart falls
  have same := groups_same place rows
  rw [← groups_flatten place rows,List.pairwise_flatten] at sorted
  unfold regroup
  rw [List.pairwise_flatMap]
  refine ⟨fun group member => ?_,apart.imp fun below x left y right => ?_⟩
  · rw [List.pairwise_reverse]
    refine List.Pairwise.imp_of_mem ?_ (sorted.1 group member)
    intro a b left right either
    have equal := (same group member).2 a left b right
    rcases either with less | ⟨_,tied⟩
    · omega
    · exact .inr ⟨equal.symm,tied⟩
  · exact .inl (below x (List.mem_reverse.mp left) y (List.mem_reverse.mp right))

-- In the direction of a read, one place comes before another.
def Along (reverse : Bool) (a b : Nat) : Prop := if reverse then b < a else a < b

theorem Along.trans {reverse : Bool} (left : Along reverse a b) (right : Along reverse b c) : Along reverse a c := by
  unfold Along at *
  cases reverse <;> simp at * <;> omega

-- Over rows in their order, a page is those before some place.
theorem page_spec {reverse : Bool} (limit : Nat) {rows : List α}
    (sorted : rows.Pairwise fun a b => Along reverse (place a) (place b) ∨ place a = place b) :
    ∃ left, rows = page place limit [] rows++left ∧ (left = [] ∨ limit ≤ (page place limit [] rows).length) ∧
      ∀ x ∈ page place limit [] rows, ∀ y ∈ left, Along reverse (place x) (place y) := by
  obtain ⟨taken,left,whole,is,stops⟩ := page_cut place limit [] rows
  rw [List.nil_append] at is stops
  rw [is]
  refine ⟨left,whole,stops.imp id And.left,fun x before y after => ?_⟩
  rcases stops with rfl | ⟨_,last,final,next,first,differ⟩
  · cases after
  · rw [whole,List.pairwise_append] at sorted
    obtain ⟨early,late,across⟩ := sorted
    have turn : Along reverse (place last) (place next) :=
      (across last (List.mem_of_getLast? final) next (List.mem_of_mem_head? first)).resolve_right differ
    have upto : Along reverse (place x) (place last) ∨ place x = place last := by
      obtain ⟨front,rfl⟩ := List.getLast?_eq_some_iff.mp final
      rcases List.mem_append.mp before with inside | only
      · exact (List.pairwise_append.mp early).2.2 x inside last (List.mem_singleton.mpr rfl)
      · exact .inr (congrArg place (List.mem_singleton.mp only))
    have past : Along reverse (place next) (place y) ∨ place next = place y := by
      obtain ⟨rest,rfl⟩ := List.head?_eq_some_iff.mp first
      rcases List.mem_cons.mp after with rfl | inside
      · exact .inr rfl
      · exact (List.pairwise_cons.mp late).1 y inside
    have front : Along reverse (place x) (place next) := by
      rcases upto with less | same
      · exact less.trans turn
      · exact same ▸ turn
    rcases past with less | same
    · exact front.trans less
    · exact same ▸ front

end Paging
end PhaseLock
