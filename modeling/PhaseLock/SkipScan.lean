import Mathlib.Algebra.Order.Ring.Int
import Mathlib.Data.List.Infix
import Mathlib.Data.List.Pairwise
import Mathlib.Data.List.TakeWhile

namespace PhaseLock
namespace SkipScan
variable {κ ν σ : Type}

-- Where a key stands against what a walk looks for: found, to step past, the end of the
-- walk, or a seek to the first key further on that has reached a target.
inductive Stand (κ : Type) where
  | found
  | step
  | done
  | seek (reached : κ → Bool)

namespace Stand

-- A walk at one key passes over another: it ends there, or seeks past both.
def Passes : Stand κ → κ → κ → Prop
  | .done, _, _ => True
  | .seek reached, k, m => reached k = false ∧ reached m = false
  | _, _, _ => False

instance : (s : Stand κ) → (k m : κ) → Decidable (s.Passes k m)
  | .done, _, _ => isTrue trivial
  | .seek reached, k, m => inferInstanceAs (Decidable (reached k = false ∧ reached m = false))
  | .found, _, _ => isFalse id
  | .step, _, _ => isFalse id

def isFound : Stand κ → Bool
  | .found => true
  | _ => false

end Stand

-- The keys a walk hands out, of the rows ahead of it in walk order.  A target the walk has
-- reached already is stepped past.
def visited (stand : κ → Stand κ) : List (κ × ν) → List (κ × ν)
  | [] => []
  | row :: rest => match stand row.1 with
    | .found => row :: visited stand rest
    | .step => visited stand rest
    | .done => []
    | .seek reached => if reached row.1 then visited stand rest
      else visited stand (rest.dropWhile (fun r => !reached r.1))
termination_by rows => rows.length
decreasing_by
  all_goals simp only [List.length_cons]
  · omega
  · omega
  · omega
  · have := (List.dropWhile_sublist (l:=rest) (fun r => !reached r.1)).length_le
    omega

def looked (stand : κ → Stand κ) (rows : List (κ × ν)) : List (κ × ν) := rows.filter (fun row => (stand row.1).isFound)

theorem looked_found {stand : κ → Stand κ} {row : κ × ν} (here : stand row.1 = .found) (rest : List (κ × ν)) :
    looked stand (row :: rest) = row :: looked stand rest :=
  List.filter_cons_of_pos (by simp [here,Stand.isFound])

theorem looked_other {stand : κ → Stand κ} {row : κ × ν} (here : (stand row.1).isFound = false) (rest : List (κ × ν)) :
    looked stand (row :: rest) = looked stand rest :=
  List.filter_cons_of_neg (by simp [here])

-- The rows a walk stands at: each one that no row it stood at before passes over.
def placed (stand : κ → Stand κ) (rows : List (κ × ν)) : List (κ × ν) :=
  rows.foldl (fun placed row => if ∃ k ∈ placed, (stand k.1).Passes k.1 row.1 then placed else placed++[row]) []

theorem placed_after (stand : κ → Stand κ) (front rows : List (κ × ν)) :
    rows.foldl (fun placed row => if ∃ k ∈ placed, (stand k.1).Passes k.1 row.1 then placed else placed++[row]) front =
      front++placed stand (rows.filter fun row => ¬∃ k ∈ front, (stand k.1).Passes k.1 row.1) := by
  induction rows using List.reverseRecOn with
  | nil => simp [placed]
  | append_singleton rows row ih =>
    rw [List.foldl_concat,ih,List.filter_append]
    by_cases gone : ∃ k ∈ front, (stand k.1).Passes k.1 row.1
    · obtain ⟨k,inside,passes⟩ := gone
      rw [if_pos ⟨k,List.mem_append_left _ inside,passes⟩,List.filter_cons_of_neg (by simp only [decide_eq_true_eq,not_not]; exact ⟨k,inside,passes⟩),List.filter_nil,
        List.append_nil]
    · rw [List.filter_cons_of_pos (by simpa using gone),List.filter_nil,placed,placed,List.foldl_concat]
      simp only [List.mem_append,or_and_right,exists_or,gone,false_or]
      split
      · rfl
      · rw [List.append_assoc]

theorem placed_cons (stand : κ → Stand κ) (row : κ × ν) (rest : List (κ × ν)) :
    placed stand (row :: rest) = row :: placed stand (rest.filter fun later => ¬(stand row.1).Passes row.1 later.1) := by
  rw [placed,List.foldl_cons,if_neg (by simp),List.nil_append,placed_after]
  simp

theorem visited_sublist (stand : κ → Stand κ) (rows : List (κ × ν)) : (visited stand rows).Sublist (looked stand rows) := by
  induction rows using visited.induct stand with
  | case1 => simp [visited,looked]
  | case2 row rest at_ ih =>
    rw [visited,looked_found at_]
    simp only [at_]
    exact ih.cons_cons row
  | case3 row rest at_ ih =>
    rw [visited,looked_other (by rw [at_]; rfl)]
    simpa only [at_] using ih
  | case4 row rest at_ =>
    rw [visited]
    simp only [at_]
    exact List.nil_sublist _
  | case5 row rest reached at_ here ih =>
    rw [visited,looked_other (by rw [at_]; rfl)]
    simpa only [at_,here,if_true] using ih
  | case6 row rest reached at_ here ih =>
    rw [visited,looked_other (by rw [at_]; rfl)]
    simp only [at_,here]
    rw [if_neg (by simp)]
    exact ih.trans ((List.dropWhile_sublist _).filter _)

-- Targets a walk has reached stay reached.
def Rising (stand : κ → Stand κ) (before : κ → κ → Prop) : Prop :=
  ∀ k reached, stand k = .seek reached → ∀ a b, before a b → reached a = true → reached b = true

-- The rows from a target on are those that have reached it.
theorem drop_reached {before : κ → κ → Prop} {reached : κ → Bool} {rows : List (κ × ν)}
    (rising : ∀ a b, before a b → reached a = true → reached b = true) (sorted : rows.Pairwise (fun a b => before a.1 b.1)) :
    rows.dropWhile (fun r => !reached r.1) = rows.filter fun r => reached r.1 := by
  induction rows with
  | nil => rfl
  | cons row rest ih =>
    obtain ⟨ahead,sorted⟩ := List.pairwise_cons.mp sorted
    by_cases here : reached row.1 = true
    · rw [List.dropWhile_cons_of_neg (by simp [here])]
      refine (List.filter_eq_self.mpr fun r member => ?_).symm
      rcases List.mem_cons.mp member with rfl | later
      · exact here
      · exact rising _ _ (ahead r later) here
    · rw [List.dropWhile_cons_of_pos (by simp [here]),List.filter_cons_of_neg (by simpa using here),ih sorted]

theorem reached_tail {before : κ → κ → Prop} {reached : κ → Bool} {rows : List (κ × ν)}
    (rising : ∀ a b, before a b → reached a = true → reached b = true) (sorted : rows.Pairwise (fun a b => before a.1 b.1))
    (member : m ∈ rows.dropWhile (fun r => !reached r.1)) : reached m.1 = true := by
  rw [drop_reached rising sorted] at member
  exact (List.mem_filter.mp member).2

-- A walk hands out what it looks for of the rows it stands at.
theorem visited_placed {before : κ → κ → Prop} {stand : κ → Stand κ} {rows : List (κ × ν)} (rising : Rising stand before)
    (sorted : rows.Pairwise (fun a b => before a.1 b.1)) : visited stand rows = looked stand (placed stand rows) := by
  induction rows using visited.induct stand with
  | case1 => simp [visited,looked,placed]
  | case2 row rest at_ ih =>
    rw [visited,placed_cons,looked_found at_]
    simp only [at_]
    rw [ih (List.pairwise_cons.mp sorted).2,List.filter_eq_self.mpr fun _ _ => by simp [Stand.Passes]]
  | case3 row rest at_ ih =>
    rw [visited,placed_cons,looked_other (by rw [at_]; rfl)]
    simp only [at_]
    rw [ih (List.pairwise_cons.mp sorted).2,List.filter_eq_self.mpr fun _ _ => by simp [Stand.Passes]]
  | case4 row rest at_ =>
    rw [visited,placed_cons,looked_other (by rw [at_]; rfl)]
    simp only [at_]
    rw [List.filter_eq_nil_iff.mpr fun _ _ => by simp [Stand.Passes]]
    rfl
  | case5 row rest reached at_ here ih =>
    rw [visited,placed_cons,looked_other (by rw [at_]; rfl)]
    simp only [at_,here,if_true]
    rw [ih (List.pairwise_cons.mp sorted).2,List.filter_eq_self.mpr]
    exact fun _ _ => decide_eq_true fun passes => absurd here (by simp [passes.1])
  | case6 row rest reached at_ here ih =>
    have here : reached row.1 = false := by simpa using here
    have sorted := (List.pairwise_cons.mp sorted).2
    rw [visited,placed_cons,looked_other (by rw [at_]; rfl)]
    simp only [at_,here]
    rw [if_neg (by simp),ih (sorted.sublist (List.dropWhile_sublist _)),drop_reached (rising _ _ at_) sorted]
    congr 2
    exact List.filter_congr fun later _ => by simp [Stand.Passes,here]

theorem placed_subset (stand : κ → Stand κ) (rows : List (κ × ν)) : placed stand rows ⊆ rows := by
  induction rows using List.reverseRecOn with
  | nil => exact fun _ none => none
  | append_singleton rows row ih =>
    rw [placed,List.foldl_concat]
    split
    · exact fun k inside => List.mem_append_left _ (ih inside)
    · exact fun k inside => List.mem_append.mpr ((List.mem_append.mp inside).imp_left fun inside => ih inside)

-- A row is stood at exactly where no row stood at before passes over it.
theorem mem_placed {before : κ → κ → Prop} {rows : List (κ × ν)} (stand : κ → Stand κ) (strict : ∀ a b, before a b → ¬before b a)
    (sorted : rows.Pairwise (fun a b => before a.1 b.1)) :
    m ∈ placed stand rows ↔ m ∈ rows ∧ ∀ k ∈ placed stand rows, before k.1 m.1 → ¬(stand k.1).Passes k.1 m.1 := by
  induction rows using List.reverseRecOn with
  | nil => simp [placed]
  | append_singleton front row ih =>
    obtain ⟨sorted,_,order⟩ := List.pairwise_append.mp sorted
    have earlier : ∀ {k}, k ∈ placed stand front → k ∈ front := fun inside => placed_subset stand front inside
    have split : placed stand (front++[row]) =
        if ∃ k ∈ placed stand front, (stand k.1).Passes k.1 row.1 then placed stand front else placed stand front++[row] :=
      List.foldl_concat ..
    rw [split]
    split
    · rename_i gone
      obtain ⟨k,inside,passes⟩ := gone
      have before_ : before k.1 row.1 := order k (earlier inside) row List.mem_cons_self
      constructor
      · intro member
        exact ⟨List.mem_append_left _ (earlier member),((ih sorted).mp member).2⟩
      · rintro ⟨member,clear⟩
        rcases List.mem_append.mp member with member | is
        · exact (ih sorted).mpr ⟨member,clear⟩
        · cases List.mem_singleton.mp is
          exact absurd passes (clear k inside before_)
    · rename_i stays
      simp only [List.mem_append,List.mem_singleton]
      constructor
      · rintro (member | rfl)
        · refine ⟨.inl (earlier member),?_⟩
          rintro k (inside | rfl) first
          · exact ((ih sorted).mp member).2 k inside first
          · exact absurd first (strict _ _ (order m (earlier member) k List.mem_cons_self))
        · refine ⟨.inr rfl,?_⟩
          rintro k (inside | rfl) first passes
          · exact stays ⟨k,inside,passes⟩
          · exact strict _ _ first first
      · rintro ⟨member | is,clear⟩
        · exact .inl ((ih sorted).mpr ⟨member,fun k inside => clear k (.inl inside)⟩)
        · exact .inr is

-- A walk hands out what it looks for and no row it stood at before passes over.
theorem mem_visited {before : κ → κ → Prop} {stand : κ → Stand κ} {rows : List (κ × ν)} (rising : Rising stand before)
    (strict : ∀ a b, before a b → ¬before b a) (sorted : rows.Pairwise (fun a b => before a.1 b.1)) : m ∈ visited stand rows ↔
      m ∈ rows ∧ (stand m.1).isFound = true ∧ ∀ k ∈ placed stand rows, before k.1 m.1 → ¬(stand k.1).Passes k.1 m.1 := by
  rw [visited_placed rising sorted,looked,List.mem_filter,mem_placed stand strict sorted]
  tauto

-- What passes over a key that passes over one looked for passes over that one too.
def Nested (stand : κ → Stand κ) (before : κ → κ → Prop) : Prop :=
  ∀ a k m, before a k → before k m → (stand m).isFound = true → (stand a).Passes a k → (stand k).Passes k m →
    (stand a).Passes a m

-- Where passing is nested, a row passed over by any other is passed over by one stood at.
theorem nested_placed {before : κ → κ → Prop} {stand : κ → Stand κ} {rows : List (κ × ν)} (nested : Nested stand before)
    (strict : ∀ a b, before a b → ¬before b a) (trans : ∀ {a b c}, before a b → before b c → before a c)
    (sorted : rows.Pairwise (fun a b => before a.1 b.1)) (found : (stand m).isFound = true)
    (clear : ∀ k ∈ placed stand rows, before k.1 m → ¬(stand k.1).Passes k.1 m) :
    ∀ k ∈ rows, before k.1 m → ¬(stand k.1).Passes k.1 m := by
  intro k inside order passes
  by_cases here : k ∈ placed stand rows
  · exact clear k here order passes
  · have skipped : ¬∀ j ∈ placed stand rows, before j.1 k.1 → ¬(stand j.1).Passes j.1 k.1 :=
      fun clear => here ((mem_placed stand strict sorted).mpr ⟨inside,clear⟩)
    push Not at skipped
    obtain ⟨j,stood,first,skips⟩ := skipped
    exact clear j stood (trans first order) (nested _ _ _ first order found skips passes)

-- Two walks over rows that stand alike hand out alike.
inductive Alike {κ' : Type} (e : κ → κ') : Stand κ → Stand κ' → Prop where
  | found : Alike e .found .found
  | step : Alike e .step .step
  | done : Alike e .done .done
  | seek (same : ∀ k, reached' (e k) = reached k) : Alike e (.seek reached) (.seek reached')

theorem visited_alike {κ' ν' : Type} {e : κ → κ'} {stand : κ → Stand κ} {stand' : κ' → Stand κ'}
    (alike : ∀ k, Alike e (stand k) (stand' (e k))) (g : ν → ν') (rows : List (κ × ν)) :
    visited stand' (rows.map fun row => (e row.1,g row.2)) = (visited stand rows).map fun row => (e row.1,g row.2) := by
  induction rows using visited.induct stand with
  | case1 => simp [visited]
  | case2 row rest at_ ih =>
    have one := alike row.1
    rw [at_] at one
    rw [List.map_cons,visited,visited]
    generalize at' : stand' (e row.1) = s' at one
    cases one
    simp only [at_]
    rw [ih,List.map_cons]
  | case3 row rest at_ ih =>
    have one := alike row.1
    rw [at_] at one
    rw [List.map_cons,visited,visited]
    generalize at' : stand' (e row.1) = s' at one
    cases one
    simpa only [at_] using ih
  | case4 row rest at_ =>
    have one := alike row.1
    rw [at_] at one
    rw [List.map_cons,visited,visited]
    generalize at' : stand' (e row.1) = s' at one
    cases one
    simp only [at_,List.map_nil]
  | case5 row rest reached at_ here ih =>
    have one := alike row.1
    rw [at_] at one
    rw [List.map_cons,visited,visited]
    generalize at' : stand' (e row.1) = s' at one
    cases one with
    | seek same => simpa only [at_,here,same,if_true] using ih
  | case6 row rest reached at_ here ih =>
    have one := alike row.1
    rw [at_] at one
    rw [List.map_cons,visited,visited]
    generalize at' : stand' (e row.1) = s' at one
    cases one with
    | @seek reached' _ same =>
      simp only [at_,here,same]
      rw [if_neg (by simp),if_neg (by simp),← ih,List.dropWhile_map]
      have kept : (fun r : κ' × ν' => !reached' r.1) ∘ (fun row : κ × ν => (e row.1,g row.2)) = fun r => !reached r.1 := by
        funext row
        exact congrArg not (same row.1)
      rw [kept]

end SkipScan
end PhaseLock
