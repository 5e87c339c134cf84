import Mathlib.Data.List.Sort

namespace PhaseLock

-- A program that reads rows kept by key: it gets keys, and takes the rows of the walks it opens
-- one at a time.  A read may be refused, and the program goes on with what it makes of that.
inductive Reader (κ ν π τ : Type) where
  | give (result : τ)
  | fail
  | get (key : κ) (more : Option (Option ν) → Reader κ ν π τ)
  | walk (pattern : π) (reverse : Bool) (more : Reader κ ν π τ)
  | take (walk : Nat) (more : Option (Option (κ × ν)) → Reader κ ν π τ)

namespace Walking
variable {κ ν π : Type} [LinearOrder κ] {reverse : Bool} {a b c : κ}

-- The order a walk comes to keys in.
def Before (reverse : Bool) (a b : κ) : Prop := if reverse then b < a else a < b

instance (reverse : Bool) (a b : κ) : Decidable (Before reverse a b) := inferInstanceAs (Decidable (if reverse then b < a else a < b))

theorem Before.trans (ab : Before reverse a b) (bc : Before reverse b c) : Before reverse a c := by
  cases reverse
  · exact lt_trans (show a < b from ab) bc
  · exact lt_trans (show c < b from bc) ab

theorem Before.irrefl (reverse : Bool) (a : κ) : ¬Before reverse a a := by
  cases reverse <;> exact lt_irrefl a

theorem Before.asymm (ab : Before reverse a b) : ¬Before reverse b a := fun ba => irrefl reverse a (ab.trans ba)

theorem Before.cases (reverse : Bool) (a b : κ) : Before reverse a b ∨ a = b ∨ Before reverse b a := by
  cases reverse
  · exact lt_trichotomy a b
  · exact (lt_trichotomy b a).imp id (Or.imp Eq.symm id)

-- The stretch of a walk past a key, or from its start; and up to a key, or to its end.
def past (reverse : Bool) (after : Option κ) (key : κ) : Bool := after.all fun a => Before reverse a key
def upTo (reverse : Bool) (stop : Option κ) (key : κ) : Bool := stop.all fun s => ¬Before reverse s key

theorem past_some : past reverse (some a) b = true ↔ Before reverse a b := by simp [past]

theorem upTo_some : upTo reverse (some a) b = true ↔ ¬Before reverse a b := by simp [upTo]

theorem upTo_self (reverse : Bool) (a : κ) : upTo reverse (some a) a = true := upTo_some.mpr (Before.irrefl reverse a)

theorem upTo_cases (up : upTo reverse (some a) b = true) : b = a ∨ Before reverse b a :=
  (Before.cases reverse a b).elim (fun ahead => absurd ahead (upTo_some.mp up)) (Or.imp Eq.symm id)

theorem past_before {after : Option κ} (away : past reverse after a = true) (ab : Before reverse a b) : past reverse after b = true := by
  cases after with
  | none => rfl
  | some first => exact past_some.mpr ((past_some.mp away).trans ab)

theorem upTo_before {stop : Option κ} (up : upTo reverse stop b = true) (ab : Before reverse a b) : upTo reverse stop a = true := by
  cases stop with
  | none => rfl
  | some last => exact upTo_some.mpr fun ahead => upTo_some.mp up (ahead.trans ab)

theorem upTo_trans {stop : Option κ} (up : upTo reverse stop b = true) (under : upTo reverse (some b) a = true) :
    upTo reverse stop a = true := by
  rcases upTo_cases under with rfl | ahead
  · exact up
  · exact upTo_before up ahead

theorem past_past {after : Option κ} (away : past reverse after a = true) {rows : List (κ × ν)} :
    (rows.filter fun row => past reverse after row.1).filter (fun row => past reverse (some a) row.1) =
      rows.filter fun row => past reverse (some a) row.1 := by
  rw [List.filter_filter]
  refine List.filter_congr fun row _ => ?_
  cases further : past reverse (some a) row.1 with
  | false => rfl
  | true => simpa using past_before away (past_some.mp further)

-- Rows as a walk comes to them.
def Ordered (reverse : Bool) (rows : List (κ × ν)) : Prop := rows.Pairwise fun a b => Before reverse a.1 b.1

theorem Ordered.distinct {rows : List (κ × ν)} (ordered : Ordered reverse rows) : (rows.map Prod.fst).Nodup := by
  refine List.pairwise_map.mpr (List.Pairwise.imp ?_ ordered)
  rintro a b ahead same
  rw [same] at ahead
  exact Before.irrefl _ _ ahead

theorem Ordered.ext {left right : List (κ × ν)} (one : Ordered reverse left) (other : Ordered reverse right)
    (same : ∀ row, row ∈ left ↔ row ∈ right) : left = right := by
  have perm : left.Perm right := (List.perm_ext_iff_of_nodup one.distinct.of_map other.distinct.of_map).mpr same
  exact perm.eq_of_pairwise (fun x y _ _ less more => absurd less more.asymm) one other

theorem Ordered.filter {rows : List (κ × ν)} (ordered : Ordered reverse rows) (p : κ × ν → Bool) : Ordered reverse (rows.filter p) :=
  List.Pairwise.filter p ordered

-- Past a key, a walk's rows are those up to a further one and those past it.
theorem Ordered.split {rows : List (κ × ν)} (ordered : Ordered reverse rows) {after : Option κ} (away : past reverse after a = true) :
    rows.filter (fun row => past reverse after row.1) =
      (rows.filter fun row => past reverse after row.1 && upTo reverse (some a) row.1)++rows.filter fun row => past reverse (some a) row.1 := by
  refine Ordered.ext (ordered.filter _) (List.pairwise_append.mpr ⟨ordered.filter _,ordered.filter _,?_⟩) fun row => ?_
  · intro x left y right
    have up := (Bool.and_eq_true_iff.mp (List.mem_filter.mp left).2).2
    have further := past_some.mp (List.mem_filter.mp right).2
    rcases upTo_cases up with same | ahead
    · rw [same]
      exact further
    · exact ahead.trans further
  · simp only [List.mem_append,List.mem_filter,Bool.and_eq_true]
    constructor
    · rintro ⟨member,there⟩
      by_cases further : Before reverse a row.1
      · exact .inr ⟨member,past_some.mpr further⟩
      · exact .inl ⟨member,there,upTo_some.mpr further⟩
    · rintro (⟨member,there,_⟩ | ⟨member,further⟩)
      · exact ⟨member,there⟩
      · exact ⟨member,past_before away (past_some.mp further)⟩

-- The rows past one that is their first are what follows it.
theorem Ordered.tail {rest : List (κ × ν)} {row : κ × ν} (ordered : Ordered reverse (row :: rest)) :
    (row :: rest).filter (fun other => past reverse (some row.1) other.1) = rest := by
  obtain ⟨ahead,_⟩ := List.pairwise_cons.mp ordered
  rw [List.filter_cons,if_neg (by rw [past_some]; exact Before.irrefl _ _),List.filter_eq_self]
  exact fun other member => past_some.mpr (ahead other member)

end Walking

-- What a reader sees: what each key gets, and the rows its walks come to.
structure Sight (κ ν : Type) [LinearOrder κ] where
  get : κ → Option ν
  rows : List (κ × ν)
  sorted : rows.Pairwise fun a b => a.1 < b.1

-- What a reader read: a key it got, or a walk's keys up to the one of a row it took, or to the end.
inductive Reading (κ π : Type) where
  | key (key : κ)
  | through (pattern : π) (reverse : Bool) (stop : Option κ)

-- A walk a reader opened, and its rows still to come.
structure Opened (κ ν π : Type) where
  pattern : π
  reverse : Bool
  left : List (κ × ν)

section
variable {κ ν π τ : Type} [LinearOrder κ] (picks : π → κ → Bool)

namespace Sight

def walk (s : Sight κ ν) (pattern : π) (reverse : Bool) : List (κ × ν) :=
  let picked := s.rows.filter fun row => picks pattern row.1
  if reverse then picked.reverse else picked

theorem mem_walk (s : Sight κ ν) (pattern : π) (reverse : Bool) (row : κ × ν) :
    row ∈ s.walk picks pattern reverse ↔ row ∈ s.rows ∧ picks pattern row.1 = true := by
  cases reverse <;> simp [walk]

theorem walk_ordered (s : Sight κ ν) (pattern : π) (reverse : Bool) : Walking.Ordered reverse (s.walk picks pattern reverse) := by
  have picked : (s.rows.filter fun row => picks pattern row.1).Pairwise fun a b => a.1 < b.1 := List.Pairwise.filter _ s.sorted
  cases reverse
  · exact picked
  · exact List.pairwise_reverse.mpr picked

-- Two sights are alike at a key.
def Alike (s s' : Sight κ ν) (key : κ) : Prop := s.get key = s'.get key ∧ ∀ value, (key,value) ∈ s.rows ↔ (key,value) ∈ s'.rows

end Sight

def Reading.Covers (reading : Reading κ π) (key : κ) : Prop :=
  match reading with
  | .key k => key = k
  | .through pattern reverse stop => picks pattern key = true ∧ Walking.upTo reverse stop key = true

namespace Reader

-- What a reader gives, run over a sight that refuses nothing, and what it reads on the way.
def read (s : Sight κ ν) : Reader κ ν π τ → List (Opened κ ν π) → Option τ × List (Reading κ π)
  | .give result, _ => (some result,[])
  | .fail, _ => (none,[])
  | .get key more, walks =>
    let (result,readings) := read s (more (some (s.get key))) walks
    (result,.key key :: readings)
  | .walk pattern reverse more, walks => read s more (walks++[⟨pattern,reverse,s.walk picks pattern reverse⟩])
  | .take i more, walks => match walks[i]? with
    | none => read s (more (some none)) walks
    | some w => match w.left with
      | [] =>
        let (result,readings) := read s (more (some none)) walks
        (result,.through w.pattern w.reverse none :: readings)
      | row :: rest =>
        let (result,readings) := read s (more (some (some row))) (walks.set i {w with left:=rest})
        (result,.through w.pattern w.reverse (some row.1) :: readings)

-- Two walks are twins, over two sights, which stand at one place.
def Twins (s s' : Sight κ ν) (w w' : Opened κ ν π) : Prop :=
  w'.pattern = w.pattern ∧ w'.reverse = w.reverse ∧ ∃ after : Option κ,
    w.left = (s.walk picks w.pattern w.reverse).filter (fun row => Walking.past w.reverse after row.1) ∧
      w'.left = (s'.walk picks w.pattern w.reverse).filter (fun row => Walking.past w.reverse after row.1)

variable {picks} {s s' : Sight κ ν}

theorem mem_twin {pattern : π} {reverse : Bool} {after : Option κ} {row : κ × ν} (alike : picks pattern row.1 = true → s.Alike s' row.1) :
    row ∈ (s.walk picks pattern reverse).filter (fun row => Walking.past reverse after row.1) ↔
      row ∈ (s'.walk picks pattern reverse).filter (fun row => Walking.past reverse after row.1) := by
  simp only [List.mem_filter,Sight.mem_walk]
  constructor
  · rintro ⟨⟨member,picked⟩,there⟩
    exact ⟨⟨((alike picked).2 row.2).mp member,picked⟩,there⟩
  · rintro ⟨⟨member,picked⟩,there⟩
    exact ⟨⟨((alike picked).2 row.2).mpr member,picked⟩,there⟩

-- Where two sights are alike up to the row a walk takes, the twin takes it too, and both move on.
theorem Twins.row {w w' : Opened κ ν π} (twins : Twins picks s s' w w') {row : κ × ν} {rest : List (κ × ν)} (left : w.left = row :: rest)
    (alike : ∀ key, (Reading.through w.pattern w.reverse (some row.1)).Covers picks key → s.Alike s' key) :
    ∃ rest', w'.left = row :: rest' ∧ Twins picks s s' {w with left:=rest} {w' with left:=rest'} := by
  obtain ⟨pattern,reverse,after,here,there⟩ := twins
  have ordered := (s.walk_ordered picks w.pattern w.reverse).filter fun row => Walking.past w.reverse after row.1
  have ordered' := (s'.walk_ordered picks w.pattern w.reverse).filter fun row => Walking.past w.reverse after row.1
  rw [← here,left] at ordered
  rw [← there] at ordered'
  have member : row ∈ w.left := by rw [left]; exact List.mem_cons_self
  have picked : picks w.pattern row.1 = true := by
    rw [here,List.mem_filter,Sight.mem_walk] at member
    exact member.1.2
  have taken : row ∈ w'.left := by
    rw [there]
    rw [here] at member
    exact (mem_twin fun picked => alike row.1 ⟨picked,Walking.upTo_self _ _⟩).mp member
  cases found : w'.left with
  | nil => rw [found] at taken; cases taken
  | cons first rest' =>
    rw [found] at ordered' taken
    have is : first = row := by
      rcases List.mem_cons.mp taken with same | later
      · exact same.symm
      · have ahead := (List.pairwise_cons.mp ordered').1 row later
        have inside : first ∈ w'.left := by rw [found]; exact List.mem_cons_self
        have own : first ∈ w.left := by
          rw [there] at inside
          rw [here]
          exact (mem_twin fun picked => alike first.1 ⟨picked,Walking.upTo_before (Walking.upTo_self _ _) ahead⟩).mpr inside
        rw [left] at own
        rcases List.mem_cons.mp own with same | behind
        · exact same
        · exact absurd ((List.pairwise_cons.mp ordered).1 first behind) ahead.asymm
    subst is
    have away : Walking.past w.reverse after first.1 = true := by
      rw [here,List.mem_filter] at member
      exact member.2
    refine ⟨rest',rfl,pattern,reverse,some first.1,?_,?_⟩
    · rw [← Walking.past_past away,← here,left]
      exact ordered.tail.symm
    · rw [← Walking.past_past away,← there,found]
      exact ordered'.tail.symm

theorem Twins.ended {w w' : Opened κ ν π} (twins : Twins picks s s' w w') (left : w.left = [])
    (alike : ∀ key, (Reading.through w.pattern w.reverse none).Covers picks key → s.Alike s' key) : w'.left = [] := by
  obtain ⟨pattern,reverse,after,here,there⟩ := twins
  refine List.eq_nil_iff_forall_not_mem.mpr fun row inside => ?_
  rw [there] at inside
  have own := (mem_twin fun picked => alike row.1 ⟨picked,rfl⟩).mpr inside
  rw [← here,left] at own
  cases own

theorem forall₂_at {α β : Type} {R : α → β → Prop} {left : List α} {right : List β} (each : List.Forall₂ R left right) (i : Nat) :
    (left[i]? = none ∧ right[i]? = none) ∨ ∃ a b, left[i]? = some a ∧ right[i]? = some b ∧ R a b := by
  induction each generalizing i with
  | nil => exact .inl ⟨rfl,rfl⟩
  | cons head _ ih =>
    cases i with
    | zero => exact .inr ⟨_,_,rfl,rfl,head⟩
    | succ i => exact ih i

theorem forall₂_set {α β : Type} {R : α → β → Prop} {left : List α} {right : List β} (each : List.Forall₂ R left right) (i : Nat)
    {a : α} {b : β} (related : R a b) : List.Forall₂ R (left.set i a) (right.set i b) := by
  induction each generalizing i with
  | nil => exact .nil
  | cons head rest ih =>
    cases i with
    | zero => exact .cons related rest
    | succ i => exact .cons head (ih i)

theorem read_twins (program : Reader κ ν π τ) {walks walks' : List (Opened κ ν π)} (twins : List.Forall₂ (Twins picks s s') walks walks')
    (alike : ∀ reading ∈ (read picks s program walks).2, ∀ key, reading.Covers picks key → s.Alike s' key) :
    read picks s' program walks' = read picks s program walks := by
  induction program generalizing walks walks' with
  | give | fail => rfl
  | get key more ih =>
    have here : s.get key = s'.get key := (alike (.key key) List.mem_cons_self key rfl).1
    have rest := ih (some (s.get key)) twins fun reading member => alike reading (List.mem_cons_of_mem _ member)
    simp only [read]
    rw [← here,rest]
  | walk pattern reverse more ih =>
    refine ih (List.rel_append twins (.cons ⟨rfl,rfl,none,?_,?_⟩ .nil)) alike
    · exact (List.filter_eq_self.mpr fun _ _ => rfl).symm
    · exact (List.filter_eq_self.mpr fun _ _ => rfl).symm
  | take i more ih =>
    simp only [read] at alike ⊢
    rcases forall₂_at twins i with ⟨found,found'⟩ | ⟨w,w',found,found',twin⟩
    · rw [found] at alike
      rw [found,found']
      exact ih _ twins alike
    · rw [found] at alike
      rw [found,found']
      cases left : w.left with
      | nil =>
        simp only [left] at alike ⊢
        rw [twin.ended left fun key => alike _ List.mem_cons_self key]
        dsimp only
        rw [ih _ twins fun reading member => alike reading (List.mem_cons_of_mem _ member),twin.1,twin.2.1]
      | cons row rest =>
        simp only [left] at alike ⊢
        obtain ⟨rest',left',moved⟩ := twin.row left fun key => alike _ List.mem_cons_self key
        rw [left']
        dsimp only
        rw [ih _ (forall₂_set twins i moved) fun reading member => alike reading (List.mem_cons_of_mem _ member),twin.1,twin.2.1]

-- A reader gives the same over two sights that are alike at every key it read.
theorem read_alike (program : Reader κ ν π τ)
    (alike : ∀ reading ∈ (read picks s program []).2, ∀ key, reading.Covers picks key → s.Alike s' key) :
    read picks s' program [] = read picks s program [] := read_twins program .nil alike

end Reader
end
end PhaseLock
