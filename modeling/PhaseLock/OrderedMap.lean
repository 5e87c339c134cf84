import Mathlib.Algebra.Order.Ring.Int
import Mathlib.Data.List.Sort
import Mathlib.Data.List.Nodup

namespace PhaseLock

-- A map in insertion order, as a host language's Map: setting a key it holds
-- keeps the key's place, and setting any other key appends it.
structure OrderedMap (κ ν : Type) where
  entries : List (κ × ν)
  distinct : (entries.map Prod.fst).Nodup
deriving DecidableEq

namespace OrderedMap
variable {κ ν : Type}

def empty : OrderedMap κ ν := ⟨[],by simp⟩

instance : EmptyCollection (OrderedMap κ ν) := ⟨empty⟩
instance : Inhabited (OrderedMap κ ν) := ⟨empty⟩

def keys (m : OrderedMap κ ν) : List κ := m.entries.map Prod.fst
def size (m : OrderedMap κ ν) : Nat := m.entries.length

def keep (p : κ → ν → Bool) (m : OrderedMap κ ν) : OrderedMap κ ν :=
  ⟨m.entries.filter (fun e => p e.1 e.2),
    m.distinct.sublist (List.filter_sublist.map Prod.fst)⟩

@[simp] theorem entries_empty : (∅ : OrderedMap κ ν).entries = [] := rfl
@[simp] theorem keys_empty : (∅ : OrderedMap κ ν).keys = [] := rfl
theorem keys_nodup (m : OrderedMap κ ν) : m.keys.Nodup := m.distinct

variable [DecidableEq κ]

def lookup (k : κ) : List (κ × ν) → Option ν
  | [] => none
  | (k',v) :: rest => if k' = k then some v else lookup k rest

def replace (k : κ) (v : ν) : List (κ × ν) → List (κ × ν)
  | [] => [(k,v)]
  | (k',v') :: rest => if k' = k then (k,v) :: rest else (k',v') :: replace k v rest

@[simp] theorem lookup_nil (k : κ) : lookup k ([] : List (κ × ν)) = none := rfl
theorem lookup_cons (k k' : κ) (v : ν) (rest : List (κ × ν)) : lookup k ((k',v) :: rest) = if k' = k then some v else lookup k rest := rfl
theorem replace_nil (k : κ) (v : ν) : replace k v [] = [(k,v)] := rfl
theorem replace_cons (k : κ) (v : ν) (k' : κ) (v' : ν) (rest : List (κ × ν)) :
    replace k v ((k',v') :: rest) = if k' = k then (k,v) :: rest else (k',v') :: replace k v rest := rfl

theorem replace_keys (k : κ) (v : ν) (rows : List (κ × ν)) (x : κ) :
    x ∈ (replace k v rows).map Prod.fst ↔ x = k ∨ x ∈ rows.map Prod.fst := by
  induction rows with
  | nil => simp [replace_nil]
  | cons head rest ih =>
    obtain ⟨k',v'⟩ := head
    by_cases same : k' = k
    · subst same; simp [replace_cons]
    · simp only [replace_cons,if_neg same,List.map_cons,List.mem_cons,ih]
      tauto

theorem replace_distinct (k : κ) (v : ν) (rows : List (κ × ν))
    (valid : (rows.map Prod.fst).Nodup) : ((replace k v rows).map Prod.fst).Nodup := by
  induction rows with
  | nil => simp [replace_nil]
  | cons head rest ih =>
    obtain ⟨k',v'⟩ := head
    simp only [List.map_cons,List.nodup_cons] at valid
    by_cases same : k' = k
    · subst same; simpa [replace_cons] using valid
    · simp only [replace_cons,if_neg same,List.map_cons,List.nodup_cons]
      refine ⟨?_,ih valid.2⟩
      rw [replace_keys]
      rintro (equal | old)
      · exact same equal
      · exact valid.1 old

theorem lookup_replace (k : κ) (v : ν) (rows : List (κ × ν)) (x : κ) :
    lookup x (replace k v rows) = if k = x then some v else lookup x rows := by
  induction rows with
  | nil => simp [replace_nil,lookup_cons]
  | cons head rest ih =>
    obtain ⟨k',v'⟩ := head
    by_cases same : k' = k
    · subst same
      by_cases at_x : k' = x <;> simp [replace_cons,lookup_cons,at_x]
    · by_cases at_x : k' = x
      · subst at_x
        simp [replace_cons,lookup_cons,same,Ne.symm same]
      · simp [replace_cons,lookup_cons,same,at_x,ih]

theorem lookup_some (rows : List (κ × ν)) (valid : (rows.map Prod.fst).Nodup) (k : κ) (v : ν) :
    lookup k rows = some v ↔ (k,v) ∈ rows := by
  induction rows with
  | nil => simp [lookup_nil]
  | cons head rest ih =>
    obtain ⟨k',v'⟩ := head
    simp only [List.map_cons,List.nodup_cons] at valid
    by_cases same : k' = k
    · subst same
      have fresh : (k',v) ∉ rest := fun old => valid.1 (List.mem_map_of_mem (f := Prod.fst) old)
      simp [lookup_cons,fresh,eq_comm]
    · simp [lookup_cons,same,ih valid.2,Ne.symm same]

theorem lookup_absent (rows : List (κ × ν)) (k : κ) (absent : k ∉ rows.map Prod.fst) :
    lookup k rows = none := by
  induction rows with
  | nil => rfl
  | cons head rest ih =>
    obtain ⟨k',v⟩ := head
    simp only [List.map_cons,List.mem_cons,not_or] at absent
    simp only [lookup_cons,if_neg (Ne.symm absent.1),ih absent.2]

theorem lookup_filter (p : κ → ν → Bool) (rows : List (κ × ν)) (x : κ)
    (valid : (rows.map Prod.fst).Nodup) :
    lookup x (rows.filter (fun e => p e.1 e.2)) = (lookup x rows).filter (p x) := by
  induction rows with
  | nil => simp [lookup_nil]
  | cons head rest ih =>
    obtain ⟨k',v'⟩ := head
    simp only [List.map_cons,List.nodup_cons] at valid
    by_cases same : k' = x
    · subst same
      have gone := lookup_absent rest k' valid.1
      by_cases kept : p k' v' <;> simp [lookup_cons,kept,ih valid.2,gone,Option.filter]
    · by_cases kept : p k' v' <;> simp [lookup_cons,same,kept,ih valid.2]

def get (m : OrderedMap κ ν) (k : κ) : Option ν := lookup k m.entries
def has (m : OrderedMap κ ν) (k : κ) : Bool := (m.get k).isSome

def set (m : OrderedMap κ ν) (k : κ) (v : ν) : OrderedMap κ ν :=
  ⟨replace k v m.entries,replace_distinct k v m.entries m.distinct⟩

def del (m : OrderedMap κ ν) (k : κ) : OrderedMap κ ν := m.keep (fun k' _ => decide (k' ≠ k))

@[simp] theorem get_empty (k : κ) : (∅ : OrderedMap κ ν).get k = none := rfl

theorem get_set (m : OrderedMap κ ν) (k : κ) (v : ν) (x : κ) :
    (m.set k v).get x = if k = x then some v else m.get x := lookup_replace k v m.entries x

@[simp] theorem get_set_self (m : OrderedMap κ ν) (k : κ) (v : ν) : (m.set k v).get k = some v := by
  simp [get_set]

theorem get_set_ne (m : OrderedMap κ ν) (v : ν) {k x : κ} (other : k ≠ x) :
    (m.set k v).get x = m.get x := by simp [get_set,other]

theorem get_keep (m : OrderedMap κ ν) (p : κ → ν → Bool) (x : κ) :
    (m.keep p).get x = (m.get x).filter (p x) := lookup_filter p m.entries x m.distinct

theorem get_del (m : OrderedMap κ ν) (k x : κ) :
    (m.del k).get x = if k = x then none else m.get x := by
  rw [del,get_keep]
  by_cases same : k = x
  · subst same; cases m.get k <;> simp [Option.filter]
  · cases got : m.get x <;> simp [Option.filter,same,Ne.symm same]

@[simp] theorem get_del_self (m : OrderedMap κ ν) (k : κ) : (m.del k).get k = none := by
  simp [get_del]

theorem get_del_ne (m : OrderedMap κ ν) {k x : κ} (other : k ≠ x) : (m.del k).get x = m.get x := by
  simp [get_del,other]

theorem mem_entries (m : OrderedMap κ ν) (k : κ) (v : ν) : (k,v) ∈ m.entries ↔ m.get k = some v :=
  (lookup_some m.entries m.distinct k v).symm

theorem mem_keys (m : OrderedMap κ ν) (k : κ) : k ∈ m.keys ↔ ∃ v, m.get k = some v := by
  simp [keys,← mem_entries]

theorem has_iff (m : OrderedMap κ ν) (k : κ) : m.has k = true ↔ ∃ v, m.get k = some v := by
  simp [has,Option.isSome_iff_exists]

theorem not_mem_keys (m : OrderedMap κ ν) (k : κ) : k ∉ m.keys ↔ m.get k = none := by
  rw [mem_keys,Option.eq_none_iff_forall_ne_some]
  simp

-- A key's value changes, if the map holds the key.
def update (m : OrderedMap κ ν) (k : κ) (f : ν → ν) : OrderedMap κ ν :=
  match m.get k with
  | some v => m.set k (f v)
  | none => m

theorem get_update (m : OrderedMap κ ν) (k : κ) (f : ν → ν) (x : κ) :
    (m.update k f).get x = if k = x then (m.get x).map f else m.get x := by
  unfold update
  by_cases same : k = x
  · subst same
    cases held : m.get k with
    | none => simp [held]
    | some v => simp
  · cases held : m.get k with
    | none => simp [same]
    | some v => simp [get_set,same]

theorem entries_nil (m : OrderedMap κ ν) : m.entries = [] ↔ ∀ k, m.get k = none := by
  constructor
  · intro none k; simp [get,none]
  · intro none
    by_contra some
    obtain ⟨⟨k,v⟩,rest,equal⟩ := List.exists_cons_of_ne_nil some
    have held := (m.mem_entries k v).mp (by simp [equal])
    simp [none k] at held

end OrderedMap

-- A map's entries in the order of their keys, as a store's scan walks them.
def OrderedMap.scan {κ ν : Type} [LE κ] [DecidableLE κ] (m : OrderedMap κ ν) : List (κ × ν) :=
  m.entries.insertionSort (fun a b => a.1 ≤ b.1)

theorem OrderedMap.mem_scan {κ ν : Type} [LE κ] [DecidableLE κ] [DecidableEq κ]
    (m : OrderedMap κ ν) (k : κ) (v : ν) : (k,v) ∈ m.scan ↔ m.get k = some v := by
  rw [scan,List.mem_insertionSort,mem_entries]

theorem OrderedMap.scan_sorted {κ ν : Type} [LinearOrder κ] (m : OrderedMap κ ν) :
    m.scan.Pairwise (fun a b => a.1 < b.1) := by
  have order : Std.Total (fun a b : κ × ν => a.1 ≤ b.1) := ⟨fun a b => le_total a.1 b.1⟩
  have chain : IsTrans (κ × ν) (fun a b => a.1 ≤ b.1) := ⟨fun _ _ _ => le_trans⟩
  have sorted := List.pairwise_insertionSort (fun a b : κ × ν => a.1 ≤ b.1) m.entries
  have fresh : m.scan.Pairwise (fun a b => a.1 ≠ b.1) := by
    have perm := (List.perm_insertionSort (fun a b : κ × ν => a.1 ≤ b.1) m.entries).map Prod.fst
    exact List.pairwise_map.mp (perm.nodup_iff.mpr m.distinct)
  exact sorted.imp₂ (fun _ _ le ne => lt_of_le_of_ne le ne) fresh

-- What a map's entries weigh together.
def OrderedMap.weigh {κ ν : Type} (f : κ → ν → Int) (m : OrderedMap κ ν) : Int := (m.entries.map fun e => f e.1 e.2).sum

namespace OrderedMap
variable {κ ν : Type} (f : κ → ν → Int)

theorem weigh_nonneg (positive : ∀ k v, 0 ≤ f k v) (m : OrderedMap κ ν) : 0 ≤ m.weigh f := by
  unfold weigh
  induction m.entries with
  | nil => exact le_refl 0
  | cons head rest ih =>
    rw [List.map_cons,List.sum_cons]
    have first := positive head.1 head.2
    omega

theorem weigh_keep (p : κ → ν → Bool) (m : OrderedMap κ ν) : (m.keep p).weigh f = m.weigh fun k v => if p k v then f k v else 0 := by
  unfold weigh keep
  dsimp only
  induction m.entries with
  | nil => rfl
  | cons head rest ih =>
    by_cases kept : p head.1 head.2 = true
    · rw [List.filter_cons_of_pos (p:=fun e : κ × ν => p e.1 e.2) kept,List.map_cons,List.map_cons,List.sum_cons,List.sum_cons,ih,if_pos kept]
    · rw [List.filter_cons_of_neg (p:=fun e : κ × ν => p e.1 e.2) kept,List.map_cons,List.sum_cons,ih,if_neg kept]
      omega

variable [DecidableEq κ]

theorem weigh_replace (k : κ) (v : ν) (rows : List (κ × ν)) :
    ((replace k v rows).map fun e => f e.1 e.2).sum = (rows.map fun e => f e.1 e.2).sum+f k v-(lookup k rows).elim 0 (f k) := by
  induction rows with
  | nil => simp [replace,lookup]
  | cons head rest ih =>
    obtain ⟨k',v'⟩ := head
    by_cases same : k' = k
    · subst same
      simp only [replace,lookup,if_true,List.map_cons,List.sum_cons,Option.elim_some]
      omega
    · simp only [replace,lookup,if_neg same,List.map_cons,List.sum_cons,ih]
      omega

theorem weigh_set (m : OrderedMap κ ν) (k : κ) (v : ν) : (m.set k v).weigh f = m.weigh f+f k v-(m.get k).elim 0 (f k) :=
  weigh_replace f k v m.entries

theorem weigh_without (k : κ) (rows : List (κ × ν)) (valid : (rows.map Prod.fst).Nodup) :
    (rows.map fun e => if e.1 ≠ k then f e.1 e.2 else 0).sum = (rows.map fun e => f e.1 e.2).sum-(lookup k rows).elim 0 (f k) := by
  induction rows with
  | nil => rfl
  | cons head rest ih =>
    obtain ⟨k',v'⟩ := head
    rw [List.map_cons,List.nodup_cons] at valid
    have later := ih valid.2
    by_cases same : k' = k
    · subst same
      rw [lookup_absent rest k' valid.1] at later
      simp only [lookup,ne_eq,not_true_eq_false,if_false,if_true,List.map_cons,List.sum_cons,Option.elim_some,Option.elim_none] at later ⊢
      omega
    · simp only [lookup,if_neg same,if_pos same,ne_eq,List.map_cons,List.sum_cons] at later ⊢
      omega

theorem weigh_del (m : OrderedMap κ ν) (k : κ) : (m.del k).weigh f = m.weigh f-(m.get k).elim 0 (f k) := by
  have without := weigh_without f k m.entries m.distinct
  rw [del,weigh_keep]
  unfold weigh get
  rw [← without]
  simp

end OrderedMap

end PhaseLock
