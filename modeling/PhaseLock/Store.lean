import PhaseLock.OrderedMap
import PhaseLock.Runs
import PhaseLock.EditLog
import Mathlib.Data.List.Dedup

namespace PhaseLock

-- What a pass throws, and the reasons promises reject with.
inductive Failure where
  | editWrites (lifecycle : Lifecycle) (slice : Name) (key : Key)
  | keyWithoutBang (key : Key)
  | snapshotHolds (selector : Name) (key : Key)
  | cursorWithNoEpoch
  | otherEpoch (epoch checkpoint : Name)
  | nullRead
  | unwritableMutation
  | userCode
  | fatalEnd
  | noConnection
  | callFailed
  | engineEnded
  | engineShutDown
deriving DecidableEq

structure Mutation (D : Type) where
  id : Nat
  series : Nat
  n : Nat
  data : D
deriving DecidableEq

structure ViewRecord where
  token : Name
  position : Int
  selectors : List Name
deriving DecidableEq

structure CheckpointRecord where
  epoch : Name
  position : Int
  applied : Int
deriving DecidableEq

structure Resume where
  position : Int
  visible : Int
  skipBytes : Nat
  checksum : Name
  fromPosition : Int
  snapshotDone : Bool
  tailDone : Bool
deriving DecidableEq

structure BackfillRecord where
  untilPosition : Int
  resume : Option Resume
deriving DecidableEq

abbrev Base (V : Type) := OrderedMap Key V

-- The store, one table for each kind of key: slice state, and the Engine's own
-- records, each under the parameters of its key's template.
structure Store (V D : Type) where
  base : Base V := (∅ : OrderedMap Key V)
  view : Option ViewRecord := none
  checkpoint : Option CheckpointRecord := none
  seqs : OrderedMap Name Nat := ∅
  mutations : OrderedMap Nat (Mutation D) := ∅
  backfills : OrderedMap Name BackfillRecord := ∅
  backfillSeqs : OrderedMap Name (OrderedMap Name Nat) := ∅
  parkedEdits : OrderedMap (Name × Nat) (WireEdit V) := ∅
  parkedPages : OrderedMap (Name × Nat) (List (Key × V)) := ∅

variable {V D : Type}

def Base.write (base : Base V) (key : Key) : Option V → Base V
  | some value => base.set key value
  | none => base.del key

-- Every key under a text goes; answers the keys that did.
def Base.delPrefix (base : Base V) (text : Key) : Base V × List Key :=
  (base.keep (fun key _ => !text.isPrefixOf key),base.keys.filter (text.isPrefixOf ·))

def Base.writeOps (lifecycle : Lifecycle) (slice : Name) :
    List (Key × Option V) → Base V × List Key → Except Failure (Base V × List Key)
  | [],done => .ok done
  | (key,value) :: rest,(base,changed) =>
    if lifecycle = .death then .error (.editWrites lifecycle slice key) else
    match sliceOf key with
    | none => .error (.keyWithoutBang key)
    | some owner =>
      if owner ≠ slice then .error (.editWrites lifecycle slice key)
      else Base.writeOps lifecycle slice rest (base.write key value,changed++[key])

-- One edit: a birth or a death clears the slice's keys, then its operations apply.
def Base.applyEdit (slice : Name) (state : Base V × List Key) (e : WireEdit V) : Except Failure (Base V × List Key) :=
  if e.lifecycle = .normal then Base.writeOps e.lifecycle slice e.ops state
  else
    let cleared := state.1.delPrefix (slicePrefix slice)
    Base.writeOps e.lifecycle slice e.ops (cleared.1,state.2++cleared.2)

def Base.applyEdits (base : Base V) (edits : List (WireEdit V)) : Except Failure (Base V × List Key) :=
  edits.foldlM (fun state e => Base.applyEdit e.slice state e) (base,[])

def Base.writePage (selector : Name) (skip : List Name) :
    List (Key × V) → Base V × List Key → Except Failure (Base V × List Key)
  | [],done => .ok done
  | (key,value) :: rest,(base,changed) =>
    if ¬(selectorPrefix selector).isPrefixOf key then .error (.snapshotHolds selector key) else
    match sliceOf key with
    | none => .error (.keyWithoutBang key)
    | some owner =>
      if owner ∈ skip then Base.writePage selector skip rest (base,changed)
      else Base.writePage selector skip rest (base.set key value,changed++[key])

namespace Store

-- A slice's parked edits, as a scan of its range walks them.
def parkedOf (store : Store V D) (slice : Name) : List (WireEdit V) :=
  ((store.parkedEdits.keep (fun at_ _ => at_.1 = slice)).entries.insertionSort
    (fun a b => a.1.2 ≤ b.1.2)).map Prod.snd

def parkedSlices (store : Store V D) : List Name := (store.parkedEdits.keys.map Prod.fst).dedup

-- A backfill's parked pages, in blob order.
def pagesOf (store : Store V D) (selector : Name) : List (List (Key × V)) :=
  ((store.parkedPages.keep (fun at_ _ => at_.1 = selector)).entries.insertionSort
    (fun a b => a.1.2 ≤ b.1.2)).map Prod.snd

def applyParked (store : Store V D) (slice : Name) (fromSeq : Nat) : Except Failure (Store V D × List Key) := do
  let rows := (store.parkedOf slice).filter (fun e => fromSeq ≤ e.seq)
  let (base,changed) ← rows.foldlM (Base.applyEdit slice) (store.base,[])
  return ({store with base},changed)

def applySnapshot (store : Store V D) (selector : Name) (skip : List Name) :
    Except Failure (Store V D × List Key) := do
  let (base,changed) ← (store.pagesOf selector).foldlM
    (fun state page => Base.writePage selector skip page state) (store.base,[])
  return ({store with base},changed)

def delSlicePrefix (store : Store V D) (slice : Name) : Store V D × List Key :=
  let gone := store.base.delPrefix (slicePrefix slice)
  ({store with base:=gone.1},gone.2)

-- The parked pages of a selector, and the parked edits of a slice, go.
def delPages (store : Store V D) (selector : Name) : Store V D :=
  {store with parkedPages:=store.parkedPages.keep (fun at_ _ => at_.1 ≠ selector)}

def delParked (store : Store V D) (slice : Name) : Store V D :=
  {store with parkedEdits:=store.parkedEdits.keep (fun at_ _ => at_.1 ≠ slice)}

end Store

-- What a slice's keys are after an edit, as the log's fold has them.
def WireEdit.keysAfter (e : WireEdit V) (keys : Key → Option V) : Key → Option V :=
  match e.lifecycle with
  | .normal => writes e.ops keys
  | .birth => writes e.ops (fun _ => none)
  | .death => fun _ => none

theorem WireEdit.keysOf_apply (e : WireEdit V) (state : Option (SliceState V)) :
    keysOf (e.apply state) = e.keysAfter (keysOf state) := by
  unfold WireEdit.apply WireEdit.keysAfter
  cases e.lifecycle <;> rfl

namespace Base

-- The base restricted to the keys of one slice.
def sliceKeys (base : Base V) (slice : Name) (key : Key) : Option V :=
  if sliceOf key = some slice then base.get key else none

theorem write_get (base : Base V) (key : Key) (value : Option V) (k : Key) :
    (base.write key value).get k = if key = k then value else base.get k := by
  cases value with
  | none => exact OrderedMap.get_del base key k
  | some v => exact OrderedMap.get_set base key v k

theorem delPrefix_get (base : Base V) (text k : Key) :
    (base.delPrefix text).1.get k = if text <+: k then none else base.get k := by
  simp only [delPrefix,OrderedMap.get_keep]
  by_cases starts : text <+: k
  · have bool : text.isPrefixOf k = true := List.isPrefixOf_iff_prefix.mpr starts
    cases base.get k <;> simp [Option.filter,starts,bool]
  · have bool : text.isPrefixOf k = false := by
      rw [Bool.eq_false_iff,ne_eq,List.isPrefixOf_iff_prefix]; exact starts
    cases base.get k <;> simp [Option.filter,starts,bool]

theorem writes_get (ops : List (Key × Option V)) {keys keys' : Key → Option V} (k : Key) (same : keys k = keys' k) :
    writes ops keys k = writes ops keys' k := by
  unfold writes
  induction ops generalizing keys keys' with
  | nil => exact same
  | cons op rest ih =>
    apply ih
    by_cases here : op.1 = k <;> simp [here,same]

theorem writes_other (ops : List (Key × Option V)) (keys : Key → Option V) (k : Key) (none : ∀ op ∈ ops, op.1 ≠ k) :
    writes ops keys k = keys k := by
  unfold writes
  induction ops generalizing keys with
  | nil => rfl
  | cons op rest ih =>
    rw [List.foldl_cons,ih _ (fun op member => none op (List.mem_cons_of_mem _ member))]
    simp [none op List.mem_cons_self]

theorem writeOps_get {lifecycle : Lifecycle} {ops : List (Key × Option V)} {base after : Base V} {before changed : List Key}
    (ran : writeOps lifecycle slice ops (base,before) = .ok (after,changed)) :
    (∀ k, after.get k = writes ops base.get k) ∧ (∀ op ∈ ops, sliceOf op.1 = some slice) ∧
      (lifecycle = .death → ops = []) := by
  induction ops generalizing base before with
  | nil => cases ran; exact ⟨fun _ => rfl,by simp,fun _ => rfl⟩
  | cons op rest ih =>
    obtain ⟨key,value⟩ := op
    simp only [writeOps] at ran
    split at ran
    · cases ran
    · rename_i alive
      split at ran
      · cases ran
      · rename_i owner here
        split at ran
        · cases ran
        · rename_i same
          obtain ⟨got,unders,_⟩ := ih ran
          refine ⟨?_,?_,fun dead => absurd dead alive⟩
          · intro k
            rw [got k]
            exact writes_get rest k (write_get base key value k)
          · intro op member
            rcases List.mem_cons.mp member with rfl | old
            · simpa [here] using same
            · exact unders op old

theorem clear_get (base : Base V) (plain : '!' ∉ slice) (k : Key) :
    (base.delPrefix (slicePrefix slice)).1.get k = if sliceOf k = some slice then none else base.get k := by
  rw [delPrefix_get]
  simp only [slicePrefix_iff plain]

-- An edit that applies gives its slice's keys what the log's fold gives them,
-- and leaves every other key alone.
theorem applyEdit_get {e : WireEdit V} {base after : Base V} {before changed : List Key} (plain : '!' ∉ slice)
    (ran : applyEdit slice (base,before) e = .ok (after,changed)) (k : Key) :
    after.get k = if sliceOf k = some slice then e.keysAfter (base.sliceKeys slice) k else base.get k := by
  unfold applyEdit at ran
  unfold WireEdit.keysAfter
  by_cases kind : e.lifecycle = .normal
  · rw [if_pos kind] at ran
    obtain ⟨got,unders,_⟩ := writeOps_get ran
    rw [got k,kind]
    by_cases inside : sliceOf k = some slice
    · rw [if_pos inside]
      exact writes_get _ _ (by simp [sliceKeys,inside])
    · have others : ∀ op ∈ e.ops, op.1 ≠ k := by
        intro op member same
        exact inside (same ▸ unders op member)
      rw [if_neg inside,writes_other _ _ _ others]
  · rw [if_neg kind] at ran
    obtain ⟨got,unders,dead⟩ := writeOps_get ran
    rw [got k]
    by_cases inside : sliceOf k = some slice
    · rw [if_pos inside]
      cases life : e.lifecycle with
      | normal => exact absurd life kind
      | birth => exact writes_get _ _ (by rw [clear_get base plain,if_pos inside])
      | death => rw [dead life]; simp [writes,clear_get base plain,inside]
    · have others : ∀ op ∈ e.ops, op.1 ≠ k := by
        intro op member same
        exact inside (same ▸ unders op member)
      rw [if_neg inside,writes_other _ _ _ others,clear_get base plain,if_neg inside]

theorem applyEdit_under {e : WireEdit V} {base after : Base V} {before changed : List Key}
    (ran : applyEdit slice (base,before) e = .ok (after,changed)) : ∀ op ∈ e.ops, sliceOf op.1 = some slice := by
  unfold applyEdit at ran
  split at ran
  · exact (writeOps_get ran).2.1
  · exact (writeOps_get ran).2.1

theorem applyEdit_slice {e : WireEdit V} {base after : Base V} {before changed : List Key} (plain : '!' ∉ slice)
    (ran : applyEdit slice (base,before) e = .ok (after,changed)) :
    after.sliceKeys slice = e.keysAfter (base.sliceKeys slice) := by
  funext k
  by_cases inside : sliceOf k = some slice
  · rw [sliceKeys,if_pos inside,applyEdit_get plain ran k,if_pos inside]
  · have others : ∀ op ∈ e.ops, op.1 ≠ k := by
      intro op member same
      exact inside (same ▸ applyEdit_under ran op member)
    rw [sliceKeys,if_neg inside]
    unfold WireEdit.keysAfter
    cases e.lifecycle with
    | normal => simp only [writes_other _ _ _ others,sliceKeys,if_neg inside]
    | birth => simp only [writes_other _ _ _ others]
    | death => rfl

theorem applyEdit_other {e : WireEdit V} {base after : Base V} {before changed : List Key} (plain : '!' ∉ slice)
    (ran : applyEdit slice (base,before) e = .ok (after,changed)) (other : name ≠ slice) :
    after.sliceKeys name = base.sliceKeys name := by
  funext k
  unfold sliceKeys
  by_cases inside : sliceOf k = some name
  · rw [if_pos inside,if_pos inside,applyEdit_get plain ran k,if_neg]
    intro also
    exact other (Option.some.inj (inside.symm.trans also))
  · rw [if_neg inside,if_neg inside]

-- Every key stands under some slice.
def Owned (base : Base V) : Prop := ∀ k v, base.get k = some v → ∃ slice, sliceOf k = some slice

theorem applyEdit_owned {e : WireEdit V} {base after : Base V} {before changed : List Key} (plain : '!' ∉ slice)
    (ran : applyEdit slice (base,before) e = .ok (after,changed)) (owned : Owned base) : Owned after := by
  intro k v held
  rw [applyEdit_get plain ran k] at held
  split at held
  · rename_i inside; exact ⟨slice,inside⟩
  · exact owned k v held

theorem clear_slice (base : Base V) (plain : '!' ∉ slice) :
    (base.delPrefix (slicePrefix slice)).1.sliceKeys slice = fun _ => none := by
  funext k
  unfold sliceKeys
  rw [clear_get base plain]
  split <;> rfl

theorem clear_other (base : Base V) (plain : '!' ∉ slice) (other : name ≠ slice) :
    (base.delPrefix (slicePrefix slice)).1.sliceKeys name = base.sliceKeys name := by
  funext k
  unfold sliceKeys
  rw [clear_get base plain]
  by_cases inside : sliceOf k = some name
  · have elsewhere : sliceOf k ≠ some slice := by
      intro also
      exact other (Option.some.inj (inside.symm.trans also))
    rw [if_pos inside,if_pos inside,if_neg elsewhere]
  · rw [if_neg inside,if_neg inside]

theorem clear_owned {base : Base V} (plain : '!' ∉ slice) (owned : Owned base) :
    Owned (base.delPrefix (slicePrefix slice)).1 := by
  intro k v held
  rw [clear_get base plain] at held
  split at held
  · cases held
  · exact owned k v held

-- A slice's parked run gives its keys the fold of the run, and leaves the rest.
theorem applyRun {run : List (WireEdit V)} {base after : Base V} {before changed : List Key} (plain : '!' ∉ slice)
    (state : Option (SliceState V)) (start : base.sliceKeys slice = keysOf state)
    (ran : run.foldlM (applyEdit slice) (base,before) = .ok (after,changed)) :
    after.sliceKeys slice = keysOf (run.foldl (fun s e => e.apply s) state) ∧
      (∀ name, name ≠ slice → after.sliceKeys name = base.sliceKeys name) ∧ (Owned base → Owned after) := by
  induction run generalizing base before state with
  | nil => cases ran; exact ⟨start,fun _ _ => rfl,id⟩
  | cons e rest ih =>
    obtain ⟨⟨middle,between⟩,one,more⟩ := foldlM_ok.mp ran
    have next : middle.sliceKeys slice = keysOf (e.apply state) := by
      rw [applyEdit_slice plain one,start,WireEdit.keysOf_apply]
    obtain ⟨keys,others,owned⟩ := ih (e.apply state) next more
    refine ⟨keys,?_,fun first => owned (applyEdit_owned plain one first)⟩
    intro name other
    rw [others name other,applyEdit_other plain one other]

-- A frame's edits give each slice the fold of its own.
theorem applyEdits_get {edits : List (WireEdit V)} {base after : Base V} {before changed : List Key}
    (plain : ∀ e ∈ edits, '!' ∉ e.slice) (state : Name → Option (SliceState V))
    (start : ∀ name, base.sliceKeys name = keysOf (state name))
    (ran : edits.foldlM (fun state e => applyEdit e.slice state e) (base,before) = .ok (after,changed)) :
    (∀ name, after.sliceKeys name = keysOf ((editsOf edits name).foldl (fun s e => e.apply s) (state name))) ∧
      (Owned base → Owned after) := by
  induction edits generalizing base before state with
  | nil => cases ran; exact ⟨start,id⟩
  | cons e rest ih =>
    obtain ⟨⟨middle,between⟩,one,more⟩ := foldlM_ok.mp ran
    have here := plain e List.mem_cons_self
    have next : ∀ name, middle.sliceKeys name = keysOf (if e.slice = name then e.apply (state name) else state name) := by
      intro name
      by_cases same : e.slice = name
      · subst same
        rw [if_pos rfl,applyEdit_slice here one,start,WireEdit.keysOf_apply]
      · rw [if_neg same,applyEdit_other here one (Ne.symm same),start]
    obtain ⟨keys,owned⟩ := ih (fun x member => plain x (List.mem_cons_of_mem _ member)) _ next more
    refine ⟨?_,fun first => owned (applyEdit_owned here one first)⟩
    intro name
    rw [keys name]
    by_cases same : e.slice = name
    · simp [editsOf,same]
    · simp [editsOf,same]

-- The operations of a page that a land writes: those of no skipped slice.
def kept (skip : List Name) (page : List (Key × V)) : List (Key × Option V) :=
  (page.filter (fun op => (sliceOf op.1).all (· ∉ skip))).map (fun op => (op.1,some op.2))

theorem writePage_get {skip : List Name} {page : List (Key × V)} {base after : Base V} {before changed : List Key}
    (ran : writePage selector skip page (base,before) = .ok (after,changed)) :
    (∀ k, after.get k = writes (kept skip page) base.get k) ∧ ∀ op ∈ page, ∃ slice, sliceOf op.1 = some slice := by
  induction page generalizing base before with
  | nil => cases ran; exact ⟨fun _ => rfl,by simp⟩
  | cons op rest ih =>
    obtain ⟨key,value⟩ := op
    simp only [writePage] at ran
    split at ran
    · cases ran
    · split at ran
      · cases ran
      · rename_i owner here
        have owners : (∀ op ∈ rest, ∃ slice, sliceOf op.1 = some slice) →
            ∀ op ∈ (key,value) :: rest, ∃ slice, sliceOf op.1 = some slice := by
          intro old op member
          rcases List.mem_cons.mp member with rfl | later
          · exact ⟨owner,here⟩
          · exact old op later
        split at ran
        · rename_i skipped
          obtain ⟨got,others⟩ := ih ran
          refine ⟨?_,owners others⟩
          intro k
          rw [got k]
          simp [kept,here,skipped]
        · rename_i written
          obtain ⟨got,others⟩ := ih ran
          refine ⟨?_,owners others⟩
          intro k
          rw [got k]
          simp only [kept,List.filter_cons,here,Option.all_some,written,not_false_eq_true,decide_true,if_true,
            List.map_cons]
          exact writes_get _ k (OrderedMap.get_set base key value k)

theorem writePage_append (skip : List Name) (first second : List (Key × V)) (state : Base V × List Key) :
    writePage selector skip (first++second) state = (writePage selector skip first state >>= writePage selector skip second) := by
  induction first generalizing state with
  | nil => rfl
  | cons op rest ih =>
    obtain ⟨key,value⟩ := op
    obtain ⟨base,changed⟩ := state
    simp only [List.cons_append,writePage]
    split
    · rfl
    · split
      · rfl
      · split
        · exact ih _
        · exact ih _

-- A blob's pages write what one page of all their operations would.
theorem writePages (skip : List Name) (pages : List (List (Key × V))) (state : Base V × List Key) :
    pages.foldlM (fun state page => writePage selector skip page state) state =
      writePage selector skip pages.flatten state := by
  induction pages generalizing state with
  | nil => rfl
  | cons page rest ih =>
    rw [List.foldlM_cons,List.flatten_cons,writePage_append]
    congr 1
    funext middle
    exact ih middle

theorem writes_wrote {ops : List (Key × Option V)} {keys : Key → Option V} {k : Key} {value : Option V}
    (member : (k,value) ∈ ops) (alone : ∀ op ∈ ops, op.1 = k → op.2 = value) : writes ops keys k = value := by
  induction ops generalizing keys with
  | nil => cases member
  | cons op rest ih =>
    unfold writes at ih ⊢
    by_cases later : (k,value) ∈ rest
    · exact ih later fun x inside => alone x (List.mem_cons_of_mem _ inside)
    · have first : op = (k,value) := ((List.mem_cons.mp member).resolve_right later).symm
      subst first
      by_cases again : ∃ op ∈ rest, op.1 = k
      · obtain ⟨x,inside,same⟩ := again
        have equal : x = (k,value) := Prod.ext same (alone x (List.mem_cons_of_mem _ inside) same)
        exact absurd (equal ▸ inside) later
      · have others : ∀ op ∈ rest, op.1 ≠ k := fun x inside same => again ⟨x,inside,same⟩
        rw [List.foldl_cons]
        have rest := writes_other rest (fun j => if k = j then value else keys j) k others
        unfold writes at rest
        rw [rest]
        simp

end Base

namespace Store

-- A parked edit stands under its own slice and seq.
def Genuine (store : Store V D) : Prop :=
  ∀ name seq e, store.parkedEdits.get (name,seq) = some e → e.slice = name ∧ e.seq = seq

theorem mem_parkedOf (store : Store V D) (slice : Name) (e : WireEdit V) :
    e ∈ store.parkedOf slice ↔ ∃ seq, store.parkedEdits.get (slice,seq) = some e := by
  simp only [parkedOf,List.mem_map,List.mem_insertionSort]
  constructor
  · rintro ⟨⟨⟨name,seq⟩,e'⟩,member,rfl⟩
    rw [OrderedMap.mem_entries,OrderedMap.get_keep] at member
    obtain ⟨held,same⟩ := Option.filter_eq_some_iff.mp member
    simp only [decide_eq_true_eq] at same
    exact ⟨seq,same ▸ held⟩
  · rintro ⟨seq,held⟩
    refine ⟨((slice,seq),e),?_,rfl⟩
    rw [OrderedMap.mem_entries,OrderedMap.get_keep,held]
    simp [Option.filter]

theorem parkedOf_sorted (store : Store V D) (genuine : store.Genuine) (slice : Name) :
    (store.parkedOf slice).Pairwise (fun a b => a.seq < b.seq) := by
  unfold parkedOf
  set rows := (store.parkedEdits.keep (fun at_ _ => decide (at_.1 = slice))).entries with given
  have order : Std.Total (fun a b : (Name × Nat) × WireEdit V => a.1.2 ≤ b.1.2) := ⟨fun a b => Nat.le_total _ _⟩
  have chain : IsTrans ((Name × Nat) × WireEdit V) (fun a b => a.1.2 ≤ b.1.2) := ⟨fun _ _ _ => Nat.le_trans⟩
  have sorted := List.pairwise_insertionSort (fun a b : (Name × Nat) × WireEdit V => a.1.2 ≤ b.1.2) rows
  have held : ∀ row ∈ rows, store.parkedEdits.get row.1 = some row.2 ∧ row.1.1 = slice := by
    rintro ⟨at_,e⟩ member
    rw [given,OrderedMap.mem_entries,OrderedMap.get_keep] at member
    obtain ⟨found,same⟩ := Option.filter_eq_some_iff.mp member
    exact ⟨found,by simpa using same⟩
  have fresh : (rows.insertionSort (fun a b => a.1.2 ≤ b.1.2)).Pairwise (fun a b => a.1 ≠ b.1) := by
    have perm := (List.perm_insertionSort (fun a b : (Name × Nat) × WireEdit V => a.1.2 ≤ b.1.2) rows).map Prod.fst
    exact List.pairwise_map.mp (perm.nodup_iff.mpr (OrderedMap.distinct _))
  rw [List.pairwise_map]
  refine (sorted.and fresh).imp_of_mem ?_
  rintro ⟨⟨nameA,seqA⟩,a⟩ ⟨⟨nameB,seqB⟩,b⟩ left right ⟨le,ne⟩
  obtain ⟨foundA,sameA⟩ := held _ ((List.mem_insertionSort _).mp left)
  obtain ⟨foundB,sameB⟩ := held _ ((List.mem_insertionSort _).mp right)
  dsimp only at *
  subst sameA
  subst sameB
  rw [(genuine _ _ _ foundA).2,(genuine _ _ _ foundB).2]
  exact Nat.lt_of_le_of_ne le fun equal => ne (by rw [equal])

theorem mem_pagesOf (store : Store V D) (selector : Name) (page : List (Key × V)) :
    page ∈ store.pagesOf selector ↔ ∃ start, store.parkedPages.get (selector,start) = some page := by
  simp only [pagesOf,List.mem_map,List.mem_insertionSort]
  constructor
  · rintro ⟨⟨⟨name,start⟩,page'⟩,member,rfl⟩
    rw [OrderedMap.mem_entries,OrderedMap.get_keep] at member
    obtain ⟨held,same⟩ := Option.filter_eq_some_iff.mp member
    simp only [decide_eq_true_eq] at same
    exact ⟨start,same ▸ held⟩
  · rintro ⟨start,held⟩
    refine ⟨((selector,start),page),?_,rfl⟩
    rw [OrderedMap.mem_entries,OrderedMap.get_keep,held]
    simp [Option.filter]

theorem mem_parkedSlices (store : Store V D) (slice : Name) :
    slice ∈ store.parkedSlices ↔ ∃ seq e, store.parkedEdits.get (slice,seq) = some e := by
  simp only [parkedSlices,List.mem_dedup,List.mem_map,OrderedMap.mem_keys]
  constructor
  · rintro ⟨⟨name,seq⟩,⟨e,held⟩,rfl⟩
    exact ⟨seq,e,held⟩
  · rintro ⟨seq,e,held⟩
    exact ⟨(slice,seq),⟨e,held⟩,rfl⟩

end Store
end PhaseLock
