import PhaseLock.Runs
import PhaseLock.Scans
import PhaseLock.Shelves
import Mathlib.Data.Finset.Union

namespace PhaseLock

namespace Scan

-- The longest text every key the span covers starts with: its pattern's head, or what both ends
-- of its stretch share when that is longer.
def Span.shared (s : Span) : Bytes :=
  match s.from_,s.to_ with
  | some f,some t =>
    let n := ((f.zip t).takeWhile fun pair => pair.1 = pair.2).length
    if s.pattern.head.length < n then f.take n else s.pattern.head
  | _,_ => s.pattern.head

-- Whether a key under a text could lie inside what the scan batch read.
def Span.mayHold (s : Span) (text : Bytes) : Bool :=
  let (lo,hi) := if s.reverse then (s.to_,s.from_) else (s.from_,s.to_)
  if ¬s.pattern.head <+: text ∧ ¬text <+: s.pattern.head then false
  else if hi.any (fun hi => hi < text || text = hi && s.reverse) then false
  else if lo.any (fun lo => text < lo && !text.isPrefixOf lo) then false
  else true

end Scan

namespace ReadSets
open Scan

-- Which of a registration's cached calls.
inductive Cached where
  | grant | account
deriving DecidableEq

structure Call where
  reg : Nat
  what : Cached
deriving DecidableEq

-- What a cached call read, and whether a write since it ran touched any of it.
structure ReadSet where
  keys : List Bytes := []
  spans : List Span := []
  dirty : Bool := false
deriving DecidableEq

-- The calls that got each key, and those that got a key under each slice; and under each bucket
-- the spans filed there, each as its call and its place among the call's spans.
structure ReadIndex where
  keys : Shelves Bytes Call := (∅ : OrderedMap Bytes (Finset Call))
  slices : Shelves Bytes Call := (∅ : OrderedMap Bytes (Finset Call))
  spans : Shelves Bytes (Call × Nat) := (∅ : OrderedMap Bytes (Finset (Call × Nat)))

-- The slice a key lies in, up to its '!'.
def sliceOf (key : Bytes) : Option Bytes := (key.findIdx? (· = bang)).map fun i => key.take (i+1)

def separator (c : UInt8) : Bool := c = colon || c = comma || c = bang

-- The texts a bucket can be: none, then each one ending at a separator, up to and including the
-- '!' that ends the slice.
def boundaries (text : Bytes) : List Bytes :=
  let stop := (sliceOf text).elim text.length List.length
  [] :: ((text.take stop).zipIdx.filter fun row => separator row.1).map fun row => text.take (row.2+1)

-- The bucket of a span: the longest of the boundaries of what every key it covers starts with.
def bucket (s : Span) : Bytes := (boundaries s.shared).getLast?.getD []

namespace ReadIndex

-- Files what a call read.
def link (ix : ReadIndex) (c : Call) (r : ReadSet) : ReadIndex where
  keys := r.keys.foldl (fun m k => m.file k c) ix.keys
  slices := (r.keys.filterMap sliceOf).foldl (fun m s => m.file s c) ix.slices
  spans := r.spans.zipIdx.foldl (fun m row => m.file (bucket row.1) (c,row.2)) ix.spans

-- Drops what link filed for a call that read r.
def unlink (ix : ReadIndex) (c : Call) (r : ReadSet) : ReadIndex where
  keys := r.keys.foldl (fun m k => m.remove k c) ix.keys
  slices := (r.keys.filterMap sliceOf).foldl (fun m s => m.remove s c) ix.slices
  spans := r.spans.zipIdx.foldl (fun m row => m.remove (bucket row.1) (c,row.2)) ix.spans

-- The calls among spans filed under buckets, each clean and its span answering.
def spanned (ix : ReadIndex) (buckets : List Bytes) (read : Call → Option ReadSet) (answers : Span → Bool) : Finset Call :=
  (buckets.toFinset.biUnion ix.spans.at_ |>.filter fun row => (read row.1).any fun r => (r.spans[row.2]?).any answers).image Prod.fst

-- Each call a written key touched.  Read answers a call's read set while the call is clean.
def written (ix : ReadIndex) (key : Bytes) (read : Call → Option ReadSet) : Finset Call :=
  ((ix.keys.at_ key).filter fun c => (read c).isSome) ∪ ix.spanned (boundaries key) read fun s => s.covers key

-- Each call a cleared slice, as its text up to its '!', touched.
def cleared (ix : ReadIndex) (text : Bytes) (read : Call → Option ReadSet) : Finset Call :=
  ((ix.slices.at_ text).filter fun c => (read c).isSome) ∪ ix.spanned (boundaries text) read fun s => s.mayHold text

-- Two indexes of the same sets.
def Same (a b : ReadIndex) : Prop :=
  (∀ k, a.keys.get k = b.keys.get k) ∧ (∀ k, a.slices.get k = b.slices.get k) ∧ ∀ k, a.spans.get k = b.spans.get k

end ReadIndex

-- The index with the calls linked in it, each with the read set it was linked with.
structure Filing where
  index : ReadIndex := {}
  linked : OrderedMap Call ReadSet := (∅ : OrderedMap Call ReadSet)

inductive FilingEvent where
  | link (c : Call) (r : ReadSet)
  | unlink (c : Call) (r : ReadSet)
  | touch (c : Call)

namespace Filing

def next (s : Filing) : FilingEvent → Filing
  | .link c r => ⟨s.index.link c r,s.linked.set c r⟩
  | .unlink c r => ⟨s.index.unlink c r,s.linked.del c⟩
  | .touch c => {s with linked:=s.linked.update c fun r => {r with dirty:=true}}

-- A call is linked once until it is unlinked, with what it was linked with.
def machine : Machine Filing FilingEvent where
  allowed s event := match event with
    | .link c _ => s.linked.get c = none
    | .unlink c r => s.linked.get c = some r
    | .touch _ => True
  next := next

-- A call's read set while the call is clean.
def read (s : Filing) (c : Call) : Option ReadSet := (s.linked.get c).filter fun r => !r.dirty

-- The index built afresh from the calls still linked.
def afresh (linked : OrderedMap Call ReadSet) : ReadIndex := linked.entries.foldl (fun ix row => ix.link row.1 row.2) {}

end Filing

theorem sliceOf_some {key s : Bytes} : sliceOf key = some s ↔ ∃ name rest, bang ∉ name ∧ s = name++[bang] ∧ key = name++bang :: rest := by
  unfold sliceOf
  induction key generalizing s with
  | nil => simp
  | cons c rest ih =>
    rw [List.findIdx?_cons]
    by_cases here : c = bang
    · subst here
      simp only [decide_true,if_true,Option.map_some,List.take_succ_cons,List.take_zero,Option.some.injEq]
      constructor
      · rintro rfl
        exact ⟨[],rest,by simp,rfl,rfl⟩
      · rintro ⟨name,tail,plain,rfl,same⟩
        cases name with
        | nil => rfl
        | cons d name =>
          rw [List.cons_append,List.cons.injEq] at same
          exact absurd (same.1 ▸ List.mem_cons_self) plain
    · simp only [here,decide_false,Bool.false_eq_true,if_false,Option.map_map]
      have shift : (Option.map ((fun i => List.take (i+1) (c :: rest)) ∘ fun i => i+1) (List.findIdx? (fun x => decide (x = bang)) rest)) =
          (Option.map (fun i => rest.take (i+1)) (List.findIdx? (fun x => decide (x = bang)) rest)).map (c :: ·) := by
        rw [Option.map_map]
        rfl
      rw [shift,Option.map_eq_some_iff]
      constructor
      · rintro ⟨s',held,rfl⟩
        obtain ⟨name,tail,plain,rfl,rfl⟩ := ih.mp held
        exact ⟨c :: name,tail,by simpa [plain] using Ne.symm here,rfl,rfl⟩
      · rintro ⟨name,tail,plain,rfl,same⟩
        cases name with
        | nil =>
          rw [List.nil_append,List.cons.injEq] at same
          exact absurd same.1 here
        | cons d name =>
          rw [List.cons_append,List.cons.injEq] at same
          rw [List.mem_cons,not_or] at plain
          obtain ⟨rfl,rfl⟩ := same
          exact ⟨name++[bang],ih.mpr ⟨name,tail,plain.2,rfl,rfl⟩,rfl⟩

theorem sliceOf_none {key : Bytes} : sliceOf key = none ↔ bang ∉ key := by
  unfold sliceOf
  rw [Option.map_eq_none_iff,List.findIdx?_eq_none_iff]
  constructor
  · intro none member
    simpa using none bang member
  · intro plain c member
    simp only [decide_eq_false_iff_not]
    rintro rfl
    exact plain member

-- A boundary ends at a separator, with no '!' before it.
theorem mem_boundaries {text b : Bytes} : b ∈ boundaries text ↔
    b = [] ∨ ∃ front c, separator c = true ∧ b = front++[c] ∧ b <+: text ∧ bang ∉ front := by
  unfold boundaries
  simp only [List.mem_cons,List.mem_map,List.mem_filter]
  refine or_congr_right ?_
  have stops : ∀ i, i < (sliceOf text).elim text.length List.length ↔ i < text.length ∧ bang ∉ text.take i := by
    intro i
    cases owned : sliceOf text with
    | none =>
      have plain := sliceOf_none.mp owned
      simp only [Option.elim_none,iff_self_and]
      exact fun _ member => plain (List.mem_of_mem_take member)
    | some s =>
      obtain ⟨name,rest,plain,rfl,rfl⟩ := sliceOf_some.mp owned
      simp only [Option.elim_some,List.length_append,List.length_cons,List.length_nil]
      constructor
      · intro below
        refine ⟨by omega,?_⟩
        rw [List.take_append_of_le_length (by omega)]
        exact fun member => plain (List.mem_of_mem_take member)
      · rintro ⟨_,before⟩
        by_contra beyond
        refine before ?_
        rw [List.take_append,List.mem_append]
        refine .inr ?_
        obtain ⟨k,more⟩ : ∃ k, i-name.length = k+1 := ⟨i-name.length-1,by omega⟩
        rw [more]
        exact List.mem_cons_self
  generalize (sliceOf text).elim text.length List.length = stop at stops
  constructor
  · rintro ⟨⟨c,i⟩,⟨member,is⟩,rfl⟩
    have at_ : (text.take stop)[i]? = some c := by simpa using List.mem_zipIdx_iff_getElem?.mp member
    rw [List.getElem?_take] at at_
    split at at_
    · rename_i below
      obtain ⟨_,plain⟩ := (stops i).mp below
      refine ⟨text.take i,c,is,?_,List.take_prefix _ _,plain⟩
      dsimp only
      rw [List.take_add_one,at_]
      rfl
    · cases at_
  · rintro ⟨front,c,is,rfl,starts,plain⟩
    obtain ⟨rest,rfl⟩ := starts
    have below : front.length < stop := (stops front.length).mpr ⟨by simp,by rw [List.append_assoc,List.take_left]; exact plain⟩
    refine ⟨(c,front.length),⟨?_,is⟩,?_⟩
    · rw [List.mem_zipIdx_iff_getElem?,List.getElem?_take,if_pos below]
      simp
    · dsimp only
      rw [← List.length_singleton (a:=c),← List.length_append,List.take_left]

theorem bucket_mem (s : Span) : bucket s ∈ boundaries s.shared := by
  unfold bucket
  cases last : (boundaries s.shared).getLast? with
  | none =>
    rw [List.getLast?_eq_none_iff] at last
    unfold boundaries at last
    cases last
  | some b => exact List.mem_of_getLast? last

theorem boundaries_extend {text longer b : Bytes} (starts : text <+: longer) (member : b ∈ boundaries text) : b ∈ boundaries longer := by
  rw [mem_boundaries] at member ⊢
  rcases member with rfl | ⟨front,c,is,rfl,under,plain⟩
  · exact .inl rfl
  · exact .inr ⟨front,c,is,rfl,under.trans starts,plain⟩

-- A key's boundaries are its slice's.
theorem boundaries_slice {slice key b : Bytes} (under : slice++[bang] <+: key) (member : b ∈ boundaries key) :
    b ∈ boundaries (slice++[bang]) := by
  rw [mem_boundaries] at member ⊢
  rcases member with rfl | ⟨front,c,is,rfl,starts,before⟩
  · exact .inl rfl
  · refine .inr ⟨front,c,is,rfl,?_,before⟩
    rcases List.prefix_or_prefix_of_prefix starts under with short | long
    · exact short
    · rcases List.prefix_concat_iff.mp long with same | inside
      · exact same ▸ List.prefix_rfl
      · exact absurd (inside.subset (List.mem_append_right slice (List.mem_singleton_self bang))) before

theorem take_shared (f t : Bytes) : f.take ((f.zip t).takeWhile fun pair => pair.1 = pair.2).length <+: t := by
  induction f generalizing t with
  | nil => exact List.nil_prefix
  | cons c f ih =>
    cases t with
    | nil => exact List.nil_prefix
    | cons d t =>
      by_cases same : c = d
      · subst same
        simp only [List.zip_cons_cons,List.takeWhile_cons,decide_true,if_true,List.length_cons,List.take_succ_cons]
        exact List.cons_prefix_cons.mpr ⟨rfl,ih t⟩
      · simp [same]

theorem covers_iff {s : Span} {key : Bytes} : s.covers key = true ↔
    (∀ f ∈ s.from_, if s.reverse then key < f else f < key) ∧ (∀ t ∈ s.to_, if s.reverse then t ≤ key else key ≤ t) ∧
      s.pattern.picks key = true := by
  unfold Span.covers
  simp only [Bool.and_eq_true,and_assoc,Option.all_eq_true,Option.mem_def]
  cases s.reverse <;> simp

-- Every key a span covers starts with what it is filed by.
theorem shared_covers {s : Span} {key : Bytes} (covers : s.covers key = true) : s.shared <+: key := by
  obtain ⟨after,upTo,picks⟩ := covers_iff.mp covers
  have head : s.pattern.head <+: key := picks_under picks
  unfold Span.shared
  split
  · rename_i f t from_ to_
    dsimp only
    split
    · have first := List.take_prefix ((f.zip t).takeWhile fun pair => pair.1 = pair.2).length f
      have last := take_shared f t
      have low := after f from_
      have high := upTo t to_
      cases back : s.reverse with
      | false =>
        rw [back] at low high
        exact Texts.prefix_between first last (le_of_lt (by simpa using low)) (by simpa using high)
      | true =>
        rw [back] at low high
        exact Texts.prefix_between last first (by simpa using high) (le_of_lt (by simpa using low))
    · exact head
  · exact head

theorem bucket_covers {s : Span} {key : Bytes} (covers : s.covers key = true) : bucket s ∈ boundaries key :=
  boundaries_extend (shared_covers covers) (bucket_mem s)

-- A span that covers a key under a text may hold one.
theorem mayHold_covers {s : Span} {key text : Bytes} (covers : s.covers key = true) (under : text <+: key) : s.mayHold text = true := by
  obtain ⟨after,upTo,picks⟩ := covers_iff.mp covers
  have head : s.pattern.head <+: key := picks_under picks
  have agree : ¬(¬s.pattern.head <+: text ∧ ¬text <+: s.pattern.head) := by
    rintro ⟨left,right⟩
    exact (List.prefix_or_prefix_of_prefix head under).elim left right
  have low : text ≤ key := Texts.prefix_le under
  have started : ∀ lo, lo ≤ key → text < lo → text.isPrefixOf lo = true := fun lo le less =>
    List.isPrefixOf_iff_prefix.mpr (Texts.prefix_between List.prefix_rfl under (le_of_lt less) le)
  unfold Span.mayHold
  cases back : s.reverse with
  | false =>
    rw [back] at after upTo
    simp only [Bool.false_eq_true,if_false] at after upTo ⊢
    rw [if_neg agree]
    rw [if_neg]
    · rw [if_neg]
      intro apart
      obtain ⟨lo,held,less⟩ := Option.any_eq_true _ _ |>.mp apart
      rw [Bool.and_eq_true,decide_eq_true_eq] at less
      simp [started lo (le_of_lt (after lo held)) less.1] at less
    · intro apart
      obtain ⟨hi,held,less⟩ := Option.any_eq_true _ _ |>.mp apart
      have less : hi < text := by simpa using less
      exact absurd (lt_of_lt_of_le less (low.trans (upTo hi held))) (lt_irrefl hi)
  | true =>
    rw [back] at after upTo
    simp only [if_true] at after upTo ⊢
    rw [if_neg agree]
    rw [if_neg]
    · rw [if_neg]
      intro apart
      obtain ⟨lo,held,less⟩ := Option.any_eq_true _ _ |>.mp apart
      rw [Bool.and_eq_true,decide_eq_true_eq] at less
      simp [started lo (upTo lo held) less.1] at less
    · intro apart
      obtain ⟨hi,held,less⟩ := Option.any_eq_true _ _ |>.mp apart
      have less : hi ≤ text := by
        rcases (Bool.or_eq_true _ _ |>.mp less) with below | same
        · exact le_of_lt (of_decide_eq_true below)
        · exact le_of_eq (of_decide_eq_true (Bool.and_eq_true _ _ |>.mp same).1).symm
      exact absurd (lt_of_le_of_lt (less.trans low) (after hi held)) (lt_irrefl hi)

-- What one call's read set files.
def Got (r : ReadSet) (key : Bytes) : Prop := key ∈ r.keys
def Under (r : ReadSet) (slice : Bytes) : Prop := slice ∈ r.keys.filterMap sliceOf
def At (r : ReadSet) (b : Bytes) (i : Nat) : Prop := (b,i) ∈ r.spans.zipIdx.map fun row => (bucket row.1,row.2)

-- An index of every linked call's read set, and of nothing else.
structure Indexes (ix : ReadIndex) (linked : Call → Option ReadSet) : Prop where
  keys : ix.keys.Holds fun k c => ∃ r, linked c = some r ∧ Got r k
  slices : ix.slices.Holds fun s c => ∃ r, linked c = some r ∧ Under r s
  spans : ix.spans.Holds fun b row => ∃ r, linked row.1 = some r ∧ At r b row.2

variable {ix : ReadIndex} {linked : Call → Option ReadSet} {c : Call} {r : ReadSet}

theorem files_map {κ ι τ : Type} [DecidableEq κ] [DecidableEq τ] (items : List ι) (k : ι → κ) (x : ι → τ) (m : Shelves κ τ) :
    items.foldl (fun m item => m.file (k item) (x item)) m = (items.map fun item => (k item,x item)).foldl (fun m row => m.file row.1 row.2) m := by
  rw [List.foldl_map]

theorem removes_map {κ ι τ : Type} [DecidableEq κ] [DecidableEq τ] (items : List ι) (k : ι → κ) (x : ι → τ) (m : Shelves κ τ) :
    items.foldl (fun m item => m.remove (k item) (x item)) m = (items.map fun item => (k item,x item)).foldl (fun m row => m.remove row.1 row.2) m := by
  rw [List.foldl_map]

-- What is linked once c is linked with r, and once it is not.
theorem linked_set {P : ReadSet → Prop} (fresh : linked c = none) (c' : Call) :
    (∃ r', Function.update linked c (some r) c' = some r' ∧ P r') ↔ c' = c ∧ P r ∨ ∃ r', linked c' = some r' ∧ P r' := by
  by_cases here : c' = c
  · subst here
    simp [fresh]
  · simp [here]

theorem linked_del {P : ReadSet → Prop} (held : linked c = some r) (c' : Call) :
    (∃ r', Function.update linked c none c' = some r' ∧ P r') ↔ ¬(c' = c ∧ P r) ∧ ∃ r', linked c' = some r' ∧ P r' := by
  by_cases here : c' = c
  · subst here
    simp [held]
  · simp [here]

theorem Indexes.link (indexes : Indexes ix linked) (fresh : linked c = none) (r : ReadSet) :
    Indexes (ix.link c r) (Function.update linked c (some r)) := by
  refine ⟨?_,?_,?_⟩
  · refine (files_map r.keys id (fun _ => c) ix.keys ▸ indexes.keys.files (r.keys.map fun k => (k,c))).congr fun k c' => ?_
    rw [linked_set (P:=fun r => Got r k) fresh]
    simp [Got,and_comm,eq_comm]
  · refine (files_map _ id (fun _ => c) ix.slices ▸ indexes.slices.files ((r.keys.filterMap sliceOf).map fun s => (s,c))).congr fun s c' => ?_
    rw [linked_set (P:=fun r => Under r s) fresh]
    unfold Under
    generalize r.keys.filterMap sliceOf = slices
    simp [and_comm,eq_comm]
  · refine (files_map r.spans.zipIdx (fun row : Span × Nat => bucket row.1) (fun row => (c,row.2)) ix.spans ▸
      indexes.spans.files (r.spans.zipIdx.map fun row : Span × Nat => (bucket row.1,(c,row.2)))).congr fun b row => ?_
    obtain ⟨c',i⟩ := row
    rw [linked_set (P:=fun r => At r b i) fresh]
    refine or_congr_left ?_
    unfold At
    simp only [List.mem_map,Prod.mk.injEq]
    constructor
    · rintro ⟨row,member,rfl,rfl,rfl⟩
      exact ⟨rfl,row,member,rfl,rfl⟩
    · rintro ⟨rfl,row,member,rfl,rfl⟩
      exact ⟨row,member,rfl,rfl,rfl⟩

theorem Indexes.unlink (indexes : Indexes ix linked) (held : linked c = some r) :
    Indexes (ix.unlink c r) (Function.update linked c none) := by
  refine ⟨?_,?_,?_⟩
  · refine (removes_map r.keys id (fun _ => c) ix.keys ▸ indexes.keys.removes (r.keys.map fun k => (k,c))).congr fun k c' => ?_
    rw [linked_del (P:=fun r => Got r k) held]
    simp [Got,and_comm,eq_comm]
  · refine (removes_map _ id (fun _ => c) ix.slices ▸ indexes.slices.removes ((r.keys.filterMap sliceOf).map fun s => (s,c))).congr fun s c' => ?_
    rw [linked_del (P:=fun r => Under r s) held]
    unfold Under
    generalize r.keys.filterMap sliceOf = slices
    simp [and_comm,eq_comm]
  · refine (removes_map r.spans.zipIdx (fun row : Span × Nat => bucket row.1) (fun row => (c,row.2)) ix.spans ▸
      indexes.spans.removes (r.spans.zipIdx.map fun row : Span × Nat => (bucket row.1,(c,row.2)))).congr fun b row => ?_
    obtain ⟨c',i⟩ := row
    rw [linked_del (P:=fun r => At r b i) held]
    refine and_congr_left fun _ => not_congr ?_
    unfold At
    simp only [List.mem_map,Prod.mk.injEq]
    constructor
    · rintro ⟨row,member,rfl,rfl,rfl⟩
      exact ⟨rfl,row,member,rfl,rfl⟩
    · rintro ⟨rfl,row,member,rfl,rfl⟩
      exact ⟨row,member,rfl,rfl,rfl⟩

-- What a call read is all the index knows of it.
theorem Indexes.congr (indexes : Indexes ix linked)
    (same : ∀ c, (still c).map (fun r => (r.keys,r.spans)) = (linked c).map fun r : ReadSet => (r.keys,r.spans)) : Indexes ix still := by
  have each : ∀ (P : List Bytes → List Span → Prop) c, (∃ r, linked c = some r ∧ P r.keys r.spans) ↔ ∃ r, still c = some r ∧ P r.keys r.spans := by
    intro P c
    have equal := same c
    cases held : linked c with
    | none =>
      rw [held] at equal
      cases also : still c with
      | none => simp
      | some r => rw [also] at equal; cases equal
    | some r =>
      rw [held] at equal
      cases also : still c with
      | none => rw [also] at equal; cases equal
      | some r' =>
        rw [also] at equal
        obtain ⟨keys,spans⟩ := Prod.mk.inj (Option.some.inj equal)
        simp [keys,spans]
  exact ⟨indexes.keys.congr fun k c => each (fun keys _ => k ∈ keys) c,
    indexes.slices.congr fun s c => each (fun keys _ => s ∈ keys.filterMap sliceOf) c,
    indexes.spans.congr fun b row => each (fun _ spans => (b,row.2) ∈ spans.zipIdx.map fun row : Span × Nat => (bucket row.1,row.2)) row.1⟩

theorem indexes_empty : Indexes {} fun _ => none :=
  ⟨Shelves.holds_empty.congr (by simp),Shelves.holds_empty.congr (by simp),Shelves.holds_empty.congr (by simp)⟩

theorem Indexes.same {other : ReadIndex} (left : Indexes ix linked) (right : Indexes other linked) : ix.Same other :=
  ⟨left.keys.same right.keys,left.slices.same right.slices,left.spans.same right.spans⟩

theorem Indexes.spanned {read : Call → Option ReadSet} {answers : Span → Bool} (indexes : Indexes ix linked) (held : linked c = some r)
    (clean : read c = some r) {s : Span} (among : s ∈ r.spans) (found : bucket s ∈ buckets) (yes : answers s = true) :
    c ∈ ix.spanned buckets read answers := by
  obtain ⟨i,at_⟩ := List.mem_iff_getElem?.mp among
  have filed : (c,i) ∈ ix.spans.at_ (bucket s) :=
    (indexes.spans.member (bucket s) (c,i)).mpr ⟨r,held,List.mem_map.mpr ⟨(s,i),List.mem_zipIdx_iff_getElem?.mpr at_,rfl⟩⟩
  unfold ReadIndex.spanned
  rw [Finset.mem_image]
  refine ⟨(c,i),?_,rfl⟩
  rw [Finset.mem_filter,Finset.mem_biUnion]
  refine ⟨⟨bucket s,List.mem_toFinset.mpr found,filed⟩,?_⟩
  dsimp only
  rw [clean,Option.any_some,at_,Option.any_some]
  exact yes

-- The calls a write or a clear could have changed what they read.
def ReadSet.Reads (r : ReadSet) (key : Bytes) : Prop := key ∈ r.keys ∨ ∃ s ∈ r.spans, s.covers key = true

-- Every clean call that read a key written is found.
theorem Indexes.written {read : Call → Option ReadSet} (indexes : Indexes ix linked) (held : linked c = some r) (clean : read c = some r)
    (reads : r.Reads key) : c ∈ ix.written key read := by
  unfold ReadIndex.written
  rw [Finset.mem_union]
  rcases reads with got | ⟨span,among,covers⟩
  · refine .inl (Finset.mem_filter.mpr ⟨(indexes.keys.member key c).mpr ⟨r,held,got⟩,?_⟩)
    rw [clean]
    rfl
  · exact .inr (indexes.spanned held clean among (bucket_covers covers) covers)

-- And every clean call that read a key under a slice cleared.
theorem Indexes.cleared {read : Call → Option ReadSet} (indexes : Indexes ix linked) (held : linked c = some r) (clean : read c = some r)
    (plain : bang ∉ slice) (under : slice++[bang] <+: key) (reads : r.Reads key) : c ∈ ix.cleared (slice++[bang]) read := by
  unfold ReadIndex.cleared
  rw [Finset.mem_union]
  rcases reads with got | ⟨span,among,covers⟩
  · refine .inl (Finset.mem_filter.mpr ⟨(indexes.slices.member _ c).mpr ⟨r,held,List.mem_filterMap.mpr ⟨key,got,?_⟩⟩,?_⟩)
    · obtain ⟨rest,rfl⟩ := under
      exact sliceOf_some.mpr ⟨slice,rest,plain,rfl,by simp⟩
    · rw [clean]
      rfl
  · exact .inr (indexes.spanned held clean among (boundaries_slice under (bucket_covers covers)) (mayHold_covers covers under))

namespace Filing

structure Sound (s : Filing) : Prop where
  indexes : Indexes s.index s.linked.get

theorem get_touch (linked : OrderedMap Call ReadSet) (c c' : Call) :
    ((linked.update c fun r => {r with dirty:=true}).get c').map (fun r => (r.keys,r.spans)) = (linked.get c').map fun r => (r.keys,r.spans) := by
  rw [OrderedMap.get_update]
  split
  · rw [Option.map_map]
    rfl
  · rfl

theorem step_sound {s : Filing} (sound : s.Sound) (event : FilingEvent) (allowed : machine.allowed s event) : (s.next event).Sound := by
  cases event with
  | link c r =>
    have same : (s.linked.set c r).get = Function.update s.linked.get c (some r) := by
      funext c'
      rw [OrderedMap.get_set,Function.update_apply]
      exact if_congr eq_comm rfl rfl
    exact ⟨same ▸ sound.indexes.link allowed r⟩
  | unlink c r =>
    have same : (s.linked.del c).get = Function.update s.linked.get c none := by
      funext c'
      rw [OrderedMap.get_del,Function.update_apply]
      exact if_congr eq_comm rfl rfl
    exact ⟨same ▸ sound.indexes.unlink allowed⟩
  | touch c => exact ⟨sound.indexes.congr (get_touch s.linked c)⟩

theorem runs_sound (path : machine.Runs {} events s) : Sound s :=
  path.invariant ⟨indexes_empty⟩ fun _ event sound allowed => step_sound sound event allowed

-- The index built afresh is one of the calls it is built from.
theorem afresh_indexes (linked : OrderedMap Call ReadSet) : Indexes (afresh linked) linked.get := by
  have builds : ∀ (rows done : List (Call × ReadSet)) (ix : ReadIndex), ((done++rows).map Prod.fst).Nodup →
      Indexes ix (fun c => OrderedMap.lookup c done) →
      Indexes (rows.foldl (fun ix row => ix.link row.1 row.2) ix) (fun c => OrderedMap.lookup c (done++rows)) := by
    intro rows
    induction rows with
    | nil => exact fun done ix _ indexes => by simpa using indexes
    | cons row rest ih =>
      intro done ix distinct indexes
      obtain ⟨c,r⟩ := row
      have fresh : c ∉ done.map Prod.fst := by
        rw [List.map_append,List.map_cons] at distinct
        exact fun member => (List.nodup_append.mp distinct).2.2 _ member _ List.mem_cons_self rfl
      have grown : (fun c' => OrderedMap.lookup c' (done++[(c,r)])) = Function.update (fun c' => OrderedMap.lookup c' done) c (some r) := by
        funext c'
        rw [Function.update_apply]
        have search : ∀ rows : List (Call × ReadSet), c ∉ rows.map Prod.fst →
            OrderedMap.lookup c' (rows++[(c,r)]) = if c' = c then some r else OrderedMap.lookup c' rows := by
          intro rows
          induction rows with
          | nil => intro _; simp [OrderedMap.lookup,eq_comm]
          | cons other rest ih =>
            intro absent
            rw [List.map_cons,List.mem_cons,not_or] at absent
            by_cases here : other.1 = c'
            · subst here
              simp [OrderedMap.lookup,Ne.symm absent.1]
            · simp [OrderedMap.lookup,here,ih absent.2]
        exact search done fresh
      have later := ih (done++[(c,r)]) (ix.link c r) (by simpa using distinct)
        (grown ▸ indexes.link (OrderedMap.lookup_absent done c fresh) r)
      rw [List.append_assoc] at later
      exact later
  exact builds linked.entries [] {} linked.distinct indexes_empty

theorem read_some {s : Filing} : s.read c = some r ↔ s.linked.get c = some r ∧ r.dirty = false := by
  unfold read
  cases s.linked.get c with
  | none => simp
  | some held =>
    cases dirty : held.dirty <;> simp [Option.filter,dirty]
    · rintro rfl
      exact dirty
    · rintro rfl
      exact dirty

end Filing

-- A batch walks onward, from just past one key to another.
def Onward (s : Span) : Prop := ∀ f ∈ s.from_, ∀ t ∈ s.to_, if s.reverse then t < f else f < t

-- The spans a call's batches leave, one after another.
def recorded (batches : List Span) : List Span := batches.foldl (fun l b => pushSpan l b.pattern b.reverse b.from_ b.to_) []

theorem pushSpan_reads {l : List Span} {b : Span} (onward : ∀ s ∈ l, Onward s) (goes : Onward b) :
    (∀ s ∈ pushSpan l b.pattern b.reverse b.from_ b.to_, Onward s) ∧
    ∀ key, (∃ s ∈ l, s.covers key = true) ∨ b.covers key = true → ∃ s ∈ pushSpan l b.pattern b.reverse b.from_ b.to_, s.covers key = true := by
  have pushes : (∀ s ∈ l++[b], Onward s) ∧ ∀ key, (∃ s ∈ l, s.covers key = true) ∨ b.covers key = true → ∃ s ∈ l++[b], s.covers key = true := by
    refine ⟨fun s member => ?_,fun key covers => ?_⟩
    · rcases List.mem_append.mp member with old | new
      · exact onward s old
      · exact List.mem_singleton.mp new ▸ goes
    · rcases covers with ⟨s,member,covers⟩ | covers
      · exact ⟨s,List.mem_append_left _ member,covers⟩
      · exact ⟨b,List.mem_append_right _ (List.mem_singleton_self b),covers⟩
  unfold pushSpan
  cases last : l.getLast? with
  | none => exact pushes
  | some last' =>
    dsimp only
    split_ifs with same
    · obtain ⟨started,meets,way,pattern⟩ := same
      obtain ⟨front,rfl⟩ : ∃ front, l = front++[last'] := by
        obtain ⟨_,equal⟩ := List.getLast?_eq_some_iff.mp last
        exact ⟨_,equal⟩
      rw [List.dropLast_concat]
      obtain ⟨f,from_⟩ := Option.isSome_iff_exists.mp started
      have before := onward last' (by simp)
      rw [from_] at meets
      -- the walk's last batch ended where this one starts
      have extends_ : Onward {last' with to_:=b.to_} := by
        intro g started' t ends
        have left := before g started' f meets
        have right := goes f from_ t ends
        rw [← way] at right
        dsimp only
        cases back : last'.reverse with
        | false =>
          rw [back] at left right
          exact lt_trans (by simpa using left) (by simpa using right)
        | true =>
          rw [back] at left right
          exact lt_trans (by simpa using right) (by simpa using left)
      have all : ∀ key, last'.covers key = true ∨ b.covers key = true → ({last' with to_:=b.to_} : Span).covers key = true := by
        intro key covers
        simp only [covers_iff] at covers ⊢
        rcases covers with ⟨after,upTo,picks⟩ | ⟨after,upTo,picks⟩
        · refine ⟨after,fun t ends => ?_,picks⟩
          have low := upTo f meets
          have high := goes f from_ t ends
          rw [← way] at high
          cases back : last'.reverse with
          | false =>
            rw [back] at low high
            exact le_of_lt (lt_of_le_of_lt (by simpa using low) (by simpa using high))
          | true =>
            rw [back] at low high
            exact le_of_lt (lt_of_lt_of_le (by simpa using high) (by simpa using low))
        · refine ⟨fun g started' => ?_,fun t ends => way ▸ upTo t ends,pattern ▸ picks⟩
          have low := before g started' f meets
          have high := after f from_
          rw [← way] at high
          cases back : last'.reverse with
          | false =>
            rw [back] at low high
            exact lt_trans (by simpa using low) (by simpa using high)
          | true =>
            rw [back] at low high
            exact lt_trans (by simpa using high) (by simpa using low)
      refine ⟨fun s member => ?_,fun key covers => ?_⟩
      · rcases List.mem_append.mp member with old | new
        · exact onward s (List.mem_append_left _ old)
        · exact List.mem_singleton.mp new ▸ extends_
      · rcases covers with ⟨s,member,covers⟩ | covers
        · rcases List.mem_append.mp member with old | new
          · exact ⟨s,List.mem_append_left _ old,covers⟩
          · exact ⟨_,List.mem_append_right _ (List.mem_singleton_self _),all key (.inl (List.mem_singleton.mp new ▸ covers))⟩
        · exact ⟨_,List.mem_append_right _ (List.mem_singleton_self _),all key (.inr covers)⟩
    · exact pushes

-- The spans left cover every key a batch did.
theorem recorded_reads (batches : List Span) (onward : ∀ b ∈ batches, Onward b) {b : Span} (among : b ∈ batches)
    (covers : b.covers key = true) : ∃ s ∈ recorded batches, s.covers key = true := by
  have keeps : ∀ (rest l : List Span), (∀ b ∈ rest, Onward b) → (∀ s ∈ l, Onward s) →
      (∃ s ∈ l, s.covers key = true) ∨ (∃ b ∈ rest, b.covers key = true) →
      ∃ s ∈ rest.foldl (fun l b => pushSpan l b.pattern b.reverse b.from_ b.to_) l, s.covers key = true := by
    intro rest
    induction rest with
    | nil =>
      intro l _ _ either
      rcases either with held | ⟨b,member,_⟩
      · exact held
      · cases member
    | cons first rest ih =>
      intro l goes onward either
      obtain ⟨still,reads⟩ := pushSpan_reads onward (goes first List.mem_cons_self)
      refine ih _ (fun b member => goes b (List.mem_cons_of_mem _ member)) still ?_
      rcases either with held | ⟨b,member,covers⟩
      · exact .inl (reads key (.inl held))
      · rcases List.mem_cons.mp member with rfl | later
        · exact .inl (reads key (.inr covers))
        · exact .inr ⟨b,later,covers⟩
  exact keeps batches [] onward (fun s member => (by cases member)) (.inr ⟨b,among,covers⟩)

theorem read_index_sound {events : List FilingEvent} {s : Filing} (path : Filing.machine.Runs {} events s) :
    (∀ key c r, s.linked.get c = some r → r.dirty = false → r.Reads key → c ∈ s.index.written key s.read) ∧
    (∀ slice c r, s.linked.get c = some r → r.dirty = false → bang ∉ slice → (∃ key, slice++[bang] <+: key ∧ r.Reads key) →
      c ∈ s.index.cleared (slice++[bang]) s.read) ∧
    s.index.Same (Filing.afresh s.linked) ∧
    ∀ batches key, (∀ b ∈ batches, Onward b) → (∃ b ∈ batches, b.covers key = true) → ∃ span ∈ recorded batches, span.covers key = true := by
  have indexes := (Filing.runs_sound path).indexes
  exact ⟨fun key c r held clean reads => indexes.written held (Filing.read_some.mpr ⟨held,clean⟩) reads,
    fun slice c r held clean plain ⟨key,under,reads⟩ => indexes.cleared held (Filing.read_some.mpr ⟨held,clean⟩) plain under reads,
    indexes.same (Filing.afresh_indexes s.linked),fun batches key onward ⟨b,among,covers⟩ => recorded_reads batches onward among covers⟩

-- A call that got "s!x" and walked every slice.
def sampleRead : ReadSet := {keys:=[[115,33,120]],spans:=[⟨⟨[],[],false⟩,false,none,none⟩]}

theorem read_index_sound_sample : ∃ s, Filing.machine.Runs {} [.link ⟨0,.grant⟩ sampleRead] s ∧
    ⟨0,.grant⟩ ∈ s.index.written [115,33,120] s.read ∧ ⟨0,.grant⟩ ∈ s.index.cleared [115,33] s.read := by
  have path : Filing.machine.Runs {} ([]++[.link ⟨0,.grant⟩ sampleRead]) (Filing.next {} (.link ⟨0,.grant⟩ sampleRead)) :=
    .step .nil rfl
  have held : (Filing.next {} (.link ⟨0,.grant⟩ sampleRead)).linked.get ⟨0,.grant⟩ = some sampleRead := rfl
  have got : sampleRead.Reads [115,33,120] := .inl (List.mem_singleton_self _)
  exact ⟨_,path,(read_index_sound path).1 _ _ _ held rfl got,
    (read_index_sound path).2.1 [115] _ _ held rfl (by decide) ⟨[115,33,120],by decide,got⟩⟩

end ReadSets
end PhaseLock
