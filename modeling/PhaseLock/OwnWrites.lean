import PhaseLock.MergedScans

namespace PhaseLock
namespace Natives
open Scan SkipScan Texts
variable {τ ν : Type}

-- Two scans handed the same rows answer the same.
theorem nativeScan_seen (reg : Registry τ ν) {wb wb' : Option WriteBuffer} {kv kv' : OrderedMap Key Bytes}
    (track : Option ReadSet) (budget : Nat) (req : ScanRequest)
    (same : ∀ p, fromJs req.pattern = .ok p → seen wb kv p req.reverse req.after = seen wb' kv' p req.reverse req.after) :
    nativeScan reg wb kv track budget req = nativeScan reg wb' kv' track budget req := by
  unfold nativeScan
  cases made : fromJs req.pattern with
  | error e => rfl
  | ok p =>
    have walks : ∀ type, walkBatch (take reg type req.limit) wb kv p req.reverse req.after budget =
        walkBatch (take reg type req.limit) wb' kv' p req.reverse req.after budget := by
      intro type
      rw [walkBatch_seen (take_honest reg type req.limit),walkBatch_seen (take_honest reg type req.limit),same p made]
    simp only [walks]

-- What taking one row comes to.
theorem take_cases (reg : Registry τ ν) (type : Option τ) (limit : Nat) (key : Bytes) (e : Key × Bytes) (b : Batch ν) :
    (∃ t, take reg type limit key e b = (.fail,{b with thrown:=t})) ∨ ∃ v, take reg type limit key e b =
      if b.entries.length+1 < limit then (.next,{b with entries:=b.entries++[(e.1,v)]})
      else (.stop,{b with
        entries:=b.entries++[(e.1,v)]
        full:=true}) := by
  unfold take
  cases type with
  | none => exact .inr ⟨none,by simp⟩
  | some ty =>
    dsimp only
    cases decodeStored reg e.1 ty e.2 with
    | error t => exact .inl ⟨some t,rfl⟩
    | ok v => exact .inr ⟨some v,by simp⟩

-- A batch takes the first rows it is handed, up to its limit, and is full when there are
-- that many.
theorem take_rows (reg : Registry τ ν) (type : Option τ) {limit : Nat} (rows : List Row) {b : Batch ν} (empty : b.full = false)
    (room : b.entries.length < limit) (fine : (visitAll (take reg type limit) rows b).1 ≠ .fail) :
    (visitAll (take reg type limit) rows b).2.entries.map Prod.fst =
        b.entries.map Prod.fst++(rows.take (limit-b.entries.length)).map (fun e => e.2.1) ∧
      ((visitAll (take reg type limit) rows b).2.full = true ↔ limit ≤ b.entries.length+rows.length) := by
  induction rows generalizing b with
  | nil => simp [visitAll,empty,room]
  | cons e rest ih =>
    have left : limit-b.entries.length = (limit-(b.entries.length+1))+1 := by omega
    rw [visitAll] at fine ⊢
    rcases take_cases reg type limit e.1 e.2 b with ⟨t,took⟩ | ⟨v,took⟩
    · rw [took] at fine
      exact absurd rfl fine
    · by_cases more : b.entries.length+1 < limit
      · rw [if_pos more] at took
        rw [took] at fine ⊢
        have later := ih (b:={b with entries:=b.entries++[(e.2.1,v)]}) empty (by simpa using more) fine
        obtain ⟨keys,full⟩ := later
        constructor
        · refine keys.trans ?_
          rw [left,List.take_succ_cons]
          simp
        · refine full.trans ?_
          simp only [List.length_append,List.length_cons,List.length_nil]
          omega
      · rw [if_neg more] at took
        rw [took]
        have last : limit-(b.entries.length+1) = 0 := by omega
        constructor
        · simp [left,last]
        · simp only [List.length_cons,true_iff]
          omega

-- What a full or a short batch answers.
theorem nativeScan_ok {reg : Registry τ ν} {wb : Option WriteBuffer} {kv : OrderedMap Key Bytes} {track : Option ReadSet}
    {budget : Nat} {req : ScanRequest} (made : fromJs req.pattern = .ok p)
    (ran : nativeScan reg wb kv track budget req = some (.ok (entries,next),track')) :
    0 < req.limit ∧ entries.map Prod.fst = ((seen wb kv p req.reverse req.after).take req.limit).map (fun e => e.2.1) ∧
      next = if req.limit ≤ (seen wb kv p req.reverse req.after).length then entries.getLast?.map Prod.fst else none := by
  unfold nativeScan at ran
  rw [made] at ran
  dsimp only at ran
  split at ran
  · cases ran
  · split at ran
    · cases ran
    · split at ran
      · cases ran
      · rename_i limited
        have positive : 0 < req.limit := Nat.pos_of_ne_zero limited
        generalize (Option.map (fun id => (id,reg.lookup id)) req.values).bind Prod.snd = type at ran
        rw [walkBatch_seen (take_honest reg type req.limit)] at ran
        dsimp only [ended] at ran
        split at ran
        · cases ran
        · cases ran
        · rename_i b at_
          have parts := Prod.mk.inj (Option.some.inj at_)
          have fine : (visitAll (take reg type req.limit) (seen wb kv p req.reverse req.after) {}).1 ≠ .fail := by
            intro failed
            rw [if_pos failed] at parts
            cases parts.1
          obtain ⟨keys,full⟩ := take_rows reg type _ (b:={}) rfl positive fine
          rw [parts.2] at keys full
          cases ran
          refine ⟨positive,by simpa using keys,?_⟩
          by_cases is : b.full = true
          · rw [if_pos is,if_pos (by simpa using full.mp is)]
          · rw [if_neg is,if_neg (fun enough => is (full.mpr (by simpa using enough)))]

-- The rows a pattern picks, in walk order.
theorem picked_ordered {rows : List Row} (sorted : Sorted rows) (p : Pattern) (reverse : Bool) (after : Option Bytes) :
    Ordered reverse (picked rows p reverse after) := (sorted.ahead reverse).filter _

theorem visited_ordered {rows : List Row} (sorted : Sorted rows) (p : Pattern) (reverse : Bool) (after : Option Bytes) :
    Ordered reverse (visited (p.stand reverse) (start rows p reverse after)) :=
  (start_ordered sorted p reverse after).sublist ((visited_sublist _ _).trans List.filter_sublist)

theorem seen_ordered (wb : Option WriteBuffer) (kv : OrderedMap Key Bytes) (p : Pattern) (reverse : Bool)
    (after : Option Bytes) : Ordered reverse (seen wb kv p reverse after) := by
  have sorted := storeRows_sorted kv
  cases wb with
  | none => exact visited_ordered sorted p reverse after
  | some wb =>
    refine mergeRows_ordered (pendingOf_ordered wb p reverse after) (visited_ordered sorted p reverse after) ?_
    intro a pending e member shown same
    obtain ⟨isA,held,_⟩ := mem_pendingOf.mp pending
    have inRows := ((visited_sublist _ _).trans List.filter_sublist).subset member
    have isE := (mem_storeRows.mp ((mem_ahead _).mp ((start_suffix _ p reverse after).subset inRows))).1
    rw [isA,isE] at same
    have key : a.2.1 = e.2.1 := Mp.utf8_inj.mp same
    rw [hides,← key,held] at shown
    cases shown

-- Where a call's buffer has an answer, or leaves the store's.
theorem applied_row (kv : OrderedMap Key Bytes) (ops : List Write) : x ∈ storeRows (applyWrites kv ops) ↔
    (x = row x.2 ∧ (WriteBuffer.writes ops).entries.get x.2.1 = some (some x.2.2)) ∨
      x ∈ storeRows kv ∧ hides (WriteBuffer.writes ops) x = false := by
  rw [mem_storeRows,mem_storeRows,applyWrites_get,WriteBuffer.read,hides]
  cases held : (WriteBuffer.writes ops).entries.get x.2.1 with
  | some v =>
    constructor
    · rintro ⟨is,rfl⟩; exact .inl ⟨is,rfl⟩
    · rintro (⟨is,equal⟩ | ⟨_,shown⟩)
      · exact ⟨is,Option.some.inj equal⟩
      · cases shown
  | none =>
    by_cases gone : (WriteBuffer.writes ops).deleted x.2.1 = true
    · simp [gone]
    · simp [gone]

-- With a clear store the rows seen through a buffer are those picked of the store the
-- writes leave.
theorem seen_untangled {p : Pattern} (kv : OrderedMap Key Bytes) (ops : List Write) (formed : Formed p.fields)
    (clear : Untangled (storeRows kv) p reverse after) :
    seen (some (WriteBuffer.writes ops)) kv p reverse after = picked (storeRows (applyWrites kv ops)) p reverse after := by
  have sorted := storeRows_sorted kv
  have all := (visited_untangled sorted formed reverse after).mpr clear
  refine ordered_ext (seen_ordered _ _ p reverse after) (picked_ordered (storeRows_sorted _) p reverse after) fun x => ?_
  simp only [seen,mem_mergeRows,mem_pendingOf,all,mem_picked,applied_row]
  constructor
  · rintro (⟨is,held,far,picks⟩ | ⟨⟨member,picks,far⟩,shown⟩)
    · exact ⟨.inl ⟨is,held⟩,picks,far⟩
    · exact ⟨.inr ⟨member,shown⟩,picks,far⟩
  · rintro ⟨⟨is,held⟩ | ⟨member,shown⟩,picks,far⟩
    · exact .inl ⟨is,held,far,picks⟩
    · exact .inr ⟨⟨member,picks,far⟩,shown⟩

theorem seen_plain {p : Pattern} (kv : OrderedMap Key Bytes) (formed : Formed p.fields)
    (clear : Untangled (storeRows kv) p reverse after) : seen none kv p reverse after = picked (storeRows kv) p reverse after :=
  (visited_untangled (storeRows_sorted kv) formed reverse after).mpr clear

-- A key the store's walk passes over is passed over in the store the writes leave too, and
-- no other one is.
def Agree (kv : OrderedMap Key Bytes) (ops : List Write) (p : Pattern) (reverse : Bool) (after : Option Bytes) : Prop :=
  ∀ m ∈ picked (storeRows (applyWrites kv ops)) p reverse after,
    ((WriteBuffer.writes ops).entries.get m.2.1 = none ∧ Shadowed (storeRows kv) p reverse after m.1) ↔
      Shadowed (storeRows (applyWrites kv ops)) p reverse after m.1

theorem mem_seen_buffer {p : Pattern} (kv : OrderedMap Key Bytes) (ops : List Write) (formed : Formed p.fields) :
    x ∈ seen (some (WriteBuffer.writes ops)) kv p reverse after ↔
      x ∈ picked (storeRows (applyWrites kv ops)) p reverse after ∧
        ¬((WriteBuffer.writes ops).entries.get x.2.1 = none ∧ Shadowed (storeRows kv) p reverse after x.1) := by
  simp only [seen,mem_mergeRows,mem_pendingOf,mem_visited_start (storeRows_sorted kv) formed reverse after,mem_picked,
    applied_row]
  constructor
  · rintro (⟨is,held,far,picks⟩ | ⟨⟨member,far,picks,clear⟩,shown⟩)
    · exact ⟨⟨.inl ⟨is,held⟩,picks,far⟩,fun both => by rw [held] at both; cases both.1⟩
    · exact ⟨⟨.inr ⟨member,shown⟩,picks,far⟩,fun both => clear both.2⟩
  · rintro ⟨⟨⟨is,held⟩ | ⟨member,shown⟩,picks,far⟩,clear⟩
    · exact .inl ⟨is,held,far,picks⟩
    · refine .inr ⟨⟨member,far,picks,fun shadowed => clear ⟨?_,shadowed⟩⟩,shown⟩
      have none := (Bool.or_eq_false_iff.mp shown).1
      simpa using none

-- Seen through a buffer and seen in the store the writes leave are one exactly where the
-- two agree on what is passed over.
theorem seen_agree {p : Pattern} (kv : OrderedMap Key Bytes) (ops : List Write) (formed : Formed p.fields) :
    seen (some (WriteBuffer.writes ops)) kv p reverse after = seen none (applyWrites kv ops) p reverse after ↔
      Agree kv ops p reverse after := by
  have right : ∀ x, x ∈ seen none (applyWrites kv ops) p reverse after ↔
      x ∈ picked (storeRows (applyWrites kv ops)) p reverse after ∧
        ¬Shadowed (storeRows (applyWrites kv ops)) p reverse after x.1 := by
    intro x
    simp only [seen,mem_visited_start (storeRows_sorted _) formed reverse after,mem_picked]
    tauto
  constructor
  · intro same m member
    have one : m ∈ seen (some (WriteBuffer.writes ops)) kv p reverse after ↔ m ∈ seen none (applyWrites kv ops) p reverse after := by
      rw [same]
    rw [mem_seen_buffer kv ops formed,right] at one
    exact not_iff_not.mp ⟨fun left => (one.mp ⟨member,left⟩).2,fun right => (one.mpr ⟨member,right⟩).2⟩
  · intro agree
    refine ordered_ext (seen_ordered _ _ p reverse after) (seen_ordered _ _ p reverse after) fun x => ?_
    rw [mem_seen_buffer kv ops formed,right]
    constructor
    · rintro ⟨member,left⟩
      exact ⟨member,fun shadowed => left ((agree x member).mpr shadowed)⟩
    · rintro ⟨member,left⟩
      exact ⟨member,fun both => left ((agree x member).mp both)⟩

-- Whatever a scan asks for, through the buffer it answers as on the store the writes leave.
def SameScans (kv : OrderedMap Key Bytes) (ops : List Write) (kp : KeyPattern Bytes) (reverse : Bool) (after : Option Bytes) :
    Prop :=
  ∀ (τ ν : Type) (reg : Registry τ ν) (track : Option ReadSet) (budget : Nat) (values : Option Bytes) (limit : Nat),
    nativeScan reg (some (WriteBuffer.writes ops)) kv track budget ⟨kp,values,reverse,after,limit⟩ =
      nativeScan reg none (applyWrites kv ops) track budget ⟨kp,values,reverse,after,limit⟩

-- A scan of keys only does not fail.
theorem nativeScan_keys (wb : Option WriteBuffer) (kv : OrderedMap Key Bytes) (made : fromJs kp = .ok p) (budget : Nat)
    (reverse : Bool) (after : Option Bytes) {limit : Nat} (positive : 0 < limit) (reg : Registry τ ν) :
    ∃ entries next, nativeScan reg wb kv none budget ⟨kp,none,reverse,after,limit⟩ = some (.ok (entries,next),none) ∧
      entries.map Prod.fst = ((seen wb kv p reverse after).take limit).map (fun e => e.2.1) := by
  have fine : ∀ rows (b : Batch ν), (visitAll (take reg none limit) rows b).1 ≠ .fail := by
    intro rows
    induction rows with
    | nil => intro b failed; cases failed
    | cons e rest ih =>
      intro b
      rw [visitAll,take]
      dsimp only
      by_cases more : (b.entries++[(e.2.1,(none : Option ν))]).length < limit
      · rw [if_pos more]; exact ih _
      · rw [if_neg more]; simp
  have ran : ∃ entries next, nativeScan reg wb kv none budget ⟨kp,none,reverse,after,limit⟩ =
      some (.ok (entries,next),none) := by
    simp only [nativeScan,made,Option.isSome_none,Bool.false_and,Option.map_none,Option.bind_none,
      if_neg (Nat.pos_iff_ne_zero.mp positive),walkBatch_seen (take_honest reg none limit),ended,if_neg (fine _ _)]
    exact ⟨_,_,rfl⟩
  obtain ⟨entries,next,ran⟩ := ran
  exact ⟨entries,next,ran,(nativeScan_ok made ran).2.1⟩

theorem seen_rows (kv : OrderedMap Key Bytes) (ops : List Write)
    (member : x ∈ seen (some (WriteBuffer.writes ops)) kv p reverse after) : x ∈ storeRows (applyWrites kv ops) := by
  simp only [seen,mem_mergeRows,mem_pendingOf] at member
  rcases member with ⟨is,held,_⟩ | ⟨member,shown⟩
  · exact (applied_row kv ops).mpr (.inl ⟨is,held⟩)
  · have inRows := ((visited_sublist _ _).trans List.filter_sublist).subset member
    exact (applied_row kv ops).mpr (.inr ⟨(mem_ahead _).mp ((start_suffix _ p reverse after).subset inRows),shown⟩)

theorem plain_rows (kv : OrderedMap Key Bytes) (member : x ∈ seen none kv p reverse after) : x ∈ storeRows kv :=
  (mem_ahead _).mp ((start_suffix _ p reverse after).subset (((visited_sublist _ _).trans List.filter_sublist).subset member))

theorem eq_of_map {f : α → β} {a b : List α} (mapped : a.map f = b.map f) (inj : ∀ x ∈ a, ∀ y ∈ b, f x = f y → x = y) :
    a = b := by
  induction a generalizing b with
  | nil => cases b with
    | nil => rfl
    | cons y b => cases mapped
  | cons x a ih => cases b with
    | nil => cases mapped
    | cons y b =>
      rw [List.map_cons,List.map_cons] at mapped
      obtain ⟨head,tail⟩ := List.cons.inj mapped
      rw [inj x List.mem_cons_self y List.mem_cons_self head,
        ih tail fun x inA y inB => inj x (List.mem_cons_of_mem _ inA) y (List.mem_cons_of_mem _ inB)]

-- Every scan answers alike exactly where the walks hand out the same rows.
theorem sameScans_seen (kv : OrderedMap Key Bytes) (ops : List Write) (made : fromJs kp = .ok p) (reverse : Bool)
    (after : Option Bytes) : SameScans kv ops kp reverse after ↔
      seen (some (WriteBuffer.writes ops)) kv p reverse after = seen none (applyWrites kv ops) p reverse after := by
  constructor
  · intro same
    let left := seen (some (WriteBuffer.writes ops)) kv p reverse after
    let right := seen none (applyWrites kv ops) p reverse after
    let limit := left.length+right.length+1
    let reg : Registry Unit Unit := ⟨fun _ => none,fun _ _ => .ok ()⟩
    obtain ⟨entries,next,ran,keys⟩ := nativeScan_keys (some (WriteBuffer.writes ops)) kv made 0 reverse after
      (Nat.succ_pos (left.length+right.length)) reg
    obtain ⟨entries',next',ran',keys'⟩ := nativeScan_keys none (applyWrites kv ops) made 0 reverse after
      (Nat.succ_pos (left.length+right.length)) reg
    have equal := same Unit Unit reg none 0 none limit
    rw [ran,ran'] at equal
    have equal : entries = entries' := by
      have inner := congrArg Prod.fst (Option.some.inj equal)
      exact congrArg Prod.fst (Except.ok.inj inner)
    rw [← equal,keys] at keys'
    rw [List.take_of_length_le (show left.length ≤ limit by simp only [limit]; omega),
      List.take_of_length_le (show right.length ≤ limit by simp only [limit]; omega)] at keys'
    -- a row of the store is known by its key
    refine eq_of_map (f:=fun e : Row => e.2.1) keys' ?_
    intro x inLeft y inRight key
    obtain ⟨isX,heldX⟩ := mem_storeRows.mp (seen_rows kv ops inLeft)
    obtain ⟨isY,heldY⟩ := mem_storeRows.mp (plain_rows _ inRight)
    rw [show x.2.1 = y.2.1 from key,heldY] at heldX
    rw [isX,isY,row,row,show x.2 = y.2 from Prod.ext key (Option.some.inj heldX).symm]
  · intro same τ ν reg track budget values limit
    refine nativeScan_seen reg track budget _ fun p' made' => ?_
    cases made.symm.trans made'
    exact same

-- One batch of a run: the key it starts past, the store as the writes before it leave it,
-- and what it answers.
structure Batched (ν : Type) where
  after : Option Bytes
  store : OrderedMap Key Bytes
  entries : List (Key × Option ν)
  next : Option Key

-- A scan batch by batch, each from the last one's next, with a mutation's writes before
-- each.
def scanRun (reg : Registry τ ν) (kv : OrderedMap Key Bytes) (budget : Nat) (kp : KeyPattern Bytes) (values : Option Bytes)
    (reverse : Bool) (limit : Nat) : List Write → Option Bytes → List (List Write) → List (Batched ν)
  | _, _, [] => []
  | ops, after, more :: rest =>
    match nativeScan reg (some (WriteBuffer.writes (ops++more))) kv none budget ⟨kp,values,reverse,after,limit⟩ with
    | some (.ok (entries,next),_) => ⟨after,applyWrites kv (ops++more),entries,next⟩ :: match next with
      | some key => scanRun reg kv budget kp values reverse limit (ops++more) (some (Mp.utf8 key)) rest
      | none => []
    | _ => []

-- A batch answers the first of some rows, and its next is the last of them when there are as
-- many as its limit.
def Batched.First (b : Batched ν) (limit : Nat) (rows : List Row) : Prop :=
  b.entries.map Prod.fst = (rows.take limit).map (fun e => e.2.1) ∧
    b.next = if limit ≤ rows.length then b.entries.getLast?.map Prod.fst else none

-- A batch answers the first rows picked past its start of the store it reads.
def Batched.Exact (b : Batched ν) (p : Pattern) (reverse : Bool) (limit : Nat) : Prop :=
  b.First limit (picked (storeRows b.store) p reverse b.after)

def handed (b : Batched ν) : List Bytes := b.entries.map fun e => Mp.utf8 e.1

-- Rows of a store, in walk order past a start.
structure Past (reverse : Bool) (after : Option Bytes) (rows : List Row) : Prop where
  ordered : Ordered reverse rows
  keyed : ∀ x ∈ rows, x = row x.2
  far : ∀ x ∈ rows, beyond reverse after x.1 = true

theorem picked_past (kv : OrderedMap Key Bytes) (p : Pattern) (reverse : Bool) (after : Option Bytes) :
    Past reverse after (picked (storeRows kv) p reverse after) where
  ordered := picked_ordered (storeRows_sorted kv) p reverse after
  keyed _ member := (mem_storeRows.mp (mem_picked.mp member).1).1
  far _ member := (mem_picked.mp member).2.2

theorem seen_past (wb : WriteBuffer) (kv : OrderedMap Key Bytes) {p : Pattern} (formed : Formed p.fields) (reverse : Bool)
    (after : Option Bytes) : Past reverse after (seen (some wb) kv p reverse after) := by
  have inside : ∀ x ∈ seen (some wb) kv p reverse after, x = row x.2 ∧ beyond reverse after x.1 = true := by
    intro x member
    simp only [seen,mem_mergeRows,mem_pendingOf,mem_visited_start (storeRows_sorted kv) formed reverse after] at member
    rcases member with ⟨is,_,far,_⟩ | ⟨⟨inRows,far,_⟩,_⟩
    · exact ⟨is,far⟩
    · exact ⟨(mem_storeRows.mp inRows).1,far⟩
  exact ⟨seen_ordered _ kv p reverse after,fun x member => (inside x member).1,fun x member => (inside x member).2⟩

section First
variable {b : Batched ν} {rows : List Row} (first : b.First limit rows) (past : Past reverse b.after rows)
include first past

theorem Batched.First.handed : handed b = (rows.take limit).map Prod.fst := by
  have keys := congrArg (List.map Mp.utf8) first.1
  rw [List.map_map,List.map_map] at keys
  refine keys.trans (List.map_congr_left fun x member => ?_)
  exact (congrArg Prod.fst (past.keyed x (List.mem_of_mem_take member))).symm

theorem Batched.First.ordered : (Natives.handed b).Pairwise (fun x y => before reverse x y = true) := by
  rw [first.handed past]
  exact List.pairwise_map.mpr (past.ordered.sublist (List.take_sublist _ _))

theorem Batched.First.beyond (member : x ∈ Natives.handed b) : Scan.beyond reverse b.after x = true := by
  rw [first.handed past] at member
  obtain ⟨e,inside,rfl⟩ := List.mem_map.mp member
  exact past.far e (List.mem_of_mem_take inside)

-- What a batch hands out is its next, or comes before it.
theorem Batched.First.upTo (next : b.next = some key) (member : x ∈ Natives.handed b) :
    x = Mp.utf8 key ∨ before reverse x (Mp.utf8 key) = true := by
  have ordered := first.ordered past
  rw [first.2] at next
  split at next
  · obtain ⟨last,is,rfl⟩ := Option.map_eq_some_iff.mp next
    obtain ⟨front,whole⟩ := List.getLast?_eq_some_iff.mp is
    rw [Natives.handed,whole,List.map_append,List.map_singleton] at ordered member
    rcases List.mem_append.mp member with early | only
    · exact .inr ((List.pairwise_append.mp ordered).2.2 x early _ (List.mem_singleton_self _))
    · exact .inl (List.mem_singleton.mp only)
  · cases next

-- A row past a batch's start is handed out, or comes after its next.
theorem Batched.First.complete (positive : 0 < limit) (member : x ∈ rows) :
    x.1 ∈ Natives.handed b ∨ ∃ key, b.next = some key ∧ before reverse (Mp.utf8 key) x.1 = true := by
  rw [first.handed past]
  have parts := List.take_append_drop limit rows
  rw [← parts] at member
  rcases List.mem_append.mp member with early | late
  · exact .inl (List.mem_map_of_mem early)
  · refine .inr ?_
    have long : limit ≤ rows.length := by
      have := List.length_pos_of_mem late
      rw [List.length_drop] at this
      omega
    have filled : (Natives.handed b).length = limit := by
      rw [first.handed past,List.length_map,List.length_take]
      omega
    have some : b.entries ≠ [] := by
      intro none
      rw [Natives.handed,none] at filled
      simp at filled
      omega
    have last := List.getLast?_eq_some_getLast some
    refine ⟨_,by rw [first.2,if_pos long,last]; rfl,?_⟩
    have inside : Mp.utf8 (b.entries.getLast some).1 ∈ Natives.handed b :=
      List.mem_map_of_mem (f:=fun e => Mp.utf8 e.1) (List.getLast_mem some)
    rw [first.handed past] at inside
    obtain ⟨e,taken,is⟩ := List.mem_map.mp inside
    have ordered := past.ordered
    rw [← parts] at ordered
    rw [← is]
    exact (List.pairwise_append.mp ordered).2.2 e taken x late

end First

-- What each batch of a run answers: the first rows seen through the buffer its writes make.
theorem scanRun_first (reg : Registry τ ν) (kv : OrderedMap Key Bytes) (budget : Nat) (made : fromJs kp = .ok p)
    (values : Option Bytes) (reverse : Bool) (limit : Nat) (ops : List Write) (after : Option Bytes) (writes : List (List Write)) :
    ∀ b ∈ scanRun reg kv budget kp values reverse limit ops after writes, 0 < limit ∧ ∃ done,
      b.store = applyWrites kv done ∧ b.First limit (seen (some (WriteBuffer.writes done)) kv p reverse b.after) := by
  induction writes generalizing ops after with
  | nil => exact fun b member => (by cases member)
  | cons more rest ih =>
    rw [scanRun]
    rcases ran : nativeScan reg (some (WriteBuffer.writes (ops++more))) kv none budget ⟨kp,values,reverse,after,limit⟩ with
      _ | ⟨_ | ⟨entries,next⟩,track⟩
    · exact fun b member => (by cases member)
    · exact fun b member => (by cases member)
    · obtain ⟨positive,keys,ends⟩ := nativeScan_ok made ran
      intro b member
      rcases List.mem_cons.mp member with rfl | later
      · exact ⟨positive,ops++more,rfl,keys,ends⟩
      · cases next with
        | none => cases later
        | some key => exact ih _ _ b later

-- A run hands out keys past its start, each once and in walk order.
theorem scanRun_ordered (reg : Registry τ ν) (kv : OrderedMap Key Bytes) (budget : Nat) (made : fromJs kp = .ok p)
    (values : Option Bytes) (reverse : Bool) (limit : Nat) (ops : List Write) (after : Option Bytes) (writes : List (List Write)) :
    (∀ x ∈ (scanRun reg kv budget kp values reverse limit ops after writes).flatMap handed, Scan.beyond reverse after x = true) ∧
      ((scanRun reg kv budget kp values reverse limit ops after writes).flatMap handed).Pairwise
        (fun x y => before reverse x y = true) := by
  have formed := fromJs_formed made
  induction writes generalizing ops after with
  | nil => exact ⟨fun x member => (by cases member),.nil⟩
  | cons more rest ih =>
    rw [scanRun]
    rcases ran : nativeScan reg (some (WriteBuffer.writes (ops++more))) kv none budget ⟨kp,values,reverse,after,limit⟩ with
      _ | ⟨_ | ⟨entries,next⟩,track⟩
    · exact ⟨fun x member => (by cases member),.nil⟩
    · exact ⟨fun x member => (by cases member),.nil⟩
    · obtain ⟨_,keys,ends⟩ := nativeScan_ok made ran
      have past := seen_past (WriteBuffer.writes (ops++more)) kv formed reverse after
      have first : (⟨after,applyWrites kv (ops++more),entries,next⟩ : Batched ν).First limit
          (seen (some (WriteBuffer.writes (ops++more))) kv p reverse after) := ⟨keys,ends⟩
      cases next with
      | none =>
        dsimp only
        rw [List.flatMap_singleton]
        exact ⟨fun x member => first.beyond past member,first.ordered past⟩
      | some key =>
        dsimp only
        obtain ⟨laterBeyond,laterOrdered⟩ := ih (ops++more) (some (Mp.utf8 key))
        have inside : Mp.utf8 key ∈ handed (⟨after,applyWrites kv (ops++more),entries,some key⟩ : Batched ν) := by
          obtain ⟨last,is,same⟩ := Option.map_eq_some_iff.mp (by
            have ends := first.2
            split at ends
            · exact ends.symm
            · cases ends)
          rw [← same]
          exact List.mem_map_of_mem (f:=fun e => Mp.utf8 e.1) (List.mem_of_getLast? is)
        rw [List.flatMap_cons]
        refine ⟨fun x member => ?_,List.pairwise_append.mpr ⟨first.ordered past,laterOrdered,fun x here y later => ?_⟩⟩
        · rcases List.mem_append.mp member with here | later
          · exact first.beyond past here
          · cases after with
            | none => rfl
            | some a => exact before_trans (first.beyond past inside) (laterBeyond x later)
        · have far : before reverse (Mp.utf8 key) y = true := laterBeyond y later
          rcases first.upTo past rfl here with rfl | order
          · exact far
          · exact before_trans order far

end Natives
end PhaseLock
