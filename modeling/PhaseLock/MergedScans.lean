import PhaseLock.Natives

namespace PhaseLock

namespace Natives
open Scan SkipScan Texts
variable {τ ν : Type}

theorem answer_applied (kv : OrderedMap Key Bytes) (ops : List Write) (key : Key) :
    answer (some (WriteBuffer.writes ops)) kv key = answer none (applyWrites kv ops) key :=
  (applyWrites_get kv ops key).symm

theorem visitAll_append (visit : Bytes → ν → σ → Visit × σ) (a b : List (Bytes × ν)) (s : σ) :
    visitAll visit (a++b) s = match visitAll visit a s with
      | (.next,s') => visitAll visit b s'
      | other => other := by
  induction a generalizing s with
  | nil => rfl
  | cons row rest ih =>
    rw [List.cons_append,visitAll,visitAll]
    rcases visit row.1 row.2 s with ⟨_ | _ | _,s'⟩
    · exact ih s'
    · rfl
    · rfl

-- A store's rows with the buffer's entries at their place among them, but for the rows the
-- buffer answers for.
def mergeRows (hidden : Row → Bool) (reverse : Bool) : List Row → List Row → List Row
  | pending, [] => pending
  | pending, e :: rest => pending.takeWhile (fun a => before reverse a.1 e.1)++(if hidden e then [] else [e])++
      mergeRows hidden reverse (pending.dropWhile (fun a => before reverse a.1 e.1)) rest

def hides (wb : WriteBuffer) (e : Row) : Bool := (wb.entries.get e.2.1).isSome || wb.deleted e.2.1

variable {visit : Bytes → Key × Bytes → Batch ν → Visit × Batch ν}

theorem flush_visits (visit : Bytes → Key × Bytes → Batch ν → Visit × Batch ν) (reverse : Bool) (key : Bytes)
    (pending : List Row) (b : Batch ν) :
    match visitAll visit (pending.takeWhile (fun a => before reverse a.1 key)) b with
      | (.next,b') => flush visit reverse key pending b = (.next,pending.dropWhile (fun a => before reverse a.1 key),b')
      | (other,b') => ∃ rest, flush visit reverse key pending b = (other,rest,b') := by
  induction pending generalizing b with
  | nil => rfl
  | cons e more ih =>
    by_cases early : before reverse e.1 key = true
    · rw [List.takeWhile_cons_of_pos (p:=fun a : Row => before reverse a.1 key) early,
        List.dropWhile_cons_of_pos (p:=fun a : Row => before reverse a.1 key) early,visitAll,flush,if_pos early]
      rcases visit e.1 e.2 b with ⟨_ | _ | _,b'⟩
      · exact ih b'
      · exact ⟨more,rfl⟩
      · exact ⟨more,rfl⟩
    · rw [List.takeWhile_cons_of_neg (p:=fun a : Row => before reverse a.1 key) early,
        List.dropWhile_cons_of_neg (p:=fun a : Row => before reverse a.1 key) early,visitAll,flush,if_neg early]

-- A walk of the store's rows through the buffer visits the two merged, up to what is left
-- of the buffer past the store's last row.
theorem mergeVisit_visits (visit : Bytes → Key × Bytes → Batch ν → Visit × Batch ν) (wb : WriteBuffer) (reverse : Bool)
    (rows pending : List Row) (b : Batch ν) :
    match visitAll (mergeVisit visit wb reverse) rows (pending,b) with
      | (.next,rest,b') => (∃ front, visitAll visit front b = (.next,b')) ∧
          visitAll visit (mergeRows (hides wb) reverse pending rows) b = visitAll visit rest b'
      | (other,_,b') => visitAll visit (mergeRows (hides wb) reverse pending rows) b = (other,b') := by
  induction rows generalizing pending b with
  | nil => exact ⟨⟨[],rfl⟩,rfl⟩
  | cons e rest ih =>
    have first := flush_visits visit reverse e.1 pending b
    rw [visitAll,mergeVisit,mergeRows,List.append_assoc,visitAll_append]
    dsimp only
    rcases flushed : visitAll visit (pending.takeWhile (fun a => before reverse a.1 e.1)) b with ⟨_ | _ | _,b'⟩
    · rw [flushed] at first
      dsimp only at first
      rw [first]
      dsimp only
      have joined : ∀ (middle : List Row) (bNext bEnd : Batch ν), visitAll visit middle b' = (.next,bNext) →
          (∃ front, visitAll visit front bNext = (.next,bEnd)) → ∃ front, visitAll visit front b = (.next,bEnd) := by
        rintro middle bNext bEnd on ⟨front,ran⟩
        exact ⟨pending.takeWhile (fun a => before reverse a.1 e.1)++(middle++front),by
          rw [visitAll_append,flushed]; dsimp only; rw [visitAll_append,on]; exact ran⟩
      by_cases hidden : hides wb e = true
      · have here : ((wb.entries.get e.2.1).isSome || wb.deleted e.2.1) = true := hidden
        rw [if_pos here,if_pos hidden,List.nil_append]
        dsimp only
        have later := ih (pending.dropWhile (fun a => before reverse a.1 e.1)) b'
        rcases ran : visitAll (mergeVisit visit wb reverse) rest
          (pending.dropWhile (fun a => before reverse a.1 e.1),b') with ⟨_ | _ | _,rest',bNext⟩
        · rw [ran] at later
          exact ⟨joined [] b' bNext rfl later.1,later.2⟩
        · rw [ran] at later
          exact later
        · rw [ran] at later
          exact later
      · have here : ¬((wb.entries.get e.2.1).isSome || wb.deleted e.2.1) = true := hidden
        rw [if_neg here,if_neg hidden,List.singleton_append,visitAll]
        rcases one : visit e.1 e.2 b' with ⟨_ | _ | _,bNext⟩
        · dsimp only
          have later := ih (pending.dropWhile (fun a => before reverse a.1 e.1)) bNext
          rcases ran : visitAll (mergeVisit visit wb reverse) rest
            (pending.dropWhile (fun a => before reverse a.1 e.1),bNext) with ⟨_ | _ | _,rest',bEnd⟩
          · rw [ran] at later
            exact ⟨joined [e] bNext bEnd (by simp [visitAll,one]) later.1,later.2⟩
          · rw [ran] at later; exact later
          · rw [ran] at later; exact later
        · rfl
        · rfl
    · rw [flushed] at first
      obtain ⟨rest',first⟩ := first
      rw [first]
    · rw [flushed] at first
      obtain ⟨rest',first⟩ := first
      rw [first]

-- A batch is full exactly where its visits stopped.
def Honest (visit : Bytes → Key × Bytes → Batch ν → Visit × Batch ν) : Prop :=
  ∀ key e b, b.full = false → ((visit key e b).1 = .next → (visit key e b).2.full = false) ∧
    ((visit key e b).1 = .stop → (visit key e b).2.full = true)

theorem take_honest (reg : Registry τ ν) (type : Option τ) (limit : Nat) : Honest (take reg type limit) := by
  intro key e b empty
  unfold take
  cases type with
  | none =>
    dsimp only
    split
    · exact ⟨fun _ => empty,fun stop => (by cases stop)⟩
    · exact ⟨fun next => (by cases next),fun _ => rfl⟩
  | some ty =>
    dsimp only
    cases decodeStored reg e.1 ty e.2 with
    | error t => exact ⟨fun next => (by cases next),fun stop => (by cases stop)⟩
    | ok v =>
      dsimp only
      split
      · exact ⟨fun _ => empty,fun stop => (by cases stop)⟩
      · exact ⟨fun next => (by cases next),fun _ => rfl⟩

theorem visitAll_honest (honest : Honest visit) (rows : List Row) (b : Batch ν) (empty : b.full = false) :
    ((visitAll visit rows b).1 = .next → (visitAll visit rows b).2.full = false) ∧
      ((visitAll visit rows b).1 = .stop → (visitAll visit rows b).2.full = true) := by
  induction rows generalizing b with
  | nil => exact ⟨fun _ => empty,fun stop => (by cases stop)⟩
  | cons e rest ih =>
    have one := honest e.1 e.2 b empty
    rw [visitAll]
    rcases visited : visit e.1 e.2 b with ⟨_ | _ | _,b'⟩
    · rw [visited] at one
      exact ih _ (one.1 rfl)
    · rw [visited] at one
      exact ⟨fun next => (by cases next),one.2⟩
    · exact ⟨fun next => (by cases next),fun stop => (by cases stop)⟩

theorem drain_visits (honest : Honest visit) (pending : List Row) {b : Batch ν} (empty : b.full = false) :
    drain visit pending b = ended (visitAll visit pending b) := by
  induction pending generalizing b with
  | nil => rfl
  | cons e more ih =>
    have one := honest e.1 e.2 b empty
    rw [drain,visitAll,if_neg (by simp [empty])]
    rcases visited : visit e.1 e.2 b with ⟨_ | _ | _,b'⟩
    · rw [visited] at one
      exact ih (one.1 rfl)
    · rw [visited] at one
      have full : b'.full = true := one.2 rfl
      cases more <;> simp [drain,ended,full]
    · rfl

def Ordered (reverse : Bool) (rows : List Row) : Prop := rows.Pairwise (fun a b => before reverse a.1 b.1 = true)

theorem before_cases {a b : Bytes} (other : a ≠ b) : before reverse a b = true ∨ before reverse b a = true := by
  rcases lt_or_gt_of_ne other with less | more
  · cases reverse
    · exact .inl (decide_eq_true less)
    · exact .inr (decide_eq_true less)
  · cases reverse
    · exact .inr (decide_eq_true more)
    · exact .inl (decide_eq_true more)

theorem mem_mergeRows {hidden : Row → Bool} {pending rows : List Row} :
    x ∈ mergeRows hidden reverse pending rows ↔ x ∈ pending ∨ x ∈ rows ∧ hidden x = false := by
  induction rows generalizing pending with
  | nil => simp [mergeRows]
  | cons e rest ih =>
    have parts : x ∈ pending ↔ x ∈ pending.takeWhile (fun a => before reverse a.1 e.1) ∨
        x ∈ pending.dropWhile (fun a => before reverse a.1 e.1) := by
      rw [← List.mem_append,List.takeWhile_append_dropWhile]
    rw [mergeRows,List.mem_append,List.mem_append,ih,parts]
    by_cases out : hidden e = true
    · rw [if_pos out]
      constructor
      · rintro ((early | none) | late | ⟨member,shown⟩)
        · exact .inl (.inl early)
        · cases none
        · exact .inl (.inr late)
        · exact .inr ⟨List.mem_cons_of_mem _ member,shown⟩
      · rintro ((early | late) | ⟨member,shown⟩)
        · exact .inl (.inl early)
        · exact .inr (.inl late)
        · rcases List.mem_cons.mp member with rfl | member
          · rw [out] at shown; cases shown
          · exact .inr (.inr ⟨member,shown⟩)
    · rw [if_neg out,List.mem_singleton]
      have shown : hidden e = false := by simpa using out
      constructor
      · rintro ((early | rfl) | late | ⟨member,shown⟩)
        · exact .inl (.inl early)
        · exact .inr ⟨List.mem_cons_self,shown⟩
        · exact .inl (.inr late)
        · exact .inr ⟨List.mem_cons_of_mem _ member,shown⟩
      · rintro ((early | late) | ⟨member,shown⟩)
        · exact .inl (.inl early)
        · exact .inr (.inl late)
        · rcases List.mem_cons.mp member with rfl | member
          · exact .inl (.inr rfl)
          · exact .inr (.inr ⟨member,shown⟩)

theorem mergeRows_ordered {hidden : Row → Bool} {pending rows : List Row} (left : Ordered reverse pending)
    (right : Ordered reverse rows) (apart : ∀ a ∈ pending, ∀ e ∈ rows, hidden e = false → a.1 ≠ e.1) :
    Ordered reverse (mergeRows hidden reverse pending rows) := by
  induction rows generalizing pending with
  | nil => exact left
  | cons e rest ih =>
    obtain ⟨ahead,right⟩ := List.pairwise_cons.mp right
    have whole : pending.takeWhile (fun a => before reverse a.1 e.1)++pending.dropWhile (fun a => before reverse a.1 e.1) =
        pending := List.takeWhile_append_dropWhile
    obtain ⟨_,late,across⟩ := List.pairwise_append.mp (by rw [whole]; exact left)
    have early : ∀ a ∈ pending.takeWhile (fun a => before reverse a.1 e.1), before reverse a.1 e.1 = true :=
      fun a member => List.mem_takeWhile_imp (p:=fun a : Row => before reverse a.1 e.1) member
    have notEarly : ∀ a ∈ pending.dropWhile (fun a => before reverse a.1 e.1), ¬before reverse a.1 e.1 = true := by
      intro a member order
      cases dropped : pending.dropWhile (fun a => before reverse a.1 e.1) with
      | nil => rw [dropped] at member; cases member
      | cons first more =>
        have stops := List.head?_dropWhile_not (fun a : Row => before reverse a.1 e.1) pending
        rw [dropped] at stops member late
        have stops : before reverse first.1 e.1 = false := by simpa using stops
        rcases List.mem_cons.mp member with rfl | later
        · rw [stops] at order; cases order
        · rw [before_trans ((List.pairwise_cons.mp late).1 a later) order] at stops
          cases stops
    have tail := ih late right fun a member x inRest => apart a ((List.dropWhile_sublist _).subset member) x
      (List.mem_cons_of_mem _ inRest)
    have fromTail : ∀ a ∈ pending.takeWhile (fun a => before reverse a.1 e.1), ∀ x ∈ mergeRows hidden reverse
        (pending.dropWhile (fun a => before reverse a.1 e.1)) rest, before reverse a.1 x.1 = true := by
      intro a member x inTail
      rcases mem_mergeRows.mp inTail with held | ⟨held,_⟩
      · exact across a member x held
      · exact before_trans (early a member) (ahead x held)
    have front := left.sublist (List.takeWhile_sublist (fun a : Row => before reverse a.1 e.1))
    rw [mergeRows,List.append_assoc]
    by_cases out : hidden e = true
    · rw [if_pos out,List.nil_append]
      exact List.pairwise_append.mpr ⟨front,tail,fromTail⟩
    · rw [if_neg out,List.singleton_append]
      have shown : hidden e = false := by simpa using out
      refine List.pairwise_append.mpr ⟨front,List.pairwise_cons.mpr ⟨?_,tail⟩,?_⟩
      · intro x inTail
        rcases mem_mergeRows.mp inTail with held | ⟨held,_⟩
        · rcases before_cases (apart x ((List.dropWhile_sublist _).subset held) e List.mem_cons_self shown) with order | order
          · exact absurd order (notEarly x held)
          · exact order
        · exact ahead x held
      · intro a member x inTail
        rcases List.mem_cons.mp inTail with rfl | inTail
        · exact early a member
        · exact fromTail a member x inTail

theorem mem_storeRows {kv : OrderedMap Key Bytes} : x ∈ storeRows kv ↔ x = row x.2 ∧ kv.get x.2.1 = some x.2.2 := by
  rw [storeRows,List.mem_map]
  constructor
  · rintro ⟨e,member,rfl⟩
    exact ⟨rfl,(OrderedMap.mem_scan kv e.1 e.2).mp member⟩
  · rintro ⟨is,held⟩
    exact ⟨x.2,(OrderedMap.mem_scan kv x.2.1 x.2.2).mpr held,is.symm⟩

theorem storeRows_sorted (kv : OrderedMap Key Bytes) : Sorted (storeRows kv) :=
  List.pairwise_map.mpr ((OrderedMap.scan_sorted kv).imp fun less => Mp.utf8_mono less)

theorem mem_pendingOf {wb : WriteBuffer} : x ∈ pendingOf wb p reverse after ↔
    x = row x.2 ∧ wb.entries.get x.2.1 = some (some x.2.2) ∧ beyond reverse after x.1 = true ∧ p.picks x.1 = true := by
  have scanned : ∀ e, e ∈ (if reverse then wb.entries.scan.reverse else wb.entries.scan) ↔ wb.entries.get e.1 = some e.2 := by
    intro e
    rw [← OrderedMap.mem_scan]
    split
    · exact List.mem_reverse
    · exact Iff.rfl
  rw [pendingOf,List.mem_filterMap]
  constructor
  · rintro ⟨⟨k,o⟩,member,made⟩
    have held := (scanned _).mp member
    split at made
    · rename_i both
      obtain ⟨far,picks⟩ := Bool.and_eq_true_iff.mp both
      cases o with
      | none => cases made
      | some v =>
        cases made
        exact ⟨rfl,held,far,picks⟩
    · cases made
  · rintro ⟨is,held,far,picks⟩
    have bytes : x.1 = Mp.utf8 x.2.1 := congrArg Prod.fst is
    refine ⟨(x.2.1,some x.2.2),(scanned _).mpr held,?_⟩
    rw [if_pos (by simp [← bytes,far,picks])]
    exact congrArg some is.symm

theorem pendingOf_ordered (wb : WriteBuffer) (p : Pattern) (reverse : Bool) (after : Option Bytes) :
    Ordered reverse (pendingOf wb p reverse after) := by
  have sorted := OrderedMap.scan_sorted wb.entries
  have ordered : (if reverse then wb.entries.scan.reverse else wb.entries.scan).Pairwise
      (fun a b => before reverse (Mp.utf8 a.1) (Mp.utf8 b.1) = true) := by
    cases reverse
    · exact sorted.imp fun less => decide_eq_true (Mp.utf8_mono less)
    · exact (List.pairwise_reverse.mpr sorted).imp fun less => decide_eq_true (Mp.utf8_mono less)
  refine List.pairwise_filterMap.mpr (ordered.imp ?_)
  intro a b order x hx y hy
  split at hx
  · split at hy
    · obtain ⟨v,_,rfl⟩ := Option.map_eq_some_iff.mp hx
      obtain ⟨w,_,rfl⟩ := Option.map_eq_some_iff.mp hy
      exact order
    · cases hy
  · cases hx

-- The rows a scan's walk hands to a batch.
def seen (wb : Option WriteBuffer) (kv : OrderedMap Key Bytes) (p : Pattern) (reverse : Bool) (after : Option Bytes) :
    List Row :=
  let rows := visited (p.stand reverse) (start (storeRows kv) p reverse after)
  match wb with
  | none => rows
  | some wb => mergeRows (hides wb) reverse (pendingOf wb p reverse after) rows

theorem seen_empty {wb : WriteBuffer} (empty : wb.isEmpty = true) (kv : OrderedMap Key Bytes) (p : Pattern) (reverse : Bool)
    (after : Option Bytes) : seen (some wb) kv p reverse after = seen none kv p reverse after := by
  obtain ⟨noEntries,noDels⟩ : wb.entries.entries = [] ∧ wb.dels.entries = [] := by
    simpa [WriteBuffer.isEmpty] using empty
  have absent : ∀ key, wb.entries.get key = none := (OrderedMap.entries_nil _).mp noEntries
  have kept : ∀ e, hides wb e = false := by
    intro e
    have stays : wb.deleted e.2.1 = false := by
      unfold WriteBuffer.deleted
      cases sliceOf e.2.1 with
      | none => rfl
      | some slice => simp [OrderedMap.has,(OrderedMap.entries_nil _).mp noDels]
    simp [hides,absent,stays]
  have nothing : pendingOf wb p reverse after = [] := by
    refine List.eq_nil_iff_forall_not_mem.mpr fun x member => ?_
    have held := (mem_pendingOf.mp member).2.1
    rw [absent] at held
    cases held
  have whole : ∀ rows, mergeRows (hides wb) reverse [] rows = rows := by
    intro rows
    induction rows with
    | nil => rfl
    | cons e rest ih => simp [mergeRows,kept,ih]
  simp only [seen,nothing,whole]

-- A batch is what its visits make of the rows the walk hands it.
theorem walkBatch_seen (honest : Honest visit) (wb : Option WriteBuffer) (kv : OrderedMap Key Bytes) (p : Pattern)
    (reverse : Bool) (after : Option Bytes) (budget : Nat) :
    walkBatch visit wb kv p reverse after budget = some (ended (visitAll visit (seen wb kv p reverse after) {})) := by
  have plainly : walkBatch visit none kv p reverse after budget =
      some (ended (visitAll visit (seen none kv p reverse after) {})) :=
    walk_run (storeRows_sorted kv) p reverse after budget visit (Nat.lt_succ_self _) {}
  cases wb with
  | none => exact plainly
  | some wb =>
    by_cases empty : wb.isEmpty = true
    · rw [seen_empty empty]
      have dropped : walkBatch visit (some wb) kv p reverse after budget = walkBatch visit none kv p reverse after budget := by
        simp [walkBatch,Option.filter,empty]
      rw [dropped,plainly]
    · have kept : (some wb).filter (!·.isEmpty) = some wb := by simp [Option.filter,empty]
      have merged := mergeVisit_visits visit wb reverse
        (visited (p.stand reverse) (start (storeRows kv) p reverse after)) (pendingOf wb p reverse after) {}
      simp only [walkBatch,kept]
      rw [walk_run (storeRows_sorted kv) p reverse after budget (mergeVisit visit wb reverse) (Nat.lt_succ_self _)]
      -- the walk's visits through the buffer, and then the drain, are the visits of the merged rows
      rcases ran : visitAll (mergeVisit visit wb reverse) (visited (p.stand reverse) (start (storeRows kv) p reverse after))
        (pendingOf wb p reverse after,{}) with ⟨_ | _ | _,rest,b⟩
      · rw [ran] at merged
        obtain ⟨⟨front,ranFront⟩,merged⟩ := merged
        have empty : b.full = false := by
          have kept := (visitAll_honest honest front {} rfl).1
          rw [ranFront] at kept
          exact kept rfl
        have left : seen (some wb) kv p reverse after = mergeRows (hides wb) reverse (pendingOf wb p reverse after)
          (visited (p.stand reverse) (start (storeRows kv) p reverse after)) := rfl
        rw [left,merged,← drain_visits honest rest empty]
        rfl
      · rw [ran] at merged
        have full : b.full = true := by
          have kept := (visitAll_honest honest (seen (some wb) kv p reverse after) {} rfl).2
          rw [show visitAll visit (seen (some wb) kv p reverse after) {} = (.stop,b) from merged] at kept
          exact kept rfl
        rw [show visitAll visit (seen (some wb) kv p reverse after) {} = (.stop,b) from merged]
        cases rest <;> simp [ended,drain,full]
      · rw [ran] at merged
        rw [show visitAll visit (seen (some wb) kv p reverse after) {} = (.fail,b) from merged]
        rfl

end Natives
end PhaseLock
