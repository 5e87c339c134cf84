import PhaseLock.KeyOrder
import PhaseLock.Readers
import PhaseLock.Store

namespace PhaseLock
open Skeleton (Units compareKeys compilePattern matchesPattern placeKey prefixEnd rk stepBudget utf16 walkPattern)
open SkipScan (Stand visited placed)

-- A pattern that compiles, by its text.
structure ScanPattern where
  text : KeyPattern (List Char)
  compiled : Skeleton.CompiledPattern
  compiles : compilePattern (text.map utf16) = .ok compiled

namespace ScanPattern

theorem ext {a b : ScanPattern} (same : a.text = b.text) : a = b := by
  obtain ⟨text,compiled,compiles⟩ := a
  obtain ⟨other,compiled',compiles'⟩ := b
  obtain rfl : text = other := same
  obtain rfl : compiled = compiled' := Except.ok.inj (compiles.symm.trans compiles')
  rfl

instance : DecidableEq ScanPattern := fun a b => decidable_of_iff (a.text = b.text) ⟨ext,congrArg _⟩

def picks (p : ScanPattern) (key : Key) : Bool := matchesPattern p.compiled (utf16 key)

-- Where a key stands for a walk of the pattern.
def stand (p : ScanPattern) (reverse : Bool) (key : Key) : Stand Key :=
  match placeKey p.compiled (utf16 key) reverse with
  | .found => .found
  | .step => .step
  | .done => .done
  | .seek target strict => .seek fun key => Skeleton.past target strict (utf16 key) reverse

end ScanPattern

structure StoreScan (V : Type) where
  entries : List (Key × V)
  next : Option Key
deriving DecidableEq

variable {V : Type}

-- One batch of a store's walk, from past a key: the keys it visits up to its limit, and full at
-- its limit.
def Base.storeScan (base : Base V) (pattern : ScanPattern) (reverse : Bool) (after : Option Key) (limit : Nat) : StoreScan V :=
  let stored := base.scan.map fun row => utf16 row.1
  let keys := (walkPattern stored pattern.compiled reverse (after.map utf16) stepBudget
    (fun key keys => (keys.length+1 < limit,keys++[key])) (stored.length+1) []).getD []
  let entries := keys.filterMap fun key => base.scan.find? fun row => utf16 row.1 = key
  ⟨entries,if keys.length = limit then entries.getLast?.map Prod.fst else none⟩

-- Of the base's keys under a pattern's head, none that the walk may stand at passes over one
-- that the pattern picks.
def Base.Untangled (base : Base V) (pattern : ScanPattern) (reverse : Bool) : Prop :=
  ∀ k ∈ base.keys, pattern.compiled.head <+: utf16 k → ∀ m ∈ base.keys, pattern.picks m = true → Walking.Before reverse k m →
    ¬(pattern.stand reverse k).Passes k m

instance (base : Base V) (pattern : ScanPattern) (reverse : Bool) : Decidable (base.Untangled pattern reverse) :=
  inferInstanceAs (Decidable (∀ k ∈ base.keys, _ → ∀ m ∈ base.keys, _ → _ → _))

namespace Skeleton

theorem skipBack_other (key : Units) (reverse : Bool) (ends : List (ValueField × Nat)) : skipBack key reverse ends ≠ .found := by
  unfold skipBack
  split
  · exact nofun
  · split <;> exact nofun

-- A key is found either way, or neither.
theorem placeFields_found (reverse reverse' : Bool) (key : Units) (fields : List Field) (pos : Nat) (ends ends' : List (ValueField × Nat)) :
    placeFields reverse key fields pos ends = .found ↔ placeFields reverse' key fields pos ends' = .found := by
  induction fields generalizing pos ends ends' with
  | nil => exact iff_of_true rfl rfl
  | cons field more ih =>
    cases field with
    | literal text whole =>
      unfold placeFields
      split
      · exact ih _ _ _
      · have other : ∀ reverse ends, (if unitCompare (key.drop pos) text < 0 then
            if reverse = true then skipBack key reverse ends else .seek (key.take pos++text) false
          else if (!reverse) = true then skipBack key reverse ends
          else if whole = true then .seek (key.take pos++text) false
          else .seek (key.take pos++(prefixEnd text).getD []) true) ≠ Placement.found := by
          intro reverse ends
          split_ifs <;> first | exact skipBack_other _ _ _ | (intro found; cases found)
        exact iff_of_false (other reverse ends) (other reverse' ends')
    | value f =>
      unfold placeFields
      dsimp only
      split
      · refine iff_of_false ?_ ?_ <;> split_ifs <;> first | exact skipBack_other _ _ _ | (intro found; cases found)
      · split
        · refine iff_of_false ?_ ?_ <;> split_ifs <;> first | exact skipBack_other _ _ _ | (intro found; cases found)
        · split
          · refine iff_of_false ?_ ?_ <;> (intro found; cases found)
          · exact ih _ _ _

theorem placeKey_found (c : CompiledPattern) (key : Units) (reverse : Bool) : placeKey c key reverse = .found ↔ matchesPattern c key = true := by
  unfold matchesPattern
  rw [decide_eq_true_eq]
  unfold placeKey
  split
  · exact placeFields_found _ _ _ _ _ _ _
  · exact Iff.rfl

-- What a batch's visit makes of the keys it is handed: up to its limit.
theorem visitEach_collect (limit : Nat) (keys front : List Units) (room : front.length < limit) :
    visitEach (fun key keys => (decide (keys.length+1 < limit),keys++[key])) keys front = front++keys.take (limit-front.length) := by
  induction keys generalizing front with
  | nil => simp [visitEach]
  | cons key rest ih =>
    have one : limit-front.length = (limit-(front.length+1))+1 := by omega
    unfold visitEach
    by_cases more : front.length+1 < limit
    · simp only [more,decide_true]
      rw [ih (front++[key]) (by simpa using more),List.length_append,List.length_singleton,one,List.take_succ_cons,List.append_assoc]
      rfl
    · have last : limit-(front.length+1) = 0 := by omega
      simp only [more,decide_false]
      rw [one,last,List.take_succ_cons,List.take_zero]

end Skeleton

namespace ScanPattern

theorem stand_found (p : ScanPattern) (reverse : Bool) (key : Key) : (p.stand reverse key).isFound = true ↔ p.picks key = true := by
  unfold picks
  rw [← Skeleton.placeKey_found p.compiled (utf16 key) reverse]
  unfold stand
  cases placeKey p.compiled (utf16 key) reverse <;> simp [Stand.isFound]

theorem stand_alike (p : ScanPattern) (reverse : Bool) (key : Key) :
    SkipScan.Alike utf16 (p.stand reverse key) (p.compiled.stand reverse (utf16 key)) := by
  unfold stand Skeleton.CompiledPattern.stand
  cases placeKey p.compiled (utf16 key) reverse with
  | found => exact .found
  | step => exact .step
  | done => exact .done
  | seek target strict => exact .seek fun _ => rfl

theorem before_units (reverse : Bool) (a b : Key) : Walking.Before reverse a b ↔ Skeleton.before reverse (utf16 a) (utf16 b) := by
  cases reverse
  · exact (Skeleton.compareKeys_lt a b).symm.trans (Skeleton.compareKeys_neg _ _)
  · exact (Skeleton.compareKeys_lt b a).symm.trans (Skeleton.compareKeys_neg _ _)

theorem past_rising (target : Units) (strict reverse : Bool) (a b : Key) (order : Walking.Before reverse a b)
    (there : Skeleton.past target strict (utf16 a) reverse = true) : Skeleton.past target strict (utf16 b) reverse = true :=
  Skeleton.past_rising target strict ((before_units reverse a b).mp order) there

theorem stand_rising (p : ScanPattern) (reverse : Bool) : SkipScan.Rising (p.stand reverse) (Walking.Before reverse) := by
  intro k reached at_ a b order there
  unfold stand at at_
  split at at_ <;> cases at_
  exact past_rising _ _ _ a b order there

-- A pattern's head is a text.
theorem head_text (p : ScanPattern) : ∃ h, p.compiled.head = utf16 h := by
  obtain ⟨text,compiled,compiles⟩ := p
  obtain ⟨slice,name,locals⟩ := text
  unfold compilePattern KeyPattern.map at compiles
  cases slice with
  | none =>
    dsimp only [Option.map_none] at compiles
    split at compiles
    · cases compiles
    · cases compiles
      exact ⟨[],rfl⟩
  | some slice =>
    obtain ⟨⟨h,_,head,_⟩,_⟩ := Twins.slice_twin slice
    refine ⟨h,?_⟩
    dsimp only [Option.map_some] at compiles
    rw [← head]
    split at compiles
    · split at compiles <;> cases compiles
      rfl
    · cases compiles
      rfl

-- The keys under a pattern's head are those from it on and below its end.
theorem under_head (p : ScanPattern) (key : Key) : p.compiled.head <+: utf16 key ↔
    ¬rk (utf16 key) < rk p.compiled.head ∧ ∀ end_, prefixEnd p.compiled.head = some end_ → rk (utf16 key) < rk end_ := by
  obtain ⟨h,head⟩ := p.head_text
  rw [head,Skeleton.prefixEnd_tight]
  refine and_congr ?_ (forall₂_congr fun end_ _ => Skeleton.compareKeys_neg _ _)
  rw [← not_lt,Skeleton.compareKeys_pos]

theorem picks_under {p : ScanPattern} (picked : p.picks key = true) : p.compiled.head <+: utf16 key := by
  unfold picks matchesPattern placeKey at picked
  rw [decide_eq_true_eq] at picked
  split at picked
  · assumption
  · cases picked

-- Whether a walk's start has reached a key.
def starts (p : ScanPattern) (reverse : Bool) (after : Option Key) (key : Key) : Bool :=
  match after with
  | some a => Skeleton.past (utf16 a) true (utf16 key) reverse
  | none =>
    if reverse then (prefixEnd p.compiled.head).all fun end_ => Skeleton.past end_ true (utf16 key) true
    else Skeleton.past p.compiled.head false (utf16 key) false

theorem starts_rising (p : ScanPattern) (reverse : Bool) (after : Option Key) (a b : Key) (order : Walking.Before reverse a b)
    (there : p.starts reverse after a = true) : p.starts reverse after b = true := by
  cases after with
  | some first => exact past_rising _ _ _ a b order there
  | none =>
    cases reverse
    · exact past_rising _ _ _ a b order there
    · unfold starts at there ⊢
      simp only [if_true] at there ⊢
      cases ends : prefixEnd p.compiled.head with
      | none => rfl
      | some end_ =>
        rw [ends] at there
        exact past_rising _ _ true a b order there

theorem starts_some (p : ScanPattern) (reverse : Bool) (a key : Key) : p.starts reverse (some a) key = true ↔ Walking.Before reverse a key := by
  rw [before_units]
  cases reverse
  · exact (Skeleton.past_forward _ _ _).trans (by simp [Skeleton.before])
  · exact (Skeleton.past_reverse _ _ _).trans (by simp [Skeleton.before])

-- A walk that starts at the pattern's own start reaches every key under its head, and of those
-- it reaches none ahead of such a key is outside.
theorem starts_under (p : ScanPattern) (reverse : Bool) {key : Key} (under : p.compiled.head <+: utf16 key) : p.starts reverse none key = true := by
  obtain ⟨low,high⟩ := (p.under_head key).mp under
  cases reverse
  · rw [starts,if_neg (by decide),Skeleton.past_forward]
    rcases lt_or_eq_of_le (not_lt.mp low) with less | same
    · exact .inl less
    · exact .inr ⟨(Skeleton.rk_inj.mp same).symm,rfl⟩
  · rw [starts,if_pos rfl,Option.all_eq_true]
    exact fun end_ is => (Skeleton.past_reverse _ _ _).mpr (.inl (high end_ is))

theorem under_between (p : ScanPattern) {reverse : Bool} {after : Option Key} (from_ : ∀ a ∈ after, p.compiled.head <+: utf16 a)
    {k m : Key} (there : p.starts reverse after k = true) (order : Walking.Before reverse k m) (under : p.compiled.head <+: utf16 m) :
    p.compiled.head <+: utf16 k := by
  obtain ⟨low,high⟩ := (p.under_head m).mp under
  have order := (before_units reverse k m).mp order
  rw [under_head]
  cases reverse with
  | false =>
    have order : rk (utf16 k) < rk (utf16 m) := order
    refine ⟨fun below => ?_,fun end_ is => order.trans (high end_ is)⟩
    cases after with
    | none =>
      rcases (Skeleton.past_forward _ _ _).mp there with less | ⟨same,_⟩
      · exact lt_asymm less below
      · rw [same] at below
        exact lt_irrefl _ below
    | some a =>
      have ahead := (before_units false a k).mp ((p.starts_some false a k).mp there)
      exact ((p.under_head a).mp (from_ a rfl)).1 (lt_trans (show rk (utf16 a) < rk (utf16 k) from ahead) below)
  | true =>
    have order : rk (utf16 m) < rk (utf16 k) := order
    refine ⟨fun below => low (order.trans below),fun end_ is => ?_⟩
    cases after with
    | none =>
      rw [starts,if_pos rfl,is] at there
      rcases (Skeleton.past_reverse _ _ _).mp there with less | ⟨_,strict⟩
      · exact less
      · cases strict
    | some a =>
      have ahead := (before_units true a k).mp ((p.starts_some true a k).mp there)
      exact lt_trans (show rk (utf16 k) < rk (utf16 a) from ahead) (((p.under_head a).mp (from_ a rfl)).2 end_ is)

end ScanPattern

namespace Base

def ahead (base : Base V) (reverse : Bool) : List (Key × V) := if reverse then base.scan.reverse else base.scan

theorem ahead_ordered (base : Base V) (reverse : Bool) : Walking.Ordered reverse (base.ahead reverse) := by
  cases reverse
  · exact base.scan_sorted
  · exact List.pairwise_reverse.mpr base.scan_sorted

theorem mem_ahead (base : Base V) (reverse : Bool) (row : Key × V) : row ∈ base.ahead reverse ↔ base.get row.1 = some row.2 := by
  rw [← OrderedMap.mem_scan]
  cases reverse <;> simp [ahead]

-- The rows of a base that a walk visits, from past a key.
def walked (base : Base V) (pattern : ScanPattern) (reverse : Bool) (after : Option Key) : List (Key × V) :=
  visited (pattern.stand reverse) ((base.ahead reverse).filter fun row => pattern.starts reverse after row.1)

theorem walked_ordered (base : Base V) (pattern : ScanPattern) (reverse : Bool) (after : Option Key) :
    Walking.Ordered reverse (base.walked pattern reverse after) :=
  ((base.ahead_ordered reverse).filter _).sublist ((SkipScan.visited_sublist _ _).trans List.filter_sublist)

-- Each is the pattern's, and past the key.
theorem walked_within {base : Base V} {pattern : ScanPattern} {row : Key × V} (member : row ∈ base.walked pattern reverse after) :
    base.get row.1 = some row.2 ∧ pattern.picks row.1 = true ∧ Walking.past reverse after row.1 = true := by
  obtain ⟨ahead,found⟩ := List.mem_filter.mp ((SkipScan.visited_sublist _ _).subset member)
  obtain ⟨inside,there⟩ := List.mem_filter.mp ahead
  refine ⟨(base.mem_ahead reverse row).mp inside,(pattern.stand_found reverse row.1).mp found,?_⟩
  cases after with
  | none => rfl
  | some a => exact Walking.past_some.mpr ((pattern.starts_some reverse a row.1).mp there)

-- Where the base is untangled, it visits each such row.
theorem mem_walked {base : Base V} {pattern : ScanPattern} {reverse : Bool} (untangled : base.Untangled pattern reverse) {after : Option Key}
    (from_ : ∀ a ∈ after, pattern.picks a = true) (row : Key × V) : row ∈ base.walked pattern reverse after ↔
      base.get row.1 = some row.2 ∧ pattern.picks row.1 = true ∧ Walking.past reverse after row.1 = true := by
  refine ⟨walked_within,fun ⟨held,picks,past⟩ => ?_⟩
  have under := ScanPattern.picks_under picks
  have ordered := (base.ahead_ordered reverse).filter fun row => pattern.starts reverse after row.1
  refine (SkipScan.mem_visited (pattern.stand_rising reverse) (fun a b => Walking.Before.asymm) ordered).mpr
    ⟨List.mem_filter.mpr ⟨(base.mem_ahead reverse row).mpr held,?_⟩,(pattern.stand_found reverse row.1).mpr picks,fun k stood order => ?_⟩
  · cases after with
    | none => exact pattern.starts_under reverse under
    | some a => exact (pattern.starts_some reverse a row.1).mpr (Walking.past_some.mp past)
  · obtain ⟨inside,there⟩ := List.mem_filter.mp (SkipScan.placed_subset _ _ stood)
    have keys : ∀ row : Key × V, base.get row.1 = some row.2 → row.1 ∈ base.keys := fun row held => (base.mem_keys row.1).mpr ⟨_,held⟩
    exact untangled k.1 (keys k ((base.mem_ahead reverse k).mp inside))
      (pattern.under_between (fun a is => ScanPattern.picks_under (from_ a is)) there order under) row.1 (keys row held) picks order

def stored (base : Base V) : List Units := base.scan.map fun row => utf16 row.1

theorem stored_sorted (base : Base V) : Skeleton.Sorted base.stored :=
  List.pairwise_map.mpr (base.scan_sorted.imp fun less => (ScanPattern.before_units false _ _).mp less)

theorem stored_ahead (base : Base V) (reverse : Bool) : Skeleton.ahead base.stored reverse = (base.ahead reverse).map fun row => utf16 row.1 := by
  cases reverse <;> simp [Skeleton.ahead,stored,ahead,List.map_reverse]

-- A walk's cursor starts at the first key its start has reached.
theorem start_view (base : Base V) (pattern : ScanPattern) (reverse : Bool) (after : Option Key) :
    Skeleton.InRange base.stored reverse (Skeleton.start base.stored pattern.compiled reverse (after.map utf16)) ∧
      Skeleton.view base.stored reverse (Skeleton.start base.stored pattern.compiled reverse (after.map utf16)) =
        ((base.ahead reverse).dropWhile fun row => !pattern.starts reverse after row.1).map fun row => utf16 row.1 := by
  have sought : ∀ target strict, Skeleton.view base.stored reverse (Skeleton.ArrayCursor.seek base.stored reverse (some target) strict) =
      ((base.ahead reverse).dropWhile fun row => !Skeleton.past target strict (utf16 row.1) reverse).map fun row => utf16 row.1 := by
    intro target strict
    rw [(Skeleton.seek_view base.stored_sorted reverse target strict).2,stored_ahead,List.dropWhile_map]
    rfl
  have inside := fun target strict => (Skeleton.seek_view base.stored_sorted reverse target strict).1
  cases after with
  | some a => exact ⟨inside _ _,sought _ _⟩
  | none =>
    cases reverse with
    | false => exact ⟨inside _ _,sought _ _⟩
    | true =>
      unfold Skeleton.start ScanPattern.starts
      simp only [Option.map_none,if_true]
      cases ends : prefixEnd pattern.compiled.head with
      | some end_ => exact ⟨inside _ _,sought _ _⟩
      | none =>
        obtain ⟨within,whole⟩ := Skeleton.seek_none base.stored true false
        refine ⟨within,whole.trans ?_⟩
        have all : (base.ahead true).dropWhile (fun _ => false) = base.ahead true := by cases base.ahead true <;> rfl
        simp [stored_ahead,all]

-- Which it is handed are the first of the rows visited.
theorem walk_keys (base : Base V) (pattern : ScanPattern) (reverse : Bool) (after : Option Key) {limit : Nat} (positive : 0 < limit) :
    (walkPattern base.stored pattern.compiled reverse (after.map utf16) stepBudget
      (fun key keys => (decide (keys.length+1 < limit),keys++[key])) (base.stored.length+1) []).getD [] =
      ((base.walked pattern reverse after).take limit).map fun row => utf16 row.1 := by
  obtain ⟨inside,on⟩ := base.start_view pattern reverse after
  have rows : (base.ahead reverse).dropWhile (fun row => !pattern.starts reverse after row.1) =
      (base.ahead reverse).filter fun row => pattern.starts reverse after row.1 :=
    SkipScan.drop_reached (pattern.starts_rising reverse after) (base.ahead_ordered reverse)
  have suffix : Skeleton.view base.stored reverse (Skeleton.start base.stored pattern.compiled reverse (after.map utf16)) <:+
      Skeleton.ahead base.stored reverse := by
    rw [on,stored_ahead]
    exact (List.dropWhile_suffix _).map _
  have size := suffix.length_le
  have whole : (Skeleton.ahead base.stored reverse).length = base.stored.length := by cases reverse <;> simp [Skeleton.ahead]
  have same := SkipScan.visited_alike (pattern.stand_alike reverse) (fun _ : V => ())
    ((base.ahead reverse).filter fun row => pattern.starts reverse after row.1)
  rw [walkPattern,Skeleton.walkFrom_handed base.stored_sorted pattern.compiled reverse _ _ inside suffix (by omega),Option.getD_some,
    Skeleton.visitEach_collect limit _ [] positive,on,rows,Skeleton.handed,Skeleton.rows,List.map_map]
  simp only [Function.comp_def]
  rw [same,List.map_map,List.nil_append,List.length_nil,Nat.sub_zero,← List.map_take]
  rfl

theorem find_row {base : Base V} {row : Key × V} (held : base.get row.1 = some row.2) :
    base.scan.find? (fun other => decide (utf16 other.1 = utf16 row.1)) = some row := by
  have member : row ∈ base.scan := (OrderedMap.mem_scan _ _ _).mpr held
  cases found : base.scan.find? (fun other => decide (utf16 other.1 = utf16 row.1)) with
  | none => exact absurd (List.find?_eq_none.mp found row member) (by simp)
  | some other =>
    have same := List.find?_some found
    rw [decide_eq_true_eq,Skeleton.utf16_inj] at same
    have there := (OrderedMap.mem_scan _ _ _).mp (List.mem_of_find?_eq_some found)
    rw [same,held] at there
    exact congrArg some (Prod.ext same (Option.some.inj there).symm)

-- One batch of a base is the first rows its walk visits.
theorem storeScan_walked (base : Base V) (pattern : ScanPattern) (reverse : Bool) (after : Option Key) {limit : Nat} (positive : 0 < limit) :
    base.storeScan pattern reverse after limit = ⟨(base.walked pattern reverse after).take limit,
      if limit ≤ (base.walked pattern reverse after).length then ((base.walked pattern reverse after).take limit).getLast?.map Prod.fst else none⟩ := by
  have keys := base.walk_keys pattern reverse after positive
  unfold stored at keys
  have entries : (((base.walked pattern reverse after).take limit).map fun row => utf16 row.1).filterMap
      (fun key => base.scan.find? fun row => decide (utf16 row.1 = key)) = (base.walked pattern reverse after).take limit := by
    rw [List.filterMap_map]
    refine (List.filterMap_congr fun row member => ?_).trans List.filterMap_some
    exact find_row (walked_within (List.mem_of_mem_take member)).1
  unfold storeScan
  dsimp only
  rw [keys,entries,List.length_map,List.length_take]
  congr 1
  by_cases full : limit ≤ (base.walked pattern reverse after).length
  · rw [if_pos full,if_pos (min_eq_left full)]
  · rw [if_neg full,if_neg (by omega)]

end Base
end PhaseLock
