import PhaseLock.Queries

namespace PhaseLock
variable {V τ : Type}

namespace Walking
variable {κ ν : Type} [LinearOrder κ] {reverse : Bool}

-- A full batch of a walk holds the rows up to its last.
theorem Ordered.page {rows : List (κ × ν)} (ordered : Ordered reverse rows) {limit : Nat} (positive : 0 < limit) (full : limit ≤ rows.length) :
    ∃ row ∈ rows, (rows.take limit).getLast? = some row ∧ rows.take limit = rows.filter fun other => upTo reverse (some row.1) other.1 := by
  have filled : rows.take limit ≠ [] := by
    intro none_
    rcases List.take_eq_nil_iff.mp none_ with zero | empty
    · omega
    · rw [empty] at full
      exact absurd full (by simp; omega)
  obtain ⟨front,row,ends⟩ := (List.eq_nil_or_concat _).resolve_left filled
  rw [List.concat_eq_append] at ends
  have whole : rows = (front++[row])++rows.drop limit := by rw [← ends,List.take_append_drop]
  have member : row ∈ rows := by
    rw [whole]
    simp
  refine ⟨row,member,by rw [ends]; simp,?_⟩
  rw [whole] at ordered
  obtain ⟨first,_,across⟩ := List.pairwise_append.mp ordered
  obtain ⟨_,_,behind⟩ := List.pairwise_append.mp first
  have up : ∀ other ∈ front++[row], upTo reverse (some row.1) other.1 = true := by
    intro other inside
    rcases List.mem_append.mp inside with early | own
    · exact upTo_before (upTo_self _ _) (behind other early row List.mem_cons_self)
    · rw [List.mem_singleton.mp own]
      exact upTo_self _ _
  have over_ : ∀ other ∈ rows.drop limit, ¬upTo reverse (some row.1) other.1 = true := fun other inside up =>
    upTo_some.mp up (across row (by simp) other inside)
  conv_rhs => rw [whole]
  rw [List.filter_append,List.filter_eq_self.mpr up,List.filter_eq_nil_iff.mpr over_,List.append_nil,ends]

theorem sorted_distinct {rows : List (κ × ν)} (distinct : (rows.map Prod.fst).Nodup) :
    (rows.insertionSort fun a b => a.1 ≤ b.1).Pairwise fun a b => a.1 < b.1 := by
  have order : Std.Total (fun a b : κ × ν => a.1 ≤ b.1) := ⟨fun a b => le_total a.1 b.1⟩
  have chain : IsTrans (κ × ν) (fun a b => a.1 ≤ b.1) := ⟨fun _ _ _ => le_trans⟩
  have sorted := List.pairwise_insertionSort (fun a b : κ × ν => a.1 ≤ b.1) rows
  have fresh : (rows.insertionSort fun a b => a.1 ≤ b.1).Pairwise (fun a b => a.1 ≠ b.1) := by
    have perm := (List.perm_insertionSort (fun a b : κ × ν => a.1 ≤ b.1) rows).map Prod.fst
    exact List.pairwise_map.mp (perm.nodup_iff.mpr distinct)
  exact sorted.imp₂ (fun _ _ le ne => lt_of_le_of_ne le ne) fresh

end Walking

-- A span covers a stretch of the keys its pattern picks out.
theorem ScanSpan.covers_iff (span : ScanSpan) (key : Key) : span.covers key = true ↔
    Walking.past span.reverse span.from_ key = true ∧ Walking.upTo span.reverse span.to_ key = true ∧ span.pattern.picks key = true := by
  obtain ⟨pattern,reverse,from_,to_⟩ := span
  unfold covers Skeleton.spanCovers ScanPattern.picks
  simp only [Bool.and_eq_true,Option.all_map,and_assoc]
  refine and_congr ?_ (and_congr ?_ Iff.rfl)
  · cases from_ with
    | none => rfl
    | some f => cases reverse <;> simp [Walking.past,Walking.Before,Skeleton.compareKeys_lt,Skeleton.compareKeys_gt]
  · cases to_ with
    | none => rfl
    | some t => cases reverse <;> simp [Walking.upTo,Walking.Before,← not_lt,Skeleton.compareKeys_lt,Skeleton.compareKeys_gt]

theorem mem_layerRows (overlay : Overlay V) (keep : Key → Bool) (key : Key) (value : V) :
    (key,value) ∈ layerRows overlay keep ↔ overlay.get key = some (some value) ∧ keep key = true := by
  unfold layerRows
  rw [List.mem_filterMap]
  constructor
  · rintro ⟨⟨k,held⟩,member,made⟩
    rw [OrderedMap.mem_scan] at member
    split at made
    · rename_i kept
      cases held with
      | none => cases made
      | some v =>
        cases made
        exact ⟨member,kept⟩
    · cases made
  · rintro ⟨held,kept⟩
    refine ⟨(key,some value),(OrderedMap.mem_scan _ _ _).mpr held,?_⟩
    rw [if_pos kept]
    rfl

theorem layerRows_distinct (overlay : Overlay V) (keep : Key → Bool) : ((layerRows overlay keep).map Prod.fst).Nodup := by
  unfold layerRows List.Nodup
  rw [List.pairwise_map,List.pairwise_filterMap]
  refine (OrderedMap.scan_sorted _).imp ?_
  rintro ⟨k,held⟩ ⟨k',held'⟩ less row made row' made' same
  dsimp only at made made' less
  split at made
  · split at made'
    · obtain ⟨v,_,rfl⟩ := Option.map_eq_some_iff.mp made
      obtain ⟨v',_,rfl⟩ := Option.map_eq_some_iff.mp made'
      exact absurd (show k = k' from same) (ne_of_lt less)
    · cases made'
  · cases made

-- The base's rows a layer does not hold, and the layer's own.
theorem merged_distinct (overlay : Overlay V) (keep : Key → Bool) {entries : List (Key × V)} (distinct : (entries.map Prod.fst).Nodup) :
    (((entries.filter fun row => !overlay.has row.1)++layerRows overlay keep).map Prod.fst).Nodup := by
  rw [List.map_append]
  refine List.nodup_append.mpr ⟨distinct.sublist (List.filter_sublist.map _),layerRows_distinct _ _,?_⟩
  intro key inBase key' inLayer same
  subst same
  obtain ⟨⟨k,v⟩,shown,rfl⟩ := List.mem_map.mp inBase
  obtain ⟨⟨k',v'⟩,live,same⟩ := List.mem_map.mp inLayer
  obtain rfl : k' = k := same
  have held := ((mem_layerRows _ _ _ _).mp live).1
  have absent := (List.mem_filter.mp shown).2
  unfold OrderedMap.has at absent
  rw [held] at absent
  cases absent

-- One batch of the base: rows of its walk past a key, none past where it ends.
theorem Base.storeScan_batch (base : Base V) (pattern : ScanPattern) (reverse : Bool) (after : Option Key) {limit : Nat} (positive : 0 < limit) :
    (∀ row, row ∈ (base.storeScan pattern reverse after limit).entries ↔ row ∈ base.walked pattern reverse after ∧
      Walking.upTo reverse (base.storeScan pattern reverse after limit).next row.1 = true) ∧
    Walking.Ordered reverse (base.storeScan pattern reverse after limit).entries ∧
    ∀ n ∈ (base.storeScan pattern reverse after limit).next, Walking.past reverse after n = true ∧ pattern.picks n = true ∧ base.has n = true := by
  have ordered := base.walked_ordered pattern reverse after
  rw [base.storeScan_walked pattern reverse after positive]
  by_cases full : limit ≤ (base.walked pattern reverse after).length
  · obtain ⟨last,inside,ends,page⟩ := ordered.page positive full
    rw [if_pos full,ends,page]
    refine ⟨fun row => List.mem_filter,ordered.filter _,fun n is => ?_⟩
    cases is
    obtain ⟨held,picks,past⟩ := Base.walked_within inside
    exact ⟨past,picks,(OrderedMap.has_iff _ _).mpr ⟨_,held⟩⟩
  · rw [if_neg full,List.take_of_length_le (by omega)]
    exact ⟨fun row => by simp [Walking.upTo],ordered,fun n is => by cases is⟩

-- Of an untangled base these are its rows that the pattern picks.
theorem Base.storeScan_spec {base : Base V} {pattern : ScanPattern} {reverse : Bool} (untangled : base.Untangled pattern reverse)
    {after : Option Key} (from_ : ∀ a ∈ after, pattern.picks a = true) {limit : Nat} (positive : 0 < limit) (row : Key × V) :
    row ∈ (base.storeScan pattern reverse after limit).entries ↔ base.get row.1 = some row.2 ∧ pattern.picks row.1 = true ∧
      Walking.past reverse after row.1 = true ∧ Walking.upTo reverse (base.storeScan pattern reverse after limit).next row.1 = true := by
  rw [(base.storeScan_batch pattern reverse after positive).1,Base.mem_walked untangled from_,and_assoc,and_assoc]

namespace QueryView

-- Every live row of the overlay over the base, in order.
def rows (view : QueryView V) : List (Key × V) :=
  ((view.base.scan.filter fun row => !view.overlay.has row.1)++layerRows view.overlay fun _ => true).insertionSort fun a b => a.1 ≤ b.1

theorem view_iff (overlay : Overlay V) (base : Base V) (key : Key) (value : V) : overlay.view base key = some value ↔
    (base.get key = some value ∧ overlay.has key = false) ∨ overlay.get key = some (some value) := by
  unfold Overlay.view OrderedMap.has
  cases held : overlay.get key with
  | none => simp
  | some predicted => simp

theorem mem_rows (view : QueryView V) (key : Key) (value : V) : (key,value) ∈ view.rows ↔ view.overlay.view view.base key = some value := by
  unfold rows
  rw [List.mem_insertionSort,List.mem_append,List.mem_filter,OrderedMap.mem_scan,mem_layerRows,view_iff]
  simp

theorem rows_sorted (view : QueryView V) : view.rows.Pairwise fun a b => a.1 < b.1 :=
  Walking.sorted_distinct (merged_distinct view.overlay (fun _ => true) (@Walking.Ordered.distinct _ _ _ false _ view.base.scan_sorted))

-- What a reader sees of it, where nothing is held.
def sight (view : QueryView V) : Sight Key V where
  get key := match view.status.get key with
    | some value => some value
    | none => view.overlay.view view.base key
  rows := view.rows
  sorted := view.rows_sorted

end QueryView

-- One batch of a walk over the predictions: its live rows past a key, up to where it ends.
theorem OverlayTxn.scan_spec {view : QueryView V} {pattern : ScanPattern} {reverse : Bool} (untangled : view.base.Untangled pattern reverse)
    {after : Option Key} (from_ : ∀ a ∈ after, pattern.picks a = true) {limit : Nat} (positive : 0 < limit) :
    (OverlayTxn.scan view.base view.overlay pattern reverse after limit).entries =
      (view.sight.walk ScanPattern.picks pattern reverse).filter (fun row => Walking.past reverse after row.1 &&
        Walking.upTo reverse (OverlayTxn.scan view.base view.overlay pattern reverse after limit).next row.1) ∧
    (∀ n ∈ (OverlayTxn.scan view.base view.overlay pattern reverse after limit).next, Walking.past reverse after n = true ∧
      pattern.picks n = true ∧ ((OverlayTxn.scan view.base view.overlay pattern reverse after limit).entries = [] → view.base.has n = true)) := by
  have inBase := Base.storeScan_spec untangled from_ positive
  obtain ⟨_,ordered,ends⟩ := view.base.storeScan_batch pattern reverse after positive
  unfold OverlayTxn.scan
  dsimp only
  set result := view.base.storeScan pattern reverse after limit with given
  set span : ScanSpan := ⟨pattern,reverse,after,result.next⟩ with made
  set merged := ((result.entries.filter fun row => !view.overlay.has row.1)++layerRows view.overlay span.covers).insertionSort
    fun a b => a.1 ≤ b.1 with merges
  have sorted : merged.Pairwise fun a b => a.1 < b.1 :=
    Walking.sorted_distinct (merged_distinct view.overlay span.covers ordered.distinct)
  have keys : (if reverse then merged.reverse else merged) = (view.sight.walk ScanPattern.picks pattern reverse).filter
      (fun row => Walking.past reverse after row.1 && Walking.upTo reverse result.next row.1) := by
    refine Walking.Ordered.ext ?_ ((view.sight.walk_ordered ScanPattern.picks pattern reverse).filter _) fun row => ?_
    · cases reverse
      · exact sorted
      · exact List.pairwise_reverse.mpr sorted
    · obtain ⟨key,value⟩ := row
      have inside : (key,value) ∈ (if reverse then merged.reverse else merged) ↔ (key,value) ∈ merged := by cases reverse <;> simp
      rw [inside,merges,List.mem_insertionSort,List.mem_append,List.mem_filter,inBase,mem_layerRows,ScanSpan.covers_iff,List.mem_filter,
        Sight.mem_walk,Bool.and_eq_true]
      have shown := QueryView.view_iff view.overlay view.base key value
      rw [← QueryView.mem_rows] at shown
      rw [show view.sight.rows = view.rows from rfl,shown]
      simp only [Bool.not_eq_true']
      tauto
  rw [keys]
  set rows := (view.sight.walk ScanPattern.picks pattern reverse).filter
    (fun row => Walking.past reverse after row.1 && Walking.upTo reverse result.next row.1) with shown
  have along : Walking.Ordered reverse rows := (view.sight.walk_ordered ScanPattern.picks pattern reverse).filter _
  by_cases full : limit ≤ rows.length
  · obtain ⟨last,member,ending,page⟩ := along.page positive full
    rw [if_pos full,ending,page]
    obtain ⟨there,under⟩ := Bool.and_eq_true_iff.mp (List.mem_filter.mp member).2
    refine ⟨?_,?_⟩
    · rw [shown,List.filter_filter]
      refine List.filter_congr fun row _ => ?_
      rw [Bool.eq_iff_iff]
      simp only [Option.map_some,Bool.and_eq_true]
      constructor
      · rintro ⟨up,past,_⟩
        exact ⟨past,up⟩
      · rintro ⟨past,up⟩
        exact ⟨up,past,Walking.upTo_trans under up⟩
    · intro n is
      cases is
      refine ⟨there,((view.sight.mem_walk ScanPattern.picks pattern reverse last).mp (List.mem_filter.mp member).1).2,fun empty => ?_⟩
      have own : last ∈ rows.filter (fun other => Walking.upTo reverse (some last.1) other.1) :=
        List.mem_filter.mpr ⟨member,Walking.upTo_self _ _⟩
      rw [empty] at own
      cases own
  · rw [if_neg full,List.take_of_length_le (by omega)]
    exact ⟨rfl,fun n is => ⟨(ends n is).1,(ends n is).2.1,fun _ => (ends n is).2.2⟩⟩

-- A batch that is not the last is full.
theorem Base.storeScan_full (base : Base V) (pattern : ScanPattern) (reverse : Bool) (after : Option Key) {limit : Nat} (positive : 0 < limit)
    {n : Key} (next : (base.storeScan pattern reverse after limit).next = some n) :
    (base.storeScan pattern reverse after limit).entries.length = limit := by
  rw [base.storeScan_walked pattern reverse after positive] at next ⊢
  dsimp only at next ⊢
  by_cases enough : limit ≤ (base.walked pattern reverse after).length
  · rw [List.length_take,min_eq_left enough]
  · rw [if_neg enough] at next
    cases next

-- Predictions that delete no key the base holds.
def QueryView.Bare (view : QueryView V) : Prop := ∀ key, view.overlay.get key = some none → view.base.get key = none

-- Over them a batch that is not the last is full, and ends at its last row.
theorem OverlayTxn.scan_bare {view : QueryView V} (bare : view.Bare) (pattern : ScanPattern) (reverse : Bool) (after : Option Key) {limit : Nat}
    (positive : 0 < limit) {n : Key} (next : (OverlayTxn.scan view.base view.overlay pattern reverse after limit).next = some n) :
    (OverlayTxn.scan view.base view.overlay pattern reverse after limit).entries.getLast?.map Prod.fst = some n := by
  obtain ⟨inBase,ordered,_⟩ := view.base.storeScan_batch pattern reverse after positive
  unfold OverlayTxn.scan at next ⊢
  dsimp only at next ⊢
  set result := view.base.storeScan pattern reverse after limit with given
  set span : ScanSpan := ⟨pattern,reverse,after,result.next⟩ with made
  set layer := layerRows view.overlay span.covers with live
  set merged := ((result.entries.filter fun row => !view.overlay.has row.1)++layer).insertionSort fun a b => a.1 ≤ b.1 with merges
  -- every row of the base's batch is there, or the layer's in its place
  have replaced : (result.entries.filter fun row => view.overlay.has row.1).length ≤ layer.length := by
    have distinct : ((result.entries.filter fun row => view.overlay.has row.1).map Prod.fst).Nodup :=
      ordered.distinct.sublist (List.filter_sublist.map _)
    have inside : (result.entries.filter fun row => view.overlay.has row.1).map Prod.fst ⊆ layer.map Prod.fst := by
      intro key member
      obtain ⟨⟨k,v⟩,row,rfl⟩ := List.mem_map.mp member
      obtain ⟨entry,predicted⟩ := List.mem_filter.mp row
      obtain ⟨visits,up⟩ := (inBase (k,v)).mp entry
      obtain ⟨held,picked,past⟩ := Base.walked_within visits
      obtain ⟨value,is⟩ := (OrderedMap.has_iff _ _).mp predicted
      cases value with
      | none =>
        rw [bare k is] at held
        cases held
      | some value =>
        refine List.mem_map.mpr ⟨(k,value),?_,rfl⟩
        exact (mem_layerRows _ _ _ _).mpr ⟨is,(ScanSpan.covers_iff _ _).mpr ⟨past,up,picked⟩⟩
    have counted := (List.subperm_of_subset distinct inside).length_le
    rwa [List.length_map,List.length_map] at counted
  have counts : (if reverse then merged.reverse else merged).length = (result.entries.filter fun row => !view.overlay.has row.1).length+layer.length := by
    have sorted : merged.length = (result.entries.filter fun row => !view.overlay.has row.1).length+layer.length := by
      rw [merges,List.length_insertionSort,List.length_append]
    split
    · rw [List.length_reverse]
      exact sorted
    · exact sorted
  set keys := if reverse then merged.reverse else merged
  split at next
  · exact next
  · rename_i short
    have whole := List.length_eq_length_filter_add (l := result.entries) fun row => view.overlay.has row.1
    rw [view.base.storeScan_full pattern reverse after positive next] at whole
    omega

end PhaseLock
