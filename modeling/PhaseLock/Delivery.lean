import PhaseLock.Streaming
import PhaseLock.Traces

namespace PhaseLock

def Sent.rows : Sent → List LogRow
  | .edits rows _ => rows
  | _ => []

def Sent.placed : Sent → List Nat
  | .view position _ => [position]
  | _ => []

def Sent.shows : Sent → List (List Name)
  | .view _ selectors => [selectors]
  | _ => []

-- The edits a connection was sent, the positions of its view frames, and the views it was under.
def sentRows (sent : List Sent) : List LogRow := sent.flatMap Sent.rows
def viewPositions (sent : List Sent) : List Nat := sent.flatMap Sent.placed
def viewsSeen (entered : List Name) (sent : List Sent) : List (List Name) := entered :: sent.flatMap Sent.shows

-- The view in force behind a connection's frames.
def viewAfter (entered : List Name) : List Sent → List Name
  | [] => entered
  | .view _ selectors :: rest => viewAfter selectors rest
  | _ :: rest => viewAfter entered rest

-- An edits frame holds one mutation's edits, filtered by the view in force, all above every
-- edit sent before; a view frame is at or above everything before it.
def Sent.InOrder (entered : List Name) (seen : List Sent) : Sent → Prop
  | .edits rows under => under = viewAfter entered seen ∧ rows ≠ [] ∧ (∀ row ∈ rows, covered under row.slice = true) ∧
      (∀ a ∈ rows, ∀ b ∈ rows, a.position = b.position) ∧ ∀ old ∈ sentRows seen, ∀ row ∈ rows, old.position < row.position
  | .view position _ => (∀ old ∈ sentRows seen, old.position ≤ position) ∧ ∀ earlier ∈ viewPositions seen, earlier ≤ position
  | _ => True

-- An edits frame was filtered by the view in force where it is sent.
def Sent.Filtered (entered : List Name) (seen : List Sent) : Sent → Prop
  | .edits rows under => under = viewAfter entered seen ∧ ∀ row ∈ rows, covered under row.slice = true
  | _ => True

-- An edits frame is above every view frame before it.
def Sent.Above (seen : List Sent) : Sent → Prop
  | .edits rows _ => ∀ position ∈ viewPositions seen, ∀ row ∈ rows, position < row.position
  | _ => True

-- What a frame tells its client every edit is sent through.
def Sent.vouched : Sent → Option Nat
  | .live position => some position
  | .vouch position => some position
  | _ => none

@[simp] theorem sentRows_append : sentRows (xs++ys) = sentRows xs++sentRows ys := by simp [sentRows]
@[simp] theorem viewPositions_append : viewPositions (xs++ys) = viewPositions xs++viewPositions ys := by simp [viewPositions]
@[simp] theorem viewsSeen_append : viewsSeen entered (xs++ys) = viewsSeen entered xs++ys.flatMap Sent.shows := by simp [viewsSeen]

@[simp] theorem viewAfter_append : viewAfter entered (xs++ys) = viewAfter (viewAfter entered xs) ys := by
  induction xs generalizing entered with
  | nil => rfl
  | cons frame xs ih => cases frame <;> simp [viewAfter,ih]

theorem viewAfter_seen : viewAfter entered sent ∈ viewsSeen entered sent := by
  induction sent generalizing entered with
  | nil => simp [viewAfter,viewsSeen]
  | cons frame rest ih =>
    cases frame with
    | view position selectors =>
      have later : viewAfter selectors rest ∈ viewsSeen selectors rest := ih
      simp only [viewAfter,viewsSeen,List.flatMap_cons,Sent.shows,List.singleton_append]
      exact List.mem_cons_of_mem _ later
    | _ => simpa [viewAfter,viewsSeen,Sent.shows] using @ih entered

-- Rows grouped by mutation: each group is one position's, and they are in order.
structure Grouped (groups : List (List LogRow)) : Prop where
  whole : ∀ edits ∈ groups, edits ≠ [] ∧ ∀ row ∈ edits, row.position = groupPosition edits
  apart : groups.Pairwise (fun a b => groupPosition a < groupPosition b)

@[simp] theorem groupPositions_flatten (items : List LogRow) : (groupPositions items).flatten = items :=
  List.flatten_splitBy _ _

theorem groupPosition_of (one : ∀ a ∈ edits, ∀ b ∈ edits, a.position = b.position) (member : row ∈ edits) :
    row.position = groupPosition edits := by
  cases edits with
  | nil => cases member
  | cons first rest => exact one row member first (by simp)

theorem groupPositions_grouped (sorted : items.Pairwise (fun a b : LogRow => a.position ≤ b.position)) :
    Grouped (groupPositions items) := by
  have whole : ∀ edits ∈ groupPositions items, edits ≠ [] ∧ ∀ row ∈ edits, row.position = groupPosition edits := by
    intro edits member
    refine ⟨List.ne_nil_of_mem_splitBy member,fun row rowIn => groupPosition_of ?_ rowIn⟩
    have chain : edits.IsChain (fun a b : LogRow => a.position = b.position) :=
      (List.isChain_of_mem_splitBy member).imp fun a b same => by simpa using same
    have all : edits.Pairwise (fun a b : LogRow => a.position = b.position) := by
      have : Trans (fun a b : LogRow => a.position = b.position) (fun a b : LogRow => a.position = b.position)
          (fun a b : LogRow => a.position = b.position) := ⟨fun left right => left.trans right⟩
      exact chain.pairwise
    have flipped : edits.Pairwise (flip fun a b : LogRow => a.position = b.position) := all.imp Eq.symm
    have every := List.Pairwise.forall_of_forall_of_flip (R := fun a b : LogRow => a.position = b.position)
      (fun _ _ => rfl) all flipped
    exact fun a aIn b bIn => every aIn bIn
  refine ⟨whole,?_⟩
  have crossed : (groupPositions items).Pairwise (fun a b => ∀ x ∈ a, ∀ y ∈ b, x.position ≤ y.position) := by
    rw [← groupPositions_flatten items,List.pairwise_flatten] at sorted
    exact sorted.2
  have chain : (groupPositions items).IsChain (fun a b => groupPosition a < groupPosition b) := by
    rw [List.isChain_iff_forall_rel_of_append_cons_cons]
    intro a b before after split
    have broken := (List.isChain_iff_forall_rel_of_append_cons_cons.mp
      (List.isChain_getLast_head_splitBy (fun a b : LogRow => a.position == b.position) items)) split
    obtain ⟨aNonempty,bNonempty,differ⟩ := broken
    have aIn : a ∈ groupPositions items := by rw [split]; simp
    have bIn : b ∈ groupPositions items := by rw [split]; simp
    have le : (a.getLast aNonempty).position ≤ (b.head bNonempty).position := by
      rw [split] at crossed
      have tail := (List.pairwise_append.mp crossed).2.1
      exact (List.pairwise_cons.mp tail).1 b (by simp) _ (List.getLast_mem aNonempty) _ (List.head_mem bNonempty)
    rw [(whole a aIn).2 _ (List.getLast_mem aNonempty),(whole b bIn).2 _ (List.head_mem bNonempty)] at differ
    rw [(whole a aIn).2 _ (List.getLast_mem aNonempty),(whole b bIn).2 _ (List.head_mem bNonempty)] at le
    simp only [beq_eq_false_iff_ne] at differ
    omega
  exact chain.pairwise

-- The frames that carry groups of rows under a view.
def framesOf (selectors : List Name) (groups : List (List LogRow)) : List Sent :=
  groups.filterMap fun edits => (editsFrame edits selectors).map (.edits · selectors)

theorem editsFrame_some : editsFrame edits selectors = some rows ↔
    rows = edits.filter (covered selectors ·.slice) ∧ rows ≠ [] := by
  unfold editsFrame
  dsimp only
  split
  · rename_i empty
    constructor
    · intro none
      cases none
    · rintro ⟨rfl,nonempty⟩
      exact absurd empty nonempty
  · rename_i nonempty
    constructor
    · intro found
      cases found
      exact ⟨rfl,nonempty⟩
    · rintro ⟨rfl,_⟩
      rfl

theorem editsFrame_none : editsFrame edits selectors = none ↔ edits.filter (covered selectors ·.slice) = [] := by
  unfold editsFrame
  dsimp only
  split <;> simp_all

theorem framesOf_cons : framesOf selectors (edits :: groups) =
    ((editsFrame edits selectors).map (Sent.edits · selectors)).toList++framesOf selectors groups := by
  cases found : editsFrame edits selectors <;> simp [framesOf,found]

theorem framesOf_rows (selectors : List Name) (groups : List (List LogRow)) :
    sentRows (framesOf selectors groups) = groups.flatten.filter (covered selectors ·.slice) := by
  induction groups with
  | nil => rfl
  | cons edits groups ih =>
    rw [framesOf_cons,sentRows_append,ih,List.flatten_cons,List.filter_append]
    cases found : editsFrame edits selectors with
    | none => rw [editsFrame_none.mp found]; rfl
    | some rows => rw [← (editsFrame_some.mp found).1]; simp [sentRows,Sent.rows]

theorem framesOf_edits (member : frame ∈ framesOf selectors groups) : ∃ rows, frame = .edits rows selectors := by
  simp only [framesOf,List.mem_filterMap,Option.map_eq_some_iff] at member
  obtain ⟨edits,_,rows,_,rfl⟩ := member
  exact ⟨rows,rfl⟩

-- Frames of edits show no view and place none.
theorem edits_only (frames : List Sent) (edits : ∀ frame ∈ frames, ∃ rows under, frame = .edits rows under) :
    viewPositions frames = [] ∧ frames.flatMap Sent.shows = [] ∧ (∀ entered, viewAfter entered frames = entered) ∧
      frames.filterMap Sent.vouched = [] := by
  induction frames with
  | nil => exact ⟨rfl,rfl,fun _ => rfl,rfl⟩
  | cons frame frames ih =>
    obtain ⟨rows,under,rfl⟩ := edits frame (by simp)
    obtain ⟨placed,shows,after,vouched⟩ := ih fun other member => edits other (List.mem_cons_of_mem _ member)
    exact ⟨by simpa [viewPositions,Sent.placed] using placed,by simpa [Sent.shows] using shows,
      fun entered => by simpa [viewAfter] using after entered,by simpa [Sent.vouched] using vouched⟩

-- Groups sent above everything sent before are in order, each above the one before.
theorem framesOf_inOrder (grouped : Grouped groups) (current : selectors = viewAfter entered seen)
    (above : ∀ old ∈ sentRows seen, ∀ row ∈ groups.flatten, old.position < row.position) :
    Along (Sent.InOrder entered) seen (framesOf selectors groups) := by
  induction groups generalizing seen with
  | nil => trivial
  | cons edits groups ih =>
    have rest : Grouped groups := ⟨fun other member => grouped.whole other (List.mem_cons_of_mem _ member),
      (List.pairwise_cons.mp grouped.apart).2⟩
    rw [framesOf_cons]
    cases found : editsFrame edits selectors with
    | none => exact ih rest current fun old oldIn row member => above old oldIn row (by simp [member])
    | some rows =>
      obtain ⟨rowsAre,nonempty⟩ := editsFrame_some.mp found
      have placed : ∀ row ∈ rows, row ∈ edits ∧ row.position = groupPosition edits := by
        intro row member
        rw [rowsAre] at member
        have rowIn := (List.mem_filter.mp member).1
        exact ⟨rowIn,(grouped.whole edits (by simp)).2 row rowIn⟩
      refine ⟨⟨current,nonempty,?_,?_,?_⟩,ih rest ?_ ?_⟩
      · intro row member
        rw [rowsAre] at member
        exact (List.mem_filter.mp member).2
      · intro a aIn b bIn
        rw [(placed a aIn).2,(placed b bIn).2]
      · intro old oldIn row member
        exact above old oldIn row (by simp [(placed row member).1])
      · rw [viewAfter_append,← current]
        rfl
      · intro old oldIn row member
        rw [sentRows_append,List.mem_append] at oldIn
        rcases oldIn with before | now
        · exact above old before row (by simp [member])
        · have oldRow : old ∈ rows := by simpa [sentRows,Sent.rows] using now
          obtain ⟨other,otherIn,rowIn⟩ := List.mem_flatten.mp member
          rw [(placed old oldRow).2,(rest.whole other otherIn).2 row rowIn]
          exact (List.pairwise_cons.mp grouped.apart).1 other otherIn

-- Rows all above the view frames before them are frames above them.
theorem framesOf_above (above : ∀ position ∈ viewPositions seen, ∀ row ∈ groups.flatten,
      covered selectors row.slice = true → position < row.position) :
    Along Sent.Above seen (framesOf selectors groups) := by
  induction groups generalizing seen with
  | nil => trivial
  | cons edits groups ih =>
    rw [framesOf_cons]
    cases found : editsFrame edits selectors with
    | none => exact ih fun position placed row member => above position placed row (by simp [member])
    | some rows =>
      obtain ⟨rowsAre,_⟩ := editsFrame_some.mp found
      refine ⟨fun position placed row member => ?_,ih fun position placed row member => ?_⟩
      · rw [rowsAre] at member
        obtain ⟨rowIn,covers⟩ := List.mem_filter.mp member
        exact above position placed row (by simp [rowIn]) covers
      · have before : position ∈ viewPositions seen := by simpa [viewPositions,Sent.placed] using placed
        exact above position before row (by simp [member])

-- Rows of a log above other rows of it come after them.
theorem sublist_join {log xs ys : List LogRow} (sorted : log.Pairwise (fun a b => a.position ≤ b.position))
    (left : xs.Sublist log) (right : ys.Sublist log) (apart : ∀ x ∈ xs, ∀ y ∈ ys, x.position < y.position) :
    (xs++ys).Sublist log := by
  cases ys with
  | nil => simpa using left
  | cons first rest =>
    have low : xs.Sublist (log.filter (·.position < first.position)) := by
      have kept := left.filter (·.position < first.position)
      rwa [List.filter_eq_self.mpr (fun x member => by simpa using apart x member first (by simp))] at kept
    have high : (first :: rest).Sublist (log.filter (first.position ≤ ·.position)) := by
      have kept := right.filter (first.position ≤ ·.position)
      rwa [List.filter_eq_self.mpr] at kept
      intro y member
      rcases List.mem_cons.mp member with rfl | later
      · simp
      · simpa using (List.pairwise_cons.mp (sorted.sublist right)).1 y later
    have split : ∀ rows : List LogRow, rows.Pairwise (fun a b => a.position ≤ b.position) →
        rows.filter (·.position < first.position)++rows.filter (first.position ≤ ·.position) = rows := by
      intro rows ordered
      induction rows with
      | nil => rfl
      | cons row rows ih =>
        have prior := ih (List.pairwise_cons.mp ordered).2
        by_cases before : row.position < first.position
        · simpa [before,Nat.not_le.mpr before] using prior
        · have after : ∀ other ∈ rows, ¬other.position < first.position := fun other member =>
            Nat.not_lt.mpr ((Nat.not_lt.mp before).trans ((List.pairwise_cons.mp ordered).1 other member))
          have none : rows.filter (·.position < first.position) = [] := by
            simpa [List.filter_eq_nil_iff] using fun other member => Nat.not_lt.mp (after other member)
          rw [none,List.nil_append] at prior
          simp [before,Nat.not_lt.mp before,none,prior]
    rw [← split log sorted]
    exact low.append high

namespace Handler

-- What a handler has sent is committed edits in order, none past its cursor, and its view
-- frames are at most at its cursor or a lower bound.
structure Fine (committed : List LogRow) (lower : Nat) (h : Handler) : Prop where
  inOrder : Along (Sent.InOrder h.entered) [] h.sent
  logged : (sentRows h.sent).Sublist committed
  behind : ∀ row ∈ sentRows h.sent, row.position ≤ h.cursor
  placed : ∀ position ∈ viewPositions h.sent, position ≤ max h.cursor lower

def Current (h : Handler) : Prop := h.selectors = viewAfter h.entered h.sent

variable {h : Handler} {committed : List LogRow} {cursor : Nat}

theorem Fine.grow (fine : h.Fine committed lower) (more : committed.Sublist later) (le : lower ≤ upper) :
    h.Fine later upper :=
  ⟨fine.inOrder,fine.logged.trans more,fine.behind,fun position placed => (fine.placed position placed).trans
    (max_le_max (le_refl _) le)⟩

-- A frame that carries no edits and is no view changes none of it.
theorem Fine.mark (fine : h.Fine committed lower) (frame : Sent) (le : h.cursor ≤ cursor)
    (plain : frame.rows = [] ∧ frame.placed = [] ∧ Sent.InOrder h.entered h.sent frame) (phase : Phase) (told : Nat) :
    Fine committed lower {h.write frame with
      cursor
      told
      phase} := by
  have rows : sentRows (h.sent++[frame]) = sentRows h.sent := by simp [sentRows,plain.1]
  have placed : viewPositions (h.sent++[frame]) = viewPositions h.sent := by simp [viewPositions,plain.2.1]
  refine ⟨along_append.mpr ⟨fine.inOrder,along_single.mpr plain.2.2⟩,?_,?_,?_⟩
  · exact rows ▸ fine.logged
  · exact fun row member => (fine.behind row (rows ▸ member)).trans le
  · exact fun position member => (fine.placed position (placed ▸ member)).trans (max_le_max le (le_refl _))

theorem Fine.shown (fine : h.Fine committed lower) (le : lower ≤ position) (selectors : List Name) :
    Fine committed position {h.write (.view (max position h.cursor) selectors) with selectors} := by
  have rows : sentRows (h.sent++[.view (max position h.cursor) selectors]) = sentRows h.sent := by
    simp [sentRows,Sent.rows]
  refine ⟨along_append.mpr ⟨fine.inOrder,along_single.mpr ⟨?_,?_⟩⟩,?_,?_,?_⟩
  · exact fun old member => (fine.behind old (by simpa using member)).trans (le_max_right _ _)
  · intro earlier member
    have bound := fine.placed earlier (by simpa using member)
    omega
  · exact rows ▸ fine.logged
  · exact fun row member => fine.behind row (rows ▸ member)
  · intro at_ member
    simp only [write,viewPositions_append,List.mem_append] at member
    rcases member with before | now
    · have bound := fine.placed at_ before
      dsimp only [write]
      omega
    · have here : at_ = max position h.cursor := by simpa [viewPositions,Sent.placed] using now
      dsimp only [write]
      omega

theorem Fine.sends (fine : h.Fine committed lower) (current : h.Current)
    (sorted : committed.Pairwise (fun a b => a.position ≤ b.position)) (grouped : Grouped groups)
    (within : groups.flatten.Sublist committed)
    (above : ∀ old ∈ sentRows h.sent, ∀ row ∈ groups.flatten, old.position < row.position)
    (behind : ∀ row ∈ sentRows (framesOf h.selectors groups), row.position ≤ cursor) (le : h.cursor ≤ cursor) (told : Nat) :
    Fine committed lower {h with
      sent:=h.sent++framesOf h.selectors groups
      cursor
      told} := by
  have rows := framesOf_rows h.selectors groups
  obtain ⟨placed,_,_,_⟩ := edits_only (framesOf h.selectors groups) fun frame member =>
    have ⟨rows,same⟩ := framesOf_edits member
    ⟨rows,h.selectors,same⟩
  refine ⟨along_append.mpr ⟨fine.inOrder,framesOf_inOrder grouped current above⟩,?_,?_,?_⟩
  · dsimp only
    rw [sentRows_append]
    refine sublist_join sorted fine.logged ?_ ?_
    · rw [rows]
      exact List.filter_sublist.trans within
    · intro x xIn y yIn
      rw [rows] at yIn
      exact above x xIn y (List.mem_filter.mp yIn).1
  · intro row member
    dsimp only at member
    rw [sentRows_append,List.mem_append] at member
    rcases member with before | now
    · exact (fine.behind row before).trans le
    · exact behind row now
  · intro position member
    dsimp only at member
    rw [viewPositions_append,placed,List.append_nil] at member
    exact (fine.placed position member).trans (max_le_max le (le_refl _))

end Handler

end PhaseLock
