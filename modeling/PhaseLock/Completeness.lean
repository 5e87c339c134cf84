import PhaseLock.Backlogs

namespace PhaseLock

-- A logged edit a connection owes nothing more for: one that every view it was under covers was
-- sent, and so was one its present view covers that no view frame left to a backfill.
structure Settled (entered : List Name) (sent : List Sent) (row : LogRow) : Prop where
  throughout : (∀ view ∈ viewsSeen entered sent, covered view row.slice = true) → row ∈ sentRows sent
  present : covered (viewAfter entered sent) row.slice = true → (∀ position ∈ viewPositions sent, position < row.position) →
    row ∈ sentRows sent

namespace Settled

theorem of_sent (member : row ∈ sentRows sent) : Settled entered sent row := ⟨fun _ => member,fun _ _ => member⟩

theorem of_uncovered (uncovered : ¬covered (viewAfter entered sent) row.slice = true) : Settled entered sent row :=
  ⟨fun every => absurd (every _ viewAfter_seen) uncovered,fun now => absurd now uncovered⟩

-- A view frame at or above an edit leaves it to a backfill.
theorem shown (settled : Settled entered sent row) (le : row.position ≤ position) (selectors : List Name) :
    Settled entered (sent++[.view position selectors]) row := by
  refine ⟨fun every => ?_,fun _ above => ?_⟩
  · rw [sentRows_append,List.mem_append]
    refine Or.inl (settled.throughout fun view member => every view ?_)
    rw [viewsSeen_append,List.mem_append]
    exact Or.inl member
  · have placed := above position (by simp [viewPositions,Sent.placed])
    omega

theorem kept (settled : Settled entered sent row) (placed : viewPositions frames = [])
    (shows : frames.flatMap Sent.shows = []) (after : ∀ view, viewAfter view frames = view) :
    Settled entered (sent++frames) row := by
  refine ⟨fun every => ?_,fun now above => ?_⟩
  · rw [sentRows_append,List.mem_append]
    rw [viewsSeen_append,shows,List.append_nil] at every
    exact Or.inl (settled.throughout every)
  · rw [sentRows_append,List.mem_append]
    rw [viewAfter_append,after] at now
    rw [viewPositions_append,placed,List.append_nil] at above
    exact Or.inl (settled.present now above)

theorem framed (settled : Settled entered sent row) : Settled entered (sent++framesOf selectors groups) row := by
  obtain ⟨placed,shows,after,_⟩ := edits_only (framesOf selectors groups) fun frame member =>
    have ⟨rows,same⟩ := framesOf_edits member
    ⟨rows,selectors,same⟩
  exact settled.kept placed shows after

theorem ended (settled : Settled entered sent row) (code : Nat) : Settled entered (sent++[.ends code]) row :=
  settled.kept rfl rfl fun _ => rfl

theorem lived (settled : Settled entered sent row) (position : Nat) : Settled entered (sent++[.live position]) row :=
  settled.kept rfl rfl fun _ => rfl

theorem vouch (settled : Settled entered sent row) (position : Nat) : Settled entered (sent++[.vouch position]) row :=
  settled.kept rfl rfl fun _ => rfl

-- Rows sent under the present view, or that it does not cover.
theorem sending (current : selectors = viewAfter entered sent) (member : row ∈ groups.flatten) :
    Settled entered (sent++framesOf selectors groups) row := by
  by_cases covers : covered selectors row.slice = true
  · refine of_sent ?_
    rw [sentRows_append,framesOf_rows,List.mem_append]
    exact Or.inr (List.mem_filter.mpr ⟨member,covers⟩)
  · exact framed (of_uncovered (current ▸ covers))

end Settled

-- An edit a backlog still answers for: a commit of it holds the edit, or the view in force where
-- the edit's commit went by does not cover it and every view change behind is at or above it.
def Waits (row : LogRow) (selectors : List Name) : List Queued → Prop
  | [] => ¬covered selectors row.slice = true
  | .view position next :: rest => row.position ≤ position ∧ ¬covered selectors row.slice = true ∨ Waits row next rest
  | .ends _ :: rest => Waits row selectors rest
  | .commit mutations :: rest => row ∈ mutations.flatten ∨
      (∀ other ∈ mutations.flatten, other.position < row.position) ∧ Waits row selectors rest ∨
      (∃ other ∈ mutations.flatten, row.position < other.position) ∧ ¬covered selectors row.slice = true

-- What is dispatched behind a backlog that ends below an edit.
theorem waits_behind (queues : Queues committed lower queued upper) (below : upper < row.position)
    (waits : Waits row (viewThrough selectors queued) tail) : Waits row selectors (queued++tail) := by
  induction queued generalizing lower selectors with
  | nil => exact waits
  | cons frame rest ih =>
    cases frame with
    | view position next => exact Or.inr (ih queues.2 waits)
    | ends code => exact ih queues waits
    | commit mutations =>
      obtain ⟨_,_,through,_,between,after⟩ := queues
      refine Or.inr (Or.inl ⟨fun other member => ?_,ih after waits⟩)
      exact lt_of_le_of_lt ((between other member).2.trans after.le) below

-- What is queued above an edit leaves it waiting.
theorem waits_grow (waits : Waits row selectors queued)
    (later : ∀ view, ¬covered view row.slice = true → Waits row view tail) : Waits row selectors (queued++tail) := by
  induction queued generalizing selectors with
  | nil => exact later _ waits
  | cons frame rest ih =>
    cases frame with
    | view position next =>
      rcases waits with here | behind
      · exact Or.inl here
      · exact Or.inr (ih behind)
    | ends code => exact ih waits
    | commit mutations =>
      rcases waits with here | ⟨below,behind⟩ | past
      · exact Or.inl here
      · exact Or.inr (Or.inl ⟨below,ih behind⟩)
      · exact Or.inr (Or.inr past)

namespace Handler
variable {h : Handler} {committed : List LogRow}

theorem mutations_settled (grouped : Grouped groups) (settled : Settled h.entered h.sent row) :
    Settled h.entered (groups.foldl mutation h).sent row := by
  obtain ⟨cursor,sends,_,_,_⟩ := mutations_send grouped h
  rw [sends]
  exact settled.framed

-- What is settled behind a backlog's lower bound stays settled.
theorem forward_settled (queues : Queues committed lower queued upper) (low : row.position ≤ max lower h.cursor)
    (settled : Settled h.entered h.sent row) : Settled h.entered (h.forward queued).2.sent row := by
  induction queued generalizing h lower with
  | nil => exact settled
  | cons frame rest ih =>
    cases frame with
    | view position selectors =>
      have bound := queues.1
      exact ih (h:={h.write (.view (max position h.cursor) selectors) with selectors}) queues.2
        (by dsimp only [write]; omega) (settled.shown (by omega) selectors)
    | ends code => exact settled.ended code
    | commit mutations =>
      obtain ⟨grouped,_,through,bound,_,after⟩ := queues
      obtain ⟨cursor,sends,le,_,_⟩ := mutations_send grouped h
      have moved := mutations_settled grouped settled
      simp only [forward]
      rw [sends] at moved ⊢
      exact ih (h:={h with
        sent:=h.sent++framesOf h.selectors (mutations.filter (h.cursor < groupPosition ·))
        cursor}) after (by dsimp only; omega) moved

-- Forwarding a whole backlog settles the edits it answers for.
theorem forward_waits (sorted : committed.Pairwise (fun a b => a.position ≤ b.position)) (fine : h.Fine committed lower)
    (current : h.Current) (queues : Queues committed lower queued upper) (whole : (h.forward queued).1 = true)
    (ahead : h.cursor < row.position) (waits : Waits row h.selectors queued) :
    Settled h.entered (h.forward queued).2.sent row := by
  induction queued generalizing h lower with
  | nil => exact .of_uncovered (current ▸ waits)
  | cons frame rest ih =>
    cases frame with
    | view position selectors =>
      have shown := shown_ok fine queues.1 selectors
      rcases waits with ⟨at_,uncovered⟩ | behind
      · exact forward_settled (h:={h.write (.view (max position h.cursor) selectors) with selectors}) queues.2
          (by omega) ((Settled.of_uncovered (current ▸ uncovered)).shown (by omega) selectors)
      · exact ih (h:={h.write (.view (max position h.cursor) selectors) with selectors}) shown.fine shown.current
          queues.2 whole ahead behind
    | ends code => cases whole
    | commit mutations =>
      obtain ⟨grouped,within,through,low,between,after⟩ := queues
      have moved := mutations_ok sorted fine current grouped within low between
      obtain ⟨cursor,sends,le,sentTo,bound⟩ := mutations_send grouped h
      have kept : (mutations.foldl mutation h).entered = h.entered := moved.same.2.2
      simp only [forward] at whole ⊢
      rcases waits with here | ⟨below,behind⟩ | ⟨⟨other,otherIn,past⟩,uncovered⟩
      · -- the commit that holds the edit: it is above the cursor, so sent if the view covers it
        have sentOrNot : Settled h.entered (mutations.foldl mutation h).sent row := by
          rw [sends]
          refine Settled.sending current ?_
          obtain ⟨edits,editsIn,rowIn⟩ := List.mem_flatten.mp here
          refine List.mem_flatten.mpr ⟨edits,List.mem_filter.mpr ⟨editsIn,?_⟩,rowIn⟩
          rw [← (grouped.whole edits editsIn).2 row rowIn]
          simpa using ahead
        rw [← kept] at sentOrNot ⊢
        exact forward_settled after ((between row here).2.trans (le_max_left _ _)) sentOrNot
      · rw [← kept]
        refine ih moved.fine moved.current after whole ?_ ?_
        · rw [sends]
          have top := bound (row.position-1) (by omega) fun other member => by
            have under := below other member
            omega
          dsimp only
          omega
        · rw [sends]
          exact behind
      · have settled : Settled h.entered (mutations.foldl mutation h).sent row :=
          mutations_settled grouped (.of_uncovered (current ▸ uncovered))
        rw [← kept] at settled ⊢
        have far := (between other otherIn).2
        exact forward_settled after (by omega) settled

end Handler

end PhaseLock
