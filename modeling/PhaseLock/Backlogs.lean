import PhaseLock.Delivery

namespace PhaseLock

-- A backlog between two published positions: each commit's edits are above everything queued
-- before it, and each view change is at or above it.
def Queues (committed : List LogRow) : Nat → List Queued → Nat → Prop
  | lower,[],upper => lower ≤ upper
  | lower,.view position _ :: rest,upper => lower ≤ position ∧ Queues committed position rest upper
  | lower,.ends _ :: rest,upper => Queues committed lower rest upper
  | lower,.commit mutations :: rest,upper => Grouped mutations ∧ mutations.flatten.Sublist committed ∧
      ∃ through, lower ≤ through ∧ (∀ row ∈ mutations.flatten, lower < row.position ∧ row.position ≤ through) ∧
        Queues committed through rest upper

-- The view a backlog's last frame leaves in force.
def viewThrough (selectors : List Name) : List Queued → List Name
  | [] => selectors
  | .view _ next :: rest => viewThrough next rest
  | _ :: rest => viewThrough selectors rest

theorem Queues.le (queues : Queues committed lower queued upper) : lower ≤ upper := by
  induction queued generalizing lower with
  | nil => exact queues
  | cons frame rest ih =>
    cases frame with
    | view position selectors => exact queues.1.trans (ih queues.2)
    | ends code => exact ih queues
    | commit mutations =>
      obtain ⟨_,_,through,le,_,after⟩ := queues
      exact le.trans (ih after)

theorem Queues.grow (queues : Queues committed lower queued upper) (more : committed.Sublist later) (le : upper ≤ top) :
    Queues later lower queued top := by
  induction queued generalizing lower with
  | nil => exact Nat.le_trans queues le
  | cons frame rest ih =>
    cases frame with
    | view position selectors => exact ⟨queues.1,ih queues.2⟩
    | ends code => exact ih queues
    | commit mutations =>
      obtain ⟨grouped,within,through,low,between,after⟩ := queues
      exact ⟨grouped,within.trans more,through,low,between,ih after⟩

theorem Queues.lowered (queues : Queues committed lower queued upper) (le : bottom ≤ lower) :
    Queues committed bottom queued upper := by
  induction queued with
  | nil => exact Nat.le_trans le queues
  | cons frame rest ih =>
    cases frame with
    | view position selectors => exact ⟨le.trans queues.1,queues.2⟩
    | ends code => exact ih queues
    | commit mutations =>
      obtain ⟨grouped,within,through,low,between,after⟩ := queues
      exact ⟨grouped,within,through,le.trans low,fun row member => ⟨le.trans_lt (between row member).1,(between row member).2⟩,after⟩

theorem Queues.append (left : Queues committed lower queued middle) (right : Queues committed middle tail upper) :
    Queues committed lower (queued++tail) upper := by
  induction queued generalizing lower with
  | nil => exact right.lowered left
  | cons frame rest ih =>
    cases frame with
    | view position selectors => exact ⟨left.1,ih left.2⟩
    | ends code => exact ih left
    | commit mutations =>
      obtain ⟨grouped,within,through,low,between,after⟩ := left
      exact ⟨grouped,within,through,low,between,ih after⟩

@[simp] theorem viewThrough_append : viewThrough selectors (queued++tail) = viewThrough (viewThrough selectors queued) tail := by
  induction queued generalizing selectors with
  | nil => rfl
  | cons frame rest ih => cases frame <;> simp [viewThrough,ih]

theorem viewThrough_again (selectors : List Name) (queued : List Queued) :
    viewThrough (viewThrough selectors queued) queued = viewThrough selectors queued := by
  induction queued generalizing selectors with
  | nil => rfl
  | cons frame rest ih => cases frame <;> first | rfl | exact ih _

namespace Handler
variable {h : Handler} {committed : List LogRow}

-- A queued commit sends its mutations above the cursor, and moves the cursor to the last it sent.
theorem mutations_send (grouped : Grouped groups) (h : Handler) :
    ∃ cursor, groups.foldl mutation h = {h with
        sent:=h.sent++framesOf h.selectors (groups.filter (h.cursor < groupPosition ·))
        cursor} ∧ h.cursor ≤ cursor ∧
      (∀ row ∈ sentRows (framesOf h.selectors (groups.filter (h.cursor < groupPosition ·))), row.position ≤ cursor) ∧
      ∀ top, h.cursor ≤ top → (∀ row ∈ groups.flatten, row.position ≤ top) → cursor ≤ top := by
  induction groups generalizing h with
  | nil => exact ⟨h.cursor,by simp [framesOf],le_refl _,by simp [framesOf,sentRows],fun _ le _ => le⟩
  | cons edits groups ih =>
    have rest : Grouped groups := ⟨fun other member => grouped.whole other (List.mem_cons_of_mem _ member),
      (List.pairwise_cons.mp grouped.apart).2⟩
    have later : ∀ {top}, (∀ row ∈ (edits :: groups).flatten, row.position ≤ top) → ∀ row ∈ groups.flatten, row.position ≤ top :=
      fun bound row member => bound row (by simp [member])
    by_cases behind : groupPosition edits ≤ h.cursor
    · obtain ⟨cursor,sends,le,sent,bound⟩ := ih rest h
      refine ⟨cursor,?_,le,?_,fun top low rows => bound top low (later rows)⟩
      · rw [List.foldl_cons,List.filter_cons_of_neg (by simpa using behind)]
        rw [show h.mutation edits = h from if_pos behind]
        exact sends
      · rwa [List.filter_cons_of_neg (by simpa using behind)]
    · have kept : (edits :: groups).filter (h.cursor < groupPosition ·) =
          edits :: groups.filter (h.cursor < groupPosition ·) := List.filter_cons_of_pos (by simpa using Nat.not_le.mp behind)
      rw [kept,List.foldl_cons]
      cases found : editsFrame edits h.selectors with
      | none =>
        have unmoved : h.mutation edits = h := by
          unfold mutation
          rw [if_neg behind,found]
        obtain ⟨cursor,sends,le,sent,bound⟩ := ih rest h
        rw [unmoved,framesOf_cons,found]
        exact ⟨cursor,sends,le,sent,fun top low rows => bound top low (later rows)⟩
      | some rows =>
        have moved : h.mutation edits = {h.write (.edits rows h.selectors) with cursor:=groupPosition edits} := by
          unfold mutation
          rw [if_neg behind,found]
        -- every later group is above both the old cursor and the new one
        have all : ∀ low ≤ groupPosition edits, groups.filter (low < groupPosition ·) = groups := by
          intro low le
          rw [List.filter_eq_self]
          intro other member
          have apart := (List.pairwise_cons.mp grouped.apart).1 other member
          simpa using lt_of_le_of_lt le apart
        obtain ⟨cursor,sends,le,sent,bound⟩ := ih rest {h.write (.edits rows h.selectors) with cursor:=groupPosition edits}
        dsimp only [write] at sends le sent
        rw [all _ (le_refl _)] at sends sent
        rw [moved,framesOf_cons,found,all _ (Nat.le_of_lt (Nat.not_le.mp behind))]
        obtain ⟨rowsAre,nonempty⟩ := editsFrame_some.mp found
        have placed : ∀ row ∈ rows, row ∈ edits ∧ row.position = groupPosition edits := by
          intro row member
          rw [rowsAre] at member
          have rowIn := (List.mem_filter.mp member).1
          exact ⟨rowIn,(grouped.whole edits (by simp)).2 row rowIn⟩
        refine ⟨cursor,?_,(Nat.le_of_lt (Nat.not_le.mp behind)).trans le,?_,?_⟩
        · rw [write,sends]
          simp
        · intro row member
          rw [sentRows_append,List.mem_append] at member
          rcases member with now | after
          · have rowIn : row ∈ rows := by simpa [sentRows,Sent.rows] using now
            rw [(placed row rowIn).2]
            exact le
          · exact sent row after
        · intro top low rows_
          obtain ⟨row,rowIn⟩ := List.exists_mem_of_ne_nil _ nonempty
          refine bound top ?_ (later rows_)
          rw [← (placed row rowIn).2]
          exact rows_ row (by simp [(placed row rowIn).1])

-- A replay sends its rows under the view, a frame a mutation.
theorem replayed_send (groups : List (List LogRow)) (h : Handler) :
    ∃ told, groups.foldl replayed h = {h with
      sent:=h.sent++framesOf h.selectors groups
      told} := by
  induction groups generalizing h with
  | nil => exact ⟨h.told,by simp [framesOf]⟩
  | cons edits groups ih =>
    rw [List.foldl_cons,framesOf_cons]
    cases found : editsFrame edits h.selectors with
    | none =>
      have unmoved : h.replayed edits = h := by unfold replayed; rw [found]
      rw [unmoved]
      exact ih h
    | some rows =>
      have moved : h.replayed edits = {h.write (.edits rows h.selectors) with told:=groupPosition edits} := by
        unfold replayed
        rw [found]
      obtain ⟨told,sends⟩ := ih {h.write (.edits rows h.selectors) with told:=groupPosition edits}
      refine ⟨told,?_⟩
      rw [moved,sends]
      simp [write]

theorem replay_send (h : Handler) (log : List LogRow) (lower upper : Nat) :
    ∃ told, h.replay log lower upper = {h with
      sent:=h.sent++framesOf h.selectors (groupPositions (readLog log lower upper))
      cursor:=max h.cursor ((lastPosition (readLog log lower upper)).getD 0)
      told} := by
  obtain ⟨told,sends⟩ := replayed_send (groupPositions (readLog log lower upper)) h
  exact ⟨told,by unfold replay; dsimp only; rw [sends]⟩

-- What forwarding a backlog through a published position makes of a handler.
structure Advanced (committed : List LogRow) (upper : Nat) (h next : Handler) : Prop where
  same : next.phase = h.phase ∧ next.since = h.since ∧ next.entered = h.entered
  sent : ∃ frames, next.sent = h.sent++frames ∧ Along Sent.Above h.sent frames ∧ frames.filterMap Sent.vouched = []
  cursor : h.cursor ≤ next.cursor ∧ next.cursor ≤ max h.cursor upper
  fine : next.Fine committed upper
  current : next.Current

theorem Advanced.trans (first : Advanced committed middle h next) (second : Advanced committed upper next last)
    (le : middle ≤ upper) : Advanced committed upper h last := by
  obtain ⟨frames,sent,above,quiet⟩ := first.sent
  obtain ⟨more,sentMore,aboveMore,quietMore⟩ := second.sent
  refine ⟨⟨second.same.1.trans first.same.1,second.same.2.1.trans first.same.2.1,second.same.2.2.trans first.same.2.2⟩,
    ⟨frames++more,by rw [sentMore,sent,List.append_assoc],along_append.mpr ⟨above,sent ▸ aboveMore⟩,
      by rw [List.filterMap_append,quiet,quietMore]; rfl⟩,
    ⟨first.cursor.1.trans second.cursor.1,?_⟩,second.fine,second.current⟩
  have left := first.cursor.2
  have right := second.cursor.2
  omega

theorem Advanced.upTo (advanced : Advanced committed lower h next) (le : lower ≤ upper) : Advanced committed upper h next :=
  ⟨advanced.same,advanced.sent,⟨advanced.cursor.1,advanced.cursor.2.trans (max_le_max (le_refl _) le)⟩,
    advanced.fine.grow (List.Sublist.refl _) le,advanced.current⟩

-- A queued commit's rows above its lower bound.
theorem mutations_ok (sorted : committed.Pairwise (fun a b => a.position ≤ b.position)) (fine : h.Fine committed lower)
    (current : h.Current) (grouped : Grouped groups) (within : groups.flatten.Sublist committed) (low : lower ≤ through)
    (between : ∀ row ∈ groups.flatten, lower < row.position ∧ row.position ≤ through) :
    Advanced committed through h (groups.foldl mutation h) := by
  obtain ⟨cursor,sends,le,sent,bound⟩ := mutations_send grouped h
  rw [sends]
  have kept : Grouped (groups.filter (h.cursor < groupPosition ·)) :=
    ⟨fun edits member => grouped.whole edits (List.mem_filter.mp member).1,grouped.apart.filter _⟩
  have rows : ∀ row ∈ (groups.filter (h.cursor < groupPosition ·)).flatten,
      row ∈ groups.flatten ∧ h.cursor < row.position := by
    intro row member
    obtain ⟨edits,editsIn,rowIn⟩ := List.mem_flatten.mp member
    obtain ⟨whole,ahead⟩ := List.mem_filter.mp editsIn
    refine ⟨List.mem_flatten.mpr ⟨edits,whole,rowIn⟩,?_⟩
    rw [(grouped.whole edits whole).2 row rowIn]
    simpa using ahead
  obtain ⟨_,_,after,quiet⟩ := edits_only (framesOf h.selectors (groups.filter (h.cursor < groupPosition ·)))
    fun frame member => have ⟨rows,same⟩ := framesOf_edits member; ⟨rows,h.selectors,same⟩
  have sends := fine.sends current sorted kept ((List.Sublist.flatten (List.filter_sublist)).trans within)
    (fun old oldIn row member => lt_of_le_of_lt (fine.behind old oldIn) (rows row member).2) sent le h.told
  refine ⟨⟨rfl,rfl,rfl⟩,⟨_,rfl,framesOf_above ?_,quiet⟩,⟨le,bound _ (le_max_left _ _) fun row member =>
    (between row member).2.trans (le_max_right _ _)⟩,sends.grow (List.Sublist.refl _) low,?_⟩
  · intro position placed row member _
    have old := fine.placed position placed
    have ahead := (rows row member).2
    have above := (between row (rows row member).1).1
    omega
  · unfold Current at current ⊢
    dsimp only
    rw [viewAfter_append,after,← current]

theorem shown_ok (fine : h.Fine committed lower) (le : lower ≤ position) (selectors : List Name) :
    Advanced committed position h {h.write (.view (max position h.cursor) selectors) with selectors} :=
  ⟨⟨rfl,rfl,rfl⟩,⟨_,rfl,⟨trivial,trivial⟩,rfl⟩,⟨le_refl _,le_max_left _ _⟩,fine.shown le selectors,by
    simp [Current,write,viewAfter]⟩

theorem marked_ok (fine : h.Fine committed lower) (current : h.Current) (frame : Sent)
    (plain : frame.rows = [] ∧ frame.placed = [] ∧ frame.vouched = none ∧ Sent.InOrder h.entered h.sent frame ∧
      Sent.Above h.sent frame ∧ ∀ view, viewAfter view [frame] = view) :
    Advanced committed lower h (h.write frame) := by
  obtain ⟨rows,placed,quiet,inOrder,above,after⟩ := plain
  refine ⟨⟨rfl,rfl,rfl⟩,⟨_,rfl,along_single.mpr above,by simp [quiet]⟩,⟨le_refl _,le_max_left _ _⟩,
    fine.mark frame (le_refl _) ⟨rows,placed,inOrder⟩ h.phase h.told,?_⟩
  unfold Current at current ⊢
  simp only [write]
  rw [viewAfter_append,after,← current]

theorem ended_ok (fine : h.Fine committed lower) (current : h.Current) (code : Nat) :
    Advanced committed lower h (h.write (.ends code)) :=
  marked_ok fine current _ ⟨rfl,rfl,rfl,trivial,trivial,fun _ => rfl⟩

-- Forwarding a backlog keeps the order: each frame is above the view frames before it.
theorem forward_ok (sorted : committed.Pairwise (fun a b => a.position ≤ b.position)) (fine : h.Fine committed lower)
    (current : h.Current) (queues : Queues committed lower queued upper) :
    Advanced committed upper h (h.forward queued).2 := by
  induction queued generalizing h lower with
  | nil => exact ⟨⟨rfl,rfl,rfl⟩,⟨[],by simp [forward],trivial,rfl⟩,⟨le_refl _,le_max_left _ _⟩,
      fine.grow (List.Sublist.refl _) queues,current⟩
  | cons frame rest ih =>
    cases frame with
    | view position selectors =>
      have shown := shown_ok fine queues.1 selectors
      exact shown.trans (ih shown.fine shown.current queues.2) queues.2.le
    | ends code => exact (ended_ok fine current code).upTo queues.le
    | commit mutations =>
      obtain ⟨grouped,within,through,low,between,after⟩ := queues
      have moved := mutations_ok sorted fine current grouped within low between
      exact moved.trans (ih moved.fine moved.current after) after.le

theorem drain_ok (sorted : committed.Pairwise (fun a b => a.position ≤ b.position)) (fine : h.Fine committed lower)
    (current : h.Current) (c : Conn) (queues : Queues committed lower c.backlog upper) :
    Advanced committed upper h (h.drain c).2 := by
  have forwards := forward_ok sorted fine current queues
  unfold drain
  split
  · rename_i next ran
    rwa [ran] at forwards
  · rename_i next ran
    rw [ran] at forwards
    dsimp only
    split
    · exact forwards.trans (ended_ok forwards.fine forwards.current _) (le_refl _)
    · exact forwards

theorem mutations_selectors (groups : List (List LogRow)) (h : Handler) : (groups.foldl mutation h).selectors = h.selectors := by
  induction groups generalizing h with
  | nil => rfl
  | cons edits groups ih =>
    rw [List.foldl_cons,ih]
    unfold mutation
    split
    · rfl
    · split <;> rfl

-- A backlog forwarded whole leaves its last view in force.
theorem forward_selectors (whole : (h.forward queued).1 = true) :
    (h.forward queued).2.selectors = viewThrough h.selectors queued := by
  induction queued generalizing h with
  | nil => rfl
  | cons frame rest ih =>
    cases frame with
    | view position selectors => exact ih whole
    | ends code => cases whole
    | commit mutations =>
      simp only [forward] at whole ⊢
      rw [ih whole,mutations_selectors]
      rfl

-- A backlog of views alone moves no cursor and sends no edits, whatever view it starts under.
theorem forward_plain (plain : ∀ mutations, .commit mutations ∉ queued) (h : Handler) :
    (h.forward queued).2.cursor = h.cursor ∧ sentRows (h.forward queued).2.sent = sentRows h.sent ∧
    ∀ selectors, ∃ left, {h with selectors}.forward queued = ((h.forward queued).1,{(h.forward queued).2 with selectors:=left}) := by
  induction queued generalizing h with
  | nil => exact ⟨rfl,rfl,fun selectors => ⟨selectors,rfl⟩⟩
  | cons frame rest ih =>
    have fewer : ∀ mutations, .commit mutations ∉ rest := fun mutations member => plain mutations (List.mem_cons_of_mem _ member)
    cases frame with
    | view position selectors =>
      obtain ⟨cursor,rows,_⟩ := ih fewer {h.write (.view (max position h.cursor) selectors) with selectors}
      refine ⟨cursor,rows.trans (by simp [write,sentRows,Sent.rows]),fun other => ⟨_,rfl⟩⟩
    | ends code => exact ⟨rfl,by simp [forward,write,sentRows,Sent.rows],fun selectors => ⟨selectors,rfl⟩⟩
    | commit mutations => exact absurd (by simp) (plain mutations)

theorem drain_plain (c : Conn) (plain : ∀ mutations, .commit mutations ∉ c.backlog) (h : Handler) (selectors : List Name) :
    ∃ left, {h with selectors}.drain c = ((h.drain c).1,{(h.drain c).2 with selectors:=left}) := by
  obtain ⟨left,ran⟩ := (forward_plain plain h).2.2 selectors
  refine ⟨left,?_⟩
  unfold drain
  rw [ran]
  rcases h.forward c.backlog with ⟨ok,next⟩
  cases ok with
  | false => rfl
  | true =>
    dsimp only
    split <;> rfl

end Handler

end PhaseLock
