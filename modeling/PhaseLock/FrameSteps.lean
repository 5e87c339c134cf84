import PhaseLock.Landing

namespace PhaseLock
variable {V D : Type} {db : Database V}

-- One frame's edits as far as they are read, against the log: a break is of an edit
-- the stream had not sent, and short of one each covered slice is as the log has it
-- at the last of its edits.
structure FrameAt (log : List (WireEdit V)) (s : Stream) (slices : OrderedMap Name Nat) (done : List (WireEdit V))
    (frame : Frame V) : Prop where
  breaks : ∀ e ∈ frame.breaks, e ∈ done ∧ s.sent < e.position
  applied : ∀ e ∈ frame.apply, e ∈ done
  seqs : ∀ name seq, frame.seqs.get name = some seq → ∃ e ∈ done, e.slice = name
  chained : frame.breaks = [] → ∀ slice, covered s.selectors slice = true → ∃ q, s.sent ≤ q ∧
    (∀ e ∈ done, e.slice = slice → e.position ≤ q) ∧ (q = s.sent ∨ ∃ e ∈ done, e.slice = slice ∧ e.position = q) ∧
    frame.held slices slice = (serverState log slice q).map SliceState.seq ∧
    (editsOf frame.apply slice).foldl (fun s e => e.apply s) (serverState log slice s.sent) = serverState log slice q

theorem FrameOf.le_last {log : List (WireEdit V)} {s : Stream} {edits : List (WireEdit V)} (frame : FrameOf log s edits)
    {last : WireEdit V} (ends : last ∈ edits.getLast?) {e : WireEdit V} (member : e ∈ edits) : e.position ≤ last.position := by
  obtain ⟨front,rfl⟩ := List.getLast?_eq_some_iff.mp ends
  rcases List.mem_append.mp member with before | here
  · exact (List.pairwise_append.mp frame.ordered).2.2 e before last (by simp)
  · simp only [List.mem_singleton] at here
    rw [here]

theorem editsOf_append (first second : List (WireEdit V)) (slice : Name) :
    editsOf (first++second) slice = editsOf first slice++editsOf second slice := List.filter_append ..

-- Reading one more edit of the frame.
theorem FrameAt.step {log : List (WireEdit V)} {s : Stream} {slices : OrderedMap Name Nat} {frame : Frame V}
    (valid : ValidLog log) (whole : FrameOf log s (done++e :: rest)) (at_ : FrameAt log s slices done frame) :
    FrameAt log s slices (done++[e]) (frame.step slices e) := by
  have more : ∀ x ∈ done, x ∈ done++[e] := fun x member => List.mem_append_left _ member
  have last : e ∈ done++[e] := by simp
  have before : ∀ x ∈ done, x.position ≤ e.position := fun x member =>
    (List.pairwise_append.mp whole.ordered).2.2 x member e List.mem_cons_self
  obtain ⟨logged,inside⟩ := whole.logged e (by simp)
  -- another slice keeps what it had
  have others : ∀ (next : Frame V), (frame.breaks = [] → ∀ slice, slice ≠ e.slice →
        next.held slices slice = frame.held slices slice ∧ editsOf next.apply slice = editsOf frame.apply slice) →
      (frame.breaks = [] → ∃ q, s.sent ≤ q ∧ (∀ x ∈ done++[e], x.slice = e.slice → x.position ≤ q) ∧
        (q = s.sent ∨ ∃ x ∈ done++[e], x.slice = e.slice ∧ x.position = q) ∧
        next.held slices e.slice = (serverState log e.slice q).map SliceState.seq ∧
        (editsOf next.apply e.slice).foldl (fun s e => e.apply s) (serverState log e.slice s.sent) = serverState log e.slice q) →
      frame.breaks = [] → ∀ slice, covered s.selectors slice = true → ∃ q, s.sent ≤ q ∧
        (∀ x ∈ done++[e], x.slice = slice → x.position ≤ q) ∧
        (q = s.sent ∨ ∃ x ∈ done++[e], x.slice = slice ∧ x.position = q) ∧
        next.held slices slice = (serverState log slice q).map SliceState.seq ∧
        (editsOf next.apply slice).foldl (fun s e => e.apply s) (serverState log slice s.sent) = serverState log slice q := by
    intro next same mine unbroken slice covers
    by_cases here : slice = e.slice
    · subst here; exact mine unbroken
    · obtain ⟨q,sent,under,stands,held,folds⟩ := at_.chained unbroken slice covers
      obtain ⟨sameHeld,sameEdits⟩ := same unbroken slice here
      refine ⟨q,sent,?_,stands.imp id (fun ⟨x,member,facts⟩ => ⟨x,more x member,facts⟩),by rw [sameHeld,held],
        by rw [sameEdits,folds]⟩
      intro x member equal
      rcases List.mem_append.mp member with old | new
      · exact under x old equal
      · simp only [List.mem_singleton] at new
        exact absurd (new ▸ equal).symm here
  -- an edit already sent finds its slice at or past it, or is the death that ended it
  have repeated : ∀ q, s.sent ≤ q → (q = s.sent ∨ ∃ x ∈ done, x.slice = e.slice ∧ x.position = q) → e.position ≤ q →
      serverState log e.slice q = none → e.lifecycle = .death := by
    intro q sent stands early dead
    obtain ⟨death,inLog,same,died,after,under⟩ := serverState_none valid dead logged rfl early
    have here : death.position = e.position := by
      by_contra differ
      rcases stands with rfl | ⟨x,member,_,rfl⟩
      · have far := whole.again e (by simp) early death inLog same died (by omega)
        omega
      · have order := before x member
        omega
    rw [← valid.position_eq inLog logged same here]
    exact died
  -- a new one finds its slice just before it
  have next : ∀ q, s.sent ≤ q → (∀ x ∈ done, x.slice = e.slice → x.position ≤ q) → q < e.position →
      serverState log e.slice e.position = e.apply (serverState log e.slice q) := by
    intro q sent under past
    refine serverState_next valid logged rfl past ?_
    intro x member equal beyond
    by_contra early
    have ends : ∃ last, last ∈ (done++e :: rest).getLast? := by
      cases found : (done++e :: rest).getLast? with
      | none => simp at found
      | some last => exact ⟨last,rfl⟩
    obtain ⟨final,ends⟩ := ends
    have far := whole.le_last ends (by simp : e ∈ done++e :: rest)
    have read := whole.whole final ends x member (by rw [equal]; exact inside) (by omega) (by omega)
    rcases List.mem_append.mp read with old | new
    · have low := under x old equal; omega
    · have order := (List.pairwise_append.mp whole.ordered).2.1
      rcases List.mem_cons.mp new with rfl | later
      · omega
      · have high := (List.pairwise_cons.mp order).1 x later
        omega
  unfold Frame.step
  dsimp only
  by_cases skip : (frame.held slices e.slice).any (e.seq ≤ ·)
  · rw [if_pos skip]
    refine ⟨fun x member => ⟨more x (at_.breaks x member).1,(at_.breaks x member).2⟩,
      fun x member => more x (at_.applied x member),
      fun name seq held => (at_.seqs name seq held).imp fun x facts => ⟨more x facts.1,facts.2⟩,
      others frame (fun _ _ _ => ⟨rfl,rfl⟩) ?_⟩
    intro unbroken
    obtain ⟨q,sent,under,stands,held,folds⟩ := at_.chained unbroken e.slice inside
    refine ⟨q,sent,?_,stands.imp id (fun ⟨x,member,facts⟩ => ⟨x,more x member,facts⟩),held,folds⟩
    intro x member equal
    rcases List.mem_append.mp member with old | new
    · exact under x old equal
    · simp only [List.mem_singleton] at new
      subst new
      obtain ⟨n,at_n,le⟩ := Option.any_eq_true _ _ |>.mp skip
      have at_n : frame.held slices x.slice = some n := at_n
      rw [held] at at_n
      obtain ⟨state,live,rfl⟩ := Option.map_eq_some_iff.mp at_n
      simp only [decide_eq_true_eq] at le
      exact (serverState_some valid live logged rfl).mp le
  · rw [if_neg skip]
    by_cases broke : e.lifecycle = .normal ∧ (frame.held slices e.slice).map (·+1) ≠ some e.seq
    · rw [if_pos broke]
      refine ⟨?_,fun x member => more x (at_.applied x member),
        fun name seq held => (at_.seqs name seq held).imp fun x facts => ⟨more x facts.1,facts.2⟩,by simp⟩
      intro x member
      rcases List.mem_append.mp member with old | new
      · exact ⟨more x (at_.breaks x old).1,(at_.breaks x old).2⟩
      · simp only [List.mem_singleton] at new
        subst new
        refine ⟨last,?_⟩
        by_contra early
        by_cases unbroken : frame.breaks = []
        · obtain ⟨q,sent,_,stands,held,_⟩ := at_.chained unbroken x.slice inside
          cases state : serverState log x.slice q with
          | none =>
            have dead := repeated q sent stands (by omega) state
            rw [broke.1] at dead
            cases dead
          | some st =>
            have seq := (serverState_some valid state logged rfl).mpr (by omega)
            apply skip
            rw [held,state]
            simpa using seq
        · obtain ⟨b,inBreaks⟩ := List.exists_mem_of_ne_nil _ unbroken
          obtain ⟨inDone,late⟩ := at_.breaks b inBreaks
          have order := before b inDone
          omega
    · rw [if_neg broke]
      refine ⟨fun x member => ⟨more x (at_.breaks x member).1,(at_.breaks x member).2⟩,?_,?_,others _ ?_ ?_⟩
      · intro x member
        rcases List.mem_append.mp member with old | new
        · exact more x (at_.applied x old)
        · simp only [List.mem_singleton] at new
          exact new ▸ last
      · intro name seq held
        dsimp only at held
        rw [OrderedMap.get_set] at held
        split at held
        · rename_i same; exact ⟨e,last,same⟩
        · obtain ⟨x,member,same⟩ := at_.seqs name seq held
          exact ⟨x,more x member,same⟩
      · intro _ slice other
        refine ⟨?_,?_⟩
        · unfold Frame.held
          dsimp only
          rw [OrderedMap.get_set_ne _ _ (Ne.symm other)]
        · dsimp only
          rw [editsOf_append]
          simp [editsOf,Ne.symm other]
      · intro unbroken
        obtain ⟨q,sent,under,stands,held,folds⟩ := at_.chained unbroken e.slice inside
        have settled : ∀ state : Option (SliceState V), serverState log e.slice q = state →
            (Frame.held slices {frame with
              apply:=frame.apply++[e]
              seqs:=frame.seqs.set e.slice (if e.lifecycle = .death then none else some e.seq)} e.slice) =
              (e.apply state).map SliceState.seq ∧
            (editsOf (frame.apply++[e]) e.slice).foldl (fun s e => e.apply s) (serverState log e.slice s.sent) = e.apply state := by
          intro state same
          refine ⟨?_,?_⟩
          · unfold Frame.held
            dsimp only
            rw [OrderedMap.get_set_self,WireEdit.apply_seq]
          · have own : editsOf [e] e.slice = [e] := by simp [editsOf]
            rw [editsOf_append,own,List.foldl_append,folds,same]
            rfl
        obtain ⟨newHeld,newFolds⟩ := settled _ rfl
        by_cases early : e.position ≤ q
        · -- only a death comes again to a slice that is dead
          have dead : serverState log e.slice q = none := by
            cases state : serverState log e.slice q with
            | none => rfl
            | some st =>
              have seq := (serverState_some valid state logged rfl).mpr early
              exact absurd (by rw [held,state]; simpa using seq) skip
          have died := repeated q sent stands early dead
          have still : e.apply (serverState log e.slice q) = serverState log e.slice q := by
            rw [dead,WireEdit.apply,died]
          rw [still] at newHeld newFolds
          refine ⟨q,sent,?_,stands.imp id (fun ⟨x,member,facts⟩ => ⟨x,more x member,facts⟩),newHeld,newFolds⟩
          intro x member equal
          rcases List.mem_append.mp member with old | new
          · exact under x old equal
          · simp only [List.mem_singleton] at new
            rw [new]
            exact early
        · have after := next q sent under (by omega)
          rw [← after] at newHeld newFolds
          refine ⟨e.position,by omega,?_,.inr ⟨e,last,rfl,rfl⟩,newHeld,newFolds⟩
          intro x member _
          rcases List.mem_append.mp member with old | new
          · exact before x old
          · simp only [List.mem_singleton] at new
            rw [new]

theorem FrameAt.run {log : List (WireEdit V)} {s : Stream} {slices : OrderedMap Name Nat} {frame : Frame V}
    (valid : ValidLog log) (whole : FrameOf log s (done++rest)) (at_ : FrameAt log s slices done frame) :
    FrameAt log s slices (done++rest) (rest.foldl (Frame.step slices) frame) := by
  induction rest generalizing done frame with
  | nil => simpa using at_
  | cons e rest ih =>
    have stepped := at_.step valid whole
    have joined : done++e :: rest = (done++[e])++rest := by simp
    rw [joined] at whole ⊢
    exact ih whole stepped

-- A frame read whole, over slices the base holds as the log had them where the
-- stream stood.
theorem frame_read {log : List (WireEdit V)} {s : Stream} {slices : OrderedMap Name Nat} {edits : List (WireEdit V)}
    (valid : ValidLog log) (whole : FrameOf log s edits)
    (base : ∀ slice, covered s.selectors slice = true → slices.get slice = (serverState log slice s.sent).map SliceState.seq) :
    FrameAt log s slices edits (edits.foldl (Frame.step slices) {}) := by
  have start : FrameAt log s slices [] ({} : Frame V) := by
    refine ⟨by simp,by simp,by simp,?_⟩
    intro _ slice covers
    exact ⟨s.sent,le_rfl,by simp,.inl rfl,base slice covers,rfl⟩
  exact start.run valid (by simpa using whole)

-- Unbroken, each covered slice reaches the frame's end.
theorem FrameAt.ends {log : List (WireEdit V)} {s : Stream} {slices : OrderedMap Name Nat} {edits : List (WireEdit V)}
    {frame : Frame V} (valid : ValidLog log) (whole : FrameOf log s edits) (at_ : FrameAt log s slices edits frame)
    (unbroken : frame.breaks = []) {last : WireEdit V} (ends : last ∈ edits.getLast?) (covers : covered s.selectors slice = true) :
    frame.held slices slice = (serverState log slice (max s.sent last.position)).map SliceState.seq ∧
    (editsOf frame.apply slice).foldl (fun s e => e.apply s) (serverState log slice s.sent) =
      serverState log slice (max s.sent last.position) := by
  obtain ⟨q,sent,under,stands,held,folds⟩ := at_.chained unbroken slice covers
  have le : q ≤ max s.sent last.position := by
    rcases stands with rfl | ⟨x,member,_,rfl⟩
    · exact le_max_left _ _
    · exact le_max_of_le_right (whole.le_last ends member)
  have quiet := serverState_quiet valid le (by
    intro x member equal past
    by_contra early
    have read := whole.whole last ends x member (by rw [equal]; exact covers) (by omega) (by omega)
    have low := under x read equal
    omega)
  rw [quiet]
  exact ⟨held,folds⟩

end PhaseLock
