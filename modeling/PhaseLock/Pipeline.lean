import PhaseLock.Dispatching

namespace PhaseLock

namespace Server
variable {σ : Type} {host : Host σ} {who : Principal} {ask : Ask} {limit : Nat} {s : Server σ}

-- The log the database holds, every edit committed, and the results on their way.
structure Piped (s : Server σ) : Prop where
  logged : s.core.log.Sublist s.core.committed
  sorted : s.core.committed.Pairwise LogRow.Before
  behind : ∀ row ∈ s.core.committed, row.position ≤ s.core.head
  bounded : s.core.head < i64Max
  pipes : Pipes s.dispatcher.position s.channel s.core.head
  past : ∃ past, s.core.committed = past++s.channel.flatMap Res.items ∧ ∀ row ∈ past, row.position ≤ s.dispatcher.position

-- The handler's steps leave the core, the channel and the dispatcher alone.
theorem serves_frame (s : Server σ) (streaming : Bool) (step : Handler → Conn → Handler) :
    (s.serves streaming step).core = s.core ∧ (s.serves streaming step).channel = s.channel ∧
    (s.serves streaming step).dispatcher = s.dispatcher := by
  unfold serves
  split <;> exact ⟨rfl,rfl,rfl⟩

theorem enter_frame (s : Server σ) (ask : Ask) : (s.enter ask).core = s.core ∧ (s.enter ask).channel = s.channel ∧
    (s.enter ask).dispatcher = s.dispatcher ∧ (s.enter ask).conn = s.conn := by
  unfold enter
  split
  · split
    · exact ⟨rfl,rfl,rfl,rfl⟩
    · cases ask <;> exact ⟨rfl,rfl,rfl,rfl⟩
  · exact ⟨rfl,rfl,rfl,rfl⟩
  · exact ⟨rfl,rfl,rfl,rfl⟩
  · exact ⟨rfl,rfl,rfl,rfl⟩

theorem handle_frame (host : Host σ) (who : Principal) (ask : Ask) (limit : Nat) (s : Server σ) :
    (next host who ask limit s .handle).core = s.core ∧ (next host who ask limit s .handle).channel = s.channel ∧
    (next host who ask limit s .handle).dispatcher = s.dispatcher := by
  unfold next
  dsimp only
  split
  case h_1 =>
    unfold arrive
    split <;> exact ⟨rfl,rfl,rfl⟩
  case h_3 => exact ⟨(enter_frame s ask).1,(enter_frame s ask).2.1,(enter_frame s ask).2.2.1⟩
  case h_10 => cases ask <;> exact ⟨rfl,rfl,rfl⟩
  case h_12 =>
    unfold check
    split <;> exact ⟨rfl,rfl,rfl⟩
  case h_4 => exact serves_frame _ _ _
  case h_6 => exact serves_frame _ _ _
  case h_8 => exact serves_frame _ _ _
  case h_9 => exact serves_frame _ _ _
  all_goals exact ⟨rfl,rfl,rfl⟩

-- A commit dispatched publishes its position, and its edits are those between.
theorem Piped.publishes (piped : s.Piped) (first : s.channel = .commit at_ items :: rest) :
    s.dispatcher.position < at_ ∧ items.Pairwise LogRow.Before ∧ items.Sublist s.core.committed ∧
    (∀ row ∈ items, s.dispatcher.position < row.position ∧ row.position ≤ at_) ∧
    ∀ row ∈ s.core.committed, s.dispatcher.position < row.position → row.position ≤ at_ → row ∈ items := by
  obtain ⟨past,split,behind⟩ := piped.past
  have pipes := piped.pipes
  rw [first] at pipes split
  obtain ⟨_,last,ordered,above,after⟩ := pipes
  have top := lastPosition_top (before_le ordered) last
  obtain ⟨final,finalIn,same⟩ := lastPosition_mem last
  refine ⟨same ▸ above final finalIn,ordered,?_,fun row member => ⟨above row member,top row member⟩,?_⟩
  · rw [split,List.flatMap_cons]
    exact (List.sublist_append_left _ _).trans (List.sublist_append_right _ _)
  · intro row member after_ upTo
    rw [split,List.flatMap_cons,List.mem_append,List.mem_append] at member
    rcases member with old | now | later
    · have bound := behind row old
      omega
    · exact now
    · have past := pipes_items after row later
      omega

theorem Piped.batch (piped : s.Piped) {b : Batch σ} (follows : b.Follows s.core) : (s.batch host who b).Piped := by
  have head := batch_head follows
  obtain ⟨past,split,behind⟩ := piped.past
  refine ⟨?_,?_,?_,?_,piped.pipes.append (batch_pipes follows),past,?_,behind⟩
  · exact follows.kept.trans (piped.logged.append (List.Sublist.refl _))
  · refine List.pairwise_append.mpr ⟨piped.sorted,follows.ordered,fun old oldIn row member => Or.inl ?_⟩
    exact lt_of_le_of_lt (piped.behind old oldIn) (follows.above row member)
  · intro row member
    rcases List.mem_append.mp member with old | now
    · exact (piped.behind row old).trans head
    · obtain ⟨top,last⟩ := lastPosition_some (List.ne_nil_of_mem now)
      show row.position ≤ (lastPosition b.items).getD s.core.head
      rw [last]
      exact lastPosition_top (before_le follows.ordered) last row now
  · show (lastPosition b.items).getD s.core.head < i64Max
    cases last : lastPosition b.items with
    | none => exact piped.bounded
    | some top =>
      obtain ⟨row,member,rfl⟩ := lastPosition_mem last
      exact follows.bounded row member
  · show s.core.committed++b.items = _
    rw [split]
    simp only [Server.batch,List.flatMap_append,batch_items,List.append_assoc]

theorem Piped.dispatch (piped : s.Piped) : (s.dispatch limit).Piped := by
  unfold Server.dispatch
  cases first : s.channel with
  | nil => exact piped
  | cons res channel =>
    obtain ⟨past,split,behind⟩ := piped.past
    have pipes := piped.pipes
    have publishes : ∀ at_ items, s.channel = .commit at_ items :: channel → _ := fun at_ items => piped.publishes
    rw [first] at pipes split
    dsimp only
    cases res with
    | commit at_ items =>
      obtain ⟨up,_,_,between,_⟩ := publishes at_ items first
      refine ⟨piped.logged,piped.sorted,piped.behind,piped.bounded,pipes.2.2.2.2,past++items,?_,?_⟩
      · rw [split,List.flatMap_cons]
        simp [Res.items]
      · intro row member
        rcases List.mem_append.mp member with old | now
        · exact (behind row old).trans up.le
        · exact (between row now).2
    | view grant at_ => exact ⟨piped.logged,piped.sorted,piped.behind,piped.bounded,pipes.2.2,past,split,behind⟩
    | registered grant at_ => exact ⟨piped.logged,piped.sorted,piped.behind,piped.bounded,pipes.2,past,split,behind⟩
    | account generation => exact ⟨piped.logged,piped.sorted,piped.behind,piped.bounded,pipes,past,split,behind⟩
    | forgotten => exact ⟨piped.logged,piped.sorted,piped.behind,piped.bounded,pipes,past,split,behind⟩
    | shutdown => exact ⟨piped.logged,piped.sorted,piped.behind,piped.bounded,pipes,past,split,behind⟩

theorem Piped.framed (piped : s.Piped) {t : Server σ} (frame : t.core = s.core ∧ t.channel = s.channel ∧ t.dispatcher = s.dispatcher) :
    t.Piped := by
  obtain ⟨core,channel,dispatcher⟩ := frame
  exact ⟨by rw [core]; exact piped.logged,by rw [core]; exact piped.sorted,by rw [core]; exact piped.behind,
    by rw [core]; exact piped.bounded,by rw [core,channel,dispatcher]; exact piped.pipes,
    by rw [core,channel,dispatcher]; exact piped.past⟩

theorem Piped.step (piped : s.Piped) (event : ServerEvent σ) (allowed : s.allowed event) :
    (next host who ask limit s event).Piped := by
  cases event with
  | batch b => exact piped.batch allowed.2.1
  | close =>
    obtain ⟨past,split,behind⟩ := piped.past
    refine ⟨piped.logged,piped.sorted,piped.behind,piped.bounded,piped.pipes.append rfl,past,?_,behind⟩
    simpa [next,Res.items] using split
  | dispatch => exact piped.dispatch
  | handle => exact piped.framed (handle_frame _ _ _ _ _)
  | tick => exact piped.framed ⟨rfl,rfl,rfl⟩
  | ends code => exact piped.framed ⟨rfl,rfl,rfl⟩

theorem opens_piped (d : Opening σ) : (opens d).Piped :=
  ⟨List.Sublist.refl _,d.ordered,d.behind,d.bounded,rfl,d.log,by simp [opens],d.behind⟩

end Server

end PhaseLock
