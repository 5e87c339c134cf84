import PhaseLock.DbRuns

namespace PhaseLock
variable {w : Writer}

-- Whose an answer is: the series and the number it was asked under, and the id its edits carry.
structure Answer.From (series : Option (SeriesKey × Nat)) (id : Nat) (a : Answer) : Prop where
  series : a.series = series
  edits : ∀ row ∈ a.items, ∃ e, readEdit row.edit = some e ∧ e.id = id

def Asked.key (m : Asked) : Option (SeriesKey × Nat) := m.series.map fun row => (SeriesKey.series row.1,row.2)

theorem Mutated.reads {id : Nat} {time : Int} {store : Storage} {position : Nat} {wb : WriteBuffer} {c : Committing}
    (mutated : Mutated id time store position wb c) : ∀ row ∈ c.items, ∃ e, readEdit row.edit = some e ∧ e.id = id := by
  intro row member
  rw [(mutated.items row member).2]
  exact ⟨_,edit_reads (wb.part row.slice) (store.part row.slice) (position+1) id time,rfl⟩

theorem checkExpect_not_ok {store : Storage} {grant : Except Name (List Name)} {expect : List (Name × Nat)} {position : Nat} :
    Writer.checkExpect store grant expect ≠ some (.ok position) := by
  intro checked
  unfold Writer.checkExpect at checked
  split at checked
  · cases checked
  · split at checked
    · cases checked
    · split at checked
      · cases checked
      · dsimp only at checked
        split at checked <;> cases checked

-- An ok names the head as the mutation left it.
theorem decide_position {servertime : Int} {m : Asked} {after : Writer} {position : Nat} {items : List LogRow}
    (chose : w.decide servertime m = .ok (after,.ok position,items)) : position = after.position := by
  unfold Writer.decide at chose
  split at chose
  · rename_i outcome checked
    obtain ⟨_,same⟩ := Prod.mk.inj (Except.ok.inj chose)
    rw [(Prod.mk.inj same).1] at checked
    exact absurd checked checkExpect_not_ok
  · split at chose
    · cases chose
    · cases chose
    · obtain ⟨done,_,ran⟩ := bind_ok.mp chose
      cases ran
      rfl

theorem mark_after (w : Writer) (series : Option (SeriesKey × Nat)) (servertime : Int) : (w.mark series servertime).after = w.after := by
  cases series <;> rfl

theorem decide_after {servertime : Int} {m : Asked} {after : Writer} {outcome : Outcome} {items : List LogRow}
    (chose : w.decide servertime m = .ok (after,outcome,items)) : after.after = w.after := by
  unfold Writer.decide at chose
  split at chose
  · cases chose
    rfl
  · split at chose
    · cases chose
      rfl
    · cases chose
      rfl
    · obtain ⟨done,committed,ran⟩ := bind_ok.mp chose
      cases ran
      unfold Writer.commits at committed
      obtain ⟨c,_,made⟩ := bind_ok.mp committed
      cases made
      rfl

-- One mutation is answered under its own series and number, its edits under its own id, and what
-- it runs are its own writes.
theorem runMutation_from (behind : ∀ row ∈ w.store.log, row.position ≤ w.position) (servertime : Int) (attempt : Nat) (m : Asked) :
    ∃ after ran a, w.runMutation servertime attempt m = .ok (after,ran) ∧ Answered w a after ∧ a.From m.key m.id ∧
      (∀ outcome, ran = .ok outcome → a.how ≠ .bounced ∧ a.outcome = some outcome ∧ ∀ position, outcome = .ok position → position = after.position) ∧
      (∀ hash, ran = .error hash → a.how = .bounced ∧ a.outcome = none) ∧ (a.how = .decided → a.ops = m.ops) ∧ after.after = w.after := by
  obtain ⟨after,ran,a,made,answered⟩ := runMutation_ok behind servertime attempt m
  refine ⟨after,ran,a,made,answered,?_⟩
  have named : ∀ {b : Answer}, after.trace = w.trace++[b] → a = b := by
    intro b traced
    rw [answered.trace] at traced
    exact List.singleton_inj.mp (List.append_cancel_left traced)
  unfold Writer.runMutation at made
  dsimp only at made
  split at made
  · obtain ⟨rfl,rfl⟩ := Prod.mk.inj (Except.ok.inj made)
    rw [named rfl]
    refine ⟨⟨rfl,fun _ none => (by cases none)⟩,fun outcome same => ?_,fun _ same => (by cases same),fun how => (by cases how),rfl⟩
    cases Except.ok.inj same
    exact ⟨fun how => (by cases how),rfl,fun position same => (Outcome.ok.inj same).symm⟩
  · split at made
    · obtain ⟨rfl,rfl⟩ := Prod.mk.inj (Except.ok.inj made)
      rw [named rfl]
      exact ⟨⟨rfl,fun _ none => (by cases none)⟩,fun _ same => (by cases same),fun _ _ => ⟨rfl,rfl⟩,fun how => (by cases how),rfl⟩
    · obtain ⟨rfl,rfl⟩ := Prod.mk.inj (Except.ok.inj made)
      rw [@named ⟨m.key,.proof,_,_,_,_,_,_⟩ (by
        unfold Writer.answers
        rw [(mark_frame w _ servertime).2.1]
        rfl)]
      refine ⟨⟨rfl,fun _ none => (by cases none)⟩,fun outcome same => ?_,fun _ same => (by cases same),fun how => (by cases how),
        mark_after w _ servertime⟩
      cases Except.ok.inj same
      exact ⟨fun how => (by cases how),rfl,fun _ none => (by cases none)⟩
    · obtain ⟨decided,outcome,items,chose,trace,_,accepts,refuses⟩ := decide_ok behind servertime m
      rw [chose] at made
      obtain ⟨rfl,rfl⟩ := Prod.mk.inj (Except.ok.inj made)
      rw [@named ⟨m.key,.decided,some outcome,_,items,_,_,_⟩ (by
        unfold Writer.answers
        rw [(mark_frame decided _ servertime).2.1,trace]
        rfl)]
      refine ⟨⟨rfl,fun row member => ?_⟩,fun outcome' same => ?_,fun _ same => (by cases same),fun _ => rfl,
        (mark_after decided _ servertime).trans (decide_after chose)⟩
      rotate_left
      · cases Except.ok.inj same
        refine ⟨fun how => (by cases how),rfl,fun position is => ?_⟩
        subst is
        exact (decide_position chose).trans (mark_frame decided _ servertime).1.symm
      by_cases accepted : ∃ position, outcome = .ok position
      · obtain ⟨c,mutated,is,_⟩ := accepts accepted
        rw [show (Answer.items _) = items from rfl,is] at member
        exact mutated.reads row member
      · rw [show (Answer.items _) = items from rfl,(refuses accepted).1] at member
        cases member

-- What a request asks, in turn: the series and the number of each mutation, and its writes.
def Writer.Req.asks : Writer.Req → List (Option (SeriesKey × Nat) × List Write)
  | .submit call => if call.current then call.mutations.map fun m => (m.key,m.ops) else []
  | .tick install entry slot _ ops _ => [(some (.cron install entry,slot),ops)]
  | .arm _ _ => []

-- What an answer is to: a mutation of its series and number, which it decided by its writes.
def Answer.To (a : Answer) (asked : Option (SeriesKey × Nat) × List Write) : Prop :=
  a.series = asked.1 ∧ (a.how = .decided → a.ops = asked.2)

-- A call's mutations as they were answered in turn, the last alone one that bounced, and what the
-- call is answered with.
structure Replied (mutations : List Asked) (given : List Answer) (reply : Reply) : Prop where
  asked : List.Forall₂ Answer.To given ((mutations.take given.length).map fun m => (m.key,m.ops))
  outcomes : reply.outcomes = given.filterMap Answer.outcome
  silent : ∀ a ∈ given, a.outcome = none → a.how = .bounced
  bounced : ∀ a ∈ given.dropLast, a.how ≠ .bounced
  bounces : reply.bounce.isSome = given.any (·.how = .bounced)
  whole : reply.bounce = none → given.length = mutations.length

theorem handleArm_same (w : Writer) (servertime : Int) (keys : List SeriesKey) (minute : Nat) :
    ∃ reply, (w.handleArm servertime keys minute).trace = w.trace ∧ (w.handleArm servertime keys minute).after = w.after++[reply] := by
  have replied : ∀ s : Writer × List Nat, s.1.trace = w.trace ∧ s.1.after = w.after →
      ∃ reply, (s.1.replies {marks:=s.2}).trace = w.trace ∧ (s.1.replies {marks:=s.2}).after = w.after++[reply] :=
    fun s same => ⟨_,same.1,congrArg (·++_) same.2⟩
  unfold Writer.handleArm
  refine replied _ (foldl_invariant (P := fun s : Writer × List Nat => s.1.trace = w.trace ∧ s.1.after = w.after) (fun s key _ held => ?_)
    ⟨rfl,rfl⟩)
  dsimp only
  split <;> exact held

section Keeps
variable {I : Writer → Prop} (keeps : Writer.Keeps I)
include keeps

theorem runCall_answers (servertime : Int) (attempt : Nat) (mutations : List Asked) : ∀ {w : Writer} (outcomes : List Outcome), I w →
    ∃ after reply given, w.runCall servertime attempt outcomes mutations = .ok (after,{reply with outcomes:=outcomes++reply.outcomes}) ∧
      after.trace = w.trace++given ∧ after.after = w.after ∧ Replied mutations given reply := by
  induction mutations with
  | nil =>
    intro w outcomes holds
    refine ⟨w,{},[],?_,(List.append_nil _).symm,rfl,.nil,rfl,fun _ none => (by cases none),fun _ none => (by cases none),rfl,fun _ => rfl⟩
    unfold Writer.runCall
    rw [List.append_nil]
  | cons m rest ih =>
    intro w outcomes holds
    -- one that does not bounce, and the rest after it
    have onward : ∀ {middle : Writer} {a : Answer} {outcome : Outcome}, I middle → middle.trace = w.trace++[a] → middle.after = w.after →
        a.To (m.key,m.ops) → a.how ≠ .bounced → a.outcome = some outcome →
        ∃ after reply given, middle.runCall servertime attempt (outcomes++[outcome]) rest =
            .ok (after,{reply with outcomes:=outcomes++reply.outcomes}) ∧
          after.trace = w.trace++given ∧ after.after = w.after ∧ Replied (m :: rest) given reply := by
      intro middle a outcome held traced same to_ kept said
      obtain ⟨after,reply,given,ran,trace,still,replied⟩ := ih (outcomes++[outcome]) held
      refine ⟨after,{reply with outcomes:=outcome :: reply.outcomes},a :: given,?_,?_,still.trans same,?_,?_,?_,?_,?_,?_⟩
      · rw [ran]
        simp
      · rw [trace,traced,List.append_assoc]
        rfl
      · exact .cons to_ replied.asked
      · rw [List.filterMap_cons,said]
        exact congrArg _ replied.outcomes
      · intro b member none
        rcases List.mem_cons.mp member with rfl | later
        · rw [said] at none
          cases none
        · exact replied.silent b later none
      · cases given with
        | nil => exact fun _ none => (by cases none)
        | cons next given =>
          intro b member
          rw [List.dropLast_cons_cons] at member
          rcases List.mem_cons.mp member with rfl | later
          · exact kept
          · exact replied.bounced b later
      · simpa [kept] using replied.bounces
      · exact fun none => congrArg Nat.succ (replied.whole none)
    unfold Writer.runCall
    cases read : m.data with
    | error why =>
      refine onward (keeps.answered holds (unreadable_answered w m why)) rfl rfl ⟨rfl,fun how => (by cases how)⟩ (fun how => (by cases how)) rfl
    | ok _ =>
      obtain ⟨middle,ran,a,made,answered,own,said,bounce,ops,same⟩ := runMutation_from (keeps.behind holds) servertime attempt m
      have to_ : a.To (m.key,m.ops) := ⟨own.series,ops⟩
      dsimp only
      rw [made]
      cases ran with
      | error hash =>
        obtain ⟨how,none⟩ := bounce hash rfl
        refine ⟨middle,{bounce:=some hash},[a],?_,answered.trace,same,.cons to_ .nil,?_,?_,fun _ none => (by cases none),?_,fun none => (by cases none)⟩
        · simp [bind,Except.bind]
        · rw [List.filterMap_cons,none]
          rfl
        · intro b member _
          rw [List.mem_singleton.mp member]
          exact how
        · simp [how]
      | ok outcome =>
        obtain ⟨kept,is,_⟩ := said outcome rfl
        exact onward (keeps.answered holds answered) answered.trace same to_ kept is

theorem handleSubmit_answers (holds : I w) (servertime : Int) {call : Writer.Call} (current : call.current = true) :
    ∃ after reply given, w.handle servertime (.submit call) = .ok after ∧ after.trace = w.trace++given ∧
      after.after = w.after++[reply] ∧ Replied call.mutations given reply := by
  obtain ⟨after,reply,given,ran,trace,same,replied⟩ := runCall_answers keeps servertime call.attempt call.mutations [] holds
  refine ⟨after.replies reply,reply,given,?_,trace,?_,replied⟩
  · simp only [Writer.handle,Writer.handleSubmit,current,Bool.not_true,Bool.false_eq_true,if_false,ran]
    rfl
  · unfold Writer.replies
    rw [same]

theorem handleTick_answers (holds : I w) (servertime : Int) (install entry : Name) (slot id : Nat) (ops : List Write) (ran : Ran) :
    ∃ after reply a, w.handleTick servertime install entry slot id ops ran = .ok after ∧ after.trace = w.trace++[a] ∧
      after.after = w.after++[reply] ∧ a.To (some (.cron install entry,slot),ops) := by
  unfold Writer.handleTick
  dsimp only
  split
  · exact ⟨_,_,_,rfl,rfl,rfl,rfl,fun how => (by cases how)⟩
  · cases ran with
    | refused why | threw why => exact ⟨_,_,_,rfl,rfl,rfl,rfl,fun _ => rfl⟩
    | carried =>
      obtain ⟨c,_,committed⟩ := commits_ok (keeps.behind holds) id servertime ops
      dsimp only
      rw [committed]
      exact ⟨_,_,_,rfl,rfl,rfl,rfl,fun _ => rfl⟩

-- Every request is answered once, and each answer is to what it asked, in turn.
theorem handle_answers (holds : I w) (servertime : Int) (req : Writer.Req) :
    ∃ after reply given, w.handle servertime req = .ok after ∧ after.trace = w.trace++given ∧ after.after = w.after++[reply] ∧
      List.Forall₂ Answer.To given (req.asks.take given.length) := by
  cases req with
  | submit call =>
    cases current : call.current with
    | false =>
      refine ⟨w.replies {status:=401},{status:=401},[],?_,(List.append_nil _).symm,rfl,.nil⟩
      simp only [Writer.handle,Writer.handleSubmit,current,Bool.not_false,if_true]
    | true =>
      obtain ⟨after,reply,given,ran,trace,replies,replied⟩ := handleSubmit_answers keeps holds servertime current
      refine ⟨after,reply,given,ran,trace,replies,?_⟩
      simp only [Writer.Req.asks,current,if_true,← List.map_take]
      exact replied.asked
  | tick install entry slot id ops ran =>
    obtain ⟨after,reply,a,made,trace,replies,to_⟩ := handleTick_answers keeps holds servertime install entry slot id ops ran
    exact ⟨after,reply,[a],made,trace,replies,.cons to_ .nil⟩
  | arm keys minute =>
    obtain ⟨reply,trace,replies⟩ := handleArm_same w servertime (keys.map fun row => .cron row.1 row.2) minute
    exact ⟨_,reply,[],rfl,trace.trans (List.append_nil _).symm,replies,.nil⟩

-- Bootstrap's writes are one mutation's, or none where its buffer holds nothing.
theorem bootstrap_answers (holds : I w) (servertime : Int) (id : Nat) (ops : List Write) :
    ∃ after given, w.bootstrap servertime id ops .carried = .ok after ∧ after.trace = w.trace++given ∧
      given.map (fun a => (a.how,a.ops)) = if (WriteBuffer.writes ops).isEmpty then [] else [(.decided,ops)] := by
  unfold Writer.bootstrap
  dsimp only
  split
  · exact ⟨w,[],rfl,(List.append_nil _).symm,rfl⟩
  · obtain ⟨c,_,committed⟩ := commits_ok (keeps.behind holds) id servertime ops
    rw [committed]
    exact ⟨_,[_],rfl,rfl,rfl⟩

end Keeps
end PhaseLock
