import PhaseLock.DbPromises

namespace PhaseLock
variable {w : Writer}

-- What a request may be answered under.
def Writer.Req.names : Writer.Req → List (Option (SeriesKey × Nat) × Nat)
  | .submit call => call.mutations.map fun m => (m.key,m.id)
  | .tick install entry slot id _ _ => [(some (.cron install entry,slot),id)]
  | .arm _ _ => []

theorem runCall_turns {I : Writer → Prop} {J : List (Asked × Outcome) → Writer → Prop} {whole : List Asked}
    (behind : ∀ {w}, I w → ∀ row ∈ w.store.log, row.position ≤ w.position)
    (turn : ∀ {w a after done m rest}, done.map Prod.fst++m :: rest = whole → I w → J done w → Answered w a after → a.From m.key m.id →
      I after ∧ (a.how = .bounced → J done after) ∧ ∀ outcome, a.how ≠ .bounced → a.outcome = some outcome → (∀ position, outcome = .ok position → position = after.position) →
        J (done++[(m,outcome)]) after)
    (servertime : Int) (attempt : Nat) (rest : List Asked) : ∀ {w : Writer} (done : List (Asked × Outcome)),
    done.map Prod.fst++rest = whole → I w → J done w →
    ∃ after reply, w.runCall servertime attempt (done.map Prod.snd) rest = .ok (after,reply) ∧ I after ∧
      ∃ all left, all.map Prod.fst++left = whole ∧ reply.outcomes = all.map Prod.snd ∧ J all after ∧ (reply.bounce = none → left = []) := by
  induction rest with
  | nil =>
    intro w done place holds told
    exact ⟨w,_,rfl,holds,done,[],place,rfl,told,fun _ => rfl⟩
  | cons m rest ih =>
    intro w done place holds told
    unfold Writer.runCall
    cases read : m.data with
    | error why =>
      obtain ⟨next,_,tells⟩ := turn place holds told (unreadable_answered w m why) ⟨rfl,fun _ none => (by cases none)⟩
      have tells := tells _ (fun how => (by cases how)) rfl (fun _ none => (by cases none))
      have onward := ih (done++[(m,_)]) (by simpa using place) next tells
      rw [List.map_append] at onward
      exact onward
    | ok _ =>
      obtain ⟨middle,ran,a,made,answered,own,outcomes,bounced,_⟩ := runMutation_from (behind holds) servertime attempt m
      obtain ⟨next,keeps,tells⟩ := turn place holds told answered own
      dsimp only
      rw [made]
      cases ran with
      | error hash => exact ⟨_,_,rfl,next,done,m :: rest,place,rfl,keeps (bounced hash rfl).1,fun none => (by cases none)⟩
      | ok outcome =>
        obtain ⟨whole_,is,head⟩ := outcomes outcome rfl
        obtain ⟨after,reply,tail,further,all⟩ := ih (done++[(m,outcome)]) (by simpa using place) next (tells outcome whole_ is head)
        rw [List.map_append] at tail
        exact ⟨after,reply,tail,further,all⟩

section Names
variable {I : Writer → Prop} {kind : Option (SeriesKey × Nat) × Nat → Prop}
  (behind : ∀ {w}, I w → ∀ row ∈ w.store.log, row.position ≤ w.position)
  (answered : ∀ {w a after row}, kind row → I w → Answered w a after → a.From row.1 row.2 → I after)
  (same : ∀ {w after : Writer}, I w → after.store = w.store → after.position = w.position → after.trace = w.trace → I after)
include behind answered same

theorem handleTick_named (holds : I w) (servertime : Int) (install entry : Name) (slot id : Nat) (ops : List Write) (ran : Ran)
    (named : kind (some (.cron install entry,slot),id)) : ∃ after, w.handleTick servertime install entry slot id ops ran = .ok after ∧ I after := by
  unfold Writer.handleTick
  dsimp only
  cases before : w.decidedBefore (some (SeriesKey.cron install entry,slot)) with
  | true =>
    let answer : Answer := ⟨some (.cron install entry,slot),.deduped,none,[],[],w.store,w.store,w.position⟩
    have again : Answered w answer (w.answers answer) := by
      refine ⟨rfl,rfl,rfl,?_,fun _ => ⟨rfl,fun digest n same => (by cases same)⟩,fun _ => rfl,?_,?_,fun _ => ⟨rfl,rfl,rfl,rfl,rfl⟩⟩
      · simp [answer,before]
      · rintro (how | how) <;> cases how
      · rintro ⟨how,_⟩
        cases how
    exact ⟨_,rfl,same (answered named holds again ⟨rfl,fun _ none => (by cases none)⟩) rfl rfl rfl⟩
  | false =>
    rw [if_neg Bool.false_ne_true]
    let marked := w.mark (some (SeriesKey.cron install entry,slot)) servertime
    have failed : ∀ why, I ((marked.answers ⟨some (.cron install entry,slot),.decided,some (.reject (.bug why)),
        ops,[],w.store,marked.store,w.position⟩).replies {status:=500}) := by
      intro why
      have refused : Answered w ⟨some (.cron install entry,slot),.decided,some (.reject (.bug why)),ops,[],
          w.store,marked.store,w.position⟩ (marked.answers ⟨some (.cron install entry,slot),.decided,some (.reject (.bug why)),
          ops,[],w.store,marked.store,w.position⟩) :=
        decided_answered id before rfl rfl (fun ok => (by obtain ⟨_,same⟩ := ok; cases same)) fun _ => ⟨rfl,rfl⟩
      exact same (answered named holds refused ⟨rfl,fun _ none => (by cases none)⟩) rfl rfl rfl
    cases ran with
    | refused why => exact ⟨_,rfl,failed why⟩
    | threw why => exact ⟨_,rfl,failed why⟩
    | carried =>
      obtain ⟨c,mutated,committed⟩ := commits_ok (behind holds) id servertime ops
      let decided : Writer := {w with
        store:=c.store
        position:=c.position
        items:=w.items++c.items
        touches:=w.touches++c.touches}
      let after := decided.mark (some (SeriesKey.cron install entry,slot)) servertime
      have carried : Answered w ⟨some (.cron install entry,slot),.decided,some (.ok after.position),ops,c.items,
          w.store,after.store,after.position⟩ (after.answers ⟨some (.cron install entry,slot),.decided,some (.ok after.position),
          ops,c.items,w.store,after.store,after.position⟩) :=
        decided_answered id before rfl mutated.series (fun _ => ⟨c,mutated,rfl,rfl,rfl⟩) fun refused => absurd ⟨_,rfl⟩ refused
      dsimp only
      rw [committed]
      exact ⟨_,rfl,same (answered named holds carried ⟨rfl,mutated.reads⟩) rfl rfl rfl⟩

theorem handle_named (armed : ∀ {w} (install entry : Name) (minute : Nat) (servertime : Int), I w →
      I {w with store:=w.store.seriesMark (.cron install entry) minute servertime})
    (holds : I w) (servertime : Int) (req : Writer.Req) (named : ∀ row ∈ req.names, kind row) :
    ∃ after, w.handle servertime req = .ok after ∧ I after := by
  cases req with
  | submit call =>
    cases current : call.current with
    | false =>
      refine ⟨w.replies {status:=401},?_,same holds rfl rfl rfl⟩
      simp only [Writer.handle,Writer.handleSubmit,current,Bool.not_false,if_true]
    | true =>
      obtain ⟨after,reply,ran,held,_⟩ := @runCall_turns I (fun _ _ => True) call.mutations behind (by
          intro w a after done m rest place holds _ answers own
          refine ⟨answered (named (m.key,m.id) (List.mem_map.mpr ⟨m,?_,rfl⟩)) holds answers own,fun _ => trivial,fun _ _ _ _ => trivial⟩
          rw [← place]
          exact List.mem_append_right _ List.mem_cons_self)
        servertime call.attempt call.mutations w [] rfl holds trivial
      refine ⟨after.replies reply,?_,same held rfl rfl rfl⟩
      simp only [Writer.handle,Writer.handleSubmit,current,Bool.not_true,Bool.false_eq_true,if_false]
      rw [show ([] : List Outcome) = ([] : List (Asked × Outcome)).map Prod.snd from rfl,ran]
      rfl
  | tick install entry slot id ops ran =>
    exact handleTick_named behind answered same holds servertime install entry slot id ops ran (named _ List.mem_cons_self)
  | arm keys minute =>
    refine ⟨_,rfl,?_⟩
    unfold Writer.handleArm
    dsimp only
    have replied : ∀ s : Writer × List Nat, I s.1 → I (s.1.replies {marks:=s.2}) := fun s held => same held rfl rfl rfl
    refine replied _ ?_
    refine foldl_invariant (P := fun s : Writer × List Nat => I s.1) ?_ holds
    rintro ⟨s,marks⟩ key member held
    obtain ⟨⟨install,entry⟩,_,rfl⟩ := List.mem_map.mp member
    dsimp only
    cases s.store.seriesHwm (.cron install entry) with
    | some mark => exact held
    | none => exact armed install entry minute servertime held

theorem bootstrap_named (holds : I w) (servertime : Int) (id : Nat) (ops : List Write) (ran : Ran) (named : kind (none,id)) :
    ∃ after, w.bootstrap servertime id ops ran = .ok after ∧ I after := by
  unfold Writer.bootstrap
  cases ran with
  | refused why => exact ⟨w,rfl,holds⟩
  | threw why => exact ⟨w,rfl,holds⟩
  | carried =>
    dsimp only
    by_cases empty : (WriteBuffer.writes ops).isEmpty = true
    · rw [if_pos empty]
      exact ⟨w,rfl,holds⟩
    · rw [if_neg empty]
      obtain ⟨c,mutated,committed⟩ := commits_ok (behind holds) id servertime ops
      rw [committed]
      let after : Writer := {w with
        store:=c.store
        position:=c.position
        items:=w.items++c.items
        touches:=w.touches++c.touches}
      have carried : Answered w ⟨none,.decided,some (.ok after.position),ops,c.items,w.store,after.store,
          after.position⟩ (after.answers ⟨none,.decided,some (.ok after.position),ops,c.items,w.store,after.store,
          after.position⟩) :=
        decided_answered id (decidedBefore_none w) rfl mutated.series (fun _ => ⟨c,mutated,rfl,rfl,rfl⟩)
          fun refused => absurd ⟨_,rfl⟩ refused
      exact ⟨_,rfl,same (answered named holds carried ⟨rfl,mutated.reads⟩) rfl rfl rfl⟩

end Names
end PhaseLock
