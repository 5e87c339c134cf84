import PhaseLock.DbLog

namespace PhaseLock

variable {w : Writer}

structure Writer.Sound (w : Writer) : Prop where
  logged : w.Logged
  erased : w.Erased
  marked : w.Marked
  ordered : (w.trace.map Answer.items).Pairwise (fun a b => ∀ x ∈ a, ∀ y ∈ b, x.position < y.position)
  answers : ∀ a ∈ w.trace, ∃ before after : Writer, before.Logged ∧ Answered before a after

-- Where a request takes a sound writer: it stays sound, its marks only rise and its answers stand.
structure Writer.Leads (w after : Writer) : Prop where
  sound : after.Sound
  raised : w.store.Raised after.store
  trace : w.trace <+: after.trace

theorem Writer.Sound.leads (sound : w.Sound) : w.Leads w := ⟨sound,.refl _,List.prefix_refl _⟩

theorem Writer.Leads.trans {a b c : Writer} (left : a.Leads b) (right : b.Leads c) : a.Leads c :=
  ⟨right.sound,left.raised.trans right.raised,left.trace.trans right.trace⟩

theorem Writer.Sound.answered {after : Writer} (sound : w.Sound) (answered : Answered w a after) : w.Leads after := by
  refine ⟨⟨sound.logged.answered answered,sound.erased.answered sound.logged answered,sound.marked.answered answered,?_,?_⟩,answered.raised,?_⟩
  · rw [answered.trace,List.map_append,List.pairwise_append]
    refine ⟨sound.ordered,List.pairwise_singleton _ _,fun items member new single => ?_⟩
    rw [List.map_singleton,List.mem_singleton] at single
    subst single
    obtain ⟨old,inside,rfl⟩ := List.mem_map.mp member
    intro x left y right
    have below : x.position ≤ w.position :=
      ((sound.logged.good x.slice).wired x (by simpa [madeOf,editsMade] using ⟨old,inside,left⟩)).2.2
    by_cases accepted : a.accepted
    · obtain ⟨_,id,time,c,mutated,items,_⟩ := answered.accepted accepted
      rw [items] at right
      rw [(mutated.items y right).2]
      exact Nat.lt_succ_of_le below
    · rw [(answered.others accepted).1] at right
      cases right
  · intro b member
    rw [answered.trace] at member
    rcases List.mem_append.mp member with old | new
    · exact sound.answers b old
    · rw [List.mem_singleton.mp new]
      exact ⟨w,after,sound.logged,answered⟩
  · rw [answered.trace]
    exact List.prefix_append _ _

-- What a batch carries besides its store, its position and its answers is none of it.
theorem Writer.Sound.same {after : Writer} (sound : w.Sound) (store : after.store = w.store) (position : after.position = w.position)
    (trace : after.trace = w.trace) : after.Sound := by
  refine ⟨⟨?_,?_,?_,?_⟩,?_,⟨?_,?_,?_⟩,?_,?_⟩
  · rw [store,position,trace]
    exact sound.logged.good
  · rw [store,position]
    exact sound.logged.head
  · rw [store]
    exact sound.logged.sorted
  · rw [trace]
    exact sound.logged.named
  · unfold Writer.Erased
    rw [store,trace]
    exact sound.erased
  · rw [trace]
    exact sound.marked.once
  · rw [store,trace]
    exact sound.marked.covered
  · rw [store,trace]
    exact sound.marked.largest
  · rw [trace]
    exact sound.ordered
  · rw [trace]
    exact sound.answers

theorem Writer.Sound.same_leads {after : Writer} (sound : w.Sound) (store : after.store = w.store) (position : after.position = w.position)
    (trace : after.trace = w.trace) : w.Leads after := by
  refine ⟨sound.same store position trace,?_,?_⟩
  · rw [store]
    exact .refl _
  · rw [trace]

-- A cron entry's first mark is no series'.
theorem Writer.Sound.armed (sound : w.Sound) (install entry : Name) (minute : Nat) (servertime : Int) :
    w.Leads {w with store:=w.store.seriesMark (.cron install entry) minute servertime} := by
  have raised := raised_mark w.store (.cron install entry) minute servertime
  refine ⟨⟨⟨sound.logged.good,sound.logged.head,sound.logged.sorted,sound.logged.named⟩,sound.erased,⟨sound.marked.once,?_,?_⟩,sound.ordered,
    sound.answers⟩,raised,List.prefix_refl _⟩
  · intro key n member
    obtain ⟨mark,held,le⟩ := sound.marked.covered key n member
    obtain ⟨later,here,more⟩ := raised key mark held
    exact ⟨later,here,le.trans more⟩
  · intro digest
    exact (seriesHwm_mark _ _ _ _ _).trans ((if_neg (by simp)).trans (sound.marked.largest digest))

-- What a writer keeps of every answer, of a cron entry's first mark, and of all it carries besides
-- its store, its position and its answers; its log is at or below its head.
structure Writer.Keeps (I : Writer → Prop) : Prop where
  behind : ∀ {w}, I w → ∀ row ∈ w.store.log, row.position ≤ w.position
  answered : ∀ {w a after}, I w → Answered w a after → I after
  same : ∀ {w after : Writer}, I w → after.store = w.store → after.position = w.position → after.trace = w.trace → I after
  armed : ∀ {w} (install entry : Name) (minute : Nat) (servertime : Int), I w →
    I {w with store:=w.store.seriesMark (.cron install entry) minute servertime}

theorem leads_keeps (w : Writer) : Writer.Keeps w.Leads where
  behind leads _ member := leads.sound.logged.behind member
  answered leads answered := leads.trans (leads.sound.answered answered)
  same leads store position trace := leads.trans (leads.sound.same_leads store position trace)
  armed install entry minute servertime leads := leads.trans (leads.sound.armed install entry minute servertime)

-- Data that does not read is answered, and changes nothing.
theorem unreadable_answered (w : Writer) (m : Asked) (why : Name) :
    let answer : Answer := ⟨m.series.map fun row => (.series row.1,row.2),.unreadable,some (.reject (.unreadable why)),[],[],
      w.store,w.store,w.position⟩
    Answered w answer (w.answers answer) := by
  refine ⟨rfl,rfl,rfl,?_,fun how => (by cases how),fun _ => rfl,?_,?_,fun _ => ⟨rfl,rfl,rfl,rfl,rfl⟩⟩
  · simp
  · rintro (how | how) <;> cases how
  · rintro ⟨how,_⟩
    cases how

section Keeps
variable {I : Writer → Prop} (keeps : Writer.Keeps I)
include keeps

theorem replies_keeps (holds : I w) (reply : Reply) : I (w.replies reply) := keeps.same holds rfl rfl rfl

theorem runCall_keeps (servertime : Int) (attempt : Nat) (mutations : List Asked) :
    ∀ {w : Writer} (outcomes : List Outcome), I w → ∃ after reply, w.runCall servertime attempt outcomes mutations = .ok (after,reply) ∧
      I after := by
  induction mutations with
  | nil => exact fun outcomes holds => ⟨_,_,rfl,holds⟩
  | cons m rest ih =>
    intro w outcomes holds
    unfold Writer.runCall
    cases m.data with
    | error why =>
      exact ih (outcomes++[.reject (.unreadable why)]) (keeps.answered holds (unreadable_answered w m why))
    | ok _ =>
      obtain ⟨middle,result,a,ran,answered⟩ := runMutation_ok (keeps.behind holds) servertime attempt m
      have held := keeps.answered holds answered
      dsimp only
      rw [ran]
      cases result with
      | error hash => exact ⟨_,_,rfl,held⟩
      | ok outcome =>
        obtain ⟨after,reply,tail,further⟩ := ih (outcomes++[outcome]) held
        exact ⟨after,reply,tail,further⟩

theorem handleArm_keeps (holds : I w) (servertime : Int) (keys : List (Name × Name)) (minute : Nat) :
    I (w.handleArm servertime (keys.map fun row => .cron row.1 row.2) minute) := by
  unfold Writer.handleArm
  dsimp only
  refine replies_keeps keeps ?_ _
  refine foldl_invariant (P := fun s : Writer × List Nat => I s.1) ?_ holds
  rintro ⟨s,marks⟩ key member held
  obtain ⟨⟨install,entry⟩,_,rfl⟩ := List.mem_map.mp member
  dsimp only
  cases s.store.seriesHwm (.cron install entry) with
  | some mark => exact held
  | none => exact keeps.armed install entry minute servertime held

theorem handleTick_keeps (holds : I w) (servertime : Int) (install entry : Name) (slot id : Nat) (ops : List Write) (ran : Ran) :
    ∃ after, w.handleTick servertime install entry slot id ops ran = .ok after ∧ I after := by
  unfold Writer.handleTick
  dsimp only
  cases before : w.decidedBefore (some (SeriesKey.cron install entry,slot)) with
  | true =>
    let answer : Answer := ⟨some (.cron install entry,slot),.deduped,none,[],[],w.store,w.store,w.position⟩
    have answered : Answered w answer (w.answers answer) := by
      refine ⟨rfl,rfl,rfl,?_,fun _ => ⟨rfl,fun digest n same => (by cases same)⟩,fun _ => rfl,?_,?_,fun _ => ⟨rfl,rfl,rfl,rfl,rfl⟩⟩
      · simp [answer,before]
      · rintro (how | how) <;> cases how
      · rintro ⟨how,_⟩
        cases how
    exact ⟨_,rfl,replies_keeps keeps (keeps.answered holds answered) _⟩
  | false =>
    rw [if_neg Bool.false_ne_true]
    let marked := w.mark (some (SeriesKey.cron install entry,slot)) servertime
    have failed : ∀ why, I ((marked.answers ⟨some (.cron install entry,slot),.decided,some (.reject (.bug why)),
        ops,[],w.store,marked.store,w.position⟩).replies {status:=500}) := by
      intro why
      have answered : Answered w ⟨some (.cron install entry,slot),.decided,some (.reject (.bug why)),ops,[],
          w.store,marked.store,w.position⟩ (marked.answers ⟨some (.cron install entry,slot),.decided,some (.reject (.bug why)),
          ops,[],w.store,marked.store,w.position⟩) :=
        decided_answered id before rfl rfl (fun ok => (by obtain ⟨_,same⟩ := ok; cases same)) fun _ => ⟨rfl,rfl⟩
      exact replies_keeps keeps (keeps.answered holds answered) _
    cases ran with
    | refused why => exact ⟨_,rfl,failed why⟩
    | threw why => exact ⟨_,rfl,failed why⟩
    | carried =>
      obtain ⟨c,mutated,committed⟩ := commits_ok (keeps.behind holds) id servertime ops
      let decided : Writer := {w with
        store:=c.store
        position:=c.position
        items:=w.items++c.items
        touches:=w.touches++c.touches}
      let after := decided.mark (some (SeriesKey.cron install entry,slot)) servertime
      have answered : Answered w ⟨some (.cron install entry,slot),.decided,some (.ok after.position),ops,c.items,
          w.store,after.store,after.position⟩ (after.answers ⟨some (.cron install entry,slot),.decided,some (.ok after.position),
          ops,c.items,w.store,after.store,after.position⟩) :=
        decided_answered id before rfl mutated.series (fun _ => ⟨c,mutated,rfl,rfl,rfl⟩) fun refused => absurd ⟨_,rfl⟩ refused
      dsimp only
      rw [committed]
      exact ⟨_,rfl,replies_keeps keeps (keeps.answered holds answered) _⟩

theorem handle_keeps (holds : I w) (servertime : Int) (req : Writer.Req) :
    ∃ after, w.handle servertime req = .ok after ∧ I after := by
  cases req with
  | submit call =>
    cases current : call.current with
    | false =>
      refine ⟨_,?_,replies_keeps keeps holds {status:=401}⟩
      simp only [Writer.handle,Writer.handleSubmit,current,Bool.not_false,if_true]
    | true =>
      obtain ⟨after,reply,ran,held⟩ := runCall_keeps keeps servertime call.attempt call.mutations [] holds
      refine ⟨_,?_,replies_keeps keeps held reply⟩
      simp only [Writer.handle,Writer.handleSubmit,current,Bool.not_true,Bool.false_eq_true,if_false,ran]
      rfl
  | tick install entry slot id ops ran => exact handleTick_keeps keeps holds servertime install entry slot id ops ran
  | arm keys minute => exact ⟨_,rfl,handleArm_keeps keeps holds servertime keys minute⟩

theorem bootstrap_keeps (holds : I w) (servertime : Int) (id : Nat) (ops : List Write) (ran : Ran) :
    ∃ after, w.bootstrap servertime id ops ran = .ok after ∧ I after := by
  unfold Writer.bootstrap
  cases ran with
  | refused why => exact ⟨w,rfl,holds⟩
  | threw why => exact ⟨w,rfl,holds⟩
  | carried =>
    dsimp only
    by_cases empty : (WriteBuffer.writes ops).isEmpty = true
    · rw [if_pos empty]
      exact ⟨w,rfl,holds⟩
    · rw [if_neg empty]
      obtain ⟨c,mutated,committed⟩ := commits_ok (keeps.behind holds) id servertime ops
      rw [committed]
      let after : Writer := {w with
        store:=c.store
        position:=c.position
        items:=w.items++c.items
        touches:=w.touches++c.touches}
      have answered : Answered w ⟨none,.decided,some (.ok after.position),ops,c.items,w.store,after.store,
          after.position⟩ (after.answers ⟨none,.decided,some (.ok after.position),ops,c.items,w.store,after.store,
          after.position⟩) :=
        decided_answered id (decidedBefore_none w) rfl mutated.series (fun _ => ⟨c,mutated,rfl,rfl,rfl⟩)
          fun refused => absurd ⟨_,rfl⟩ refused
      exact ⟨_,rfl,keeps.same (keeps.answered holds answered) rfl rfl rfl⟩

end Keeps

theorem handle_ok (sound : w.Sound) (servertime : Int) (req : Writer.Req) :
    ∃ after, w.handle servertime req = .ok after ∧ w.Leads after := handle_keeps (leads_keeps w) sound.leads servertime req

theorem bootstrap_ok (sound : w.Sound) (servertime : Int) (id : Nat) (ops : List Write) (ran : Ran) :
    ∃ after, w.bootstrap servertime id ops ran = .ok after ∧ w.Leads after :=
  bootstrap_keeps (leads_keeps w) sound.leads servertime id ops ran

namespace Db

-- The disk is a sound writer's, and the open batch leads from it.
structure Sound (s : Db) : Prop where
  disk : (Writer.opens s.disk s.answered).Sound
  writer : (Writer.opens s.disk s.answered).Leads s.writer

-- What is committed stands: marks only rise, and answers stay answers.
structure Grows (s later : Db) : Prop where
  raised : s.disk.Raised later.disk
  answered : s.answered <+: later.answered

theorem opens_sound {w : Writer} (sound : w.Sound) : (Writer.opens w.store w.trace).Sound :=
  sound.same rfl sound.logged.head.symm rfl

theorem step_sound {s : Db} (sound : s.Sound) (event : DbEvent) : (s.next event).Sound ∧ s.Grows (s.next event) := by
  cases event with
  | request servertime req =>
    obtain ⟨after,ran,leads⟩ := handle_ok sound.writer.sound servertime req
    have stepped : s.next (.request servertime req) = {s with writer:=after} := by simp only [next,ran]
    rw [stepped]
    exact ⟨⟨sound.disk,sound.writer.trans leads⟩,.refl _,List.prefix_refl _⟩
  | commit =>
    have opened := opens_sound sound.writer.sound
    exact ⟨⟨opened,opened.same_leads rfl sound.writer.sound.logged.head rfl⟩,sound.writer.raised,sound.writer.trace⟩
  | restart servertime id ops ran =>
    obtain ⟨after,booted,leads⟩ := bootstrap_ok sound.disk servertime id ops ran
    unfold next
    dsimp only
    by_cases empty : (Writer.opens s.disk s.answered).position = 0
    · rw [if_pos empty,booted]
      have opened := opens_sound leads.sound
      exact ⟨⟨opened,opened.same_leads rfl leads.sound.logged.head rfl⟩,leads.raised,leads.trace⟩
    · rw [if_neg empty]
      exact ⟨⟨sound.disk,sound.disk.leads⟩,.refl _,List.prefix_refl _⟩

theorem start_sound : Sound {} := by
  have empty : (Writer.opens {} []).Sound := by
    refine ⟨⟨fun name => ?_,rfl,List.Pairwise.nil,fun edit member => (by cases member)⟩,
      fun name => ⟨[],rfl,fun some => absurd rfl some⟩,⟨List.nodup_nil,fun key n member => (by cases member),fun digest => rfl⟩,List.Pairwise.nil,fun a member => (by cases member)⟩
    exact ⟨⟨rfl,List.Pairwise.nil,fun edit member => (by cases member),List.isChain_nil⟩,fun edit member => (by cases member),
      ⟨[],rfl,fun some => absurd rfl some⟩,⟨rfl,funext fun key => ite_self _,fun _ => funext fun key => ite_self _,rfl⟩,rfl⟩
  exact ⟨empty,empty.same_leads rfl rfl rfl⟩

theorem runs_sound {events : List DbEvent} {s : Db} (path : machine.Runs {} events s) : s.Sound :=
  path.invariant start_sound fun _ event sound _ => (step_sound sound event).1

theorem runs_grow {events : List DbEvent} {s later : Db} (sound : s.Sound) (path : machine.Runs s events later) : s.Grows later :=
  path.related (P := Sound) (R := Grows) (fun _ => ⟨.refl _,List.prefix_refl _⟩)
    (fun _ _ _ left right => ⟨left.raised.trans right.raised,left.answered.trans right.answered⟩)
    (fun _ event sound _ => (step_sound sound event).1) (fun _ event sound _ => (step_sound sound event).2) sound

-- What a writer keeps, and an open keeps of a committed store, holds on the disk and in the batch.
theorem runs_keep {I : Writer → Prop} (keeps : Writer.Keeps I) (opened : ∀ {w}, I w → I (Writer.opens w.store w.trace))
    (start : I (Writer.opens {} [])) {events : List DbEvent} {s : Db} (path : machine.Runs {} events s) :
    I (Writer.opens s.disk s.answered) ∧ I s.writer := by
  refine path.invariant (P := fun s : Db => I (Writer.opens s.disk s.answered) ∧ I s.writer) ⟨start,keeps.same start rfl rfl rfl⟩ ?_
  intro s event ⟨disk,writer⟩ _
  cases event with
  | request servertime req =>
    obtain ⟨after,ran,holds⟩ := handle_keeps keeps writer servertime req
    have stepped : machine.next s (.request servertime req) = {s with writer:=after} := by simp only [machine,next,ran]
    rw [stepped]
    exact ⟨disk,holds⟩
  | commit => exact ⟨opened writer,keeps.same writer rfl rfl rfl⟩
  | restart servertime id ops ran =>
    obtain ⟨after,booted,holds⟩ := bootstrap_keeps keeps disk servertime id ops ran
    have stepped : machine.next s (.restart servertime id ops ran) =
        if (Writer.opens s.disk s.answered).position = 0 then ⟨after.store,after.trace,after⟩
        else {s with writer:=Writer.opens s.disk s.answered} := by
      simp only [machine,next,booted]
    rw [stepped]
    by_cases empty : (Writer.opens s.disk s.answered).position = 0
    · rw [if_pos empty]
      exact ⟨opened holds,holds⟩
    · rw [if_neg empty]
      exact ⟨disk,disk⟩

end Db
end PhaseLock
