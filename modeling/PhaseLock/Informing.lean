import PhaseLock.Granting

namespace PhaseLock
open Selectors (intersect viewToken)

namespace Server
variable {σ : Type} {host : Host σ} {who : Principal} {ask : Ask} {limit : Nat} {s : Server σ} {c : Conn}

-- The position a connection was registered at.
def repliedAt (s : Server σ) : Nat := match s.dispatcher.reply with
  | some (_,position) => position
  | none => 0

-- What the connection has heard of its grant: a batch at or past the dispatcher's position backs
-- it, and the connection's view is its cut.
structure Tells (host : Host σ) (ask : Ask) (s : Server σ) (mark : Option (Option (List Name))) : Prop where
  heard : Heard host ask.wants s.core.history mark s.channel (s.core.granted.map grantSelectors)
  backed : ∀ m, mark = some m → ∃ at_, s.dispatcher.position ≤ at_ ∧ at_ ≤ s.dispatcher.begun ∧ Backed host s.core.history at_ m
  shown : ∀ m c, mark = some m → s.conn = some c → c.failure = none → ∃ granted, m = some granted ∧ c.selectors = intersect granted c.wants
  active : ∀ c, s.conn = some c → c.active = true → mark ≠ none
  answered : ∀ grant at_, s.dispatcher.reply = some (some grant,at_) → mark ≠ none

-- A registration is answered at most once, and its connection hears of its grant from then on.
structure Informed (host : Host σ) (ask : Ask) (s : Server σ) : Prop where
  tells : ∃ mark, s.Tells host ask mark
  unasked : s.core.asked = false → s.core.granted = none

theorem accountResults_heard (told : Option Int) (looked : Bool) (generation : Int) (rest : List Res)
    (wants : List Name) (mark final : Option (Option (List Name))) (history : List (Nat × σ)) :
    Heard host wants history mark (accountResults told looked generation++rest) final = Heard host wants history mark rest final := by
  unfold accountResults
  split
  · split <;> rfl
  · split <;> rfl

theorem batch_heard {b : Batch σ} (fresh : b.register ≠ none → s.core.granted = none) (apart : s.Apart host ask (.batch b)) :
    Heard host ask.wants (s.core.history++[((lastPosition b.items).getD s.core.head,b.store)]) (s.core.granted.map grantSelectors)
      (batchResults host who s.core b) ((batchCore host who s.core b).granted.map grantSelectors) := by
  have backed : Backed host (s.core.history++[((lastPosition b.items).getD s.core.head,b.store)])
      ((lastPosition b.items).getD s.core.head) (grantSelectors (host.grant b.store)) :=
    ⟨((lastPosition b.items).getD s.core.head,b.store),by simp,rfl,rfl⟩
  unfold batchResults batchCore
  dsimp only
  simp only [List.append_assoc,accountResults_heard]
  cases granted : s.core.granted with
  | none =>
    simp only [Option.any_none,Bool.false_eq_true,if_false,List.nil_append,Option.map_none,Option.isSome_none,Bool.false_or]
    have replies : Heard host ask.wants (s.core.history++[((lastPosition b.items).getD s.core.head,b.store)]) none
        (if b.register.isSome = true then [Res.registered (if b.register.any (generationOk host who) = true then
          some (viewFill (host.grant b.store)) else none) ((lastPosition b.items).getD s.core.head)] else [])
        ((if b.register.any (generationOk host who) = true then some (host.grant b.store) else none).map grantSelectors) := by
      cases registers : b.register with
      | none => rfl
      | some store =>
        simp only [Option.isSome_some,if_true,Option.any_some]
        split
        · refine ⟨rfl,?_,rfl⟩
          rintro g ⟨⟩
          exact backed
        · exact ⟨rfl,by simp,rfl⟩
    split
    · exact replies
    · exact ⟨fun m is => (by cases is),replies⟩
  | some old =>
    obtain ⟨same,parted⟩ := apart old granted
    have silent : b.register = none := by
      by_contra registers
      rw [fresh registers] at granted
      cases granted
    have commits : Heard host ask.wants (s.core.history++[((lastPosition b.items).getD s.core.head,b.store)])
        (some (grantSelectors (host.grant b.store))) (if b.items = [] then [] else [Res.commit ((lastPosition b.items).getD s.core.head) b.items])
        (some (grantSelectors (host.grant b.store))) := by
      split
      · rfl
      · refine ⟨?_,rfl⟩
        rintro m ⟨⟩
        exact backed
    simp only [Option.any_some,Option.map_some,Option.isSome_some,Bool.true_or,if_true,silent,Option.isSome_none,Bool.false_eq_true,
      if_false,List.append_nil]
    by_cases changed : grantMark old = grantMark (host.grant b.store)
    · rw [same changed]
      simpa only [changed,ne_eq,not_true_eq_false,decide_false,Bool.false_eq_true,if_false,List.nil_append] using commits
    · simp only [ne_eq,changed,not_false_eq_true,decide_true,if_true,List.singleton_append]
      refine ⟨backed,?_,commits⟩
      rintro m ⟨⟩
      exact parted

theorem queue_shown (limit : Nat) (c : Conn) (frame : Queued) : (c.queue limit frame).failure = c.failure ∧
    (c.queue limit frame).selectors = c.selectors ∧ (c.queue limit frame).wants = c.wants := by
  unfold Conn.queue
  split
  · exact ⟨rfl,rfl,rfl⟩
  · split <;> exact ⟨rfl,rfl,rfl⟩

-- A grant heard is the connection's view, or its failure; no other result changes either.
theorem reaches_shown (limit position : Nat) (res : Res) (c : Conn) (sound : (res.reaches limit position c).failure = none) :
    match res with
    | .view grant _ => ∃ granted, grant = .ok granted ∧ (res.reaches limit position c).selectors = intersect granted c.wants
    | .registered (some grant) _ => ∃ granted, grant = .ok granted ∧ (res.reaches limit position c).selectors = intersect granted c.wants
    | .registered none _ => True
    | _ => c.failure = none ∧ (res.reaches limit position c).selectors = c.selectors := by
  cases res with
  | account generation =>
    simp only [Res.reaches,Conn.account] at sound ⊢
    split at sound
    · rename_i same
      simp only [if_pos same]
      exact ⟨sound,trivial⟩
    · rename_i changed
      simp only [if_neg changed]
      obtain ⟨failure,selectors,_⟩ := queue_shown limit {c with revoked:=true} (.ends endRevoked)
      rw [failure] at sound
      exact ⟨sound,selectors⟩
  | forgotten => exact ⟨sound,rfl⟩
  | view grant at_ =>
    cases grant with
    | error why =>
      exfalso
      simp only [Res.reaches,Conn.view] at sound
      split at sound
      · obtain ⟨failure,_⟩ := queue_shown limit {c with failure:=some why} (.ends endGrantorFailed)
        rw [failure] at sound
        cases sound
      · cases sound
    | ok granted =>
      refine ⟨granted,rfl,?_⟩
      simp only [Res.reaches,Conn.view]
      split
      · exact (queue_shown limit _ _).2.1
      · rfl
  | commit at_ items =>
    simp only [Res.reaches,Conn.commit] at sound ⊢
    split at sound
    · rename_i takes
      simp only [if_pos takes]
      obtain ⟨failure,selectors,_⟩ := queue_shown limit c (.commit (groupPositions items))
      rw [failure] at sound
      exact ⟨sound,selectors⟩
    · rename_i passes
      simp only [if_neg passes]
      exact ⟨sound,trivial⟩
  | registered grant at_ =>
    rcases grant with _ | why | granted
    · trivial
    · cases sound
    · exact ⟨granted,rfl,rfl⟩
  | shutdown =>
    simp only [Res.reaches,Conn.stop] at sound ⊢
    split at sound
    · rename_i active
      simp only [if_pos active]
      exact ⟨sound,trivial⟩
    · rename_i idle
      simp only [if_neg idle]
      exact ⟨sound,trivial⟩

-- The grant a connection has last heard of, behind the dispatcher's next result.
def marks (mark : Option (Option (List Name))) : Res → Option (Option (List Name))
  | .view grant _ => some grant.toOption
  | .registered grant _ => grant.map Except.toOption
  | _ => mark

theorem heard_next (heard : Heard host wants history mark (res :: rest) final) : Heard host wants history (marks mark res) rest final := by
  cases res with
  | view grant at_ => exact heard.2.2
  | commit at_ items => exact heard.2
  | registered grant at_ => exact heard.2.2
  | _ => exact heard

-- What backs the grant heard is at or past the position published.
theorem heard_backed {d : Dispatcher} (heard : Heard host wants history mark (res :: rest) final)
    (pipes : Pipes d.position (res :: rest) head)
    (before : ∀ m, mark = some m → ∃ at_, d.position ≤ at_ ∧ at_ ≤ d.begun ∧ Backed host history at_ m) :
    ∀ m, marks mark res = some m → ∃ at_, (d.takes res).position ≤ at_ ∧ at_ ≤ (d.takes res).begun ∧ Backed host history at_ m := by
  intro m is
  cases res with
  | view grant at_ =>
    cases is
    exact ⟨at_,pipes.1,le_refl _,heard.1⟩
  | commit at_ items => exact ⟨at_,le_refl _,le_refl _,heard.1 m is⟩
  | registered grant at_ =>
    obtain ⟨g,rfl,rfl⟩ := Option.map_eq_some_iff.mp is
    have same : d.position = at_ := pipes.1
    exact ⟨at_,Nat.le_of_eq same,le_refl _,heard.2.1 g rfl⟩
  | account generation => exact before m is
  | forgotten => exact before m is
  | shutdown => exact before m is

theorem reaches_begins (limit position : Nat) (res : Res) (c : Conn) (active : (res.reaches limit position c).active = true) :
    c.active = true ∨ ∃ grant at_, res = .registered (some grant) at_ := by
  by_cases registered : ∃ grant at_, res = .registered grant at_
  · obtain ⟨grant,at_,rfl⟩ := registered
    cases grant with
    | none => exact Or.inl active
    | some grant => exact Or.inr ⟨grant,at_,rfl⟩
  · cases idle : c.active with
    | true => exact Or.inl rfl
    | false =>
      rw [(Conn.reaches_idle limit position idle fun grant at_ is => registered ⟨grant,at_,is⟩).1] at active
      cases active

theorem Tells.dispatch (limit : Nat) (tells : s.Tells host ask mark) (piped : s.Piped) (first : s.channel = res :: rest) :
    ({s with
      channel:=rest
      dispatcher:=s.dispatcher.takes res
      conn:=s.conn.map fun c => res.reaches limit s.dispatcher.position c} : Server σ).Tells host ask (marks mark res) := by
  have heard := tells.heard
  have pipes := piped.pipes
  rw [first] at heard pipes
  refine ⟨heard_next heard,heard_backed heard pipes tells.backed,fun m c' is mapped sound => ?_,fun c' mapped active => ?_,
    fun granted placed reply => ?_⟩
  · obtain ⟨c,opened,rfl⟩ := Option.map_eq_some_iff.mp mapped
    have shown := reaches_shown limit s.dispatcher.position res c sound
    rw [(Conn.reaches_same limit s.dispatcher.position res c).2.1]
    have kept : c.failure = none ∧ (res.reaches limit s.dispatcher.position c).selectors = c.selectors → mark = some m →
        ∃ granted, m = some granted ∧ (res.reaches limit s.dispatcher.position c).selectors = intersect granted c.wants := by
      rintro ⟨before,same⟩ was
      rw [same]
      exact tells.shown m c was opened before
    cases res with
    | view grant at_ =>
      obtain ⟨granted,rfl,selectors⟩ := shown
      cases is
      exact ⟨granted,rfl,selectors⟩
    | registered grant at_ =>
      obtain ⟨g,rfl,rfl⟩ := Option.map_eq_some_iff.mp is
      obtain ⟨granted,rfl,selectors⟩ := shown
      exact ⟨granted,rfl,selectors⟩
    | _ => exact kept shown is
  · obtain ⟨c,opened,rfl⟩ := Option.map_eq_some_iff.mp mapped
    rcases reaches_begins limit s.dispatcher.position res c active with was | ⟨grant,at_,rfl⟩
    · have before := tells.active c opened was
      cases res with
      | view grant at_ => simp [marks]
      | registered grant at_ => exact absurd heard.1 before
      | _ => exact before
    · simp [marks]
  · cases res with
    | view grant at_ => simp [marks]
    | registered grant at_ =>
      simp only [Dispatcher.takes,Option.some.injEq,Prod.mk.injEq] at reply
      simp [marks,reply.1]
    | _ => exact tells.answered granted placed reply

-- What a view heard shows is permitted through the position published.
theorem Tells.permits (tells : s.Tells host ask mark) (linked : s.Linked who ask) (opened : s.conn = some c) (active : c.active = true)
    {row : LogRow} (upTo : row.position ≤ s.dispatcher.position) (covers : covered c.selectors row.slice = true) :
    Permitted host s.core.history ask.wants row := by
  obtain ⟨m,is⟩ := Option.ne_none_iff_exists'.mp (tells.active c opened active)
  obtain ⟨granted,rfl,shown⟩ := tells.shown m c is opened (linked.alive c opened active).granted
  rw [shown,(linked.same c opened).1] at covers
  obtain ⟨at_,published,_,backed⟩ := tells.backed _ is
  obtain ⟨entry,member,placed,shows⟩ := backed.covers covers
  exact ⟨entry,member,by omega,shows⟩

theorem Informed.batch (informed : s.Informed host ask) {b : Batch σ} (apart : s.Apart host ask (.batch b))
    (asks : b.register ≠ none → s.conn.isSome = true ∧ s.core.asked = false) : (s.batch host who b).Informed host ask := by
  obtain ⟨mark,tells⟩ := informed.tells
  have fresh : b.register ≠ none → s.core.granted = none := fun registers => informed.unasked (asks registers).2
  refine ⟨⟨mark,(tells.heard.grow _).append (batch_heard fresh apart),fun m is => ?_,tells.shown,tells.active,tells.answered⟩,
    fun unasked => ?_⟩
  · exact (tells.backed m is).imp fun at_ ⟨low,high,backed⟩ => ⟨low,high,backed.grow _⟩
  · simp only [Server.batch,batchCore,Bool.or_eq_false_iff] at unasked
    have silent : b.register = none := by simpa using unasked.2
    simp [Server.batch,batchCore,informed.unasked unasked.1,silent]

theorem Informed.dispatch (informed : s.Informed host ask) (piped : s.Piped) : (s.dispatch limit).Informed host ask := by
  cases first : s.channel with
  | nil =>
    unfold Server.dispatch
    rw [first]
    exact informed
  | cons res rest =>
    obtain ⟨mark,tells⟩ := informed.tells
    have next := tells.dispatch limit piped first
    unfold Server.dispatch
    rw [first]
    exact ⟨⟨_,next⟩,informed.unasked⟩

-- The handler opens its connection once, and otherwise takes its backlog or leaves it alone.
theorem handle_conn (opened : (next host who ask limit s .handle).conn = some c) :
    (s.phase = .admitted ∧ c = {
      wants:=ask.wants
      ephemeral:=ask.ephemeral
      principal:=who}) ∨ ∃ before, s.conn = some before ∧ c = {before with
        backlog:=c.backlog
        streaming:=c.streaming} := by
  have served : ∀ streaming step, (s.serves streaming step).conn = some c → ∃ before, s.conn = some before ∧ c = {before with
      backlog:=c.backlog
      streaming:=c.streaming} := by
    intro streaming step was
    unfold serves at was
    cases conn : s.conn with
    | none =>
      rw [conn] at was
      rw [show s.conn = some c from was] at conn
      cases conn
    | some before =>
      rw [conn] at was
      cases was
      exact ⟨before,rfl,rfl⟩
  unfold next at opened
  dsimp only at opened
  cases at_ : s.phase <;> rw [at_] at opened <;> dsimp only at opened
  case arriving =>
    unfold arrive at opened
    split at opened <;> exact Or.inr ⟨c,opened,rfl⟩
  case admitted =>
    cases opened
    exact Or.inl ⟨rfl,rfl⟩
  case opening => exact Or.inr ⟨c,(enter_frame s ask).2.2.2 ▸ opened,rfl⟩
  case taking => exact Or.inr (served _ _ opened)
  case switching => exact Or.inr (served _ _ opened)
  case live => exact Or.inr (served _ _ opened)
  case ticking => exact Or.inr (served _ _ opened)
  case cutting => cases ask <;> exact Or.inr ⟨c,opened,rfl⟩
  case checking =>
    unfold check at opened
    split at opened <;> exact Or.inr ⟨c,opened,rfl⟩
  all_goals exact Or.inr ⟨c,opened,rfl⟩

-- The handler's steps leave what its connection has heard of.
theorem Informed.handle (informed : s.Informed host ask) (linked : s.Linked who ask) :
    (next host who ask limit s .handle).Informed host ask := by
  obtain ⟨mark,tells⟩ := informed.tells
  obtain ⟨core,channel,dispatcher⟩ := handle_frame host who ask limit s
  -- a connection just opened has heard of nothing
  have unheard : s.phase = .admitted → mark = none := by
    intro admitted
    have heard := tells.heard
    rw [informed.unasked (linked.unopened (linked.fresh (by rw [admitted]; rfl))).1] at heard
    cases mark with
    | none => rfl
    | some m => exact absurd rfl (heard_some heard)
  refine ⟨⟨mark,?_,?_,fun m c' is opened sound => ?_,fun c' opened active => ?_,?_⟩,?_⟩
  · rw [core,channel]
    exact tells.heard
  · rw [core,dispatcher]
    exact tells.backed
  · rcases handle_conn opened with ⟨admitted,_⟩ | ⟨c,before,same⟩
    · rw [unheard admitted] at is
      cases is
    · rw [same] at sound ⊢
      exact tells.shown m c is before sound
  · rcases handle_conn opened with ⟨_,rfl⟩ | ⟨c,before,same⟩
    · cases active
    · rw [same] at active
      exact tells.active c before active
  · rw [dispatcher]
    exact tells.answered
  · rw [core]
    exact informed.unasked

theorem Informed.step (informed : s.Informed host ask) (piped : s.Piped) (linked : s.Linked who ask) (event : ServerEvent σ)
    (allowed : s.allowed event) (apart : s.Apart host ask event) :
    (next host who ask limit s event).Informed host ask := by
  cases event with
  | batch b => exact informed.batch apart allowed.2.2
  | close =>
    obtain ⟨mark,tells⟩ := informed.tells
    exact ⟨⟨mark,tells.heard.append rfl,tells.backed,tells.shown,tells.active,tells.answered⟩,informed.unasked⟩
  | dispatch => exact informed.dispatch piped
  | handle => exact informed.handle linked
  | tick => exact ⟨informed.tells.imp fun mark tells => ⟨tells.heard,tells.backed,tells.shown,tells.active,tells.answered⟩,informed.unasked⟩
  | ends code => exact ⟨informed.tells.imp fun mark tells => ⟨tells.heard,tells.backed,tells.shown,tells.active,tells.answered⟩,informed.unasked⟩

-- A view that comes with the token an active connection holds is the view it has.
theorem Informed.distinct (informed : s.Informed host ask) (linked : s.Linked who ask) (opened : s.conn = some c)
    (first : s.channel = res :: rest) : c.Distinct res := by
  obtain ⟨mark,tells⟩ := informed.tells
  have heard := tells.heard
  rw [first] at heard
  unfold Conn.Distinct
  split
  · rename_i granted at_
    intro active token
    have alive := linked.alive c opened active
    obtain ⟨m,is⟩ := Option.ne_none_iff_exists'.mp (tells.active c opened active)
    obtain ⟨before,rfl,shown⟩ := tells.shown m c is opened alive.granted
    rw [alive.viewed,shown] at token
    rw [(linked.same c opened).1] at token shown ⊢
    exact shown.trans (heard.2.1 _ is before rfl granted rfl token)
  · trivial

theorem opens_informed (d : Opening σ) : (opens d).Informed host ask :=
  ⟨⟨none,rfl,fun m is => (by cases is),fun m c is => (by cases is),fun c is => (by cases is),fun grant at_ is => (by cases is)⟩,fun _ => rfl⟩

end Server

end PhaseLock
