import PhaseLock.Pipeline

namespace PhaseLock

def Phase.streams : Phase → Bool
  | .hot _ => true
  | .live => true
  | .ticking _ => true
  | _ => false

-- The phases of a stream its handler has entered and not left.
def Phase.entered : Phase → Bool
  | .taking => true
  | .reading => true
  | .switching => true
  | phase => phase.streams

def Phase.unopened : Phase → Bool
  | .arriving => true
  | .admitted => true
  | _ => false

-- The phases before a stream is entered.
def Phase.unsent : Phase → Bool
  | .opening => true
  | phase => phase.unopened

namespace Server
variable {σ : Type} {host : Host σ} {who : Principal} {ask : Ask} {limit : Nat} {s : Server σ}

def isReply : Res → Bool
  | .registered .. => true
  | _ => false

-- The connection beside the handler's phase: it is opened once, its registration is answered
-- once, and until its handler is gone it is active or its backlog ends it.
structure Linked (who : Principal) (ask : Ask) (s : Server σ) : Prop where
  fresh : s.phase.unopened = true → s.conn = none
  unopened : s.conn = none → s.core.asked = false ∧ s.dispatcher.reply = none ∧ s.phase.entered = false ∧ s.phase ≠ .opening
  replies : s.channel.countP isReply+s.dispatcher.reply.isSome.toNat = s.core.asked.toNat
  entered : s.phase.entered = true → ask.ephemeral = false ∧ ∃ granted position, s.dispatcher.reply = some (some (.ok granted),position)
  same : ∀ c, s.conn = some c → c.wants = ask.wants ∧ c.principal = who ∧ c.ephemeral = ask.ephemeral
  alive : ∀ c, s.conn = some c → c.active = true → c.Alive
  waiting : ∀ c, s.conn = some c → s.dispatcher.reply = none →
    c.active = false ∧ c.backlog = [] ∧ c.overflowed = false ∧ c.shutdown = false
  started : ∀ c granted position, s.conn = some c → s.dispatcher.reply = some (some (.ok granted),position) →
    ask.ephemeral = false → (s.phase = .opening → c.active = true ∨ c.Ending ∨ c.revoked = true) ∧
      (s.phase.entered = true → c.active = true ∨ c.Ending)
  streaming : ∀ c, s.conn = some c → s.phase = .opening ∨ s.phase.entered = true → c.streaming = s.phase.streams
  plain : ∀ c, s.conn = some c → c.streaming = false → ∀ mutations, .commit mutations ∉ c.backlog

theorem batch_replies {core : DbCore σ} (b : Batch σ) :
    (batchResults host who core b).countP isReply = b.register.isSome.toNat := by
  have accounts : ∀ looked generation, (accountResults core.account looked generation).countP isReply = 0 := by
    intro looked generation
    unfold accountResults
    split
    · split <;> rfl
    · split <;> rfl
  unfold batchResults
  dsimp only
  simp only [List.countP_append,accounts]
  cases b.register.isSome <;> split <;> split <;> rfl

theorem Linked.batch (linked : s.Linked who ask) {b : Batch σ}
    (asks : b.register ≠ none → s.conn.isSome = true ∧ s.core.asked = false) : (s.batch host who b).Linked who ask := by
  refine ⟨linked.fresh,fun none_ => ?_,?_,linked.entered,linked.same,linked.alive,linked.waiting,linked.started,
    linked.streaming,linked.plain⟩
  · obtain ⟨unasked,reply,phases⟩ := linked.unopened none_
    refine ⟨?_,reply,phases⟩
    have silent : b.register = none := by
      by_contra registers
      have opened := (asks registers).1
      rw [show s.conn = none from none_] at opened
      cases opened
    simp [Server.batch,batchCore,unasked,silent]
  · have before := linked.replies
    show (s.channel++batchResults host who s.core b).countP isReply+s.dispatcher.reply.isSome.toNat =
      (s.core.asked || b.register.isSome).toNat
    rw [List.countP_append,batch_replies]
    by_cases registers : b.register = none
    · simpa [registers] using before
    · rw [(asks registers).2] at before ⊢
      rw [Option.isSome_iff_ne_none.mpr registers]
      simp only [Bool.toNat_false,Bool.toNat_true,Bool.false_or] at before ⊢
      omega

-- The registration is answered once.
theorem Linked.unanswered (linked : s.Linked who ask) (first : s.channel = .registered grant at_ :: rest) :
    s.dispatcher.reply = none ∧ s.phase.entered = false := by
  have count := linked.replies
  rw [first,List.countP_cons_of_pos (by rfl)] at count
  have reply : s.dispatcher.reply = none := by
    cases answered : s.dispatcher.reply with
    | none => rfl
    | some r =>
      rw [answered] at count
      have most := Bool.toNat_le s.core.asked
      simp only [Option.isSome_some,Bool.toNat_true] at count
      omega
  refine ⟨reply,?_⟩
  by_contra entered
  obtain ⟨_,granted,position,answered⟩ := linked.entered (by simpa using entered)
  rw [reply] at answered
  cases answered

-- The registration's result reaches a connection that has taken nothing yet.
theorem Linked.answers (linked : s.Linked who ask) (first : s.channel = .registered grant at_ :: rest) :
    (s.dispatch limit).Linked who ask := by
  obtain ⟨unanswered,notEntered⟩ := linked.unanswered first
  have count := linked.replies
  rw [first,List.countP_cons_of_pos (by rfl),unanswered] at count
  have asked : s.core.asked = true := by
    cases asked : s.core.asked with
    | true => rfl
    | false =>
      rw [asked] at count
      simp at count
  obtain ⟨c,opened⟩ : ∃ c, s.conn = some c := by
    rw [← Option.ne_none_iff_exists']
    intro none_
    rw [(linked.unopened none_).1] at asked
    cases asked
  have dispatched : s.dispatch limit = {s with
      channel:=rest
      dispatcher:=s.dispatcher.takes (.registered grant at_)
      conn:=some (c.registered grant)} := by
    unfold Server.dispatch
    rw [first]
    simp [opened,Res.reaches]
  obtain ⟨inactive,backlog,overflowed,shutdown⟩ := linked.waiting c opened unanswered
  have unentered : ∀ {P : Prop}, s.phase.entered = true → P := fun entered => by
    rw [notEntered] at entered
    cases entered
  have streaming : (c.registered grant).streaming = c.streaming := by rcases grant with _ | why | granted <;> rfl
  have unqueued : (c.registered grant).backlog = c.backlog := by rcases grant with _ | why | granted <;> rfl
  rw [dispatched]
  refine ⟨fun phase => ?_,fun none_ => ?_,?_,fun entered => unentered entered,?_,?_,?_,?_,?_,?_⟩
  · rw [linked.fresh phase] at opened
    cases opened
  · cases none_
  · simpa [asked,Dispatcher.takes] using count
  · rintro c' ⟨⟩
    have same := linked.same c opened
    rcases grant with _ | why | granted <;> exact same
  · rintro c' ⟨⟩ active
    rcases grant with _ | why | granted
    · exact absurd active (by simp [Conn.registered,inactive])
    · exact absurd active (by simp [Conn.registered,inactive])
    · simp only [Conn.registered,inactive,Bool.false_or,Bool.and_eq_true,Bool.not_eq_true'] at active
      exact ⟨⟨overflowed,shutdown,by simp [Conn.registered,backlog]⟩,active.2,rfl,rfl,active.1⟩
  · intro c' _ none_
    cases none_
  · rintro c' granted position ⟨⟩ reply lasting
    refine ⟨fun _ => ?_,fun entered => unentered entered⟩
    simp only [Dispatcher.takes,Option.some.injEq,Prod.mk.injEq] at reply
    obtain ⟨rfl,rfl⟩ := reply
    have ephemeral : c.ephemeral = false := (linked.same c opened).2.2.trans lasting
    cases revoked : c.revoked <;> simp [Conn.registered,revoked,ephemeral]
  · rintro c' ⟨⟩ phases
    rw [streaming]
    exact linked.streaming c opened phases
  · rintro c' ⟨⟩ off mutations
    rw [unqueued]
    exact linked.plain c opened (streaming ▸ off) mutations

-- What a result queues to an active connection ends nothing, and is a commit's only where it streams.
theorem frames_plain {c : Conn} (member : frame ∈ c.frames position res) :
    (∀ code, frame ≠ .ends code) ∧ (c.streaming = false → ∀ mutations, frame ≠ .commit mutations) := by
  cases res with
  | view grant at_ =>
    cases grant with
    | ok granted =>
      simp only [Conn.frames] at member
      split at member <;> simp_all
    | error why => simp [Conn.frames] at member
  | commit at_ items =>
    simp only [Conn.frames] at member
    split at member <;> simp_all
  | _ => simp [Conn.frames] at member

section
variable (limit position : Nat) {c : Conn} {res : Res} (other : ∀ grant at_, res ≠ .registered grant at_)
  (alive : c.active = true → c.Alive)
include other alive

-- A result other than its registration's leaves a connection active or ending as it was.
theorem reaches_started (either : c.active = true ∨ c.Ending) :
    (res.reaches limit position c).active = true ∨ (res.reaches limit position c).Ending := by
  cases wasActive : c.active with
  | true =>
    rcases Conn.reaches_active limit position (alive wasActive) wasActive other with goes | dies
    · rw [goes]
      exact Or.inl wasActive
    · exact Or.inr dies.2.1
  | false =>
    obtain ⟨_,keeps,full,stops⟩ := Conn.reaches_idle limit position wasActive other
    rcases either with active | ending
    · rw [wasActive] at active
      cases active
    · right
      unfold Conn.Ending
      rw [keeps,full,stops]
      exact ending

theorem reaches_alive (active : (res.reaches limit position c).active = true) : (res.reaches limit position c).Alive := by
  cases wasActive : c.active with
  | false =>
    rw [(Conn.reaches_idle limit position wasActive other).1] at active
    cases active
  | true =>
    have was := alive wasActive
    rcases Conn.reaches_active limit position was wasActive other with goes | dies
    · rw [goes]
      refine ⟨⟨was.running.1,was.running.2.1,fun code member => ?_⟩,was.trusted,rfl,was.granted,was.lasting⟩
      rcases List.mem_append.mp member with old | now
      · exact was.running.2.2 code old
      · exact (frames_plain now).1 code rfl
    · rw [dies.1] at active
      cases active

theorem reaches_plain (off : c.streaming = false) (plain : ∀ mutations, .commit mutations ∉ c.backlog) (mutations) :
    .commit mutations ∉ (res.reaches limit position c).backlog := by
  intro member
  cases wasActive : c.active with
  | false =>
    rw [(Conn.reaches_idle limit position wasActive other).2.1] at member
    exact plain mutations member
  | true =>
    rcases Conn.reaches_active limit position (alive wasActive) wasActive other with goes | dies
    · rw [goes] at member
      rcases List.mem_append.mp member with old | now
      · exact plain mutations old
      · exact (frames_plain now).2 off mutations rfl
    · obtain ⟨_,_,more,split,ends⟩ := dies
      rw [split] at member
      rcases List.mem_append.mp member with old | now
      · exact plain mutations old
      · obtain ⟨code,is⟩ := ends _ now
        cases is

end

theorem Linked.passes (linked : s.Linked who ask) (first : s.channel = res :: rest)
    (other : ∀ grant at_, res ≠ .registered grant at_) : (s.dispatch limit).Linked who ask := by
  have dispatched : s.dispatch limit = {s with
      channel:=rest
      dispatcher:=s.dispatcher.takes res
      conn:=s.conn.map fun c => res.reaches limit s.dispatcher.position c} := by
    unfold Server.dispatch
    rw [first]
  have reply : (s.dispatcher.takes res).reply = s.dispatcher.reply := by
    cases res <;> first | rfl | exact absurd rfl (other _ _)
  have quiet : isReply res = false := by
    cases res <;> first | rfl | exact absurd rfl (other _ _)
  have count := linked.replies
  rw [first,List.countP_cons_of_neg (by simp [quiet])] at count
  have before : ∀ {c'}, s.conn.map (fun c => res.reaches limit s.dispatcher.position c) = some c' →
      ∃ c, s.conn = some c ∧ res.reaches limit s.dispatcher.position c = c' := Option.map_eq_some_iff.mp
  rw [dispatched]
  refine ⟨fun phase => ?_,fun none_ => ?_,?_,fun entered => ?_,?_,?_,?_,?_,?_,?_⟩
  · show s.conn.map _ = none
    rw [linked.fresh phase]
    rfl
  · rw [reply]
    exact linked.unopened (Option.map_eq_none_iff.mp none_)
  · rw [reply]
    exact count
  · rw [reply]
    exact linked.entered entered
  · intro c' mapped
    obtain ⟨c,found,rfl⟩ := before mapped
    obtain ⟨_,wants,principal,ephemeral⟩ := Conn.reaches_same limit s.dispatcher.position res c
    rw [wants,principal,ephemeral]
    exact linked.same c found
  · intro c' mapped active
    obtain ⟨c,found,rfl⟩ := before mapped
    exact reaches_alive limit s.dispatcher.position other (linked.alive c found) active
  · intro c' mapped none_
    obtain ⟨c,found,rfl⟩ := before mapped
    obtain ⟨inactive,backlog,overflowed,shutdown⟩ := linked.waiting c found (reply ▸ none_)
    obtain ⟨stays,keeps,full,stops⟩ := Conn.reaches_idle limit s.dispatcher.position inactive other
    exact ⟨stays,keeps.trans backlog,full.trans overflowed,stops.trans shutdown⟩
  · intro c' granted position mapped answered lasting
    obtain ⟨c,found,rfl⟩ := before mapped
    rw [reply] at answered
    obtain ⟨opening,running⟩ := linked.started c granted position found answered lasting
    have goes := reaches_started limit s.dispatcher.position other (linked.alive c found)
    refine ⟨fun phase => ?_,fun phase => goes (running phase)⟩
    rcases opening phase with active | ending | revoked
    · exact (goes (Or.inl active)).imp id Or.inl
    · exact (goes (Or.inr ending)).imp id Or.inl
    · exact Or.inr (Or.inr (Conn.reaches_revoked revoked))
  · intro c' mapped phases
    obtain ⟨c,found,rfl⟩ := before mapped
    rw [(Conn.reaches_same limit s.dispatcher.position res c).1]
    exact linked.streaming c found phases
  · intro c' mapped off
    obtain ⟨c,found,rfl⟩ := before mapped
    rw [(Conn.reaches_same limit s.dispatcher.position res c).1] at off
    exact reaches_plain limit s.dispatcher.position other (linked.alive c found) off (linked.plain c found off)

theorem Linked.dispatch (linked : s.Linked who ask) : (s.dispatch limit).Linked who ask := by
  cases first : s.channel with
  | nil =>
    unfold Server.dispatch
    rw [first]
    exact linked
  | cons res rest =>
    by_cases registered : ∃ grant at_, res = .registered grant at_
    · obtain ⟨grant,at_,rfl⟩ := registered
      exact linked.answers first
    · exact linked.passes first fun grant at_ is => registered ⟨grant,at_,is⟩

-- A connection that is ending does not go on.
theorem forward_stops {h : Handler} {queued : List Queued} (member : .ends code ∈ queued) : (h.forward queued).1 = false := by
  induction queued generalizing h with
  | nil => cases member
  | cons frame rest ih =>
    cases frame with
    | ends code => rfl
    | view position selectors => exact ih (by simpa using member)
    | commit mutations => exact ih (by simpa using member)

theorem drain_whole {h : Handler} {c : Conn} (whole : (h.drain c).1 = true) :
    ¬c.Ending ∧ (h.forward c.backlog).1 = true ∧ (h.drain c).2 = (h.forward c.backlog).2 := by
  unfold Handler.drain at whole ⊢
  split at whole
  · cases whole
  · rename_i next ran
    rw [ran]
    simp only [Bool.not_eq_true',Bool.or_eq_false_iff] at whole
    refine ⟨?_,rfl,by simp [whole.1]⟩
    rintro (full | stopped | ⟨code,member⟩)
    · rw [full] at whole
      cases whole.1
    · rw [stopped] at whole
      cases whole.2
    · have stops := forward_stops (h:=h) member
      rw [ran] at stops
      cases stops

-- A handler that takes its backlog goes on, or is gone.
theorem take_phase (h : Handler) (c : Conn) : (h.take c).phase = if (h.drain c).1 then .reading else .gone := rfl
theorem wake_phase (h : Handler) (c : Conn) : (h.wake c).phase = if (h.drain c).1 then .live else .gone := rfl
theorem switch_phase (h : Handler) (c : Conn) (published : Nat) :
    (h.switch c published).phase = if ({h with selectors:=c.selectors}.drain c).1 then .hot published else .gone := rfl
theorem beat_phase (h : Handler) (c : Conn) (published : Nat) :
    (h.beat c published).phase = if (h.drain c).1 then .live else .gone := by
  unfold Handler.beat
  dsimp only
  split <;> rfl

-- The backlog taken under the lock, for a handler that then goes on or is gone.
theorem Linked.serves (linked : s.Linked who ask) (entered : s.phase.entered = true) (streaming : Bool)
    (step : Handler → Conn → Handler) {onward : Phase}
    (phase : ∀ c, ∃ h : Handler, (step s.handler c).phase = if (h.drain c).1 then onward else .gone)
    (streams : (s.phase.streams || streaming) = onward.streams) (on : onward.entered = true) :
    (s.serves streaming step).Linked who ask := by
  obtain ⟨lasting,granted,position,reply⟩ := linked.entered entered
  unfold Server.serves
  cases opened : s.conn with
  | none =>
    rw [(linked.unopened opened).2.2.1] at entered
    cases entered
  | some c =>
    obtain ⟨h,goes⟩ := phase c
    dsimp only
    have onwards : onward.unopened = false ∧ onward ≠ .opening := by cases onward <;> simp_all [Phase.entered,Phase.streams,Phase.unopened]
    have started := (linked.started c granted position opened reply lasting).2 entered
    have alive := linked.alive c opened
    refine ⟨fun fresh => ?_,fun none_ => (by cases none_),linked.replies,fun _ => ⟨lasting,granted,position,reply⟩,?_,?_,?_,?_,?_,?_⟩
    · have unopened : ((step s.handler c).phase).unopened = true := fresh
      rw [goes] at unopened
      split at unopened
      · rw [onwards.1] at unopened
        cases unopened
      · cases unopened
    · rintro c' ⟨⟩
      exact linked.same c opened
    · rintro c' ⟨⟩ active
      have was := alive active
      exact ⟨⟨was.running.1,was.running.2.1,by simp⟩,was.trusted,was.viewed,was.granted,was.lasting⟩
    · intro c' _ none_
      rw [show s.dispatcher.reply = none from none_] at reply
      cases reply
    · rintro c' granted' position' ⟨⟩ _ _
      constructor
      · intro opening
        have phase_ : (step s.handler c).phase = .opening := opening
        rw [goes] at phase_
        split at phase_
        · exact absurd phase_ onwards.2
        · cases phase_
      · intro running
        have phase_ : ((step s.handler c).phase).entered = true := running
        rw [goes] at phase_
        split at phase_
        · rename_i whole
          exact Or.inl (started.resolve_right (drain_whole whole).1)
        · cases phase_
    · rintro c' ⟨⟩ phases
      have phase_ : (step s.handler c).phase = onward := by
        rw [goes]
        split
        · rfl
        · rename_i stopped
          have gone : (step s.handler c).phase = .gone := by rw [goes,if_neg stopped]
          rcases phases with opening | running
          · rw [show Server.phase _ = (step s.handler c).phase from rfl,gone] at opening
            cases opening
          · rw [show Server.phase _ = (step s.handler c).phase from rfl,gone] at running
            cases running
      show (c.streaming || streaming) = ((step s.handler c).phase).streams
      rw [phase_,linked.streaming c opened (Or.inr entered),streams]
    · rintro c' ⟨⟩ _ mutations
      simp

-- A step that leaves the connection alone: the handler leaves the stream, stays within it as it
-- is, or has not opened it.
theorem Linked.moves (linked : s.Linked who ask) {t : Server σ} (core : t.core = s.core) (channel : t.channel = s.channel)
    (dispatcher : t.dispatcher = s.dispatcher) (conn : t.conn = s.conn)
    (how : (t.phase.unopened = false ∧ t.phase.entered = false ∧ t.phase ≠ .opening) ∨
      (s.phase.entered = true ∧ t.phase.entered = true ∧ t.phase.streams = s.phase.streams ∧ t.phase.unopened = false ∧ t.phase ≠ .opening) ∨
      (s.phase.unopened = true ∧ t.phase.entered = false ∧ t.phase ≠ .opening)) : t.Linked who ask := by
  refine ⟨fun fresh => ?_,fun none_ => ?_,?_,fun entered => ?_,?_,?_,?_,?_,?_,?_⟩
  · rw [conn]
    rcases how with ⟨opened,_⟩ | ⟨_,_,_,opened,_⟩ | ⟨was,_⟩
    · rw [opened] at fresh
      cases fresh
    · rw [opened] at fresh
      cases fresh
    · exact linked.fresh was
  · rw [core,dispatcher]
    obtain ⟨unasked,reply,notEntered,_⟩ := linked.unopened (conn ▸ none_)
    refine ⟨unasked,reply,?_⟩
    rcases how with ⟨_,left⟩ | ⟨was,_⟩ | ⟨_,left⟩
    · exact left
    · rw [notEntered] at was
      cases was
    · exact left
  · rw [core,channel,dispatcher]
    exact linked.replies
  · rw [dispatcher]
    rcases how with ⟨_,left,_⟩ | ⟨was,_⟩ | ⟨_,left,_⟩
    · rw [left] at entered
      cases entered
    · exact linked.entered was
    · rw [left] at entered
      cases entered
  · rw [conn]
    exact linked.same
  · rw [conn]
    exact linked.alive
  · rw [conn,dispatcher]
    exact linked.waiting
  · rw [conn,dispatcher]
    intro c granted position opened reply lasting
    have was := linked.started c granted position opened reply lasting
    rcases how with ⟨_,left,other⟩ | ⟨before,_,_,_,other⟩ | ⟨_,left,other⟩
    · exact ⟨fun opening => absurd opening other,fun entered => by
        rw [left] at entered
        cases entered⟩
    · exact ⟨fun opening => absurd opening other,fun _ => was.2 before⟩
    · exact ⟨fun opening => absurd opening other,fun entered => by
        rw [left] at entered
        cases entered⟩
  · rw [conn]
    intro c opened phases
    rcases how with ⟨_,left,other⟩ | ⟨before,_,streams,_⟩ | ⟨_,left,other⟩
    · rcases phases with opening | entered
      · exact absurd opening other
      · rw [left] at entered
        cases entered
    · rw [streams]
      exact linked.streaming c opened (Or.inr before)
    · rcases phases with opening | entered
      · exact absurd opening other
      · rw [left] at entered
        cases entered
  · rw [conn]
    exact linked.plain

theorem Linked.insert (linked : s.Linked who ask) (admitted : s.phase = .admitted) : (s.insert who ask).Linked who ask := by
  have none_ := linked.fresh (by rw [admitted]; rfl)
  obtain ⟨unasked,reply,_,_⟩ := linked.unopened none_
  have fresh : (s.insert who ask).conn = some {
      wants:=ask.wants
      ephemeral:=ask.ephemeral
      principal:=who} := rfl
  refine ⟨fun unopened => (by cases unopened),fun missing => (by cases missing),linked.replies,fun entered => (by cases entered),
    ?_,?_,?_,?_,?_,?_⟩
  · rintro c ⟨⟩
    exact ⟨rfl,rfl,rfl⟩
  · rintro c ⟨⟩ active
    cases active
  · rintro c ⟨⟩ _
    exact ⟨rfl,rfl,rfl,rfl⟩
  · intro c granted position _ answered
    rw [show (s.insert who ask).dispatcher.reply = s.dispatcher.reply from rfl,reply] at answered
    cases answered
  · rintro c ⟨⟩ _
    rfl
  · rintro c ⟨⟩ _ mutations
    simp

theorem enters_phase (h : Handler) (c : Conn) (since : Option Nat) (presented : Name) (position : Nat) :
    (h.enters c since presented position).phase = .taking := by
  unfold Handler.enters
  dsimp only
  split <;> rfl

-- A stream is entered by its registration's reply, unless its connection was revoked.
theorem enter_cases (s : Server σ) (ask : Ask) : s.enter ask = s ∨
    (∃ phase, s.enter ask = s.goes phase ∧ ((∃ status, status ≠ 200 ∧ phase = .answered status) ∨ phase = .cutting)) ∨
    ∃ c granted position since presented wants, s.conn = some c ∧ s.dispatcher.reply = some (some (.ok granted),position) ∧
      c.revoked = false ∧ ask = .stream since presented wants ∧
      s.enter ask = {s with handler:=s.handler.enters c since presented position} := by
  unfold enter
  split
  · rename_i c granted position opened reply
    split
    · exact Or.inr (Or.inl ⟨_,rfl,Or.inl ⟨401,by decide,rfl⟩⟩)
    · rename_i trusted
      -- a read's view must cover its selector
      have reads : ∀ shown : Bool, (∃ status, status ≠ 200 ∧ (if shown = true then Phase.cutting else .answered 403) = .answered status) ∨
          (if shown = true then Phase.cutting else .answered 403) = .cutting := by
        intro shown
        cases shown
        · exact Or.inl ⟨403,by decide,rfl⟩
        · exact Or.inr rfl
      cases ask with
      | stream since presented wants =>
        exact Or.inr (Or.inr ⟨c,granted,position,since,presented,wants,opened,reply,by simpa using trusted,rfl,rfl⟩)
      | snapshot selector => exact Or.inr (Or.inl ⟨_,rfl,reads _⟩)
      | edits selector => exact Or.inr (Or.inl ⟨_,rfl,reads _⟩)
  · exact Or.inr (Or.inl ⟨_,rfl,Or.inl ⟨500,by decide,rfl⟩⟩)
  · exact Or.inr (Or.inl ⟨_,rfl,Or.inl ⟨401,by decide,rfl⟩⟩)
  · exact Or.inl rfl

theorem Linked.enter (linked : s.Linked who ask) (opening : s.phase = .opening) : (s.enter ask).Linked who ask := by
  obtain ⟨core,channel,dispatcher,conn⟩ := enter_frame s ask
  rcases enter_cases s ask with same | ⟨phase_,left,kind⟩ | ⟨c,granted,position,since,presented,wants,opened,reply,trusted,rfl,entered⟩
  · rw [same]
    exact linked
  · refine linked.moves core channel dispatcher conn (Or.inl ?_)
    rw [left]
    rcases kind with ⟨status,_,rfl⟩ | rfl <;> exact ⟨rfl,rfl,by simp [goes,phase]⟩
  · rw [entered]
    have phase_ : Server.phase {s with handler:=s.handler.enters c since presented position} = .taking := enters_phase _ _ _ _ _
    refine ⟨fun fresh => ?_,fun missing => ?_,linked.replies,fun _ => ⟨rfl,granted,position,reply⟩,linked.same,linked.alive,
      linked.waiting,?_,?_,linked.plain⟩
    · rw [phase_] at fresh
      cases fresh
    · rw [show s.conn = none from missing] at opened
      cases opened
    · intro c' granted' position' opened' reply' lasting
      rw [phase_]
      refine ⟨fun other => (by cases other),fun _ => ?_⟩
      have starts := (linked.started c' granted' position' opened' reply' lasting).1 opening
      rw [show s.conn = some c' from opened'] at opened
      cases opened
      rcases starts with active | ending | revoked
      · exact Or.inl active
      · exact Or.inr ending
      · rw [trusted] at revoked
        cases revoked
    · intro c' opened' _
      rw [phase_]
      have off := linked.streaming c' opened' (Or.inl opening)
      rw [opening] at off
      exact off

theorem read_phase (h : Handler) (log : List LogRow) : (h.read log).phase = .switching ∨ (h.read log).phase = .taking := by
  unfold Handler.read
  dsimp only
  split
  · exact Or.inl rfl
  · split <;> exact Or.inr rfl

theorem Linked.handle (linked : s.Linked who ask) : (next host who ask limit s .handle).Linked who ask := by
  unfold next
  dsimp only
  cases at_ : s.phase with
  | arriving =>
    dsimp only
    have was : s.phase.unopened = true := by rw [at_]; rfl
    unfold arrive
    split
    · exact linked.moves rfl rfl rfl rfl (Or.inr (Or.inr ⟨was,rfl,by simp [goes,phase]⟩))
    · exact linked.moves rfl rfl rfl rfl (Or.inr (Or.inr ⟨was,rfl,by simp [goes,phase]⟩))
  | admitted => exact linked.insert at_
  | opening => exact linked.enter at_
  | taking =>
    exact linked.serves (by rw [at_]; rfl) false Handler.take (fun c => ⟨s.handler,take_phase _ _⟩) (by rw [at_]; rfl) rfl
  | reading =>
    dsimp only
    have was : s.phase.entered = true := by rw [at_]; rfl
    rcases read_phase s.handler s.core.log with done | more
    · exact linked.moves rfl rfl rfl rfl (Or.inr (Or.inl ⟨was,by simp [phase,done,Phase.entered],
        by simp [phase,done,Phase.streams,show s.handler.phase = _ from at_],by simp [phase,done,Phase.unopened],by simp [phase,done]⟩))
    · exact linked.moves rfl rfl rfl rfl (Or.inr (Or.inl ⟨was,by simp [phase,more,Phase.entered],
        by simp [phase,more,Phase.streams,show s.handler.phase = _ from at_],by simp [phase,more,Phase.unopened],by simp [phase,more]⟩))
  | switching =>
    exact linked.serves (by rw [at_]; rfl) true (fun h c => h.switch c s.dispatcher.position)
      (fun c => ⟨{s.handler with selectors:=c.selectors},switch_phase s.handler c s.dispatcher.position⟩) (by rw [at_]; rfl) rfl
  | hot published =>
    dsimp only
    have was : s.phase.entered = true := by rw [at_]; rfl
    exact linked.moves rfl rfl rfl rfl (Or.inr (Or.inl ⟨was,rfl,by rw [at_]; rfl,rfl,by simp [phase,Handler.catchup]⟩))
  | live =>
    exact linked.serves (by rw [at_]; rfl) false Handler.wake (fun c => ⟨s.handler,wake_phase _ _⟩) (by rw [at_]; rfl) rfl
  | ticking published =>
    exact linked.serves (by rw [at_]; rfl) false _ (fun c => ⟨s.handler,beat_phase _ _ published⟩) (by rw [at_]; rfl) rfl
  | cutting =>
    cases ask <;> exact linked.moves rfl rfl rfl rfl (Or.inl ⟨rfl,rfl,by simp [cut,page,goes,phase]⟩)
  | heading => exact linked.moves rfl rfl rfl rfl (Or.inl ⟨rfl,rfl,by simp [bound,goes,phase]⟩)
  | checking position =>
    dsimp only
    unfold check
    split
    · exact linked.moves rfl rfl rfl rfl (Or.inl ⟨rfl,rfl,by simp [goes,phase]⟩)
    · exact linked
  | answered status => exact linked
  | gone => exact linked

theorem Linked.step (linked : s.Linked who ask) (event : ServerEvent σ) (allowed : s.allowed event) :
    (next host who ask limit s event).Linked who ask := by
  cases event with
  | batch b => exact linked.batch allowed.2.2
  | close =>
    refine ⟨linked.fresh,linked.unopened,?_,linked.entered,linked.same,linked.alive,linked.waiting,linked.started,
      linked.streaming,linked.plain⟩
    have before := linked.replies
    show (s.channel++[Res.shutdown]).countP isReply+s.dispatcher.reply.isSome.toNat = s.core.asked.toNat
    rw [List.countP_append]
    exact before
  | dispatch => exact linked.dispatch
  | handle => exact linked.handle
  | tick =>
    have was : s.phase = .live := allowed
    exact linked.moves rfl rfl rfl rfl (Or.inr (Or.inl ⟨by rw [was]; rfl,rfl,by rw [was]; rfl,rfl,by simp [next,goes,phase]⟩))
  | ends code =>
    have gone : (s.ends code).phase = .gone := by cases code <;> rfl
    exact linked.moves rfl rfl rfl rfl (Or.inl (by
      rw [show next host who ask limit s (.ends code) = s.ends code from rfl,gone]
      exact ⟨rfl,rfl,by simp⟩))

theorem opens_linked (d : Opening σ) : (opens d).Linked who ask := by
  refine ⟨fun _ => rfl,fun _ => ⟨rfl,rfl,rfl,by simp [opens,phase]⟩,rfl,fun entered => (by cases entered),?_,?_,?_,?_,?_,?_⟩
  all_goals
    intro c
    intros
    simp_all [opens]

end Server

end PhaseLock
