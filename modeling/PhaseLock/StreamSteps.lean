import PhaseLock.Serving

namespace PhaseLock

-- What a vouch tells the client: every logged edit of the present view through it that no view
-- frame left to a backfill was sent before.
def Sent.Vouches (log : List LogRow) (head since : Nat) (entered : List Name) (seen : List Sent) (frame : Sent) : Prop :=
  ∀ through ∈ frame.vouched, through ≤ max since head ∧ ∀ row ∈ log, since < row.position → row.position ≤ through →
    covered (viewAfter entered seen) row.slice = true → (∀ position ∈ viewPositions seen, position < row.position) →
      row ∈ sentRows seen

def Sent.isLive : Sent → Bool
  | .live _ => true
  | _ => false

-- How many live frames a phase has behind it.
def Phase.lives : Phase → Option Nat
  | .live => some 1
  | .ticking _ => some 1
  | .gone => none
  | .answered _ => none
  | _ => some 0

namespace Server
variable {σ : Type} {host : Host σ} {who : Principal} {ask : Ask} {limit : Nat} {s : Server σ} {c : Conn}

-- What a connection was sent, whatever becomes of it.
structure Delivered (s : Server σ) : Prop where
  inOrder : Along (Sent.InOrder s.handler.entered) [] s.handler.sent
  logged : (sentRows s.handler.sent).Sublist s.core.committed
  vouched : Along (Sent.Vouches s.core.log s.core.head s.handler.since s.handler.entered) [] s.handler.sent
  lives : s.handler.sent.countP Sent.isLive ≤ 1 ∧ ∀ n ∈ s.phase.lives, s.handler.sent.countP Sent.isLive = n
  unsent : s.phase.unsent = true → s.handler.sent = []

-- The position through which a handler has settled the log.
def settledTo (s : Server σ) (lower : Nat) : Nat := match s.phase with
  | .live => max s.handler.cursor lower
  | .ticking _ => max s.handler.cursor lower
  | _ => s.handler.cursor

-- A stream its handler has entered, its backlog above a lower bound: the log through the cursor
-- is settled, and once it streams the backlog answers for the rest of what is published.
structure Serves (s : Server σ) (c : Conn) (lower : Nat) : Prop where
  queues : Queues s.core.committed lower c.backlog s.dispatcher.position
  fine : s.handler.Fine s.core.committed lower
  current : s.handler.Current
  pending : c.active = true → viewThrough s.handler.selectors c.backlog = c.selectors
  reach : s.handler.since ≤ s.handler.cursor ∧ s.handler.cursor ≤ max s.handler.since s.core.head
  settled : ∀ row ∈ s.core.log, s.handler.since < row.position → row.position ≤ s.settledTo lower →
    Settled s.handler.entered s.handler.sent row
  waits : c.active = true → s.phase.streams = true → ∀ row ∈ s.core.log, s.handler.since < row.position →
    max s.handler.cursor lower < row.position → row.position ≤ s.dispatcher.position →
      Waits row s.handler.selectors c.backlog
  hot : ∀ published, s.phase = .hot published → published = lower
  ticking : ∀ published, s.phase = .ticking published → published ≤ s.dispatcher.position
  wrapped : s.phase = .taking ∨ s.phase = .reading → i64Max ≤ s.handler.cursor → sentRows s.handler.sent = []

theorem settledTo_le (s : Server σ) (lower : Nat) :
    s.handler.cursor ≤ s.settledTo lower ∧ s.settledTo lower ≤ max s.handler.cursor lower := by
  unfold settledTo
  split
  · exact ⟨le_max_left _ _,le_refl _⟩
  · exact ⟨le_max_left _ _,le_refl _⟩
  · exact ⟨le_refl _,le_max_left _ _⟩

theorem batch_log {b : Batch σ} {core : DbCore σ} (follows : b.Follows core) (member : row ∈ b.log) :
    row ∈ core.log ∨ core.head < row.position := by
  rcases List.mem_append.mp (follows.kept.subset member) with old | now
  · exact Or.inl old
  · exact Or.inr (follows.above row now)

theorem Serves.batch (serves : s.Serves c lower) (piped : s.Piped) {b : Batch σ} (follows : b.Follows s.core) :
    (s.batch host who b).Serves c lower := by
  have more : s.core.committed.Sublist (s.batch host who b).core.committed := List.sublist_append_left _ _
  have head := batch_head follows
  have published := piped.pipes.le
  have lowest := serves.queues.le
  obtain ⟨start,reached⟩ := serves.reach
  refine ⟨serves.queues.grow more (le_refl _),serves.fine.grow more (le_refl _),serves.current,serves.pending,
    ⟨start,reached.trans (max_le_max (le_refl _) head)⟩,?_,?_,serves.hot,serves.ticking,serves.wrapped⟩
  · intro row member since upTo
    rcases batch_log follows member with old | new
    · exact serves.settled row old since upTo
    · -- a row of this commit is above the cursor and the published position
      have bound : row.position ≤ max s.handler.cursor lower := upTo.trans (settledTo_le s lower).2
      have since_ : s.handler.since < row.position := since
      omega
  · intro active streams row member since above upTo
    rcases batch_log follows member with old | new
    · exact serves.waits active streams row old since above upTo
    · have bound : row.position ≤ s.dispatcher.position := upTo
      omega

theorem frames_queues {c : Conn} (pipes : Pipes position (res :: rest) head) (sub : res.items.Sublist committed)
    (other : ∀ grant at_, res ≠ .registered grant at_) {d : Dispatcher} (here : d.position = position) :
    Queues committed position (c.frames position res) (d.takes res).position := by
  cases res with
  | view grant at_ =>
    have same : (d.takes (.view grant at_)).position = position := here
    rw [same]
    cases grant with
    | ok granted =>
      simp only [Conn.frames]
      split
      · exact ⟨le_refl _,le_refl position⟩
      · exact le_refl position
    | error why => exact le_refl position
  | commit at_ items =>
    obtain ⟨nonempty,last,ordered,above,after⟩ := pipes
    obtain ⟨final,finalIn,same⟩ := lastPosition_mem last
    have up := above final finalIn
    simp only [Conn.frames,Dispatcher.takes]
    split
    · refine ⟨groupPositions_grouped (before_le ordered),by rw [groupPositions_flatten]; exact sub,at_,by omega,?_,le_refl at_⟩
      intro row member
      rw [groupPositions_flatten] at member
      exact ⟨above row member,lastPosition_top (before_le ordered) last row member⟩
    · show position ≤ at_
      omega
  | registered grant at_ => exact absurd rfl (other grant at_)
  | account generation => exact Nat.le_of_eq here.symm
  | forgotten => exact Nat.le_of_eq here.symm
  | shutdown => exact Nat.le_of_eq here.symm

theorem frames_view {c : Conn} (active : c.active = true) (distinct : c.Distinct res) :
    viewThrough c.selectors (c.frames position res) = c.viewed res := by
  cases res with
  | view grant at_ =>
    cases grant with
    | ok granted =>
      simp only [Conn.frames,Conn.viewed]
      split
      · rfl
      · rename_i same
        exact distinct active (not_not.mp same)
    | error why => rfl
  | commit at_ items =>
    simp only [Conn.frames,Conn.viewed]
    split <;> rfl
  | _ => rfl

-- An edit that waits behind a backlog waits behind what is queued next, which is above it.
theorem frames_wait {c : Conn} (pipes : Pipes position (res :: rest) head) (upTo : row.position ≤ position)
    (other : ∀ grant at_, res ≠ .registered grant at_) (view : List Name) (uncovered : ¬covered view row.slice = true) :
    Waits row view (c.frames position res) := by
  cases res with
  | view grant at_ =>
    cases grant with
    | ok granted =>
      simp only [Conn.frames]
      split
      · exact Or.inl ⟨upTo,uncovered⟩
      · exact uncovered
    | error why => exact uncovered
  | commit at_ items =>
    obtain ⟨nonempty,last,_,above,_⟩ := pipes
    obtain ⟨final,finalIn,_⟩ := lastPosition_mem last
    simp only [Conn.frames]
    split
    · refine Or.inr (Or.inr ⟨⟨final,by rw [groupPositions_flatten]; exact finalIn,?_⟩,uncovered⟩)
      have past := above final finalIn
      omega
    · exact uncovered
  | registered grant at_ => exact absurd rfl (other grant at_)
  | _ => exact uncovered

theorem ends_queues {more : List Queued} (ends : ∀ frame ∈ more, ∃ code, frame = .ends code) (le : lower ≤ upper) :
    Queues committed lower more upper := by
  induction more with
  | nil => exact le
  | cons frame rest ih =>
    obtain ⟨code,rfl⟩ := ends frame (by simp)
    exact ih fun other member => ends other (List.mem_cons_of_mem _ member)

theorem takes_position {d : Dispatcher} (pipes : Pipes d.position (res :: rest) head) :
    d.position ≤ (d.takes res).position := by
  cases res with
  | commit at_ items =>
    obtain ⟨_,last,_,above,_⟩ := pipes
    obtain ⟨final,finalIn,same⟩ := lastPosition_mem last
    have up := above final finalIn
    show d.position ≤ at_
    omega
  | _ => exact le_refl _

-- The backlog a result leaves runs through the position it publishes.
theorem reaches_queues (piped : s.Piped) (first : s.channel = res :: rest) (other : ∀ grant at_, res ≠ .registered grant at_)
    (alive : c.active = true → c.Alive) (queues : Queues s.core.committed lower c.backlog s.dispatcher.position) :
    Queues s.core.committed lower (res.reaches limit s.dispatcher.position c).backlog (s.dispatcher.takes res).position := by
  have pipes := piped.pipes
  rw [first] at pipes
  have position := takes_position pipes
  have sub : res.items.Sublist s.core.committed := by
    obtain ⟨past,split,_⟩ := piped.past
    rw [split,first,List.flatMap_cons]
    exact (List.sublist_append_left _ _).trans (List.sublist_append_right _ _)
  cases wasActive : c.active with
  | false =>
    rw [(Conn.reaches_idle limit s.dispatcher.position wasActive other).2.1]
    exact queues.grow (List.Sublist.refl _) position
  | true =>
    rcases Conn.reaches_active limit s.dispatcher.position (alive wasActive) wasActive other with goes | dies
    · rw [goes]
      exact queues.append (frames_queues pipes sub other rfl)
    · obtain ⟨_,_,more,split,ends⟩ := dies
      rw [split]
      exact queues.append (ends_queues ends position)

-- An active connection after a result was active before it, and took its frames.
theorem reaches_goes (limit position : Nat) {res : Res} (other : ∀ grant at_, res ≠ .registered grant at_) (alive : c.active = true → c.Alive)
    (active : (res.reaches limit position c).active = true) : c.active = true ∧
      res.reaches limit position c = {c with
        selectors:=c.viewed res
        token:=Selectors.viewToken (c.viewed res)
        backlog:=c.backlog++c.frames position res} := by
  cases wasActive : c.active with
  | false =>
    rw [(Conn.reaches_idle limit position wasActive other).1] at active
    cases active
  | true =>
    refine ⟨rfl,?_⟩
    rcases Conn.reaches_active limit position (alive wasActive) wasActive other with goes | dies
    · rw [wasActive] at goes
      exact goes
    · rw [dies.1] at active
      cases active

-- The dispatcher's next result.
theorem Serves.dispatch (limit : Nat) (serves : s.Serves c lower) (piped : s.Piped) (linked : s.Linked who ask) (opened : s.conn = some c)
    (entered : s.phase.entered = true) (first : s.channel = res :: rest) (distinct : c.Distinct res) :
    ({s with
      channel:=rest
      dispatcher:=s.dispatcher.takes res
      conn:=some (res.reaches limit s.dispatcher.position c)} : Server σ).Serves (res.reaches limit s.dispatcher.position c) lower := by
  have other : ∀ grant at_, res ≠ .registered grant at_ := by
    rintro grant at_ rfl
    rw [(linked.unanswered first).2] at entered
    cases entered
  have pipes := piped.pipes
  rw [first] at pipes
  have position := takes_position pipes
  have alive := linked.alive c opened
  have goes := reaches_goes limit s.dispatcher.position other alive
  refine ⟨reaches_queues piped first other alive serves.queues,serves.fine,serves.current,?_,serves.reach,serves.settled,?_,
    serves.hot,fun published at_ => (serves.ticking published at_).trans position,serves.wrapped⟩
  · intro active
    obtain ⟨wasActive,is⟩ := goes active
    rw [is]
    show viewThrough s.handler.selectors (c.backlog++c.frames s.dispatcher.position res) = c.viewed res
    rw [viewThrough_append,serves.pending wasActive,frames_view wasActive distinct]
  · intro active streams row member since above upTo
    obtain ⟨wasActive,is⟩ := goes active
    rw [is]
    show Waits row s.handler.selectors (c.backlog++c.frames s.dispatcher.position res)
    by_cases already : row.position ≤ s.dispatcher.position
    · exact waits_grow (serves.waits wasActive streams row member since above already)
        fun view uncovered => frames_wait pipes already other view uncovered
    · -- the commit just published holds the edit
      have past := Nat.not_le.mp already
      refine waits_behind serves.queues past ?_
      rw [serves.pending wasActive]
      cases res with
      | commit at_ items =>
        have here := (piped.publishes first).2.2.2.2 row (piped.logged.subset member) past upTo
        have streaming : c.streaming = true := (linked.streaming c opened (Or.inr entered)).trans streams
        simp only [Conn.frames,streaming,true_and]
        split
        · exact Or.inl (by rw [groupPositions_flatten]; exact here)
        · rename_i none_
          intro covers
          exact none_ (List.any_eq_true.mpr ⟨row,here,covers⟩)
      | _ => exact absurd upTo already

-- What a handler that goes on behind its backlog has settled.
structure Drained (s : Server σ) (c : Conn) (next : Handler) : Prop where
  advanced : Handler.Advanced s.core.committed s.dispatcher.position s.handler next
  shown : next.selectors = c.selectors
  kept : ∀ row ∈ s.core.log, s.handler.since < row.position → row.position ≤ s.handler.cursor →
    Settled s.handler.entered next.sent row
  all : s.phase = .live ∨ (∃ published, s.phase = .ticking published) → ∀ row ∈ s.core.log, s.handler.since < row.position →
    row.position ≤ max next.cursor s.dispatcher.position → Settled s.handler.entered next.sent row
  plain : s.phase.streams = false → next.cursor = s.handler.cursor ∧ sentRows next.sent = sentRows s.handler.sent

theorem Serves.drained (serves : s.Serves c lower) (piped : s.Piped) (linked : s.Linked who ask) (opened : s.conn = some c)
    (entered : s.phase.entered = true) (whole : (s.handler.drain c).1 = true) : s.Drained c (s.handler.drain c).2 := by
  obtain ⟨lasting,granted,position,reply⟩ := linked.entered entered
  obtain ⟨running,through,is⟩ := drain_whole whole
  have active := ((linked.started c granted position opened reply lasting).2 entered).resolve_right running
  have sorted := before_le piped.sorted
  have advanced := Handler.forward_ok sorted serves.fine serves.current serves.queues
  have kept : ∀ row ∈ s.core.log, s.handler.since < row.position → row.position ≤ s.handler.cursor →
      Settled s.handler.entered (s.handler.forward c.backlog).2.sent row := fun row member since upTo =>
    Handler.forward_settled serves.queues (upTo.trans (le_max_right _ _))
      (serves.settled row member since (upTo.trans (settledTo_le s lower).1))
  rw [is]
  refine ⟨advanced,?_,kept,fun phases row member since upTo => ?_,fun off => ?_⟩
  · rw [Handler.forward_selectors through]
    exact serves.pending active
  · by_cases before : row.position ≤ s.handler.cursor
    · exact kept row member since before
    · have streams : s.phase.streams = true := by
        rcases phases with live | ⟨published,ticking⟩
        · rw [live]; rfl
        · rw [ticking]; rfl
      have settledTo : s.settledTo lower = max s.handler.cursor lower := by
        unfold Server.settledTo
        rcases phases with live | ⟨published,ticking⟩
        · rw [live]
        · rw [ticking]
      by_cases low : row.position ≤ max s.handler.cursor lower
      · exact Handler.forward_settled serves.queues (by omega) (serves.settled row member since (settledTo ▸ low))
      · have cursor := advanced.cursor.2
        exact Handler.forward_waits sorted serves.fine serves.current serves.queues through (by omega)
          (serves.waits active streams row member since (by omega) (by omega))
  · have off_ := (linked.streaming c opened (Or.inr entered)).trans off
    obtain ⟨cursor,rows,_⟩ := Handler.forward_plain (linked.plain c opened off_) s.handler
    exact ⟨cursor,rows⟩

-- The connection whose backlog was taken.
def taken (c : Conn) (streaming : Bool) : Conn := {c with
  backlog:=[]
  streaming:=c.streaming || streaming}

theorem serves_taken (opened : s.conn = some c) (streaming : Bool) (step : Handler → Conn → Handler) :
    s.serves streaming step = {s with
      handler:=step s.handler c
      conn:=some (taken c streaming)} := by
  unfold Server.serves
  rw [opened]
  rfl

theorem Drained.reach {next : Handler} (drained : s.Drained c next) (serves : s.Serves c lower) (piped : s.Piped) :
    next.since ≤ next.cursor ∧ next.cursor ≤ max next.since s.core.head := by
  obtain ⟨start,reached⟩ := serves.reach
  obtain ⟨up,bound⟩ := drained.advanced.cursor
  have published := piped.pipes.le
  rw [drained.advanced.same.2.1]
  omega

-- The cold catchup's take, and a live connection's: its backlog is empty, and all that is
-- published is behind it.
theorem Drained.take {next : Handler} (drained : s.Drained c next) (serves : s.Serves c lower) (piped : s.Piped)
    (taking : s.phase = .taking) :
    ({s with
      handler:={next with phase:=.reading}
      conn:=some (taken c false)} : Server σ).Serves (taken c false) s.dispatcher.position := by
  have streams : s.phase.streams = false := by rw [taking]; rfl
  obtain ⟨cursor,rows⟩ := drained.plain streams
  have fine := drained.advanced.fine
  refine ⟨le_refl s.dispatcher.position,⟨fine.inOrder,fine.logged,fine.behind,fine.placed⟩,drained.advanced.current,
    fun _ => drained.shown,drained.reach serves piped,fun row member since upTo => ?_,fun _ on => (by cases on),
    fun published at_ => (by cases at_),fun published at_ => (by cases at_),fun _ far => ?_⟩
  · have since_ : s.handler.since < row.position := by
      rw [← drained.advanced.same.2.1]
      exact since
    have upTo_ : row.position ≤ s.handler.cursor := cursor ▸ upTo
    show Settled next.entered next.sent row
    rw [drained.advanced.same.2.2]
    exact drained.kept row member since_ upTo_
  · show sentRows next.sent = []
    rw [rows]
    exact serves.wrapped (Or.inl taking) (cursor ▸ far)

theorem Drained.wake {next : Handler} (drained : s.Drained c next) (serves : s.Serves c lower) (piped : s.Piped)
    (live : s.phase = .live) :
    ({s with
      handler:={next with phase:=.live}
      conn:=some (taken c false)} : Server σ).Serves (taken c false) s.dispatcher.position := by
  have fine := drained.advanced.fine
  refine ⟨le_refl s.dispatcher.position,⟨fine.inOrder,fine.logged,fine.behind,fine.placed⟩,drained.advanced.current,
    fun _ => drained.shown,drained.reach serves piped,fun row member since upTo => ?_,fun _ _ row _ _ above upTo => ?_,
    fun published at_ => (by cases at_),fun published at_ => (by cases at_),fun phases => (by rcases phases with a | a <;> cases a)⟩
  · have since_ : s.handler.since < row.position := by
      rw [← drained.advanced.same.2.1]
      exact since
    show Settled next.entered next.sent row
    rw [drained.advanced.same.2.2]
    exact drained.all (Or.inl live) row member since_ upTo
  · have above_ : max next.cursor s.dispatcher.position < row.position := above
    have upTo_ : row.position ≤ s.dispatcher.position := upTo
    omega

theorem Drained.beat {next : Handler} (drained : s.Drained c next) (serves : s.Serves c lower) (piped : s.Piped)
    (ticking : s.phase = .ticking published) :
    ({s with
      handler:={next.write (.vouch (max next.cursor published)) with
        cursor:=max next.cursor published
        phase:=.live}
      conn:=some (taken c false)} : Server σ).Serves (taken c false) s.dispatcher.position := by
  have behind := serves.ticking published ticking
  have fine := drained.advanced.fine.mark (.vouch (max next.cursor published)) (le_max_left next.cursor published)
    ⟨rfl,rfl,trivial⟩ .live next.told
  have current := drained.advanced.current
  obtain ⟨start,reached⟩ := drained.reach serves piped
  have head := piped.pipes.le
  refine ⟨le_refl s.dispatcher.position,⟨fine.inOrder,fine.logged,fine.behind,fine.placed⟩,?_,
    fun _ => drained.shown,⟨?_,?_⟩,fun row member since upTo => ?_,fun _ _ row _ _ above upTo => ?_,
    fun published at_ => (by cases at_),fun published at_ => (by cases at_),fun phases => (by rcases phases with a | a <;> cases a)⟩
  · show next.selectors = viewAfter next.entered (next.sent++[.vouch (max next.cursor published)])
    rw [viewAfter_append]
    exact current
  · exact start.trans (le_max_left _ _)
  · show max next.cursor published ≤ max next.since s.core.head
    omega
  · have since_ : s.handler.since < row.position := by
      rw [← drained.advanced.same.2.1]
      exact since
    have upTo_ : row.position ≤ max (max next.cursor published) s.dispatcher.position := upTo
    show Settled next.entered (next.sent++[.vouch (max next.cursor published)]) row
    rw [drained.advanced.same.2.2]
    exact (drained.all (Or.inr ⟨published,ticking⟩) row member since_ (by omega)).vouch _
  · have above_ : max (max next.cursor published) s.dispatcher.position < row.position := above
    have upTo_ : row.position ≤ s.dispatcher.position := upTo
    omega

-- The switch takes the connection's view, which is the one its backlog leaves in force.
theorem Serves.switched (serves : s.Serves c lower) (piped : s.Piped) (linked : s.Linked who ask) (opened : s.conn = some c)
    (switching : s.phase = .switching) : ∃ left, {s.handler with selectors:=c.selectors}.drain c =
      ((s.handler.drain c).1,{(s.handler.drain c).2 with selectors:=left}) ∧
      ((s.handler.drain c).1 = true → left = (s.handler.drain c).2.selectors) := by
  have entered : s.phase.entered = true := by rw [switching]; rfl
  have off : c.streaming = false := (linked.streaming c opened (Or.inr entered)).trans (by rw [switching]; rfl)
  obtain ⟨left,ran⟩ := Handler.drain_plain c (linked.plain c opened off) s.handler c.selectors
  refine ⟨left,ran,fun whole => ?_⟩
  have drained := serves.drained piped linked opened entered whole
  obtain ⟨running,through,is⟩ := drain_whole (h:={s.handler with selectors:=c.selectors}) (c:=c) (by rw [ran]; exact whole)
  obtain ⟨lasting,granted,position,reply⟩ := linked.entered entered
  have active := ((linked.started c granted position opened reply lasting).2 entered).resolve_right running
  have shown := Handler.forward_selectors through
  rw [← is,ran] at shown
  have again := viewThrough_again s.handler.selectors c.backlog
  rw [serves.pending active] at again
  exact shown.trans (again.trans drained.shown.symm)

theorem Drained.switch {next : Handler} (drained : s.Drained c next) (serves : s.Serves c lower) (piped : s.Piped)
    (switching : s.phase = .switching) :
    ({s with
      handler:={next with phase:=.hot s.dispatcher.position}
      conn:=some (taken c true)} : Server σ).Serves (taken c true) s.dispatcher.position := by
  have streams : s.phase.streams = false := by rw [switching]; rfl
  obtain ⟨cursor,rows⟩ := drained.plain streams
  have fine := drained.advanced.fine
  refine ⟨le_refl s.dispatcher.position,⟨fine.inOrder,fine.logged,fine.behind,fine.placed⟩,drained.advanced.current,
    fun _ => drained.shown,drained.reach serves piped,fun row member since upTo => ?_,fun _ _ row _ _ above upTo => ?_,
    fun published at_ => (by cases at_; rfl),fun published at_ => (by cases at_),fun phases => (by rcases phases with a | a <;> cases a)⟩
  · have since_ : s.handler.since < row.position := by
      rw [← drained.advanced.same.2.1]
      exact since
    have upTo_ : row.position ≤ s.handler.cursor := cursor ▸ upTo
    show Settled next.entered next.sent row
    rw [drained.advanced.same.2.2]
    exact drained.kept row member since_ upTo_
  · have above_ : max next.cursor s.dispatcher.position < row.position := above
    have upTo_ : row.position ≤ s.dispatcher.position := upTo
    omega

-- The rows a window of the log holds.
theorem readLog_mem (ordinary : lower ≤ i64Max) : row ∈ readLog log lower upper ↔
    row ∈ log ∧ lower ≤ row.position ∧ row.position ≤ upper ∧ row.position ≤ i64Max := by
  unfold readLog
  split
  · rename_i empty
    constructor
    · intro member
      cases member
    · rintro ⟨_,low,high,_⟩
      omega
  · simp only [List.mem_filter,asI64,if_pos ordinary,decide_eq_true_eq,Int.ofNat_le,le_min_iff]

theorem readLog_sub (lower upper : Nat) : (readLog log lower upper).Sublist log := by
  unfold readLog
  split
  · exact List.nil_sublist _
  · exact List.filter_sublist

-- A replay of a window past the cursor settles the log through its last row.
theorem Serves.replay (serves : s.Serves c lower) (piped : s.Piped) (upper : Nat)
    (above : ∀ old ∈ sentRows s.handler.sent, ∀ row ∈ readLog s.core.log (s.handler.cursor+1) upper, old.position < row.position) :
    ∃ next, s.handler.replay s.core.log (s.handler.cursor+1) upper = next ∧
      (next.phase = s.handler.phase ∧ next.since = s.handler.since ∧ next.entered = s.handler.entered ∧
        next.selectors = s.handler.selectors) ∧
      next.sent = s.handler.sent++framesOf s.handler.selectors (groupPositions (readLog s.core.log (s.handler.cursor+1) upper)) ∧
      next.cursor = max s.handler.cursor ((lastPosition (readLog s.core.log (s.handler.cursor+1) upper)).getD 0) ∧
      next.cursor ≤ max s.handler.cursor s.core.head ∧
      next.Fine s.core.committed lower ∧ next.Current ∧
      ∀ row ∈ s.core.log, s.handler.since < row.position → row.position ≤ s.handler.cursor ∨ row.position ≤ upper →
        Settled s.handler.entered next.sent row := by
  obtain ⟨told,is⟩ := s.handler.replay_send s.core.log (s.handler.cursor+1) upper
  have logSorted := piped.sorted.sublist piped.logged
  have sorted := (before_le logSorted).sublist (readLog_sub (s.handler.cursor+1) upper)
  have within : (readLog s.core.log (s.handler.cursor+1) upper).Sublist s.core.committed := (readLog_sub _ _).trans piped.logged
  obtain ⟨_,_,after,_⟩ := edits_only (framesOf s.handler.selectors (groupPositions (readLog s.core.log (s.handler.cursor+1) upper)))
    fun frame member => have ⟨rows,same⟩ := framesOf_edits member; ⟨rows,s.handler.selectors,same⟩
  have fine : Handler.Fine s.core.committed lower {s.handler with
      sent:=s.handler.sent++framesOf s.handler.selectors (groupPositions (readLog s.core.log (s.handler.cursor+1) upper))
      cursor:=max s.handler.cursor ((lastPosition (readLog s.core.log (s.handler.cursor+1) upper)).getD 0)
      told} := by
    refine serves.fine.sends serves.current (before_le piped.sorted) (groupPositions_grouped sorted)
      (by rw [groupPositions_flatten]; exact within) (by rw [groupPositions_flatten]; exact above) ?_ (le_max_left _ _) told
    intro row member
    rw [framesOf_rows,groupPositions_flatten] at member
    have rowIn := (List.mem_filter.mp member).1
    obtain ⟨top,last⟩ := lastPosition_some (List.ne_nil_of_mem rowIn)
    rw [last]
    exact (lastPosition_top sorted last row rowIn).trans (le_max_right _ _)
  refine ⟨_,is,⟨rfl,rfl,rfl,rfl⟩,rfl,rfl,?_,fine,?_,fun row member since upTo => ?_⟩
  · dsimp only
    cases last : lastPosition (readLog s.core.log (s.handler.cursor+1) upper) with
    | none => simp
    | some top =>
      obtain ⟨row,member,rfl⟩ := lastPosition_mem last
      have behind := piped.behind row (within.subset member)
      simp only [Option.getD_some]
      omega
  · show s.handler.selectors = viewAfter s.handler.entered (s.handler.sent++_)
    rw [viewAfter_append,after]
    exact serves.current
  · by_cases before : row.position ≤ s.handler.cursor
    · exact (serves.settled row member since (before.trans (settledTo_le s lower).1)).framed
    · have bounded := piped.behind row (piped.logged.subset member)
      have head := piped.bounded
      refine Settled.sending serves.current ?_
      rw [groupPositions_flatten,readLog_mem (by omega)]
      exact ⟨member,by omega,by omega,by omega⟩

-- A window's rows are above everything sent: its lower bound wraps only where nothing was sent.
theorem Serves.ahead (serves : s.Serves c lower) {upper : Nat}
    (unwrapped : i64Max ≤ s.handler.cursor → sentRows s.handler.sent = [] ∨ upper ≤ s.handler.cursor) :
    ∀ old ∈ sentRows s.handler.sent, ∀ row ∈ readLog s.core.log (s.handler.cursor+1) upper, old.position < row.position := by
  intro old oldIn row member
  have behind := serves.fine.behind old oldIn
  by_cases far : i64Max ≤ s.handler.cursor
  · rcases unwrapped far with none_ | short
    · rw [none_] at oldIn
      cases oldIn
    · unfold readLog at member
      rw [if_pos (by omega)] at member
      cases member
  · have row_ := (readLog_mem (by omega)).mp member
    omega

-- What a replay leaves: it settles the log through a position, and vouches for nothing yet.
structure Replayed (s : Server σ) (lower through : Nat) (next : Handler) : Prop where
  same : next.since = s.handler.since ∧ next.entered = s.handler.entered ∧ next.selectors = s.handler.selectors
  sent : ∃ frames, next.sent = s.handler.sent++frames ∧ frames.filterMap Sent.vouched = []
  reach : next.since ≤ next.cursor ∧ next.cursor ≤ max next.since s.core.head
  fine : next.Fine s.core.committed lower
  current : next.Current
  settled : ∀ row ∈ s.core.log, next.since < row.position → row.position ≤ through → Settled next.entered next.sent row

theorem Serves.window (serves : s.Serves c lower) (piped : s.Piped) (reading : s.phase = .reading) :
    ∃ next, s.handler.replay s.core.log (s.handler.cursor+1) (s.handler.cursor+coldBatch) = next ∧
      s.Replayed lower next.cursor next ∧ (next.cursor ≠ s.handler.cursor → next.cursor < i64Max) := by
  obtain ⟨next,is,⟨_,since,entered,selectors⟩,sent,cursor,bound,fine,current,settled⟩ := serves.replay piped
    (s.handler.cursor+coldBatch) (serves.ahead fun far => Or.inl (serves.wrapped (Or.inr reading) far))
  obtain ⟨start,reached⟩ := serves.reach
  have head := piped.bounded
  -- the rows the window reached, of those above the cursor
  have through : ∀ row ∈ s.core.log, s.handler.since < row.position → row.position ≤ next.cursor →
      Settled s.handler.entered next.sent row := by
    intro row member since_ upTo
    by_cases before : row.position ≤ s.handler.cursor
    · exact settled row member since_ (Or.inl before)
    · refine settled row member since_ (Or.inr ?_)
      cases last : lastPosition (readLog s.core.log (s.handler.cursor+1) (s.handler.cursor+coldBatch)) with
      | none =>
        rw [last] at cursor
        simp at cursor
        omega
      | some top =>
        rw [last] at cursor
        simp only [Option.getD_some] at cursor
        obtain ⟨final,finalIn,same⟩ := lastPosition_mem last
        have behindRow := piped.behind row (piped.logged.subset member)
        have window := ((readLog_mem (by omega)).mp finalIn).2.2.1
        omega
  -- a cursor past the rows of the log was there before the window
  have wrapped : next.cursor ≠ s.handler.cursor → next.cursor < i64Max := by
    intro moved
    cases last : lastPosition (readLog s.core.log (s.handler.cursor+1) (s.handler.cursor+coldBatch)) with
    | none =>
      rw [last] at cursor
      simp at cursor
      exact absurd cursor moved
    | some top =>
      rw [last] at cursor
      obtain ⟨final,finalIn,same⟩ := lastPosition_mem last
      have behindRow := piped.behind final (piped.logged.subset ((readLog_sub _ _).subset finalIn))
      simp only [Option.getD_some] at cursor
      omega
  obtain ⟨_,_,_,quiet⟩ := edits_only (framesOf s.handler.selectors (groupPositions (readLog s.core.log (s.handler.cursor+1)
    (s.handler.cursor+coldBatch)))) fun frame member => have ⟨rows,same⟩ := framesOf_edits member; ⟨rows,s.handler.selectors,same⟩
  refine ⟨next,is,⟨⟨since,entered,selectors⟩,⟨_,sent,quiet⟩,?_,fine,current,?_⟩,wrapped⟩
  · rw [since]
    omega
  · rw [since,entered]
    exact through

theorem Serves.read (serves : s.Serves c lower) (piped : s.Piped) (reading : s.phase = .reading) :
    ({s with handler:=s.handler.read s.core.log} : Server σ).Serves c lower := by
  obtain ⟨next,is,replayed,wrapped⟩ := serves.window piped reading
  have fine := replayed.fine
  have pending : c.active = true → viewThrough next.selectors c.backlog = c.selectors := by
    rw [replayed.same.2.2]
    exact serves.pending
  unfold Handler.read
  dsimp only
  rw [is]
  split
  · exact ⟨serves.queues,⟨fine.inOrder,fine.logged,fine.behind,fine.placed⟩,replayed.current,pending,replayed.reach,replayed.settled,
      fun _ on => (by cases on),fun published at_ => (by cases at_),fun published at_ => (by cases at_),
      fun phases => (by rcases phases with a | a <;> cases a)⟩
  · rename_i moved
    have low := wrapped moved
    split
    · have marked := fine.mark (.vouch next.cursor) (le_refl next.cursor) ⟨rfl,rfl,trivial⟩ .taking next.cursor
      refine ⟨serves.queues,⟨marked.inOrder,marked.logged,marked.behind,marked.placed⟩,?_,pending,replayed.reach,
        fun row member since_ upTo => (replayed.settled row member since_ upTo).vouch _,
        fun _ on => (by cases on),fun published at_ => (by cases at_),fun published at_ => (by cases at_),
        fun _ far => absurd low (Nat.not_lt.mpr far)⟩
      show next.selectors = viewAfter next.entered (next.sent++[.vouch next.cursor])
      rw [viewAfter_append]
      exact replayed.current
    · exact ⟨serves.queues,⟨fine.inOrder,fine.logged,fine.behind,fine.placed⟩,replayed.current,pending,replayed.reach,replayed.settled,
        fun _ on => (by cases on),fun published at_ => (by cases at_),fun published at_ => (by cases at_),
        fun _ far => absurd low (Nat.not_lt.mpr far)⟩

-- The hot catchup reads the log through the position the switch saw.
theorem Serves.seam (serves : s.Serves c lower) (piped : s.Piped) (hot : s.phase = .hot published) :
    ∃ next, s.handler.replay s.core.log (s.handler.cursor+1) published = next ∧
      s.Replayed lower (max next.cursor published) next ∧ s.handler.cursor ≤ next.cursor ∧ published = lower ∧
      published ≤ s.core.head := by
  have same := serves.hot published hot
  have published_ := serves.queues.le
  have head := piped.pipes.le
  have bounded := piped.bounded
  obtain ⟨next,is,⟨_,since,entered,selectors⟩,sent,cursor,bound,fine,current,settled⟩ := serves.replay piped published
    (serves.ahead fun far => Or.inr (by omega))
  obtain ⟨start,reached⟩ := serves.reach
  have last : next.cursor ≤ max s.handler.cursor published := by
    rw [cursor]
    cases last : lastPosition (readLog s.core.log (s.handler.cursor+1) published) with
    | none => simp
    | some top =>
      obtain ⟨final,finalIn,rfl⟩ := lastPosition_mem last
      unfold readLog at finalIn
      split at finalIn
      · cases finalIn
      · simp only [List.mem_filter,decide_eq_true_eq] at finalIn
        simp only [Option.getD_some]
        omega
  have up : s.handler.cursor ≤ next.cursor := by
    rw [cursor]
    exact le_max_left _ _
  obtain ⟨_,_,_,quiet⟩ := edits_only (framesOf s.handler.selectors (groupPositions (readLog s.core.log (s.handler.cursor+1) published)))
    fun frame member => have ⟨rows,same⟩ := framesOf_edits member; ⟨rows,s.handler.selectors,same⟩
  refine ⟨next,is,⟨⟨since,entered,selectors⟩,⟨_,sent,quiet⟩,?_,fine,current,?_⟩,up,same,by omega⟩
  · rw [since]
    omega
  · rw [since,entered]
    intro row member since_ upTo
    exact settled row member since_ (by omega)

theorem Serves.catchup (serves : s.Serves c lower) (piped : s.Piped) (hot : s.phase = .hot published) :
    ({s with handler:=s.handler.catchup s.core.log published} : Server σ).Serves c lower := by
  obtain ⟨next,is,replayed,up,same,head⟩ := serves.seam piped hot
  have published_ := serves.queues.le
  obtain ⟨since,entered,selectors⟩ := replayed.same
  obtain ⟨start,reached⟩ := replayed.reach
  have marked := replayed.fine.mark (.live (max next.cursor published)) (le_max_left next.cursor published) ⟨rfl,rfl,trivial⟩
    .live next.told
  unfold Handler.catchup
  dsimp only
  rw [is]
  refine ⟨serves.queues,⟨marked.inOrder,marked.logged,marked.behind,marked.placed⟩,?_,?_,⟨?_,?_⟩,fun row member since_ upTo => ?_,
    fun active _ row member since_ above upTo => ?_,fun published at_ => (by cases at_),fun published at_ => (by cases at_),
    fun phases => (by rcases phases with a | a <;> cases a)⟩
  · show next.selectors = viewAfter next.entered (next.sent++[.live (max next.cursor published)])
    rw [viewAfter_append]
    exact replayed.current
  · show c.active = true → viewThrough next.selectors c.backlog = c.selectors
    rw [selectors]
    exact serves.pending
  · show next.since ≤ max next.cursor published
    omega
  · show max next.cursor published ≤ max next.since s.core.head
    omega
  · have upTo_ : row.position ≤ max (max next.cursor published) lower := upTo
    exact (replayed.settled row member since_ (by omega)).lived _
  · have above_ : max (max next.cursor published) lower < row.position := above
    show Waits row next.selectors c.backlog
    rw [selectors]
    refine serves.waits active (by rw [hot]; rfl) row member (since ▸ since_) ?_ upTo
    omega

theorem vouches_quiet {frames seen : List Sent} (quiet : frames.filterMap Sent.vouched = []) :
    Along (Sent.Vouches log head since entered) seen frames := by
  rw [along_iff]
  rintro earlier frame later rfl through vouched
  have none_ : frame.vouched = none := by
    rw [List.filterMap_eq_nil_iff] at quiet
    exact quiet frame (by simp)
  rw [none_] at vouched
  cases vouched

theorem lives_quiet {frames : List Sent} (quiet : frames.filterMap Sent.vouched = []) : frames.countP Sent.isLive = 0 := by
  rw [List.countP_eq_zero]
  intro frame member
  have none_ := List.filterMap_eq_nil_iff.mp quiet frame member
  cases frame <;> simp_all [Sent.vouched,Sent.isLive]

theorem lives_after {more frames : List Sent} (quiet : frames.filterMap Sent.vouched = []) (frame : Sent) :
    (more++frames++[frame]).countP Sent.isLive = more.countP Sent.isLive+frame.isLive.toNat := by
  rw [List.countP_append,List.countP_append,lives_quiet quiet]
  cases frame <;> rfl

-- A handler's step that sends no vouch.
theorem Delivered.quietly (delivered : s.Delivered) (frames : List Sent) {t : Server σ} (core : t.core = s.core)
    (same : t.handler.since = s.handler.since ∧ t.handler.entered = s.handler.entered)
    (sent : t.handler.sent = s.handler.sent++frames) (quiet : frames.filterMap Sent.vouched = [])
    (inOrder : Along (Sent.InOrder s.handler.entered) [] t.handler.sent) (logged : (sentRows t.handler.sent).Sublist s.core.committed)
    (lives : ∀ n ∈ t.phase.lives, n ∈ s.phase.lives) (begun : t.phase.unsent = true → t.handler.sent = []) : t.Delivered := by
  have count : t.handler.sent.countP Sent.isLive = s.handler.sent.countP Sent.isLive := by
    rw [sent,List.countP_append,lives_quiet quiet]
    rfl
  refine ⟨same.2.symm ▸ inOrder,core.symm ▸ logged,?_,⟨count ▸ delivered.lives.1,fun n member => ?_⟩,begun⟩
  · rw [core,same.1,same.2,sent]
    exact along_append.mpr ⟨delivered.vouched,vouches_quiet quiet⟩
  · rw [count]
    exact delivered.lives.2 n (lives n member)

-- A step that sends nothing.
theorem Delivered.silent (delivered : s.Delivered) {t : Server σ} (core : t.core = s.core)
    (same : t.handler.since = s.handler.since ∧ t.handler.entered = s.handler.entered ∧ t.handler.sent = s.handler.sent)
    (lives : ∀ n ∈ t.phase.lives, n ∈ s.phase.lives) (begun : t.phase.unsent = true → s.phase.unsent = true) : t.Delivered :=
  delivered.quietly [] core ⟨same.1,same.2.1⟩ (by simp [same.2.2]) rfl (by rw [same.2.2]; exact delivered.inOrder)
    (by rw [same.2.2]; exact delivered.logged) lives (fun unsent => same.2.2.trans (delivered.unsent (begun unsent)))

-- A vouch, or the one live frame, at a cursor everything is settled through.
theorem Delivered.vouches (delivered : s.Delivered) (frame : Sent) {t : Server σ} {h : Handler} (core : t.core = s.core)
    (since : h.since = s.handler.since) (entered : h.entered = s.handler.entered)
    (sent : h.sent = s.handler.sent++frames) (quiet : frames.filterMap Sent.vouched = [])
    (same : t.handler.since = h.since ∧ t.handler.entered = h.entered ∧ t.handler.sent = h.sent++[frame])
    (vouched : frame.vouched = some through) (plain : Sent.rows frame = [] ∧ ∀ seen, Sent.InOrder h.entered seen frame)
    (inOrder : Along (Sent.InOrder h.entered) [] h.sent) (logged : (sentRows h.sent).Sublist s.core.committed)
    (reached : through ≤ max h.since s.core.head)
    (settled : ∀ row ∈ s.core.log, h.since < row.position → row.position ≤ through → Settled h.entered h.sent row)
    (lives : (h.sent++[frame]).countP Sent.isLive ≤ 1 ∧ ∀ n ∈ t.phase.lives, (h.sent++[frame]).countP Sent.isLive = n)
    (begun : t.phase.unsent = false) : t.Delivered := by
  refine ⟨?_,?_,?_,same.2.2 ▸ lives,fun unsent => ?_⟩
  · rw [same.2.1,same.2.2]
    exact along_append.mpr ⟨inOrder,along_single.mpr (plain.2 _)⟩
  · rw [core,same.2.2,sentRows_append]
    simpa [sentRows,plain.1] using logged
  · rw [core,same.1,same.2.1,same.2.2]
    refine along_append.mpr ⟨?_,along_single.mpr ?_⟩
    · rw [sent,since,entered]
      exact along_append.mpr ⟨delivered.vouched,vouches_quiet quiet⟩
    · intro at_ is
      rw [vouched] at is
      cases is
      refine ⟨reached,fun row member since_ upTo now above => ?_⟩
      exact (settled row member since_ upTo).present now above
  · rw [begun] at unsent
    cases unsent

theorem Delivered.batch (delivered : s.Delivered) {b : Batch σ} (follows : b.Follows s.core) :
    (s.batch host who b).Delivered := by
  have head := batch_head follows
  refine ⟨delivered.inOrder,delivered.logged.trans (List.sublist_append_left _ _),?_,delivered.lives,delivered.unsent⟩
  refine delivered.vouched.imp fun seen frame vouches through is => ?_
  obtain ⟨reached,every⟩ := vouches through is
  refine ⟨reached.trans (max_le_max (le_refl _) head),fun row member since upTo => ?_⟩
  rcases batch_log follows member with old | new
  · exact every row old since upTo
  · have since_ : s.handler.since < row.position := since
    omega

-- Taking a backlog, whether or not the handler goes on.
theorem Serves.delivers (serves : s.Serves c lower) (piped : s.Piped) (delivered : s.Delivered) {t : Server σ} (core : t.core = s.core)
    (same : t.handler.since = (s.handler.drain c).2.since ∧ t.handler.entered = (s.handler.drain c).2.entered ∧
      t.handler.sent = (s.handler.drain c).2.sent)
    (lives : ∀ n ∈ t.phase.lives, n ∈ s.phase.lives) (begun : t.phase.unsent = false) : t.Delivered := by
  have advanced := Handler.drain_ok (before_le piped.sorted) serves.fine serves.current c serves.queues
  obtain ⟨frames,sent,_,quiet⟩ := advanced.sent
  obtain ⟨_,since,entered⟩ := advanced.same
  refine delivered.quietly frames core ⟨same.1.trans since,same.2.1.trans entered⟩ (same.2.2.trans sent) quiet ?_ ?_ lives
    fun unsent => (by rw [begun] at unsent; cases unsent)
  · rw [same.2.2,← entered]
    exact advanced.fine.inOrder
  · rw [same.2.2]
    exact advanced.fine.logged

end Server

end PhaseLock
