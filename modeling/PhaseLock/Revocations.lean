import PhaseLock.StreamPromises
import PhaseLock.Informing

namespace PhaseLock
open Selectors (intersect)

-- The position of a view change that waits in a backlog.
def Queued.changes : Queued → Option Nat
  | .view position _ => some position
  | _ => none

-- What a connection's rows answer for: each edit of a backlog its view covers satisfies a rule.
def Lawful (rule : LogRow → Prop) : List Name → List Queued → Prop
  | _,[] => True
  | _,.view _ next :: rest => Lawful rule next rest
  | view,.ends _ :: rest => Lawful rule view rest
  | view,.commit mutations :: rest =>
    (∀ row ∈ mutations.flatten, covered view row.slice = true → rule row) ∧ Lawful rule view rest

theorem Lawful.imp (implies : ∀ row, rule row → weaker row) (lawful : Lawful rule view queued) : Lawful weaker view queued := by
  induction queued generalizing view with
  | nil => trivial
  | cons frame rest ih =>
    cases frame with
    | view position next => exact @ih next lawful
    | ends code => exact @ih view lawful
    | commit mutations => exact ⟨fun row member covers => implies row (lawful.1 row member covers),ih lawful.2⟩

theorem Lawful.append (left : Lawful rule view queued) (right : Lawful rule (viewThrough view queued) tail) :
    Lawful rule view (queued++tail) := by
  induction queued generalizing view with
  | nil => exact right
  | cons frame rest ih =>
    cases frame with
    | view position next => exact ih left right
    | ends code => exact ih left right
    | commit mutations => exact ⟨left.1,ih left.2 right⟩

-- A backlog of views alone answers for nothing.
theorem lawful_plain (plain : ∀ mutations, .commit mutations ∉ queued) (view : List Name) : Lawful rule view queued := by
  induction queued generalizing view with
  | nil => trivial
  | cons frame rest ih =>
    have fewer : ∀ mutations, .commit mutations ∉ rest := fun mutations member => plain mutations (List.mem_cons_of_mem _ member)
    cases frame with
    | view position next => exact ih fewer next
    | ends code => exact ih fewer view
    | commit mutations => exact absurd (by simp) (plain mutations)

-- The edits of the commits that come behind a view change.
def behindView : List Res → List LogRow
  | [] => []
  | .view _ _ :: rest => rest.flatMap Res.items
  | _ :: rest => behindView rest

-- A commit on its way with no view change ahead of it shows the grant the connection has heard of.
theorem heard_shows {row : LogRow} (heard : Heard host wants history (some mark) channel final) (pipes : Pipes position channel head)
    (member : row ∈ channel.flatMap Res.items) (ahead : row ∉ behindView channel) :
    ∃ at_, row.position ≤ at_ ∧ Backed host history at_ mark := by
  induction channel generalizing position with
  | nil => cases member
  | cons res rest ih =>
    rw [List.flatMap_cons,List.mem_append] at member
    cases res with
    | commit at_ items =>
      obtain ⟨_,last,ordered,_,after⟩ := pipes
      rcases member with here | later
      · exact ⟨at_,lastPosition_top (before_le ordered) last row here,heard.1 mark rfl⟩
      · exact ih heard.2 after later ahead
    | view grant at_ => exact absurd (member.resolve_left List.not_mem_nil) ahead
    | registered grant at_ => cases heard.1
    | account generation => exact ih heard pipes (member.resolve_left List.not_mem_nil) ahead
    | forgotten => exact ih heard pipes (member.resolve_left List.not_mem_nil) ahead
    | shutdown => exact ih heard pipes (member.resolve_left List.not_mem_nil) ahead

-- A backlog of no view change leaves the view it began under.
theorem viewThrough_still {queued : List Queued} (still : queued.filterMap Queued.changes = []) (view : List Name) :
    viewThrough view queued = view := by
  induction queued with
  | nil => rfl
  | cons frame rest ih =>
    cases frame with
    | view position next => cases still
    | ends code => exact ih still
    | commit mutations => exact ih still

-- What a result queues changes the view at the position published, or not at all.
theorem frames_changes {position : Nat} {c : Conn} (member : at_ ∈ (c.frames position res).filterMap Queued.changes) : at_ = position := by
  cases res with
  | view grant begun =>
    cases grant with
    | ok granted =>
      simp only [Conn.frames] at member
      split at member
      · simpa [Queued.changes] using member
      · cases member
    | error why => cases member
  | commit begun items =>
    simp only [Conn.frames] at member
    split at member <;> cases member
  | _ => cases member

namespace Handler
variable {h : Handler}

theorem mutations_rows (groups : List (List LogRow)) (h : Handler) : ∀ row ∈ sentRows (groups.foldl mutation h).sent,
    row ∈ sentRows h.sent ∨ row ∈ groups.flatten ∧ covered h.selectors row.slice = true := by
  induction groups generalizing h with
  | nil => exact fun row member => Or.inl member
  | cons edits groups ih =>
    intro row member
    rw [List.foldl_cons] at member
    have next : (h.mutation edits).selectors = h.selectors ∧ ∀ row ∈ sentRows (h.mutation edits).sent,
        row ∈ sentRows h.sent ∨ row ∈ edits ∧ covered h.selectors row.slice = true := by
      unfold mutation
      split
      · exact ⟨rfl,fun row member => Or.inl member⟩
      · split
        · rename_i rows found
          refine ⟨rfl,fun row member => ?_⟩
          rw [write,sentRows_append,List.mem_append] at member
          refine member.imp id fun now => ?_
          have rowIn : row ∈ rows := by simpa [sentRows,Sent.rows] using now
          rw [(editsFrame_some.mp found).1] at rowIn
          exact List.mem_filter.mp rowIn
        · exact ⟨rfl,fun row member => Or.inl member⟩
    rcases ih _ row member with before | ⟨rowIn,covers⟩
    · rcases next.2 row before with old | ⟨rowIn,covers⟩
      · exact Or.inl old
      · exact Or.inr ⟨by simp [rowIn],covers⟩
    · exact Or.inr ⟨by simp [rowIn],next.1 ▸ covers⟩

-- A backlog forwarded sends what it answers for.
theorem forward_lawful (lawful : Lawful rule h.selectors queued) (sent : ∀ row ∈ sentRows h.sent, rule row) :
    ∀ row ∈ sentRows (h.forward queued).2.sent, rule row := by
  induction queued generalizing h with
  | nil => exact sent
  | cons frame rest ih =>
    cases frame with
    | view position selectors =>
      refine ih (h:={h.write (.view (max position h.cursor) selectors) with selectors}) lawful ?_
      simpa [write,sentRows,Sent.rows] using sent
    | ends code => simpa [forward,write,sentRows,Sent.rows] using sent
    | commit mutations =>
      refine ih (h:=mutations.foldl mutation h) (by rw [mutations_selectors]; exact lawful.2) fun row member => ?_
      rcases mutations_rows mutations h row member with before | ⟨rowIn,covers⟩
      · exact sent row before
      · exact lawful.1 row rowIn covers

theorem drain_lawful (c : Conn) (lawful : Lawful rule h.selectors c.backlog) (sent : ∀ row ∈ sentRows h.sent, rule row) :
    ∀ row ∈ sentRows (h.drain c).2.sent, rule row := by
  have forwards := forward_lawful lawful sent
  unfold drain
  split
  · rename_i next ran
    rwa [ran] at forwards
  · rename_i next ran
    rw [ran] at forwards
    dsimp only
    split
    · simpa [write,sentRows,Sent.rows] using forwards
    · exact forwards

-- A replay sends the rows of its window that the view covers.
theorem replay_rows (h : Handler) (log : List LogRow) (lower upper : Nat) : ∀ row ∈ sentRows (h.replay log lower upper).sent,
    row ∈ sentRows h.sent ∨ row ∈ readLog log lower upper ∧ covered h.selectors row.slice = true := by
  obtain ⟨told,is⟩ := h.replay_send log lower upper
  intro row member
  rw [is,sentRows_append,framesOf_rows,groupPositions_flatten,List.mem_append] at member
  exact member.imp id List.mem_filter.mp

end Handler

namespace Server
variable {σ : Type} {host : Host σ} {who : Principal} {ask : Ask} {limit : Nat} {s : Server σ} {c : Conn}

-- An edit of a commit that has not reached the handler: a view change ahead of it is on its way
-- or in the connection's backlog, or the connection has ended.
def Untaken (s : Server σ) (row : LogRow) : Prop := row ∈ behindView s.channel ∨
  ∃ c ∈ s.conn, c.active = false ∨ ∃ position ∈ c.backlog.filterMap Queued.changes, position < row.position

-- A view covers an edit that neither the view its commit left nor a later one does.
def Revoked (host : Host σ) (history : List (Nat × σ)) (wants view : List Name) (row : LogRow) : Prop :=
  covered view row.slice = true ∧ ¬Permitted host history wants row

-- A cold catchup reads the log ahead of what has reached it: its window holds no edit, committed
-- since its connection registered, that a commit which has not reached the handler revoked.
def Unraced (host : Host σ) (ask : Ask) (s : Server σ) : ServerEvent σ → Prop
  | .handle => s.phase = .reading → ∀ row ∈ readLog s.core.log (s.handler.cursor+1) (s.handler.cursor+coldBatch),
      s.repliedAt < row.position → s.Untaken row → ¬Revoked host s.core.history ask.wants s.handler.selectors row
  | _ => True

-- Every edit sent since its connection registered is one its view may show, and so is every
-- edit its handler is about to send; while it reads, its view shows what was published before
-- the first change that waits.
structure Guarded (host : Host σ) (ask : Ask) (s : Server σ) : Prop where
  backlog : s.phase.streams = true → ∀ c, s.conn = some c →
    Lawful (Permitted host s.core.history ask.wants) s.handler.selectors c.backlog
  cold : s.phase = .reading → ∀ c, s.conn = some c → ∀ position, (c.backlog.filterMap Queued.changes).head? = some position →
    ∀ row : LogRow, row.position ≤ position → covered s.handler.selectors row.slice = true → Permitted host s.core.history ask.wants row
  hot : ∀ published, s.phase = .hot published → ∀ row : LogRow, row.position ≤ published →
    covered s.handler.selectors row.slice = true → Permitted host s.core.history ask.wants row
  sent : ∀ row ∈ sentRows s.handler.sent, s.repliedAt < row.position → Permitted host s.core.history ask.wants row

theorem Guarded.batch (guarded : s.Guarded host ask) (b : Batch σ) : (s.batch host who b).Guarded host ask :=
  ⟨fun streams c opened => (guarded.backlog streams c opened).imp fun _ permitted => permitted.grow _,
    fun reading c opened position first row upTo covers => (guarded.cold reading c opened position first row upTo covers).grow _,
    fun published hot row upTo covers => (guarded.hot published hot row upTo covers).grow _,
    fun row member since => (guarded.sent row member since).grow _⟩

-- The registration of a stream entered is answered.
theorem entered_other (streams : s.Streams who ask) (entered : s.phase.entered = true) (first : s.channel = res :: rest) :
    ∀ grant at_, res ≠ .registered grant at_ := by
  rintro grant at_ rfl
  rw [(streams.linked.unanswered first).2] at entered
  cases entered

-- The first change that waits stays the first, or comes where the handler's view is the connection's.
theorem Guarded.waits (guarded : s.Guarded host ask) (streams : s.Streams who ask) (informed : s.Informed host ask)
    (reading : s.phase = .reading) (opened : s.conn = some c) (first : s.channel = res :: rest)
    (waiting : ((res.reaches limit s.dispatcher.position c).backlog.filterMap Queued.changes).head? = some position)
    (row : LogRow) (upTo : row.position ≤ position) (covers : covered s.handler.selectors row.slice = true) :
    Permitted host s.core.history ask.wants row := by
  have entered : s.phase.entered = true := by rw [reading]; rfl
  have other := entered_other streams entered first
  have before : (c.backlog.filterMap Queued.changes).head? = some position → Permitted host s.core.history ask.wants row :=
    fun waited => guarded.cold reading c opened position waited row upTo covers
  cases active : c.active with
  | false =>
    rw [(Conn.reaches_idle limit s.dispatcher.position active other).2.1] at waiting
    exact before waiting
  | true =>
    rcases Conn.reaches_active limit s.dispatcher.position (streams.linked.alive c opened active) active other with
      goes | ⟨_,_,more,split,ends⟩
    · rw [goes] at waiting
      dsimp only at waiting
      rw [List.filterMap_append] at waiting
      cases still : c.backlog.filterMap Queued.changes with
      | cons earlier others =>
        rw [still] at waiting
        exact before (by rw [still]; exact waiting)
      | nil =>
        rw [still,List.nil_append] at waiting
        have here := frames_changes (List.mem_of_mem_head? waiting)
        obtain ⟨c',opened',lower,serves⟩ := streams.serves entered
        rw [opened] at opened'
        cases opened'
        obtain ⟨mark,tells⟩ := informed.tells
        rw [← viewThrough_still still s.handler.selectors,serves.pending active] at covers
        exact tells.permits streams.linked opened active (here ▸ upTo) covers
    · -- an end changes no view
      have none_ : more.filterMap Queued.changes = [] := by
        refine List.filterMap_eq_nil_iff.mpr fun frame member => ?_
        obtain ⟨code,rfl⟩ := ends frame member
        rfl
      rw [split,List.filterMap_append,none_,List.append_nil] at waiting
      exact before waiting

theorem Guarded.dispatch (guarded : s.Guarded host ask) (streams : s.Streams who ask) (informed : s.Informed host ask) : (s.dispatch limit).Guarded host ask := by
  cases first : s.channel with
  | nil =>
    unfold Server.dispatch
    rw [first]
    exact guarded
  | cons res rest =>
    have dispatched : s.dispatch limit = {s with
        channel:=rest
        dispatcher:=s.dispatcher.takes res
        conn:=s.conn.map fun c => res.reaches limit s.dispatcher.position c} := by
      unfold Server.dispatch
      rw [first]
    obtain ⟨mark,tells⟩ := informed.tells
    have next := tells.dispatch limit streams.piped first
    have linkedNext : (s.dispatch limit).Linked who ask := streams.linked.dispatch
    rw [dispatched] at linkedNext ⊢
    refine ⟨fun on c' mapped => ?_,fun reading c' mapped position waiting => ?_,guarded.hot,fun row member since => ?_⟩
    · obtain ⟨c,opened,rfl⟩ := Option.map_eq_some_iff.mp mapped
      have streaming : s.phase.streams = true := on
      have entered : s.phase.entered = true := by
        cases at_ : s.phase <;> simp_all [Phase.streams,Phase.entered]
      have other := entered_other streams entered first
      have before := guarded.backlog streaming c opened
      cases wasActive : c.active with
      | false =>
        rw [(Conn.reaches_idle limit s.dispatcher.position wasActive other).2.1]
        exact before
      | true =>
        rcases Conn.reaches_active limit s.dispatcher.position (streams.linked.alive c opened wasActive) wasActive other with
          goes | ⟨_,_,more,split,ends⟩
        · have active : (res.reaches limit s.dispatcher.position c).active = true := by rw [goes]; exact wasActive
          obtain ⟨c',opened',lower,serves⟩ := streams.serves entered
          rw [opened] at opened'
          cases opened'
          rw [goes]
          refine before.append ?_
          rw [serves.pending wasActive]
          -- a commit queued is filtered by the view its batch left
          cases res with
          | commit at_ items =>
            simp only [Conn.frames]
            split
            · refine ⟨fun row member covers => ?_,trivial⟩
              rw [groupPositions_flatten] at member
              refine next.permits linkedNext mapped active ((streams.piped.publishes first).2.2.2.1 row member).2 ?_
              rw [goes]
              exact covers
            · trivial
          | view grant at_ =>
            cases grant with
            | ok granted =>
              simp only [Conn.frames]
              split <;> trivial
            | error why => trivial
          | _ => trivial
        · rw [split]
          refine before.append ?_
          refine lawful_plain (fun mutations member => ?_) _
          obtain ⟨code,is⟩ := ends _ member
          cases is
    · obtain ⟨c,opened,rfl⟩ := Option.map_eq_some_iff.mp mapped
      exact guarded.waits streams informed reading opened first waiting
    · refine guarded.sent row member ?_
      by_cases registered : ∃ grant at_, res = .registered grant at_
      · obtain ⟨grant,at_,rfl⟩ := registered
        have unsent := (streams.linked.unanswered first).1
        unfold repliedAt at since ⊢
        rw [unsent]
        exact Nat.zero_lt_of_lt since
      · have same : (s.dispatcher.takes res).reply = s.dispatcher.reply := by
          cases res <;> first | rfl | exact absurd ⟨_,_,rfl⟩ registered
        unfold repliedAt at since ⊢
        rwa [same] at since

-- A step that sends no edits and leaves no backlog to answer for.
theorem Guarded.quiet (guarded : s.Guarded host ask) {t : Server σ} (core : t.core = s.core) (dispatcher : t.dispatcher = s.dispatcher)
    (rows : sentRows t.handler.sent = sentRows s.handler.sent) (off : t.phase.streams = false) (unread : t.phase ≠ .reading) :
    t.Guarded host ask := by
  refine ⟨fun on => ?_,fun reading => absurd reading unread,fun published hot => ?_,?_⟩
  · rw [off] at on
    cases on
  · rw [hot] at off
    cases off
  · unfold repliedAt
    rw [core,rows,dispatcher]
    exact guarded.sent

-- A backlog taken whole: what it sends is what it answered for.
theorem Guarded.serves (guarded : s.Guarded host ask) (streaming : Bool) (step : Handler → Conn → Handler)
    (sent : ∀ c, s.conn = some c → ∀ row ∈ sentRows (step s.handler c).sent,
      row ∈ sentRows s.handler.sent ∨ Permitted host s.core.history ask.wants row)
    (hot : ∀ c, s.conn = some c → ∀ published, (step s.handler c).phase = .hot published → ∀ row : LogRow,
      row.position ≤ published → covered (step s.handler c).selectors row.slice = true →
        Permitted host s.core.history ask.wants row) : (s.serves streaming step).Guarded host ask := by
  cases opened : s.conn with
  | none =>
    unfold Server.serves
    rw [opened]
    exact guarded
  | some c =>
    rw [serves_taken opened]
    refine ⟨fun _ c' is => ?_,fun _ c' is position first => ?_,hot c opened,fun row member since => ?_⟩
    · cases is
      trivial
    · cases is
      cases first
    · exact (sent c opened row member).elim (guarded.sent row · since) id

-- A stream not yet switched takes views alone.
theorem Streams.takes (streams : s.Streams who ask) (entered : s.phase.entered = true) (off : s.phase.streams = false)
    (opened : s.conn = some c) (h : Handler) : sentRows (h.drain c).2.sent = sentRows h.sent := by
  have plain := streams.linked.plain c opened ((streams.linked.streaming c opened (Or.inr entered)).trans off)
  have rows := (Handler.forward_plain plain h).2.1
  unfold Handler.drain
  split
  · rename_i next ran
    rwa [ran] at rows
  · rename_i next ran
    rw [ran] at rows
    dsimp only
    split
    · simpa [Handler.write,sentRows,Sent.rows] using rows
    · exact rows

theorem Guarded.switch (guarded : s.Guarded host ask) (streams : s.Streams who ask) (informed : s.Informed host ask) (switching : s.phase = .switching) :
    (s.serves true fun h c => h.switch c s.dispatcher.position).Guarded host ask := by
  have entered : s.phase.entered = true := by rw [switching]; rfl
  have off : s.phase.streams = false := by rw [switching]; rfl
  obtain ⟨mark,tells⟩ := informed.tells
  refine guarded.serves true _ (fun c opened row member => Or.inl ?_) fun c opened published hot row upTo covers => ?_
  · rw [← streams.takes entered off opened {s.handler with selectors:=c.selectors}]
    exact member
  · obtain ⟨c',opened',lower,serves⟩ := streams.serves entered
    rw [opened] at opened'
    cases opened'
    obtain ⟨left,ran,same⟩ := serves.switched streams.piped streams.linked opened switching
    have whole : (s.handler.drain c).1 = true := by
      rw [switch_phase,ran] at hot
      by_contra stops
      simp [stops] at hot
    have at_ : published = s.dispatcher.position := by
      rw [switch_phase,ran] at hot
      simp only [whole,if_true,Phase.hot.injEq] at hot
      exact hot.symm
    -- the switch leaves the connection's own view in force
    have drained := serves.drained streams.piped streams.linked opened entered whole
    have shown : (s.handler.switch c s.dispatcher.position).selectors = c.selectors := by
      unfold Handler.switch
      rw [ran]
      exact (same whole).trans drained.shown
    obtain ⟨lasting,granted,position,reply⟩ := streams.linked.entered entered
    have active := ((streams.linked.started c granted position opened reply lasting).2 entered).resolve_right (drain_whole whole).1
    rw [shown] at covers
    exact tells.permits streams.linked opened active (at_ ▸ upTo) covers

theorem Guarded.enter (guarded : s.Guarded host ask) (streams : s.Streams who ask) (opening : s.phase = .opening) :
    (s.enter ask).Guarded host ask := by
  obtain ⟨core,_,dispatcher,_⟩ := enter_frame s ask
  have nothing := streams.delivered.unsent (by rw [opening]; rfl)
  rcases enter_cases s ask with same | ⟨phase_,left,kind⟩ | ⟨c,granted,position,since,presented,wants,opened,reply,trusted,rfl,entered⟩
  · rw [same]
    exact guarded
  · refine guarded.quiet core dispatcher (by rw [left]; rfl) ?_ ?_
    · rw [left]
      rcases kind with ⟨status,_,rfl⟩ | rfl <;> rfl
    · rw [left]
      rcases kind with ⟨status,_,rfl⟩ | rfl <;> simp [goes,phase]
  · have taking : (s.enter (.stream since presented wants)).phase = .taking := by
      rw [entered]
      exact enters_phase _ _ _ _ _
    refine guarded.quiet core dispatcher ?_ (by rw [taking]; rfl) (by rw [taking]; simp)
    rw [entered,nothing]
    show sentRows (s.handler.enters c since presented position).sent = []
    unfold Handler.enters
    dsimp only
    split <;> simp [Handler.write,nothing,sentRows,Sent.rows]

-- A row of the log whose commit has reached the handler, and which its view covers, may be shown.
theorem Guarded.reached (guarded : s.Guarded host ask) (streams : s.Streams who ask) (informed : s.Informed host ask)
    (reading : s.phase = .reading) {row : LogRow} (logged : row ∈ s.core.log) (covers : covered s.handler.selectors row.slice = true)
    (taken : ¬s.Untaken row) : Permitted host s.core.history ask.wants row := by
  obtain ⟨ahead,waits⟩ := not_or.mp taken
  obtain ⟨c,opened,lower,serves⟩ := streams.serves (by rw [reading]; rfl)
  obtain ⟨lives,waits⟩ := not_or.mp fun either => waits ⟨c,opened,either⟩
  have active : c.active = true := by simpa using lives
  cases still : c.backlog.filterMap Queued.changes with
  | cons first others =>
    refine guarded.cold reading c opened first (by rw [still]; rfl) row ?_ covers
    exact Nat.not_lt.mp fun past => waits ⟨first,by rw [still]; exact List.mem_cons_self,past⟩
  | nil =>
    -- the handler's view is the connection's
    have shown := (viewThrough_still still s.handler.selectors).symm.trans (serves.pending active)
    obtain ⟨mark,tells⟩ := informed.tells
    by_cases published : row.position ≤ s.dispatcher.position
    · exact tells.permits streams.linked opened active published (shown ▸ covers)
    · obtain ⟨m,is⟩ := Option.ne_none_iff_exists'.mp (tells.active c opened active)
      obtain ⟨granted,rfl,cut⟩ := tells.shown m c is opened (streams.linked.alive c opened active).granted
      obtain ⟨past,split,behind⟩ := streams.piped.past
      have coming : row ∈ s.channel.flatMap Res.items := by
        have committed := streams.piped.logged.subset logged
        rw [split,List.mem_append] at committed
        exact committed.resolve_left fun old => published (behind row old)
      obtain ⟨at_,upTo,backed⟩ := heard_shows (is ▸ tells.heard) streams.piped.pipes coming ahead
      rw [shown,cut,(streams.linked.same c opened).1] at covers
      obtain ⟨entry,member,placed,shows⟩ := backed.covers covers
      exact ⟨entry,member,placed ▸ upTo,shows⟩

theorem Guarded.read (guarded : s.Guarded host ask) (streams : s.Streams who ask) (informed : s.Informed host ask)
    (unraced : s.Unraced host ask .handle) (reading : s.phase = .reading) :
    ({s with handler:=s.handler.read s.core.log} : Server σ).Guarded host ask := by
  have rows : ∀ row ∈ sentRows (s.handler.read s.core.log).sent, row ∈ sentRows s.handler.sent ∨
      row ∈ readLog s.core.log (s.handler.cursor+1) (s.handler.cursor+coldBatch) ∧ covered s.handler.selectors row.slice = true := by
    have replays := s.handler.replay_rows s.core.log (s.handler.cursor+1) (s.handler.cursor+coldBatch)
    unfold Handler.read
    dsimp only
    split
    · exact replays
    · split
      · simpa [Handler.write,sentRows,Sent.rows] using replays
      · exact replays
  have goes : (s.handler.read s.core.log).phase = .switching ∨ (s.handler.read s.core.log).phase = .taking :=
    read_phase s.handler s.core.log
  have leaves : ∀ {phase : Phase}, (s.handler.read s.core.log).phase = phase → phase = .switching ∨ phase = .taking := fun is => is ▸ goes
  refine ⟨fun on => ?_,fun again => ?_,fun published hot => ?_,fun row member since => ?_⟩
  · unfold Server.phase at on
    dsimp only at on
    rcases goes with done | more
    · rw [done] at on
      cases on
    · rw [more] at on
      cases on
  · rcases leaves again with done | more <;> contradiction
  · rcases leaves hot with done | more <;> contradiction
  · rcases rows row member with old | ⟨window,covers⟩
    · exact guarded.sent row old since
    · have logged : row ∈ s.core.log := by
        unfold readLog at window
        split at window
        · cases window
        · exact List.mem_of_mem_filter window
      by_cases untaken : s.Untaken row
      · by_contra forbidden
        exact unraced reading row window since untaken ⟨covers,forbidden⟩
      · exact guarded.reached streams informed reading logged covers untaken

theorem Guarded.catchup (guarded : s.Guarded host ask) (hot : s.phase = .hot published) :
    ({s with handler:=s.handler.catchup s.core.log published} : Server σ).Guarded host ask := by
  obtain ⟨told,is⟩ := s.handler.replay_send s.core.log (s.handler.cursor+1) published
  have rows := s.handler.replay_rows s.core.log (s.handler.cursor+1) published
  refine ⟨fun _ c opened => ?_,fun reading => (by cases reading),fun published is => (by cases is),fun row member since => ?_⟩
  · have before := guarded.backlog (by rw [hot]; rfl) c opened
    have same : (s.handler.catchup s.core.log published).selectors = s.handler.selectors := by
      unfold Handler.catchup
      dsimp only
      rw [is]
      rfl
    show Lawful (Permitted host s.core.history ask.wants) (s.handler.catchup s.core.log published).selectors c.backlog
    rw [same]
    exact before
  · have replayed : row ∈ sentRows (s.handler.replay s.core.log (s.handler.cursor+1) published).sent := by
      have sent : row ∈ sentRows (s.handler.catchup s.core.log published).sent := member
      unfold Handler.catchup at sent
      simpa [Handler.write,sentRows,Sent.rows] using sent
    rcases rows row replayed with old | ⟨window,covers⟩
    · exact guarded.sent row old since
    · refine guarded.hot published hot row ?_ covers
      unfold readLog at window
      split at window
      · cases window
      · simp only [List.mem_filter,decide_eq_true_eq] at window
        omega

theorem Guarded.handle (guarded : s.Guarded host ask) (streams : s.Streams who ask) (informed : s.Informed host ask)
    (unraced : s.Unraced host ask .handle) : (next host who ask limit s .handle).Guarded host ask := by
  -- what a live connection's backlog sends
  have live : s.phase.streams = true → ∀ c, s.conn = some c → ∀ row ∈ sentRows (s.handler.drain c).2.sent,
      row ∈ sentRows s.handler.sent ∨ Permitted host s.core.history ask.wants row := fun on c opened =>
    Handler.drain_lawful c ((guarded.backlog on c opened).imp fun row permitted => Or.inr permitted) fun row member => Or.inl member
  unfold next
  dsimp only
  cases at_ : s.phase with
  | arriving =>
    dsimp only
    unfold arrive
    split <;> exact guarded.quiet rfl rfl rfl rfl (by simp [goes,phase])
  | admitted => exact guarded.quiet rfl rfl rfl rfl (by simp [insert,goes,phase])
  | opening => exact guarded.enter streams at_
  | taking =>
    refine guarded.serves false Handler.take (fun c opened row member => Or.inl ?_) fun c opened published hot => ?_
    · rw [← streams.takes (by rw [at_]; rfl) (by rw [at_]; rfl) opened s.handler]
      exact member
    · rw [take_phase] at hot
      split at hot <;> cases hot
  | reading => exact guarded.read streams informed unraced at_
  | switching => exact guarded.switch streams informed at_
  | hot published => exact guarded.catchup at_
  | live =>
    refine guarded.serves false Handler.wake (live (by rw [at_]; rfl)) fun c opened published hot => ?_
    rw [wake_phase] at hot
    split at hot <;> cases hot
  | ticking published =>
    refine guarded.serves false (fun h c => h.beat c published) (fun c opened row member => ?_) fun c opened published hot => ?_
    · have sent := live (by rw [at_]; rfl) c opened row
      unfold Handler.beat at member
      dsimp only at member
      split at member
      · refine sent ?_
        simpa [Handler.write,sentRows,Sent.rows] using member
      · exact sent member
    · rw [beat_phase] at hot
      split at hot <;> cases hot
  | cutting =>
    cases ask <;> exact guarded.quiet rfl rfl rfl rfl (by simp [cut,page,goes,phase])
  | heading => exact guarded.quiet rfl rfl rfl rfl (by simp [bound,goes,phase])
  | checking position =>
    dsimp only
    unfold check
    split
    · exact guarded.quiet rfl rfl rfl rfl (by simp [goes,phase])
    · exact guarded
  | answered status => exact guarded
  | gone => exact guarded

theorem Guarded.step (guarded : s.Guarded host ask) (streams : s.Streams who ask) (informed : s.Informed host ask) (event : ServerEvent σ)
    (allowed : s.allowed event) (unraced : s.Unraced host ask event) : (next host who ask limit s event).Guarded host ask := by
  cases event with
  | batch b => exact guarded.batch b
  | close => exact ⟨guarded.backlog,guarded.cold,guarded.hot,guarded.sent⟩
  | dispatch => exact guarded.dispatch streams informed
  | handle => exact guarded.handle streams informed unraced
  | tick =>
    have live : s.phase = .live := allowed
    exact ⟨fun _ => guarded.backlog (by rw [live]; rfl),fun reading => (by cases reading),fun published is => (by cases is),guarded.sent⟩
  | ends code =>
    refine guarded.quiet (t:=s.ends code) rfl rfl ?_ (by cases code <;> rfl) (by cases code <;> simp [Server.ends,phase])
    cases code with
    | none => rfl
    | some code => simp [ends,Handler.write,sentRows,Sent.rows]

theorem opens_guarded (d : Opening σ) : (opens d).Guarded host ask :=
  ⟨fun on => (by cases on),fun reading => (by cases reading),fun published is => (by cases is),fun row member => (by cases member)⟩

instance (history : List (Nat × σ)) (wants : List Name) (row : LogRow) : Decidable (Permitted host history wants row) :=
  inferInstanceAs (Decidable (∃ entry ∈ history, _))

instance (s : Server σ) (row : LogRow) : Decidable (s.Untaken row) :=
  inferInstanceAs (Decidable (_ ∨ ∃ c ∈ s.conn, _ = _ ∨ ∃ position ∈ _,_))

instance (history : List (Nat × σ)) (wants view : List Name) (row : LogRow) : Decidable (Revoked host history wants view row) :=
  inferInstanceAs (Decidable (_ ∧ _))

instance (s : Server σ) : ∀ event : ServerEvent σ, Decidable (s.Unraced host ask event)
  | .handle => inferInstanceAs (Decidable (_ = _ → ∀ row ∈ _,_))
  | .batch _ | .close | .dispatch | .tick | .ends _ => .isTrue trivial

instance [DecidableEq σ] (s : Server σ) (event : ServerEvent σ) :
    Decidable ((((machine host who ask limit).under (Apart host ask)).under (Unraced host ask)).allowed s event) :=
  inferInstanceAs (Decidable (_ ∧ _))

-- Each edits frame is sent behind the view that filtered it, and each edit committed since the
-- connection registered is one that its commit's view, or a later one, covers.
structure Shows (host : Host σ) (ask : Ask) (s : Server σ) : Prop where
  filtered : Along (Sent.Filtered s.handler.entered) [] s.handler.sent
  permitted : ∀ row ∈ sentRows s.handler.sent, s.repliedAt < row.position → Permitted host s.core.history ask.wants row

theorem Streams.filtered (streams : s.Streams who ask) : Along (Sent.Filtered s.handler.entered) [] s.handler.sent := by
  refine streams.delivered.inOrder.imp fun earlier frame inOrder => ?_
  cases frame with
  | edits rows under => exact ⟨inOrder.1,inOrder.2.2.1⟩
  | _ => trivial

-- A window that races a revocation sends what it revoked.
theorem raced_leaks (raced : ¬s.Unraced host ask .handle) : ¬(next host who ask limit s .handle).Shows host ask := by
  intro shows
  refine raced fun reading row window since _ ⟨covers,forbidden⟩ => forbidden ?_
  have goes : next host who ask limit s .handle = {s with handler:=s.handler.read s.core.log} := by simp [next,reading]
  rw [goes] at shows
  refine shows.permitted row ?_ since
  obtain ⟨told,is⟩ := s.handler.replay_send s.core.log (s.handler.cursor+1) (s.handler.cursor+coldBatch)
  have sent : row ∈ sentRows (s.handler.replay s.core.log (s.handler.cursor+1) (s.handler.cursor+coldBatch)).sent := by
    rw [is,sentRows_append,framesOf_rows,groupPositions_flatten]
    exact List.mem_append_right _ (List.mem_filter.mpr ⟨window,covers⟩)
  show row ∈ sentRows (s.handler.read s.core.log).sent
  unfold Handler.read
  dsimp only
  split
  · exact sent
  · split
    · simpa [Handler.write,sentRows,Sent.rows] using sent
    · exact sent

theorem runs_guarded {d : Opening σ} {run : List (ServerEvent σ)}
    (runs : (((machine host who ask limit).under (Apart host ask)).under (Unraced host ask)).Runs (opens d) run s) :
    s.Streams who ask ∧ s.Informed host ask ∧ s.Guarded host ask := by
  refine runs.invariant (P:=fun s => s.Streams who ask ∧ s.Informed host ask ∧ s.Guarded host ask)
    ⟨opens_streams d,opens_informed d,opens_guarded d⟩ ?_
  intro before event good allowed
  obtain ⟨streams,informed,guarded⟩ := good
  exact ⟨streams.step informed event allowed.1.1,informed.step streams.piped streams.linked event allowed.1.1 allowed.1.2,
    guarded.step streams informed event allowed.1.1 allowed.2⟩

-- In every run whose grants hash apart, each edit sent is shown by its view exactly while no
-- window races a revocation.
theorem edits_are_shown {d : Opening σ} {run : List (ServerEvent σ)}
    (runs : ((machine host who ask limit).under (Apart host ask)).Runs (opens d) run s) :
    (((machine host who ask limit).under (Apart host ask)).under (Unraced host ask)).Runs (opens d) run s ↔
      ∀ earlier later t, run = earlier++later → ((machine host who ask limit).under (Apart host ask)).Runs (opens d) earlier t →
        t.Shows host ask := by
  refine runs.under_iff (fun obeys => ?_) fun {events s event} _ _ raced => ?_
  · obtain ⟨streams,_,guarded⟩ := runs_guarded obeys
    exact ⟨streams.filtered,guarded.sent⟩
  · cases event with
    | handle =>
      show ¬(next host who ask limit s .handle).Shows host ask
      exact raced_leaks raced
    | _ => exact absurd trivial raced

theorem edits_are_shown_sample : ∃ s, ((machine Sample.hosted Sample.user Sample.all 8).under (Apart Sample.hosted Sample.all)).Runs
      (opens Sample.opening) Sample.streaming s ∧ sentRows s.handler.sent = [Sample.row 1 ['s'] 1,Sample.row 2 ['s'] 2] ∧
    ∀ earlier later t, Sample.streaming = earlier++later →
      ((machine Sample.hosted Sample.user Sample.all 8).under (Apart Sample.hosted Sample.all)).Runs (opens Sample.opening) earlier t →
        t.Shows Sample.hosted Sample.all := by
  obtain ⟨s,runs,sent⟩ := Machine.follow_finds
    (((machine Sample.hosted Sample.user Sample.all 8).under (Apart Sample.hosted Sample.all)).under (Unraced Sample.hosted Sample.all))
    (opens Sample.opening) Sample.streaming (fun s => sentRows s.handler.sent = [Sample.row 1 ['s'] 1,Sample.row 2 ['s'] 2])
    (by decide +kernel)
  exact ⟨s,runs.weaken,by simpa using sent,(edits_are_shown runs.weaken).mp runs⟩

namespace Sample

-- A commit of an edit of s revokes it, between a cold catchup's take and its window's read.
def racing : List (ServerEvent (List Name × Int)) := entering++[.handle,
  .batch {items:=[row 1 ['s'] 1],log:=[row 1 ['s'] 1],store:=([],0)},.handle]

end Sample

theorem window_shows_revoked : ∃ s, (machine Sample.hosted Sample.user Sample.all 8).Runs (opens Sample.opening) Sample.racing s ∧
    ¬s.Shows Sample.hosted Sample.all := by
  obtain ⟨s,runs,leaks⟩ := Machine.follow_finds (machine Sample.hosted Sample.user Sample.all 8) (opens Sample.opening) Sample.racing
    (fun s => decide (¬∀ row ∈ sentRows s.handler.sent, s.repliedAt < row.position →
      Permitted Sample.hosted s.core.history Sample.all.wants row)) (by decide +kernel)
  exact ⟨s,runs,fun shows => of_decide_eq_true leaks shows.permitted⟩

end Server

end PhaseLock
