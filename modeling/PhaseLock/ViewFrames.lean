import PhaseLock.Revocations

namespace PhaseLock

-- The phases of a catchup.
def Phase.catches : Phase → Bool
  | .taking => true
  | .reading => true
  | .switching => true
  | .hot _ => true
  | _ => false

theorem Phase.catches_entered {phase : Phase} (catches : phase.catches = true) : phase.entered = true := by
  cases phase <;> first | rfl | cases catches

theorem queues_changes (queues : Queues committed lower queued upper) (member : at_ ∈ queued.filterMap Queued.changes) : lower ≤ at_ := by
  induction queued generalizing lower with
  | nil => cases member
  | cons frame rest ih =>
    cases frame with
    | view position next =>
      rcases List.mem_cons.mp member with rfl | later
      · exact queues.1
      · exact queues.1.trans (ih queues.2 later)
    | ends code => exact ih queues member
    | commit mutations =>
      obtain ⟨_,_,through,low,_,after⟩ := queues
      exact low.trans (ih after member)

namespace Handler

-- A backlog of views is written at their positions, brought up to the cursor.
theorem forward_placed {queued : List Queued} (plain : ∀ mutations, .commit mutations ∉ queued) (h : Handler) :
    ∀ position ∈ viewPositions (h.forward queued).2.sent, position ∈ viewPositions h.sent ∨
      ∃ at_ ∈ queued.filterMap Queued.changes, position = max at_ h.cursor := by
  induction queued generalizing h with
  | nil => exact fun position placed => Or.inl placed
  | cons frame rest ih =>
    have fewer : ∀ mutations, .commit mutations ∉ rest := fun mutations member => plain mutations (List.mem_cons_of_mem _ member)
    intro position placed
    cases frame with
    | view at_ selectors =>
      rcases ih fewer {h.write (.view (max at_ h.cursor) selectors) with selectors} position placed with before | ⟨later,member,is⟩
      · rw [write,viewPositions_append,List.mem_append] at before
        refine before.imp id fun here => ⟨at_,List.mem_cons_self,?_⟩
        simpa [viewPositions,Sent.placed] using here
      · exact Or.inr ⟨later,List.mem_cons_of_mem _ member,is⟩
    | ends code =>
      rw [forward,write,viewPositions_append,List.mem_append] at placed
      exact Or.inl (placed.resolve_right (by simp [viewPositions,Sent.placed]))
    | commit mutations => exact absurd (by simp) (plain mutations)

end Handler

namespace Server
variable {σ : Type} {host : Host σ} {who : Principal} {ask : Ask} {limit : Nat} {s : Server σ} {c : Conn}

-- A catchup takes no view change ahead of it: the log holds no edit above its cursor, at or below
-- the change, that the connection's view covers.  Nor does a window behind a view frame begin past
-- the log's last position.
def Abreast (s : Server σ) : ServerEvent σ → Prop
  | .handle => (s.phase = .taking ∨ s.phase = .switching → ∀ c ∈ s.conn, c.active = true →
        ∀ position ∈ c.backlog.filterMap Queued.changes, ∀ row ∈ s.core.log, s.handler.cursor < row.position →
          row.position ≤ position → covered c.selectors row.slice = false) ∧
      (s.phase = .reading → s.handler.cursor < i64Max ∨ viewPositions s.handler.sent = [])
  | _ => True

-- A view frame splits the log: what was sent before it is at or below its position, what is sent
-- after it is above and filtered by the view then in force, and of the edits that view covers
-- none above it is left out.
structure Splits (host : Host σ) (who : Principal) (ask : Ask) (limit : Nat) (s : Server σ) : Prop where
  inOrder : Along (Sent.InOrder s.handler.entered) [] s.handler.sent
  above : Along Sent.Above [] s.handler.sent
  streamed : s.phase.entered = true → ∀ row ∈ s.core.log, s.handler.since < row.position → row.position ≤ s.handler.cursor →
    covered (viewAfter s.handler.entered s.handler.sent) row.slice = true →
      (∀ position ∈ viewPositions s.handler.sent, position < row.position) → row ∈ sentRows s.handler.sent
  arrives : s.phase.entered = true → ∃ events t, (∀ event ∈ events, event = .dispatch ∨ event = .handle) ∧
    (machine host who ask limit).Runs s events t ∧ t.core = s.core ∧ ((t.phase = .gone ∧ ∃ c, t.conn = some c ∧ c.active = false) ∨
      (t.phase = .live ∧ ∀ row ∈ t.core.log, t.handler.since < row.position →
        covered (viewAfter t.handler.entered t.handler.sent) row.slice = true →
          (∀ position ∈ viewPositions t.handler.sent, position < row.position) → row ∈ sentRows t.handler.sent))

-- While it catches up, no view frame it has sent is ahead of an edit it has still to send.
def Level (s : Server σ) : Prop := s.phase.catches = true → ∀ position ∈ viewPositions s.handler.sent, ∀ row ∈ s.core.log,
  s.handler.cursor < row.position → row.position ≤ position → covered s.handler.selectors row.slice = false

-- A replay of a clear window goes on above every view frame.
theorem replay_above (h : Handler) (log : List LogRow) (lower upper : Nat) (above : Along Sent.Above [] h.sent)
    (clear : ∀ row ∈ readLog log lower upper, covered h.selectors row.slice = true → ∀ position ∈ viewPositions h.sent, position < row.position) :
    Along Sent.Above [] (h.replay log lower upper).sent := by
  obtain ⟨told,is⟩ := h.replay_send log lower upper
  rw [is]
  refine along_append.mpr ⟨above,framesOf_above fun position member row rowIn covers => ?_⟩
  rw [groupPositions_flatten] at rowIn
  exact clear row rowIn covers position member

theorem drain_above (streams : s.Streams who ask) (above : Along Sent.Above [] s.handler.sent) (entered : s.phase.entered = true)
    (opened : s.conn = some c) : Along Sent.Above [] (s.handler.drain c).2.sent := by
  obtain ⟨c',opened',lower,serves⟩ := streams.serves entered
  rw [opened] at opened'
  cases opened'
  obtain ⟨frames,sent,after,_⟩ := (Handler.drain_ok (before_le streams.piped.sorted) serves.fine serves.current c serves.queues).sent
  rw [sent]
  exact along_append.mpr ⟨above,after⟩

theorem serves_above (streams : s.Streams who ask) (entered : s.phase.entered = true) (streaming : Bool) (step : Handler → Conn → Handler)
    (above : ∀ c, s.conn = some c → Along Sent.Above [] (step s.handler c).sent) :
    Along Sent.Above [] (s.serves streaming step).handler.sent := by
  obtain ⟨c,opened⟩ := streams.opened entered
  rw [serves_taken opened]
  exact above c opened

-- A window's edits are above every view frame where it is level.
theorem Level.ahead (level : s.Level) (catches : s.phase.catches = true) (ordinary : s.handler.cursor < i64Max)
    {row : LogRow} (inside : row ∈ readLog s.core.log (s.handler.cursor+1) upper) (covers : covered s.handler.selectors row.slice = true) :
    ∀ position ∈ viewPositions s.handler.sent, position < row.position := by
  intro position placed
  obtain ⟨logged,above,_⟩ := (readLog_mem ordinary).mp inside
  by_contra upTo
  have hidden := level catches position placed row logged above (Nat.not_lt.mp upTo)
  rw [hidden] at covers
  cases covers

-- A take of the backlog is level where it is abreast of the changes it takes.
theorem Level.taken (level : s.Level) (streams : s.Streams who ask) (abreast : s.Abreast .handle)
    (takes : s.phase = .taking ∨ s.phase = .switching) (opened : s.conn = some c) (whole : (s.handler.drain c).1 = true) :
    ∀ position ∈ viewPositions (s.handler.drain c).2.sent, ∀ row ∈ s.core.log, s.handler.cursor < row.position →
      row.position ≤ position → covered c.selectors row.slice = false := by
  have entered : s.phase.entered = true := by rcases takes with at_ | at_ <;> rw [at_] <;> rfl
  have catches : s.phase.catches = true := by rcases takes with at_ | at_ <;> rw [at_] <;> rfl
  have off : s.phase.streams = false := by rcases takes with at_ | at_ <;> rw [at_] <;> rfl
  obtain ⟨c',opened',lower,serves⟩ := streams.serves entered
  rw [opened] at opened'
  cases opened'
  obtain ⟨running,_,is⟩ := drain_whole whole
  obtain ⟨lasting,granted,at_,reply⟩ := streams.linked.entered entered
  have active := ((streams.linked.started c granted at_ opened reply lasting).2 entered).resolve_right running
  have plain := streams.linked.plain c opened ((streams.linked.streaming c opened (Or.inr entered)).trans off)
  have ahead := abreast.1 takes c opened active
  intro position placed row logged above upTo
  rw [is] at placed
  rcases Handler.forward_placed plain s.handler position placed with before | ⟨change,waits,rfl⟩
  · cases still : c.backlog.filterMap Queued.changes with
    | nil =>
      rw [← serves.pending active,viewThrough_still still]
      exact level catches position before row logged above upTo
    | cons first others =>
      -- a frame ahead of the cursor is behind every change that waits
      have waits : first ∈ c.backlog.filterMap Queued.changes := by rw [still]; exact List.mem_cons_self
      have bound := serves.fine.placed position before
      have lowest := queues_changes serves.queues waits
      exact ahead first waits row logged above (by omega)
  · exact ahead change waits row logged above (by omega)

theorem Level.take (level : s.Level) (streams : s.Streams who ask) (abreast : s.Abreast .handle) (taking : s.phase = .taking) :
    (s.serves false Handler.take).Level := by
  obtain ⟨c,opened,lower,serves⟩ := streams.serves (by rw [taking]; rfl)
  rw [serves_taken opened]
  intro catches
  cases whole : (s.handler.drain c).1 with
  | false =>
    rw [show Server.phase _ = (s.handler.take c).phase from rfl,take_phase,whole] at catches
    cases catches
  | true =>
    have drained := serves.drained streams.piped streams.linked opened (by rw [taking]; rfl) whole
    have taken := level.taken streams abreast (Or.inl taking) opened whole
    show ∀ position ∈ viewPositions (s.handler.drain c).2.sent, ∀ row ∈ s.core.log, (s.handler.drain c).2.cursor < row.position →
      row.position ≤ position → covered (s.handler.drain c).2.selectors row.slice = false
    rw [drained.shown,(drained.plain (by rw [taking]; rfl)).1]
    exact taken

theorem Level.switch (level : s.Level) (streams : s.Streams who ask) (abreast : s.Abreast .handle) (switching : s.phase = .switching) :
    (s.serves true fun h c => h.switch c s.dispatcher.position).Level := by
  obtain ⟨c,opened,lower,serves⟩ := streams.serves (by rw [switching]; rfl)
  rw [serves_taken opened]
  intro catches
  obtain ⟨left,ran,same⟩ := serves.switched streams.piped streams.linked opened switching
  cases whole : (s.handler.drain c).1 with
  | false =>
    rw [show Server.phase _ = (s.handler.switch c s.dispatcher.position).phase from rfl,switch_phase,ran,whole] at catches
    cases catches
  | true =>
    have drained := serves.drained streams.piped streams.linked opened (by rw [switching]; rfl) whole
    have taken := level.taken streams abreast (Or.inr switching) opened whole
    dsimp only
    unfold Handler.switch
    rw [ran]
    show ∀ position ∈ viewPositions (s.handler.drain c).2.sent, ∀ row ∈ s.core.log, (s.handler.drain c).2.cursor < row.position →
      row.position ≤ position → covered left row.slice = false
    rw [same whole,drained.shown,(drained.plain (by rw [switching]; rfl)).1]
    exact taken

-- A window read moves the cursor on under the same view, and sends no view frame.
theorem Level.read (level : s.Level) (reading : s.phase = .reading) :
    ({s with handler:=s.handler.read s.core.log} : Server σ).Level := by
  obtain ⟨told,is⟩ := s.handler.replay_send s.core.log (s.handler.cursor+1) (s.handler.cursor+coldBatch)
  have replayed : (s.handler.replay s.core.log (s.handler.cursor+1) (s.handler.cursor+coldBatch)).selectors = s.handler.selectors ∧
      s.handler.cursor ≤ (s.handler.replay s.core.log (s.handler.cursor+1) (s.handler.cursor+coldBatch)).cursor ∧
      viewPositions (s.handler.replay s.core.log (s.handler.cursor+1) (s.handler.cursor+coldBatch)).sent = viewPositions s.handler.sent := by
    rw [is]
    refine ⟨rfl,le_max_left _ _,?_⟩
    have none_ := (edits_only (framesOf s.handler.selectors
      (groupPositions (readLog s.core.log (s.handler.cursor+1) (s.handler.cursor+coldBatch)))) fun frame member => by
        obtain ⟨rows,rfl⟩ := framesOf_edits member
        exact ⟨rows,_,rfl⟩).1
    rw [viewPositions_append,none_,List.append_nil]
  have read : (s.handler.read s.core.log).selectors = s.handler.selectors ∧ s.handler.cursor ≤ (s.handler.read s.core.log).cursor ∧
      viewPositions (s.handler.read s.core.log).sent = viewPositions s.handler.sent := by
    unfold Handler.read
    dsimp only
    split
    · exact replayed
    · split
      · refine ⟨replayed.1,replayed.2.1,?_⟩
        rw [Handler.write,viewPositions_append,replayed.2.2]
        simp [viewPositions,Sent.placed]
      · exact replayed
  intro _ position placed row logged above upTo
  have within : position ∈ viewPositions (s.handler.read s.core.log).sent := placed
  have further : (s.handler.read s.core.log).cursor < row.position := above
  show covered (s.handler.read s.core.log).selectors row.slice = false
  rw [read.2.2] at within
  rw [read.1]
  exact level (by rw [reading]; rfl) position within row logged (read.2.1.trans_lt further) upTo

theorem Level.enter (level : s.Level) (streams : s.Streams who ask) (opening : s.phase = .opening) : (s.enter ask).Level := by
  rcases enter_cases s ask with same | ⟨phase_,left,kind⟩ | ⟨c,granted,position,since,presented,wants,opened,reply,trusted,rfl,entered⟩
  · rw [same]
    exact level
  · rw [left]
    intro catches
    rcases kind with ⟨status,_,rfl⟩ | rfl <;> cases catches
  · rw [entered]
    intro _ frame placed row _ above upTo
    -- the first view frame is at the cursor
    have nothing := streams.delivered.unsent (by rw [opening]; rfl)
    have here : frame = (s.handler.enters c since presented position).cursor := by
      revert placed
      show frame ∈ viewPositions (s.handler.enters c since presented position).sent → _
      unfold Handler.enters
      dsimp only
      split <;> simp [Handler.write,nothing,viewPositions,Sent.placed]
    have further : (s.handler.enters c since presented position).cursor < row.position := above
    omega

theorem Level.handle (level : s.Level) (streams : s.Streams who ask) (abreast : s.Abreast .handle) :
    (next host who ask limit s .handle).Level := by
  have away : ∀ {t : Server σ}, t.phase.catches = false → t.Level := fun left catches => by
    rw [left] at catches
    cases catches
  have served : ∀ {step : Handler → Conn → Handler}, s.phase.entered = true → (∀ c, (step s.handler c).phase.catches = false) →
      (s.serves false step).Level := by
    intro step entered leaves
    obtain ⟨c,opened⟩ := streams.opened entered
    rw [serves_taken opened]
    exact away (leaves c)
  unfold next
  dsimp only
  cases at_ : s.phase with
  | arriving =>
    dsimp only
    unfold arrive
    split <;> exact away rfl
  | admitted => exact away rfl
  | opening => exact level.enter streams at_
  | taking => exact level.take streams abreast at_
  | reading => exact level.read at_
  | switching => exact level.switch streams abreast at_
  | hot published => exact away rfl
  | live =>
    refine served (by rw [at_]; rfl) fun c => ?_
    rw [wake_phase]
    split <;> rfl
  | ticking published =>
    refine served (by rw [at_]; rfl) fun c => ?_
    rw [beat_phase]
    split <;> rfl
  | cutting => cases ask <;> exact away rfl
  | heading => exact away rfl
  | checking position =>
    dsimp only
    unfold check
    split
    · exact away rfl
    · exact level
  | answered status => exact level
  | gone => exact level

theorem Level.step (level : s.Level) (streams : s.Streams who ask) (event : ServerEvent σ) (allowed : s.allowed event)
    (abreast : s.Abreast event) : (next host who ask limit s event).Level := by
  cases event with
  | batch b =>
    intro catches position placed row logged above upTo
    rcases batch_log allowed.2.1 logged with old | new
    · exact level catches position placed row old above upTo
    · -- a row of this commit is above every view frame
      obtain ⟨c,opened,lower,serves⟩ := streams.serves (Phase.catches_entered catches)
      have bound := serves.fine.placed position placed
      have lowest := serves.queues.le
      have published := streams.piped.pipes.le
      have further : s.handler.cursor < row.position := above
      omega
  | close => exact level
  | dispatch =>
    show (s.dispatch limit).Level
    unfold Server.dispatch
    split <;> exact level
  | handle => exact level.handle streams abreast
  | tick => exact fun catches => (by cases catches)
  | ends code =>
    intro catches
    rw [show next host who ask limit s (.ends code) = s.ends code from rfl,show (s.ends code).phase = .gone by cases code <;> rfl] at catches
    cases catches

theorem handle_above (streams : s.Streams who ask) (above : Along Sent.Above [] s.handler.sent) (level : s.Level) (abreast : s.Abreast .handle) :
    Along Sent.Above [] (next host who ask limit s .handle).handler.sent := by
  unfold next
  dsimp only
  cases at_ : s.phase with
  | arriving =>
    dsimp only
    unfold arrive
    split <;> exact above
  | admitted => exact above
  | opening =>
    have nothing := streams.delivered.unsent (by rw [at_]; rfl)
    dsimp only
    rcases enter_cases s ask with same | ⟨phase_,left,kind⟩ | ⟨c,granted,position,since,presented,wants,opened,reply,trusted,rfl,entered⟩
    · rw [same]
      exact above
    · rw [left]
      exact above
    · rw [entered]
      show Along Sent.Above [] (s.handler.enters c since presented position).sent
      unfold Handler.enters
      dsimp only
      split
      · simp only [Handler.write,nothing,List.nil_append]
        exact along_single.mpr trivial
      · exact above
  | taking =>
    have entered : s.phase.entered = true := by rw [at_]; rfl
    exact serves_above streams entered false Handler.take fun c opened => drain_above streams above entered opened
  | reading =>
    dsimp only
    have clear : ∀ row ∈ readLog s.core.log (s.handler.cursor+1) (s.handler.cursor+coldBatch), covered s.handler.selectors row.slice = true →
        ∀ position ∈ viewPositions s.handler.sent, position < row.position := by
      intro row inside covers position placed
      rcases abreast.2 at_ with ordinary | none_
      · exact level.ahead (by rw [at_]; rfl) ordinary inside covers position placed
      · rw [none_] at placed
        cases placed
    have replayed := replay_above s.handler s.core.log (s.handler.cursor+1) (s.handler.cursor+coldBatch) above clear
    unfold Handler.read
    dsimp only
    split
    · exact replayed
    · split
      · exact along_append.mpr ⟨replayed,along_single.mpr trivial⟩
      · exact replayed
  | switching =>
    have entered : s.phase.entered = true := by rw [at_]; rfl
    refine serves_above streams entered true (fun h c => h.switch c s.dispatcher.position) fun c opened => ?_
    obtain ⟨c',opened',lower,serves⟩ := streams.serves entered
    rw [opened] at opened'
    cases opened'
    obtain ⟨left,ran,_⟩ := serves.switched streams.piped streams.linked opened at_
    unfold Handler.switch
    rw [ran]
    exact drain_above streams above entered opened
  | hot published =>
    have ordinary : ∀ row ∈ readLog s.core.log (s.handler.cursor+1) published, s.handler.cursor < i64Max := by
      intro row inside
      obtain ⟨c,opened,lower,serves⟩ := streams.serves (by rw [at_]; rfl)
      have here := serves.hot published at_
      have lowest := serves.queues.le
      have head := streams.piped.pipes.le
      have bounded := streams.piped.bounded
      unfold readLog at inside
      split at inside
      · cases inside
      · omega
    have replayed := replay_above s.handler s.core.log (s.handler.cursor+1) published above fun row inside covers =>
      level.ahead (by rw [at_]; rfl) (ordinary row inside) inside covers
    exact along_append.mpr ⟨replayed,along_single.mpr trivial⟩
  | live =>
    have entered : s.phase.entered = true := by rw [at_]; rfl
    exact serves_above streams entered false Handler.wake fun c opened => drain_above streams above entered opened
  | ticking published =>
    have entered : s.phase.entered = true := by rw [at_]; rfl
    refine serves_above streams entered false (fun h c => h.beat c published) fun c opened => ?_
    have drained := drain_above streams above entered opened
    unfold Handler.beat
    dsimp only
    split
    · exact along_append.mpr ⟨drained,along_single.mpr trivial⟩
    · exact drained
  | cutting => cases ask <;> exact above
  | heading => exact above
  | checking position =>
    dsimp only
    unfold check
    split <;> exact above
  | answered status => exact above
  | gone => exact above

theorem step_above (streams : s.Streams who ask) (above : Along Sent.Above [] s.handler.sent) (level : s.Level) (event : ServerEvent σ)
    (abreast : s.Abreast event) : Along Sent.Above [] (next host who ask limit s event).handler.sent := by
  cases event with
  | handle => exact handle_above streams above level abreast
  | dispatch =>
    show Along Sent.Above [] (s.dispatch limit).handler.sent
    unfold Server.dispatch
    split <;> exact above
  | ends code =>
    cases code with
    | none => exact above
    | some code => exact along_append.mpr ⟨above,along_single.mpr trivial⟩
  | _ => exact above

theorem Streams.splits (streams : s.Streams who ask) (informed : s.Informed host ask) (halted : s.Halted)
    (above : Along Sent.Above [] s.handler.sent) : s.Splits host who ask limit := by
  refine ⟨streams.delivered.inOrder,above,fun entered row member since upTo => ?_,fun entered => ?_⟩
  · obtain ⟨c,opened,lower,serves⟩ := streams.serves entered
    exact (serves.settled row member since (upTo.trans (settledTo_le s lower).1)).present
  · obtain ⟨events,t,quiet,goes,core,ends⟩ := streams.settles informed halted entered
    exact ⟨events,t,quiet,goes,core,ends.imp id fun ⟨live,settled⟩ => ⟨live,fun row member since => (settled row member since).present⟩⟩

-- In every run whose grants hash apart and whose catchups take each view change abreast of it, a
-- view frame splits the log.
theorem view_frames_split_the_log {d : Opening σ} {run : List (ServerEvent σ)}
    (runs : (((machine host who ask limit).under (Apart host ask)).under Abreast).Runs (opens d) run s) : s.Splits host who ask limit := by
  have kept : (s.Streams who ask ∧ s.Informed host ask) ∧ Along Sent.Above [] s.handler.sent ∧ s.Level := by
    refine runs.invariant (P:=fun s : Server σ => (s.Streams who ask ∧ s.Informed host ask) ∧ Along Sent.Above [] s.handler.sent ∧ s.Level)
      ⟨⟨opens_streams d,opens_informed d⟩,trivial,fun catches => (by cases catches)⟩ ?_
    intro before event good allowed
    obtain ⟨⟨streams,informed⟩,above,level⟩ := good
    obtain ⟨⟨does,apart⟩,abreast⟩ := allowed
    exact ⟨⟨streams.step informed event does,informed.step streams.piped streams.linked event does apart⟩,
      step_above streams above level event abreast,level.step streams event does abreast⟩
  exact kept.1.1.splits kept.1.2 (runs_halted runs.weaken.weaken) kept.2.1

instance (seen : List Sent) (frame : Sent) : Decidable (Sent.Above seen frame) := by
  cases frame with
  | edits rows under => exact inferInstanceAs (Decidable (∀ position ∈ _,∀ row ∈ _,_))
  | _ => exact .isTrue trivial

instance (s : Server σ) : ∀ event : ServerEvent σ, Decidable (s.Abreast event)
  | .handle => inferInstanceAs (Decidable ((_ ∨ _ → ∀ c ∈ s.conn, _ → ∀ position ∈ _, ∀ row ∈ _,_) ∧ (_ → _ ∨ _)))
  | .batch _ | .close | .dispatch | .tick | .ends _ => .isTrue trivial

instance [DecidableEq σ] (s : Server σ) (event : ServerEvent σ) :
    Decidable ((((machine host who ask limit).under (Apart host ask)).under Abreast).allowed s event) := inferInstanceAs (Decidable (_ ∧ _))

namespace Sample

-- A view change of a live stream, and an edit of each slice behind it.
def widening : List (ServerEvent (List Name × Int)) := streaming++[
  .batch {items:=[row 3 ['s'] 3,row 3 ['t'] 1],log:=[row 1 ['s'] 1,row 2 ['s'] 2,row 3 ['s'] 3,row 3 ['t'] 1],store:=([['s'],['t']],0)},
  .dispatch,.dispatch,.handle]

-- A view change queued past an edit that the cold catchup has not reached.
def crossing : List (ServerEvent (List Name × Int)) := entering++[
  .batch {items:=[row 1 ['s'] 1],log:=[row 1 ['s'] 1],store},.dispatch,
  .batch {items:=[row 2 ['t'] 1],log:=[row 1 ['s'] 1,row 2 ['t'] 1],store:=([['s'],['t']],0)},.dispatch,.handle,.handle]

end Sample

theorem view_frames_split_the_log_sample : ∃ s,
    (((machine Sample.hosted Sample.user Sample.all 8).under (Apart Sample.hosted Sample.all)).under Abreast).Runs (opens Sample.opening)
      Sample.widening s ∧ viewPositions s.handler.sent = [0,2] ∧ s.Splits Sample.hosted Sample.user Sample.all 8 := by
  obtain ⟨s,runs,placed⟩ := Machine.follow_finds
    (((machine Sample.hosted Sample.user Sample.all 8).under (Apart Sample.hosted Sample.all)).under Abreast)
    (opens Sample.opening) Sample.widening (fun s => viewPositions s.handler.sent = [0,2]) (by decide +kernel)
  exact ⟨s,runs,by simpa using placed,view_frames_split_the_log runs⟩

theorem replay_sends_below_its_view : ∃ s,
    (machine Sample.hosted Sample.user Sample.all 8).Runs (opens Sample.opening) Sample.crossing s ∧
    ¬s.Splits Sample.hosted Sample.user Sample.all 8 := by
  obtain ⟨s,runs,below⟩ := Machine.follow_finds (machine Sample.hosted Sample.user Sample.all 8) (opens Sample.opening) Sample.crossing
    (fun s => decide (¬Along Sent.Above [] s.handler.sent)) (by decide +kernel)
  exact ⟨s,runs,fun splits => of_decide_eq_true below splits.above⟩

end Server

end PhaseLock
