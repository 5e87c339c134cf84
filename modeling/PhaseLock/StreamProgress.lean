import PhaseLock.StreamRuns

namespace PhaseLock

namespace Server
variable {σ : Type} {host : Host σ} {who : Principal} {ask : Ask} {limit : Nat} {s : Server σ} {c : Conn}

-- A stopped dispatcher has ended its connection.
def Halted (s : Server σ) : Prop := s.dispatcher.stopped = true → ∀ c, s.conn = some c → c.active = false

theorem takes_stopped {d : Dispatcher} (running : d.stopped = false) (stops : (d.takes res).stopped = true) : res = .shutdown := by
  cases res with
  | shutdown => rfl
  | _ =>
    simp only [Dispatcher.takes,running] at stops
    cases stops

theorem Halted.dispatch (allowed : s.dispatcher.stopped = false) : (s.dispatch limit).Halted := by
  unfold Server.dispatch
  cases first : s.channel with
  | nil =>
    intro stops
    rw [show s.dispatcher.stopped = true from stops] at allowed
    cases allowed
  | cons res rest =>
    intro stops c' mapped
    have down := takes_stopped allowed stops
    subst down
    obtain ⟨c,_,rfl⟩ := Option.map_eq_some_iff.mp mapped
    simp only [Res.reaches,Conn.stop]
    split
    · rfl
    · rename_i inactive
      simpa using inactive

theorem Halted.step (halted : s.Halted) (event : ServerEvent σ) (allowed : s.allowed event) :
    (next host who ask limit s event).Halted := by
  cases event with
  | batch b => exact halted
  | close => exact halted
  | dispatch => exact Halted.dispatch allowed
  | tick => exact halted
  | ends code => exact halted
  | handle =>
    intro stops c' opened
    rw [(handle_frame host who ask limit s).2.2] at stops
    rcases handle_conn opened with ⟨_,rfl⟩ | ⟨before,was,same⟩
    · rfl
    · rw [same]
      exact halted stops before was

theorem opens_halted (d : Opening σ) : (opens d).Halted := fun stops => by cases stops

theorem runs_halted {d : Opening σ} {run : List (ServerEvent σ)} (runs : (machine host who ask limit).Runs (opens d) run s) :
    s.Halted :=
  runs.invariant (opens_halted d) fun _ event halted allowed => halted.step event allowed

-- A stream at rest: its connection ended, or it is live with its backlog written.
def Rests (s : Server σ) : Prop :=
  (s.phase = .gone ∧ ∃ c, s.conn = some c ∧ c.active = false) ∨
  (s.phase = .live ∧ ∃ c, s.conn = some c ∧ c.active = true ∧ c.backlog = [])

-- A constructive schedule: the handler's steps alone bring a stream to rest.
def Comes (host : Host σ) (who : Principal) (ask : Ask) (limit : Nat) (s : Server σ) : Prop := ∃ n t,
  (machine host who ask limit).Runs s (List.replicate n .handle) t ∧ t.Rests ∧ t.core = s.core ∧ t.channel = s.channel ∧
  t.dispatcher = s.dispatcher

theorem Comes.here (rests : s.Rests) : Comes host who ask limit s := ⟨0,s,.nil,rests,rfl,rfl,rfl⟩

theorem handle_allowed (entered : s.phase.entered = true) : s.allowed .handle := by
  unfold allowed
  cases at_ : s.phase <;> simp_all [Phase.entered,Phase.streams]

theorem Comes.next (entered : s.phase.entered = true) (comes : Comes host who ask limit (next host who ask limit s .handle)) :
    Comes host who ask limit s := by
  obtain ⟨n,t,runs,rests,core,channel,dispatcher⟩ := comes
  obtain ⟨sameCore,sameChannel,sameDispatcher⟩ := handle_frame host who ask limit s
  refine ⟨n+1,t,?_,rests,core.trans sameCore,channel.trans sameChannel,dispatcher.trans sameDispatcher⟩
  have first : (machine host who ask limit).Runs s ([]++[.handle]) (Server.next host who ask limit s .handle) :=
    .step .nil (handle_allowed entered)
  have whole := first.append runs
  rwa [List.nil_append,List.singleton_append] at whole

-- A backlog that is not written whole ends its connection.
theorem forward_ended {h : Handler} {queued : List Queued} (stops : (h.forward queued).1 = false) : ∃ code, .ends code ∈ queued := by
  induction queued generalizing h with
  | nil => cases stops
  | cons frame rest ih =>
    cases frame with
    | ends code => exact ⟨code,by simp⟩
    | view position selectors =>
      obtain ⟨code,member⟩ := ih stops
      exact ⟨code,List.mem_cons_of_mem _ member⟩
    | commit mutations =>
      obtain ⟨code,member⟩ := ih stops
      exact ⟨code,List.mem_cons_of_mem _ member⟩

theorem drain_ended {h : Handler} (stops : (h.drain c).1 = false) : c.Ending := by
  unfold Handler.drain at stops
  split at stops
  · rename_i next ran
    exact Or.inr (Or.inr (forward_ended (h:=h) (by rw [ran])))
  · simp only [Bool.not_eq_false',Bool.or_eq_true] at stops
    rcases stops with full | down
    · exact Or.inl full
    · exact Or.inr (Or.inl down)

theorem ending_idle (alive : c.active = true → c.Alive) (ending : c.Ending) : c.active = false := by
  by_contra active
  obtain ⟨running,down,ends⟩ := (alive (by simpa using active)).running
  rcases ending with full | stopped | ⟨code,member⟩
  · rw [running] at full
    cases full
  · rw [down] at stopped
    cases stopped
  · exact ends code member

theorem drain_cursor (h : Handler) (c : Conn) : (h.drain c).2.cursor = (h.forward c.backlog).2.cursor := by
  unfold Handler.drain
  split
  · rename_i next ran
    rw [ran]
  · rename_i next ran
    rw [ran]
    dsimp only
    split <;> rfl

-- A backlog taken: its connection ended, or is active and its handler goes on.
theorem Streams.taken (streams : s.Streams who ask) (entered : s.phase.entered = true) (opened : s.conn = some c)
    (streaming : Bool) (step : Handler → Conn → Handler) {h : Handler}
    (phase : (step s.handler c).phase = if (h.drain c).1 then onward else .gone) :
    (s.serves streaming step).Rests ∨ (s.serves streaming step).phase = onward ∧ c.active = true ∧
      (s.serves streaming step).conn = some (taken c streaming) := by
  obtain ⟨lasting,granted,position,reply⟩ := streams.linked.entered entered
  have alive := streams.linked.alive c opened
  rw [serves_taken opened]
  cases whole : (h.drain c).1 with
  | false =>
    refine Or.inl (Or.inl ⟨phase.trans (by simp [whole]),Server.taken c streaming,rfl,?_⟩)
    have idle : c.active = false := ending_idle alive (drain_ended whole)
    exact idle
  | true =>
    refine Or.inr ⟨phase.trans (by simp [whole]),?_,rfl⟩
    exact ((streams.linked.started c granted position opened reply lasting).2 entered).resolve_right (drain_whole whole).1

theorem Streams.opened (streams : s.Streams who ask) (entered : s.phase.entered = true) : ∃ c, s.conn = some c := by
  obtain ⟨c,opened,_⟩ := streams.serves entered
  exact ⟨c,opened⟩

theorem Streams.live_comes (streams : s.Streams who ask) (live : s.phase = .live) : Comes host who ask limit s := by
  have entered : s.phase.entered = true := by rw [live]; rfl
  obtain ⟨c,opened⟩ := streams.opened entered
  refine .next entered ?_
  rw [show next host who ask limit s .handle = s.serves false Handler.wake by simp [next,live]]
  rcases streams.taken entered opened false Handler.wake (wake_phase s.handler c) with rests | ⟨phase_,active,conn⟩
  · exact .here rests
  · exact .here (Or.inr ⟨phase_,_,conn,active,rfl⟩)

theorem Streams.ticking_comes (streams : s.Streams who ask) (ticking : s.phase = .ticking published) :
    Comes host who ask limit s := by
  have entered : s.phase.entered = true := by rw [ticking]; rfl
  obtain ⟨c,opened⟩ := streams.opened entered
  refine .next entered ?_
  rw [show next host who ask limit s .handle = s.serves false fun h c => h.beat c published by simp [next,ticking]]
  rcases streams.taken entered opened false (fun h c => h.beat c published) (beat_phase s.handler c published) with
    rests | ⟨phase_,active,conn⟩
  · exact .here rests
  · exact .here (Or.inr ⟨phase_,_,conn,active,rfl⟩)

theorem Streams.hot_comes (streams : s.Streams who ask) (hot : s.phase = .hot published) : Comes host who ask limit s := by
  have entered : s.phase.entered = true := by rw [hot]; rfl
  have after : (next host who ask limit s .handle).Streams who ask := streams.handle
  have goes : next host who ask limit s .handle = {s with handler:=s.handler.catchup s.core.log published} := by simp [next,hot]
  refine .next entered (after.live_comes ?_)
  rw [goes]
  rfl

theorem Streams.switching_comes (streams : s.Streams who ask) (switching : s.phase = .switching) :
    Comes host who ask limit s := by
  have entered : s.phase.entered = true := by rw [switching]; rfl
  obtain ⟨c,opened⟩ := streams.opened entered
  have after : (next host who ask limit s .handle).Streams who ask := streams.handle
  refine .next entered ?_
  rw [show next host who ask limit s .handle = s.serves true fun h c => h.switch c s.dispatcher.position by
    simp [next,switching]] at after ⊢
  rcases streams.taken entered opened true (fun h c => h.switch c s.dispatcher.position)
    (switch_phase s.handler c s.dispatcher.position) with rests | ⟨phase_,_,_⟩
  · exact .here rests
  · exact after.hot_comes phase_

-- A window that goes on moved its cursor.
theorem read_moves (h : Handler) (log : List LogRow) (more : (h.read log).phase = .taking) : h.cursor < (h.read log).cursor := by
  obtain ⟨told,is⟩ := h.replay_send log (h.cursor+1) (h.cursor+coldBatch)
  have up : h.cursor ≤ (h.replay log (h.cursor+1) (h.cursor+coldBatch)).cursor := by
    rw [is]
    exact le_max_left _ _
  unfold Handler.read at more ⊢
  dsimp only at more ⊢
  split at more
  · cases more
  · rename_i moved
    rw [if_neg moved]
    split <;> exact lt_of_le_of_ne up (Ne.symm moved)

-- Each window of the cold catchup moves its cursor towards the head, or is its last.
theorem Streams.cold_comes (streams : s.Streams who ask) (cold : s.phase = .taking ∨ s.phase = .reading) :
    Comes host who ask limit s := by
  induction left : 2*(s.core.head-s.handler.cursor)+(if s.phase = .taking then 1 else 0)
    using Nat.strong_induction_on generalizing s with
  | _ left ih =>
    have entered : s.phase.entered = true := by rcases cold with at_ | at_ <;> rw [at_] <;> rfl
    obtain ⟨c,opened,lower,serves⟩ := streams.serves entered
    have after : (next host who ask limit s .handle).Streams who ask := streams.handle
    refine .next entered ?_
    rcases cold with taking | reading
    · have goes : next host who ask limit s .handle = s.serves false Handler.take := by simp [next,taking]
      rw [goes] at after ⊢
      rcases streams.taken entered opened false Handler.take (take_phase s.handler c) with rests | ⟨phase_,_,_⟩
      · exact .here rests
      · -- a backlog of views leaves the cursor
        have off : c.streaming = false := (streams.linked.streaming c opened (Or.inr entered)).trans (by rw [taking]; rfl)
        have cursor : (s.serves false Handler.take).handler.cursor = s.handler.cursor := by
          rw [serves_taken opened]
          exact (Handler.forward_plain (streams.linked.plain c opened off) s.handler).1 ▸ drain_cursor s.handler c
        refine ih _ ?_ after (Or.inr phase_) rfl
        rw [cursor,(serves_frame s false Handler.take).1,phase_,if_neg (by simp),← left,taking,if_pos rfl]
        omega
    · have windowed := serves.read streams.piped reading
      have goes : next host who ask limit s .handle = {s with handler:=s.handler.read s.core.log} := by simp [next,reading]
      rw [goes] at after ⊢
      rcases read_phase s.handler s.core.log with done | more
      · exact after.switching_comes done
      · have moved := read_moves s.handler s.core.log more
        have reach : (s.handler.read s.core.log).cursor ≤ max (s.handler.read s.core.log).since s.core.head := windowed.reach.2
        have start := serves.reach.1
        rw [read_since] at reach
        refine ih _ ?_ after (Or.inl more) rfl
        rw [show Server.phase _ = (s.handler.read s.core.log).phase from rfl,more,if_pos rfl,← left,reading,if_neg (by simp)]
        show 2*(s.core.head-(s.handler.read s.core.log).cursor)+1 < 2*(s.core.head-s.handler.cursor)+0
        omega

theorem Streams.comes (streams : s.Streams who ask) (entered : s.phase.entered = true) : Comes host who ask limit s := by
  cases at_ : s.phase with
  | taking => exact streams.cold_comes (Or.inl at_)
  | reading => exact streams.cold_comes (Or.inr at_)
  | switching => exact streams.switching_comes at_
  | hot published => exact streams.hot_comes at_
  | live => exact streams.live_comes at_
  | ticking published => exact streams.ticking_comes at_
  | _ =>
    rw [at_] at entered
    cases entered

-- The dispatcher's steps alone take every result, up to the one that stops it.
theorem dispatches (host : Host σ) (who : Principal) (ask : Ask) (limit : Nat) (s : Server σ) : ∃ n t,
    (machine host who ask limit).Runs s (List.replicate n .dispatch) t ∧
    t.handler = s.handler ∧ t.core = s.core ∧ (t.channel = [] ∨ t.dispatcher.stopped = true) := by
  induction left : s.channel generalizing s with
  | nil => exact ⟨0,s,.nil,rfl,rfl,Or.inl left⟩
  | cons res rest ih =>
    cases stopped : s.dispatcher.stopped with
    | true => exact ⟨0,s,.nil,rfl,rfl,Or.inr stopped⟩
    | false =>
      have goes : s.dispatch limit = {s with
          channel:=rest
          dispatcher:=s.dispatcher.takes res
          conn:=s.conn.map fun c => res.reaches limit s.dispatcher.position c} := by
        unfold Server.dispatch
        rw [left]
      obtain ⟨n,t,runs,handler,core,ends⟩ := ih (s.dispatch limit) (by rw [goes])
      have first : (machine host who ask limit).Runs s ([]++[.dispatch]) (s.dispatch limit) := .step .nil stopped
      have whole := first.append runs
      refine ⟨n+1,t,whole,handler.trans (by rw [goes]),core.trans (by rw [goes]),ends⟩

-- At rest behind an empty channel everything logged is settled.
theorem Streams.settled (streams : s.Streams who ask) (live : s.phase = .live) (empty : s.channel = []) (opened : s.conn = some c)
    (active : c.active = true) (written : c.backlog = []) :
    ∀ row ∈ s.core.log, s.handler.since < row.position → Settled s.handler.entered s.handler.sent row := by
  intro row member since
  obtain ⟨c',opened',lower,serves⟩ := streams.serves (by rw [live]; rfl)
  rw [opened] at opened'
  cases opened'
  have pipes := streams.piped.pipes
  rw [empty] at pipes
  have head : s.dispatcher.position = s.core.head := pipes
  have behind := streams.piped.behind row (streams.piped.logged.subset member)
  have settled := serves.settled row member since
  unfold settledTo at settled
  rw [live] at settled
  by_cases low : row.position ≤ max s.handler.cursor lower
  · exact settled low
  · have waits := serves.waits active (by rw [live]; rfl) row member since (by omega) (by omega)
    rw [written] at waits
    exact .of_uncovered (serves.current ▸ waits)

-- A stream left to itself ends, or goes live with everything logged settled.
theorem Streams.settles (streams : s.Streams who ask) (informed : s.Informed host ask) (halted : s.Halted) (entered : s.phase.entered = true) :
    ∃ events t, (∀ event ∈ events, event = .dispatch ∨ event = .handle) ∧ (machine host who ask limit).Runs s events t ∧
      t.core = s.core ∧ ((t.phase = .gone ∧ ∃ c, t.conn = some c ∧ c.active = false) ∨
        (t.phase = .live ∧ ∀ row ∈ t.core.log, t.handler.since < row.position → Settled t.handler.entered t.handler.sent row)) := by
  obtain ⟨n,middle,dispatched,handler,core,ends⟩ := dispatches host who ask limit s
  -- neither kind of step is a batch
  have keeps : ∀ {a b : Server σ} {n event}, (machine host who ask limit).Runs a (List.replicate n event) b →
      (∀ s : Server σ, s.Apart host ask event) → a.Streams who ask ∧ a.Informed host ask ∧ a.Halted →
        b.Streams who ask ∧ b.Informed host ask ∧ b.Halted := by
    intro a b n event runs apart good
    have obeyed : ((machine host who ask limit).under (Apart host ask)).Runs a (List.replicate n event) b :=
      runs.obeys fun _ member s => List.eq_of_mem_replicate member ▸ apart s
    refine obeyed.invariant (P:=fun s => s.Streams who ask ∧ s.Informed host ask ∧ s.Halted) good ?_
    rintro s event ⟨streams,informed,halted⟩ allowed
    exact ⟨streams.step informed event allowed.1,informed.step streams.piped streams.linked event allowed.1 allowed.2,
      halted.step event allowed.1⟩
  have good := keeps dispatched (fun _ => trivial) ⟨streams,informed,halted⟩
  have comes : Comes host who ask limit middle := good.1.comes (by rw [phase,handler]; exact entered)
  obtain ⟨m,t,handled,rests,sameCore,channel,dispatcher⟩ := comes
  have final := keeps handled (fun _ => trivial) good
  refine ⟨_,t,?_,dispatched.append handled,sameCore.trans core,?_⟩
  · intro event member
    rcases List.mem_append.mp member with early | late
    · exact Or.inl (List.eq_of_mem_replicate early)
    · exact Or.inr (List.eq_of_mem_replicate late)
  · rcases rests with gone | ⟨live,c,opened,active,written⟩
    · exact Or.inl gone
    · refine Or.inr ⟨live,?_⟩
      rcases ends with empty | stopped
      · exact final.1.settled live (channel.trans empty) opened active written
      · rw [final.2.2 (by rw [dispatcher]; exact stopped) c opened] at active
        cases active

end Server

end PhaseLock
