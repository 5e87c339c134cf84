import PhaseLock.StreamSteps
import PhaseLock.Informing

namespace PhaseLock

namespace Server
variable {σ : Type} {host : Host σ} {who : Principal} {ask : Ask} {limit : Nat} {s : Server σ} {c : Conn}

-- What holds of every server a request is served by.
structure Streams (who : Principal) (ask : Ask) (s : Server σ) : Prop where
  piped : s.Piped
  linked : s.Linked who ask
  delivered : s.Delivered
  ready : s.phase = .opening → ∀ c, s.conn = some c → Queues s.core.committed 0 c.backlog s.dispatcher.position ∧
    (c.active = true → viewThrough c.selectors c.backlog = c.selectors)
  serves : s.phase.entered = true → ∃ c, s.conn = some c ∧ ∃ lower, s.Serves c lower

theorem Streams.batch (streams : s.Streams who ask) {b : Batch σ} (allowed : s.allowed (.batch b)) :
    (s.batch host who b).Streams who ask := by
  refine ⟨streams.piped.batch allowed.2.1,streams.linked.batch allowed.2.2,streams.delivered.batch allowed.2.1,
    fun opening c opened => ?_,fun entered => ?_⟩
  · obtain ⟨queues,pending⟩ := streams.ready opening c opened
    exact ⟨queues.grow (List.sublist_append_left _ _) (le_refl _),pending⟩
  · obtain ⟨c,opened,lower,serves⟩ := streams.serves entered
    exact ⟨c,opened,lower,serves.batch streams.piped allowed.2.1⟩

-- A connection not yet streaming shows the view its backlog leaves in force.
theorem reaches_pending (limit position : Nat) {res : Res} (other : ∀ grant at_, res ≠ .registered grant at_) (alive : c.active = true → c.Alive)
    (off : c.streaming = false) (distinct : c.Distinct res) (pending : c.active = true → viewThrough c.selectors c.backlog = c.selectors)
    (active : (res.reaches limit position c).active = true) :
    viewThrough (res.reaches limit position c).selectors (res.reaches limit position c).backlog =
      (res.reaches limit position c).selectors := by
  obtain ⟨wasActive,is⟩ := reaches_goes limit position other alive active
  rw [is]
  show viewThrough (c.viewed res) (c.backlog++c.frames position res) = c.viewed res
  have before := pending wasActive
  cases res with
  | view grant at_ =>
    cases grant with
    | ok granted =>
      simp only [Conn.frames,Conn.viewed,viewThrough_append]
      split
      · rfl
      · rename_i same
        rw [← distinct wasActive (not_not.mp same),before]
        rfl
    | error why => simpa [Conn.frames,Conn.viewed] using before
  | commit at_ items => simpa [Conn.frames,Conn.viewed,off] using before
  | _ => simpa [Conn.frames,Conn.viewed] using before

theorem Streams.dispatch (streams : s.Streams who ask) (informed : s.Informed host ask) : (s.dispatch limit).Streams who ask := by
  cases first : s.channel with
  | nil =>
    unfold Server.dispatch
    rw [first]
    exact streams
  | cons res rest =>
    have dispatched : s.dispatch limit = {s with
        channel:=rest
        dispatcher:=s.dispatcher.takes res
        conn:=s.conn.map fun c => res.reaches limit s.dispatcher.position c} := by
      unfold Server.dispatch
      rw [first]
    have linked := (streams.linked.dispatch : (s.dispatch limit).Linked who ask)
    have piped := (streams.piped.dispatch : (s.dispatch limit).Piped)
    rw [dispatched] at linked piped ⊢
    have delivered := streams.delivered
    refine ⟨piped,linked,⟨delivered.inOrder,delivered.logged,delivered.vouched,delivered.lives,delivered.unsent⟩,
      fun opening c' mapped => ?_,fun entered => ?_⟩
    · obtain ⟨c,opened,rfl⟩ := Option.map_eq_some_iff.mp mapped
      obtain ⟨queues,pending⟩ := streams.ready opening c opened
      by_cases registered : ∃ grant at_, res = .registered grant at_
      · obtain ⟨grant,at_,rfl⟩ := registered
        have waiting := streams.linked.waiting c opened (streams.linked.unanswered first).1
        have empty : (Res.reaches limit s.dispatcher.position c (.registered grant at_)).backlog = [] := by
          rcases grant with _ | why | granted <;> exact waiting.2.1
        rw [empty]
        exact ⟨Nat.zero_le _,fun _ => rfl⟩
      · have other : ∀ grant at_, res ≠ .registered grant at_ := fun grant at_ is => registered ⟨grant,at_,is⟩
        have alive := streams.linked.alive c opened
        have off : c.streaming = false := by
          rw [streams.linked.streaming c opened (Or.inl opening),show s.phase = .opening from opening]
          rfl
        exact ⟨reaches_queues streams.piped first other alive queues,reaches_pending limit s.dispatcher.position other alive off
          (informed.distinct streams.linked opened first) pending⟩
    · obtain ⟨c,opened,lower,serves⟩ := streams.serves entered
      refine ⟨res.reaches limit s.dispatcher.position c,by rw [opened]; rfl,lower,?_⟩
      have next := serves.dispatch limit streams.piped streams.linked opened entered first
        (informed.distinct streams.linked opened first)
      rw [opened]
      exact next

-- A step to a phase that neither opens nor enters a stream.
theorem Streams.leaves {t : Server σ} (piped : t.Piped) (linked : t.Linked who ask)
    (delivered : t.Delivered) (phase : t.phase.entered = false ∧ t.phase ≠ .opening) : t.Streams who ask :=
  ⟨piped,linked,delivered,fun opening => absurd opening phase.2,fun entered => by
    rw [phase.1] at entered
    cases entered⟩

theorem Streams.enter (streams : s.Streams who ask) (opening : s.phase = .opening) : (s.enter ask).Streams who ask := by
  have piped := streams.piped.framed ⟨(enter_frame s ask).1,(enter_frame s ask).2.1,(enter_frame s ask).2.2.1⟩
  have linked := streams.linked.enter opening
  have nothing := streams.delivered.unsent (by rw [opening]; rfl)
  rcases enter_cases s ask with same | ⟨phase_,left,kind⟩ | ⟨c,granted,position,since,presented,wants,opened,reply,trusted,rfl,entered⟩
  · rw [same]
    exact streams
  · rw [left] at piped linked ⊢
    refine Streams.leaves piped linked (streams.delivered.silent rfl ⟨rfl,rfl,rfl⟩ ?_ ?_) ?_
    · rw [opening]
      rcases kind with ⟨status,_,rfl⟩ | rfl
      · intro n is
        cases is
      · exact fun n is => is
    · rcases kind with ⟨status,_,rfl⟩ | rfl <;> exact fun is => (by cases is)
    · rcases kind with ⟨status,_,rfl⟩ | rfl <;> exact ⟨rfl,by simp [goes,phase]⟩
  · rw [entered] at piped linked ⊢
    obtain ⟨queues,pending⟩ := streams.ready opening c opened
    -- the first frame, if any, is the view itself
    obtain ⟨frames,shape,kind⟩ : ∃ frames, s.handler.enters c since presented position = {s.handler with
        phase:=.taking
        since:=since.getD position
        entered:=c.selectors
        selectors:=c.selectors
        cursor:=since.getD position
        told:=since.getD position
        sent:=frames} ∧ (frames = [] ∨ frames = [.view (since.getD position) c.selectors]) := by
      unfold Handler.enters
      dsimp only
      split
      · exact ⟨_,rfl,Or.inr (by simp [nothing])⟩
      · exact ⟨_,rfl,Or.inl nothing⟩
    rw [shape] at piped linked ⊢
    have rows : sentRows frames = [] := by rcases kind with rfl | rfl <;> rfl
    have inOrder : Along (Sent.InOrder c.selectors) [] frames := by
      rcases kind with rfl | rfl
      · trivial
      · exact ⟨⟨by simp [sentRows],by simp [viewPositions]⟩,trivial⟩
    have quiet : frames.filterMap Sent.vouched = [] := by rcases kind with rfl | rfl <;> rfl
    have placed : ∀ at_ ∈ viewPositions frames, at_ = since.getD position := by
      rcases kind with rfl | rfl
      · simp [viewPositions]
      · simp [viewPositions,Sent.placed]
    refine ⟨piped,linked,⟨inOrder,by simp [rows],vouches_quiet quiet,?_,fun is => (by cases is)⟩,fun is => (by cases is),
      fun _ => ⟨c,opened,0,?_⟩⟩
    · rw [lives_quiet quiet]
      exact ⟨Nat.zero_le _,fun n is => by cases is; rfl⟩
    · refine ⟨queues,⟨inOrder,by simp [rows],by simp [rows],fun at_ member => ?_⟩,?_,pending,⟨le_refl _,le_max_left _ _⟩,
        fun row _ above upTo => absurd above (Nat.not_lt.mpr upTo),fun _ is => (by cases is),fun _ is => (by cases is),
        fun _ is => (by cases is),fun _ _ => rows⟩
      · rw [placed at_ member]
        exact le_max_left _ _
      · show c.selectors = viewAfter c.selectors frames
        rcases kind with rfl | rfl <;> rfl

-- A handler whose connection ends once its backlog is written.
theorem Streams.stops (streams : s.Streams who ask) (serves : s.Serves c lower) {t : Server σ} (core : t.core = s.core)
    (piped : t.Piped) (linked : t.Linked who ask)
    (same : t.handler.since = (s.handler.drain c).2.since ∧ t.handler.entered = (s.handler.drain c).2.entered ∧
      t.handler.sent = (s.handler.drain c).2.sent) (gone : t.phase = .gone) : t.Streams who ask := by
  refine Streams.leaves piped linked (serves.delivers streams.piped streams.delivered core same ?_ ?_) ?_
  · rw [gone]
    intro n none_
    cases none_
  · rw [gone]
    rfl
  · rw [gone]
    exact ⟨rfl,by simp⟩

-- A handler that goes on once its backlog is written.
theorem Streams.goesOn (streams : s.Streams who ask) (serves : s.Serves c lower) {t : Server σ} (core : t.core = s.core)
    (piped : t.Piped) (linked : t.Linked who ask)
    (same : t.handler.since = (s.handler.drain c).2.since ∧ t.handler.entered = (s.handler.drain c).2.entered ∧
      t.handler.sent = (s.handler.drain c).2.sent) (lives : ∀ n ∈ t.phase.lives, n ∈ s.phase.lives)
    (kind : t.phase.unsent = false) (next : ∃ c', t.conn = some c' ∧ ∃ lower, t.Serves c' lower) : t.Streams who ask := by
  refine ⟨piped,linked,serves.delivers streams.piped streams.delivered core same lives kind,fun opening => ?_,fun _ => next⟩
  rw [opening] at kind
  cases kind

theorem Streams.take (streams : s.Streams who ask) (taking : s.phase = .taking) :
    (s.serves false Handler.take).Streams who ask := by
  have entered : s.phase.entered = true := by rw [taking]; rfl
  obtain ⟨c,opened,lower,serves⟩ := streams.serves entered
  have piped := streams.piped.framed (serves_frame s false Handler.take)
  have linked := streams.linked.serves entered false Handler.take (fun c => ⟨s.handler,take_phase _ _⟩) (by rw [taking]; rfl) rfl
  rw [serves_taken opened] at piped linked ⊢
  cases whole : (s.handler.drain c).1 with
  | false => exact streams.stops serves rfl piped linked ⟨rfl,rfl,rfl⟩ (by simp [phase,take_phase,whole])
  | true =>
    have at_ : (s.handler.take c).phase = .reading := by simp [take_phase,whole]
    have drained := serves.drained streams.piped streams.linked opened entered whole
    refine streams.goesOn serves rfl piped linked ⟨rfl,rfl,rfl⟩ ?_ ?_ ⟨_,rfl,s.dispatcher.position,?_⟩
    · rw [show Server.phase _ = (s.handler.take c).phase from rfl,at_,taking]
      exact fun n is => is
    · rw [show Server.phase _ = (s.handler.take c).phase from rfl,at_]
      rfl
    · have next := drained.take serves streams.piped taking
      have is : s.handler.take c = {(s.handler.drain c).2 with phase:=.reading} := by
        simp [Handler.take,Handler.moves,whole]
      rw [is]
      exact next

theorem Streams.wake (streams : s.Streams who ask) (live : s.phase = .live) :
    (s.serves false Handler.wake).Streams who ask := by
  have entered : s.phase.entered = true := by rw [live]; rfl
  obtain ⟨c,opened,lower,serves⟩ := streams.serves entered
  have piped := streams.piped.framed (serves_frame s false Handler.wake)
  have linked := streams.linked.serves entered false Handler.wake (fun c => ⟨s.handler,wake_phase _ _⟩) (by rw [live]; rfl) rfl
  rw [serves_taken opened] at piped linked ⊢
  cases whole : (s.handler.drain c).1 with
  | false => exact streams.stops serves rfl piped linked ⟨rfl,rfl,rfl⟩ (by simp [phase,wake_phase,whole])
  | true =>
    have at_ : (s.handler.wake c).phase = .live := by simp [wake_phase,whole]
    have drained := serves.drained streams.piped streams.linked opened entered whole
    refine streams.goesOn serves rfl piped linked ⟨rfl,rfl,rfl⟩ ?_ ?_ ⟨_,rfl,s.dispatcher.position,?_⟩
    · rw [show Server.phase _ = (s.handler.wake c).phase from rfl,at_,live]
      exact fun n is => is
    · rw [show Server.phase _ = (s.handler.wake c).phase from rfl,at_]
      rfl
    · have next := drained.wake serves streams.piped live
      have is : s.handler.wake c = {(s.handler.drain c).2 with phase:=.live} := by
        simp [Handler.wake,Handler.moves,whole]
      rw [is]
      exact next

theorem Streams.switch (streams : s.Streams who ask) (switching : s.phase = .switching) :
    (s.serves true fun h c => h.switch c s.dispatcher.position).Streams who ask := by
  have entered : s.phase.entered = true := by rw [switching]; rfl
  obtain ⟨c,opened,lower,serves⟩ := streams.serves entered
  have piped := streams.piped.framed (serves_frame s true fun h c => h.switch c s.dispatcher.position)
  have linked := streams.linked.serves entered true (fun h c => h.switch c s.dispatcher.position)
    (fun c => ⟨{s.handler with selectors:=c.selectors},switch_phase s.handler c s.dispatcher.position⟩) (by rw [switching]; rfl) rfl
  rw [serves_taken opened] at piped linked ⊢
  obtain ⟨left,ran,same⟩ := serves.switched streams.piped streams.linked opened switching
  have is : s.handler.switch c s.dispatcher.position =
      {(s.handler.drain c).2 with selectors:=left}.moves (s.handler.drain c).1 (.hot s.dispatcher.position) := by
    unfold Handler.switch
    rw [ran]
  rw [is] at piped linked ⊢
  cases whole : (s.handler.drain c).1 with
  | false =>
    rw [whole] at piped linked
    exact streams.stops serves rfl piped linked ⟨rfl,rfl,rfl⟩ rfl
  | true =>
    rw [whole] at piped linked
    have drained := serves.drained streams.piped streams.linked opened entered whole
    refine streams.goesOn serves rfl piped linked ⟨rfl,rfl,rfl⟩ ?_ rfl ⟨_,rfl,s.dispatcher.position,?_⟩
    · rw [switching]
      exact fun n is => is
    · have next := drained.switch serves streams.piped switching
      rw [same whole]
      exact next

theorem Streams.beat (streams : s.Streams who ask) (ticking : s.phase = .ticking published) :
    (s.serves false fun h c => h.beat c published).Streams who ask := by
  have entered : s.phase.entered = true := by rw [ticking]; rfl
  obtain ⟨c,opened,lower,serves⟩ := streams.serves entered
  have piped := streams.piped.framed (serves_frame s false fun h c => h.beat c published)
  have linked := streams.linked.serves entered false (fun h c => h.beat c published)
    (fun c => ⟨s.handler,beat_phase _ _ published⟩) (by rw [ticking]; rfl) rfl
  rw [serves_taken opened] at piped linked ⊢
  cases whole : (s.handler.drain c).1 with
  | false =>
    have is : s.handler.beat c published = {(s.handler.drain c).2 with phase:=.gone} := by
      simp [Handler.beat,whole]
    rw [is] at piped linked ⊢
    exact streams.stops serves rfl piped linked ⟨rfl,rfl,rfl⟩ rfl
  | true =>
    have drained := serves.drained streams.piped streams.linked opened entered whole
    have is : s.handler.beat c published = {(s.handler.drain c).2.write (.vouch (max (s.handler.drain c).2.cursor published)) with
        cursor:=max (s.handler.drain c).2.cursor published
        phase:=.live} := by
      simp [Handler.beat,whole]
    rw [is] at piped linked ⊢
    obtain ⟨frames,sent,_,quiet⟩ := drained.advanced.sent
    obtain ⟨_,since,entered_⟩ := drained.advanced.same
    obtain ⟨start,reached⟩ := drained.reach serves streams.piped
    have published_ := (serves.ticking published ticking).trans streams.piped.pipes.le
    have count := streams.delivered.lives
    rw [ticking] at count
    refine ⟨piped,linked,?_,fun is => (by cases is),fun _ => ⟨_,rfl,_,drained.beat serves streams.piped ticking⟩⟩
    refine streams.delivered.vouches (Sent.vouch (max (s.handler.drain c).2.cursor published)) (h:=(s.handler.drain c).2) rfl since
      entered_ sent quiet ⟨rfl,rfl,rfl⟩ rfl
      ⟨rfl,fun _ => trivial⟩ drained.advanced.fine.inOrder drained.advanced.fine.logged (by omega) ?_ ?_ rfl
    · intro row member since_ upTo
      rw [since] at since_
      rw [entered_]
      exact drained.all (Or.inr ⟨published,ticking⟩) row member since_ (by
        have bound := serves.ticking published ticking
        omega)
    · rw [sent,lives_after quiet]
      exact ⟨count.1,fun n is => count.2 n is⟩

theorem Streams.read (streams : s.Streams who ask) (reading : s.phase = .reading)
    (linked : ({s with handler:=s.handler.read s.core.log} : Server σ).Linked who ask) :
    ({s with handler:=s.handler.read s.core.log} : Server σ).Streams who ask := by
  obtain ⟨c,opened,lower,serves⟩ := streams.serves (by rw [reading]; rfl)
  have piped := streams.piped.framed (t:={s with handler:=s.handler.read s.core.log}) ⟨rfl,rfl,rfl⟩
  have next := serves.read streams.piped reading
  have lives : s.phase.lives = some 0 := by rw [reading]; rfl
  refine ⟨piped,linked,?_,fun opening => ?_,fun _ => ⟨c,opened,lower,next⟩⟩
  · obtain ⟨next,is,replayed,_⟩ := serves.window streams.piped reading
    obtain ⟨since,entered,_⟩ := replayed.same
    obtain ⟨frames,sent,quiet⟩ := replayed.sent
    have fine := replayed.fine
    have quietly : ∀ phase : Phase, phase.lives = some 0 → phase.unsent = false →
        ({s with handler:={next with phase}} : Server σ).Delivered := fun phase none_ kind =>
      streams.delivered.quietly frames rfl ⟨since,entered⟩ sent quiet (entered ▸ fine.inOrder) fine.logged
        (fun n is => by rw [lives,← none_]; exact is) (fun is => by
          rw [show Server.phase _ = phase from rfl,kind] at is
          cases is)
    unfold Handler.read
    dsimp only
    rw [is]
    split
    · exact quietly .switching rfl rfl
    · split
      · refine streams.delivered.vouches (Sent.vouch next.cursor) (h:=next) rfl since entered sent quiet ⟨rfl,rfl,rfl⟩ rfl
          ⟨rfl,fun _ => trivial⟩ fine.inOrder fine.logged replayed.reach.2 replayed.settled ?_ rfl
        have count := streams.delivered.lives
        rw [lives] at count
        rw [sent,lives_after quiet]
        exact ⟨count.1,fun n is => count.2 n is⟩
      · exact quietly .taking rfl rfl
  · rcases read_phase s.handler s.core.log with done | more
    · rw [show Server.phase _ = (s.handler.read s.core.log).phase from rfl,done] at opening
      cases opening
    · rw [show Server.phase _ = (s.handler.read s.core.log).phase from rfl,more] at opening
      cases opening

theorem Streams.catchup (streams : s.Streams who ask) (hot : s.phase = .hot published)
    (linked : ({s with handler:=s.handler.catchup s.core.log published} : Server σ).Linked who ask) :
    ({s with handler:=s.handler.catchup s.core.log published} : Server σ).Streams who ask := by
  obtain ⟨c,opened,lower,serves⟩ := streams.serves (by rw [hot]; rfl)
  have piped := streams.piped.framed (t:={s with handler:=s.handler.catchup s.core.log published}) ⟨rfl,rfl,rfl⟩
  have lived := serves.catchup streams.piped hot
  refine ⟨piped,linked,?_,fun opening => (by cases opening),fun _ => ⟨c,opened,lower,lived⟩⟩
  obtain ⟨next,is,replayed,_,_,head⟩ := serves.seam streams.piped hot
  obtain ⟨since,entered,_⟩ := replayed.same
  obtain ⟨frames,sent,quiet⟩ := replayed.sent
  have reach := replayed.reach.2
  unfold Handler.catchup
  dsimp only
  rw [is]
  refine streams.delivered.vouches (Sent.live (max next.cursor published)) (h:=next) rfl since entered sent quiet ⟨rfl,rfl,rfl⟩ rfl
    ⟨rfl,fun _ => trivial⟩ replayed.fine.inOrder replayed.fine.logged (by omega) replayed.settled ?_ rfl
  have none_ := streams.delivered.lives.2 0 (by rw [hot]; rfl)
  rw [sent,lives_after quiet,none_]
  exact ⟨le_refl _,fun n is => by cases is; rfl⟩

-- A connection opens with an empty backlog.
theorem Streams.insert (streams : s.Streams who ask) (admitted : s.phase = .admitted) : (s.insert who ask).Streams who ask := by
  have piped := streams.piped.framed (t:=s.insert who ask) ⟨rfl,rfl,rfl⟩
  refine ⟨piped,streams.linked.insert admitted,streams.delivered.silent rfl ⟨rfl,rfl,rfl⟩ ?_ ?_,?_,fun entered => (by cases entered)⟩
  · rw [admitted]
    exact fun n is => is
  · exact fun _ => by rw [admitted]; rfl
  · rintro _ c ⟨⟩
    exact ⟨Nat.zero_le _,fun _ => rfl⟩

-- A step of a read, or of a request not yet admitted, sends nothing.
theorem Streams.aside (streams : s.Streams who ask) {t : Server σ} (linked : t.Linked who ask)
    (frame : t.core = s.core ∧ t.channel = s.channel ∧ t.dispatcher = s.dispatcher)
    (same : t.handler.since = s.handler.since ∧ t.handler.entered = s.handler.entered ∧ t.handler.sent = s.handler.sent)
    (lives : ∀ n ∈ t.phase.lives, n ∈ s.phase.lives) (begun : t.phase.unsent = true → s.phase.unsent = true)
    (aside : t.phase.entered = false ∧ t.phase ≠ .opening) : t.Streams who ask :=
  .leaves (streams.piped.framed frame) linked (streams.delivered.silent frame.1 same lives begun) aside

theorem Streams.handle (streams : s.Streams who ask) : (next host who ask limit s .handle).Streams who ask := by
  have linked : (next host who ask limit s .handle).Linked who ask := streams.linked.handle
  have frame := handle_frame host who ask limit s
  unfold next at linked frame ⊢
  dsimp only at linked frame ⊢
  cases at_ : s.phase with
  | arriving =>
    rw [at_] at linked frame
    dsimp only at linked frame ⊢
    unfold arrive at linked frame ⊢
    split
    · rename_i stale
      rw [if_pos stale] at linked frame
      exact streams.aside linked frame ⟨rfl,rfl,rfl⟩ (fun n is => (by cases is)) (fun is => (by cases is)) ⟨rfl,by simp [goes,phase]⟩
    · rename_i fresh
      rw [if_neg fresh] at linked frame
      exact streams.aside linked frame ⟨rfl,rfl,rfl⟩ (by rw [at_]; exact fun n is => is) (fun _ => by rw [at_]; rfl)
        ⟨rfl,by simp [goes,phase]⟩
  | admitted => exact streams.insert at_
  | opening => exact streams.enter at_
  | taking => exact streams.take at_
  | reading =>
    rw [at_] at linked
    exact streams.read at_ linked
  | switching => exact streams.switch at_
  | hot published =>
    rw [at_] at linked
    exact streams.catchup at_ linked
  | live => exact streams.wake at_
  | ticking published => exact streams.beat at_
  | cutting =>
    rw [at_] at linked frame
    cases ask <;> exact streams.aside linked frame ⟨rfl,rfl,rfl⟩ (by rw [at_]; exact fun n is => is) (fun is => (by cases is))
      ⟨rfl,by simp [cut,page,goes,phase]⟩
  | heading =>
    rw [at_] at linked frame
    exact streams.aside linked frame ⟨rfl,rfl,rfl⟩ (by rw [at_]; exact fun n is => is) (fun is => (by cases is))
      ⟨rfl,by simp [bound,goes,phase]⟩
  | checking position =>
    rw [at_] at linked frame
    dsimp only at linked frame ⊢
    unfold check at linked frame ⊢
    cases opened : s.conn with
    | none => exact streams
    | some c =>
      rw [opened] at linked frame
      exact streams.aside linked frame ⟨rfl,rfl,rfl⟩ (fun n is => (by cases is)) (fun is => (by cases is)) ⟨rfl,by simp [goes,phase]⟩
  | answered status => exact streams
  | gone => exact streams

-- The core's close changes no backlog.
theorem Streams.close (streams : s.Streams who ask) (allowed : s.allowed .close) :
    (next host who ask limit s .close).Streams who ask := by
  have piped : (next host who ask limit s .close).Piped := streams.piped.step .close allowed
  have linked : (next host who ask limit s .close).Linked who ask := streams.linked.step .close allowed
  have delivered := streams.delivered
  refine ⟨piped,linked,⟨delivered.inOrder,delivered.logged,delivered.vouched,delivered.lives,delivered.unsent⟩,streams.ready,
    fun entered => ?_⟩
  obtain ⟨c,opened,lower,serves⟩ := streams.serves entered
  exact ⟨c,opened,lower,⟨serves.queues,serves.fine,serves.current,serves.pending,serves.reach,serves.settled,serves.waits,
    serves.hot,serves.ticking,serves.wrapped⟩⟩

theorem Streams.tick (streams : s.Streams who ask) (live : s.phase = .live) :
    (next host who ask limit s .tick).Streams who ask := by
  have piped : (next host who ask limit s .tick).Piped := streams.piped.step .tick live
  have linked : (next host who ask limit s .tick).Linked who ask := streams.linked.step .tick live
  obtain ⟨c,opened,lower,serves⟩ := streams.serves (by rw [live]; rfl)
  refine ⟨piped,linked,streams.delivered.silent rfl ⟨rfl,rfl,rfl⟩ ?_ (fun is => (by cases is)),fun is => (by cases is),
    fun _ => ⟨c,opened,lower,?_⟩⟩
  · rw [live]
    exact fun n is => is
  · have settled := serves.settled
    have waits := serves.waits
    have fine := serves.fine
    unfold settledTo at settled
    rw [live] at settled waits
    exact ⟨serves.queues,⟨fine.inOrder,fine.logged,fine.behind,fine.placed⟩,serves.current,serves.pending,serves.reach,settled,
      fun active _ => waits active rfl,fun _ is => (by cases is),fun _ is => (by cases is; exact le_refl _),
      fun phases => (by rcases phases with a | a <;> cases a)⟩

theorem Streams.ends (streams : s.Streams who ask) (code : Option Nat) (allowed : s.allowed (.ends code)) :
    (s.ends code).Streams who ask := by
  have piped := streams.piped.framed (t:=s.ends code) ⟨rfl,rfl,rfl⟩
  have linked : (next ⟨fun _ => .ok [],fun _ => 0⟩ who ask 0 s (.ends code)).Linked who ask := streams.linked.step (.ends code) allowed
  have delivered := streams.delivered
  cases code with
  | none =>
    exact .leaves piped linked (delivered.silent rfl ⟨rfl,rfl,rfl⟩ (fun n is => (by cases is)) (fun is => (by cases is))) ⟨rfl,by simp [Server.ends,phase]⟩
  | some code =>
    refine .leaves piped linked (delivered.quietly [.ends code] rfl ⟨rfl,rfl⟩ rfl rfl ?_ ?_ (fun n is => (by cases is))
      (fun is => (by cases is))) ⟨rfl,by simp [Server.ends,phase]⟩
    · exact along_append.mpr ⟨delivered.inOrder,along_single.mpr trivial⟩
    · show (sentRows (s.handler.sent++[Sent.ends code])).Sublist s.core.committed
      simpa [sentRows,Sent.rows] using delivered.logged

theorem Streams.step (streams : s.Streams who ask) (informed : s.Informed host ask) (event : ServerEvent σ) (allowed : s.allowed event) :
    (next host who ask limit s event).Streams who ask := by
  cases event with
  | batch b => exact streams.batch allowed
  | close => exact streams.close allowed
  | dispatch => exact streams.dispatch informed
  | handle => exact streams.handle
  | tick => exact streams.tick allowed
  | ends code => exact streams.ends code allowed

theorem opens_streams (d : Opening σ) : (opens d).Streams who ask := by
  refine .leaves (opens_piped d) (opens_linked d) ⟨trivial,List.nil_sublist _,trivial,⟨Nat.zero_le _,fun n is => ?_⟩,fun _ => rfl⟩
    ⟨rfl,by simp [opens,phase]⟩
  cases is
  rfl

-- Where a stream started: at its client's checkpoint, or at its view's position.
def Began (ask : Ask) (s : Server σ) : Prop := s.phase.entered = true → ∃ since presented wants granted position,
  ask = .stream since presented wants ∧ s.dispatcher.reply = some (some (.ok granted),position) ∧
  s.handler.since = since.getD position

theorem mutations_since (groups : List (List LogRow)) (h : Handler) : (groups.foldl Handler.mutation h).since = h.since := by
  induction groups generalizing h with
  | nil => rfl
  | cons edits groups ih =>
    rw [List.foldl_cons,ih]
    unfold Handler.mutation
    split
    · rfl
    · split <;> rfl

theorem drain_since (h : Handler) (c : Conn) : (h.drain c).2.since = h.since := by
  have forwards : ∀ queued (h : Handler), (h.forward queued).2.since = h.since := by
    intro queued
    induction queued with
    | nil => exact fun h => rfl
    | cons frame rest ih =>
      intro h
      cases frame with
      | ends code => rfl
      | view position selectors => exact ih _
      | commit mutations => exact (ih _).trans (mutations_since mutations h)
  have forwarded := forwards c.backlog h
  unfold Handler.drain
  split
  · rename_i next ran
    rwa [ran] at forwarded
  · rename_i next ran
    rw [ran] at forwarded
    dsimp only
    split <;> exact forwarded

theorem read_since (h : Handler) (log : List LogRow) : (h.read log).since = h.since := by
  obtain ⟨told,is⟩ := h.replay_send log (h.cursor+1) (h.cursor+coldBatch)
  have same : (h.replay log (h.cursor+1) (h.cursor+coldBatch)).since = h.since := by rw [is]
  unfold Handler.read
  dsimp only
  split
  · exact same
  · split <;> exact same

theorem catchup_since (h : Handler) (log : List LogRow) (published : Nat) : (h.catchup log published).since = h.since := by
  obtain ⟨told,is⟩ := h.replay_send log (h.cursor+1) published
  unfold Handler.catchup
  dsimp only
  rw [is]
  rfl

-- A step of a stream its handler has entered and stays in.
theorem Began.kept (began : s.Began ask) (entered : s.phase.entered = true) {t : Server σ} (dispatcher : t.dispatcher = s.dispatcher)
    (since : t.handler.since = s.handler.since) : t.Began ask := fun _ => by
  rw [dispatcher,since]
  exact began entered

theorem Began.serves (began : s.Began ask) (entered : s.phase.entered = true) (streaming : Bool) (step : Handler → Conn → Handler)
    (since : ∀ c, (step s.handler c).since = s.handler.since) : (s.serves streaming step).Began ask := by
  refine began.kept entered (serves_frame s streaming step).2.2 ?_
  unfold Server.serves
  split
  · exact since _
  · rfl

theorem Began.handle (began : s.Began ask) : (next host who ask limit s .handle).Began ask := by
  have away : ∀ {t : Server σ}, t.phase.entered = false → t.Began ask := fun left entered => by
    rw [left] at entered
    cases entered
  unfold next
  dsimp only
  cases at_ : s.phase with
  | arriving =>
    dsimp only
    unfold arrive
    split <;> exact away rfl
  | admitted => exact away rfl
  | opening =>
    have notEntered : s.phase.entered = false := by rw [at_]; rfl
    rcases enter_cases s ask with same | ⟨phase_,left,kind⟩ | ⟨c,granted,position,since,presented,wants,opened,reply,trusted,rfl,entered⟩
    · rw [same]
      exact away notEntered
    · rw [left]
      rcases kind with ⟨status,_,rfl⟩ | rfl <;> exact away rfl
    · rw [entered]
      refine fun _ => ⟨since,presented,wants,granted,position,rfl,reply,?_⟩
      show (s.handler.enters c since presented position).since = since.getD position
      unfold Handler.enters
      dsimp only
      split <;> rfl
  | taking => exact began.serves (by rw [at_]; rfl) false Handler.take fun c => drain_since s.handler c
  | reading => exact began.kept (by rw [at_]; rfl) rfl (read_since s.handler s.core.log)
  | switching =>
    exact began.serves (by rw [at_]; rfl) true (fun h c => h.switch c s.dispatcher.position) fun c =>
      drain_since {s.handler with selectors:=c.selectors} c
  | hot published => exact began.kept (by rw [at_]; rfl) rfl (catchup_since s.handler s.core.log published)
  | live => exact began.serves (by rw [at_]; rfl) false Handler.wake fun c => drain_since s.handler c
  | ticking published =>
    refine began.serves (by rw [at_]; rfl) false (fun h c => h.beat c published) fun c => ?_
    unfold Handler.beat
    dsimp only
    split <;> exact drain_since s.handler c
  | cutting => cases ask <;> exact away rfl
  | heading => exact away rfl
  | checking position =>
    dsimp only
    unfold check
    split
    · exact away rfl
    · exact began
  | answered status => exact began
  | gone => exact began

theorem Began.step (began : s.Began ask) (linked : s.Linked who ask) (event : ServerEvent σ) (allowed : s.allowed event) :
    (next host who ask limit s event).Began ask := by
  cases event with
  | batch b => exact began
  | close => exact began
  | handle => exact began.handle
  | tick => exact began.kept (by rw [show s.phase = .live from allowed]; rfl) rfl rfl
  | ends code =>
    intro entered
    have gone : (s.ends code).phase = .gone := by cases code <;> rfl
    rw [show next host who ask limit s (.ends code) = s.ends code from rfl,gone] at entered
    cases entered
  | dispatch =>
    show (s.dispatch limit).Began ask
    unfold Server.dispatch
    cases first : s.channel with
    | nil => exact began
    | cons res rest =>
      intro entered
      have here : s.phase.entered = true := entered
      have same : (s.dispatcher.takes res).reply = s.dispatcher.reply := by
        cases res with
        | registered grant at_ =>
          rw [(linked.unanswered first).2] at here
          cases here
        | _ => rfl
      dsimp only
      rw [same]
      exact began here

theorem opens_began (d : Opening σ) : (opens d).Began ask := fun entered => by cases entered

-- What holds of every server of a run whose grants hash apart.
theorem runs_streams {d : Opening σ} {run : List (ServerEvent σ)}
    (runs : ((machine host who ask limit).under (Apart host ask)).Runs (opens d) run s) : s.Streams who ask ∧ s.Informed host ask :=
  runs.invariant (P:=fun s => s.Streams who ask ∧ s.Informed host ask) ⟨opens_streams d,opens_informed d⟩
    fun _ event good allowed => ⟨good.1.step good.2 event allowed.1,
      good.2.step good.1.piped good.1.linked event allowed.1 allowed.2⟩

theorem runs_began {d : Opening σ} {run : List (ServerEvent σ)} (runs : (machine host who ask limit).Runs (opens d) run s) :
    s.Began ask :=
  (runs.invariant (P:=fun s => s.Linked who ask ∧ s.Began ask) ⟨opens_linked d,opens_began d⟩
    fun _ event good allowed => ⟨good.1.step event allowed,good.2.step good.1 event allowed⟩).2

end Server

end PhaseLock
