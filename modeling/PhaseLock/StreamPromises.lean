import PhaseLock.StreamProgress

namespace PhaseLock

namespace Server
variable {σ : Type} {host : Host σ} {who : Principal} {ask : Ask} {limit : Nat} {s : Server σ}

instance (a b : LogRow) : Decidable (a.Before b) := inferInstanceAs (Decidable (_ ∨ _))

instance [DecidableEq σ] (b : Batch σ) (core : DbCore σ) : Decidable (b.Follows core) :=
  decidable_of_iff (b.items.Pairwise LogRow.Before ∧ (∀ row ∈ b.items, core.head < row.position) ∧
    (∀ row ∈ b.items, row.position < i64Max) ∧ b.log.Sublist (core.log++b.items) ∧ (b.items = [] → b.store = core.store))
    ⟨fun ⟨ordered,above,bounded,kept,still⟩ => ⟨ordered,above,bounded,kept,still⟩,
      fun ⟨ordered,above,bounded,kept,still⟩ => ⟨ordered,above,bounded,kept,still⟩⟩

instance [DecidableEq σ] (s : Server σ) (event : ServerEvent σ) : Decidable (s.allowed event) := by
  cases event with
  | batch b => exact inferInstanceAs (Decidable (_ ∧ _ ∧ (b.register ≠ none → _)))
  | close => exact inferInstanceAs (Decidable (_ = _))
  | dispatch => exact inferInstanceAs (Decidable (_ = _))
  | ends code =>
    cases at_ : s.phase with
    | answered status => exact .isFalse fun live => live status at_
    | _ => exact .isTrue fun status is => by rw [at_] at is; cases is
  | tick => exact inferInstanceAs (Decidable (_ = _))
  | handle =>
    unfold allowed
    dsimp only
    cases s.phase with
    | opening => exact inferInstanceAs (Decidable (_ = _))
    | checking position => exact inferInstanceAs (Decidable (_ ∨ _))
    | _ => exact .isTrue trivial

instance [DecidableEq σ] (s : Server σ) (event : ServerEvent σ) : Decidable ((machine host who ask limit).allowed s event) :=
  inferInstanceAs (Decidable (s.allowed event))

instance (s : Server σ) : ∀ event : ServerEvent σ, Decidable (s.Apart host ask event)
  | .batch b => inferInstanceAs (Decidable (∀ old ∈ s.core.granted,
      (grantMark old = grantMark (host.grant b.store) → grantSelectors old = grantSelectors (host.grant b.store)) ∧
        Parted ask.wants (grantSelectors old) (grantSelectors (host.grant b.store))))
  | .handle | .close | .dispatch | .tick | .ends _ => .isTrue trivial

instance [DecidableEq σ] (s : Server σ) (event : ServerEvent σ) :
    Decidable (((machine host who ask limit).under (Apart host ask)).allowed s event) := inferInstanceAs (Decidable (_ ∧ _))

-- A store of one grant and one generation, and a stream of everything granted on it.
namespace Sample

def hosted : Host (List Name × Int) := ⟨fun store => .ok store.1,Prod.snd⟩
def user : Principal := ⟨some ['u'],0⟩
def all : Ask := .stream none [] []
def row (position : Nat) (slice : Name) (seq : Nat) : LogRow := ⟨position,slice,seq,.normal,[]⟩
def store : List Name × Int := ([['s']],0)

def opening : Opening (List Name × Int) where
  store
  log := []
  head := 0
  ordered := .nil
  behind := by simp
  bounded := by decide

-- A registration answered, and its stream entered.
def entering : List (ServerEvent (List Name × Int)) :=
  [.handle,.handle,.batch {items:=[],log:=[],store,register:=some store},.dispatch,.dispatch,.handle]

-- A cold catchup, a commit behind the switch, and one more live.
def streaming : List (ServerEvent (List Name × Int)) := entering++[.handle,.handle,.handle,
  .batch {items:=[row 1 ['s'] 1],log:=[row 1 ['s'] 1],store},.dispatch,.handle,.handle,
  .batch {items:=[row 2 ['s'] 2],log:=[row 1 ['s'] 1,row 2 ['s'] 2],store},.dispatch,.handle,.tick,.handle]

end Sample

-- A stream's delivery: the view it is under, what was sent, what is settled, and what it still
-- comes to.  The view told, once the backlog is written, is the connection's, and that is what a
-- batch no older than the published position grants of the wants.
structure Delivers (host : Host σ) (who : Principal) (ask : Ask) (limit : Nat) (s : Server σ) : Prop where
  granted : ∀ c, s.conn = some c → c.active = true →
    ∃ entry ∈ s.core.history, s.dispatcher.position ≤ entry.1 ∧ c.selectors = viewOf ask.wants (host.grant entry.2)
  viewed : s.phase.entered = true → ∃ c, s.conn = some c ∧
    (c.active = true → viewThrough (viewAfter s.handler.entered s.handler.sent) c.backlog = c.selectors)
  began : s.Began ask
  inOrder : Along (Sent.InOrder s.handler.entered) [] s.handler.sent
  once : (sentRows s.handler.sent).Sublist s.core.committed ∧ (sentRows s.handler.sent).Nodup
  complete : s.phase.entered = true → (∀ row ∈ sentRows s.handler.sent, row.position ≤ s.handler.cursor) ∧
    ∀ row ∈ s.core.log, s.handler.since < row.position → row.position ≤ s.handler.cursor →
      (∀ view ∈ viewsSeen s.handler.entered s.handler.sent, covered view row.slice = true) → row ∈ sentRows s.handler.sent
  arrives : s.phase.entered = true → ∃ events t, (∀ event ∈ events, event = .dispatch ∨ event = .handle) ∧
    (machine host who ask limit).Runs s events t ∧ t.core = s.core ∧ ((t.phase = .gone ∧ ∃ c, t.conn = some c ∧ c.active = false) ∨
      (t.phase = .live ∧ ∀ row ∈ t.core.log, t.handler.since < row.position →
        (∀ view ∈ viewsSeen t.handler.entered t.handler.sent, covered view row.slice = true) → row ∈ sentRows t.handler.sent))
  lives : s.handler.sent.countP Sent.isLive ≤ 1 ∧
    (s.phase = .live ∨ (∃ published, s.phase = .ticking published) → s.handler.sent.countP Sent.isLive = 1)
  vouched : Along (Sent.Vouches s.core.log s.core.head s.handler.since s.handler.entered) [] s.handler.sent

theorem before_nodup {rows : List LogRow} (ordered : rows.Pairwise LogRow.Before) : rows.Nodup := by
  refine ordered.imp fun {a b} before same => ?_
  subst same
  rcases before with less | ⟨_,less⟩
  · exact lt_irrefl _ less
  · exact lt_irrefl _ less

theorem Streams.complete (streams : s.Streams who ask) (entered : s.phase.entered = true) :
    (∀ row ∈ sentRows s.handler.sent, row.position ≤ s.handler.cursor) ∧
    ∀ row ∈ s.core.log, s.handler.since < row.position → row.position ≤ s.handler.cursor →
      (∀ view ∈ viewsSeen s.handler.entered s.handler.sent, covered view row.slice = true) → row ∈ sentRows s.handler.sent := by
  obtain ⟨c,opened,lower,serves⟩ := streams.serves entered
  refine ⟨serves.fine.behind,fun row member since upTo throughout => ?_⟩
  exact (serves.settled row member since (upTo.trans (settledTo_le s lower).1)).throughout throughout

-- The view of an active connection is what a batch at or past the published position grants.
theorem Informed.granted (informed : s.Informed host ask) (linked : s.Linked who ask) (opened : s.conn = some c) (active : c.active = true) :
    ∃ entry ∈ s.core.history, s.dispatcher.position ≤ entry.1 ∧ c.selectors = viewOf ask.wants (host.grant entry.2) := by
  obtain ⟨mark,tells⟩ := informed.tells
  obtain ⟨m,is⟩ := Option.ne_none_iff_exists'.mp (tells.active c opened active)
  obtain ⟨granted,rfl,shown⟩ := tells.shown m c is opened (linked.alive c opened active).granted
  obtain ⟨at_,published,_,entry,member,rfl,same⟩ := tells.backed _ is
  refine ⟨entry,member,published,?_⟩
  rw [shown,(linked.same c opened).1]
  cases found : host.grant entry.2 with
  | error why =>
    rw [found] at same
    cases same
  | ok selectors =>
    rw [found] at same
    cases same
    exact intersect_sorted selectors ask.wants

-- In every run whose grants hash apart, a stream delivers.
theorem streams_deliver {d : Opening σ} {run : List (ServerEvent σ)}
    (runs : ((machine host who ask limit).under (Apart host ask)).Runs (opens d) run s) : s.Delivers host who ask limit := by
  obtain ⟨streams,informed⟩ := runs_streams runs
  have delivered := streams.delivered
  refine ⟨fun c opened active => informed.granted streams.linked opened active,fun entered => ?_,runs_began runs.weaken,
    delivered.inOrder,⟨delivered.logged,before_nodup (streams.piped.sorted.sublist delivered.logged)⟩,
    streams.complete,fun entered => ?_,⟨delivered.lives.1,?_⟩,delivered.vouched⟩
  · obtain ⟨c,opened,lower,serves⟩ := streams.serves entered
    exact ⟨c,opened,serves.current ▸ serves.pending⟩
  · obtain ⟨events,t,quiet,goes,core,ends⟩ := streams.settles informed (runs_halted runs.weaken) entered
    refine ⟨events,t,quiet,goes,core,ends.imp id fun ⟨live,settled⟩ => ⟨live,fun row member since throughout => ?_⟩⟩
    exact (settled row member since).throughout throughout
  · rintro (live | ⟨published,ticking⟩)
    · exact delivered.lives.2 1 (by rw [live]; rfl)
    · exact delivered.lives.2 1 (by rw [ticking]; rfl)

theorem streams_deliver_sample : ∃ s, ((machine Sample.hosted Sample.user Sample.all 8).under (Apart Sample.hosted Sample.all)).Runs
      (opens Sample.opening) Sample.streaming s ∧
    sentRows s.handler.sent = [Sample.row 1 ['s'] 1,Sample.row 2 ['s'] 2] ∧ s.Delivers Sample.hosted Sample.user Sample.all 8 := by
  obtain ⟨s,runs,sent⟩ := Machine.follow_finds ((machine Sample.hosted Sample.user Sample.all 8).under (Apart Sample.hosted Sample.all))
    (opens Sample.opening) Sample.streaming (fun s => sentRows s.handler.sent = [Sample.row 1 ['s'] 1,Sample.row 2 ['s'] 2])
    (by decide +kernel)
  exact ⟨s,runs,by simpa using sent,streams_deliver runs⟩

namespace Sample

-- Two slices of one hash, and a stream of the documents granted.
def first : Name := "doc:a9IN9PZJx_H".toList
def second : Name := "doc:LIpzEv-M2lK".toList
def documents : Ask := .stream none [] ["doc:*".toList]

def held : Opening (List Name × Int) where
  store := ([first],0)
  log := []
  head := 0
  ordered := .nil
  behind := by simp
  bounded := by decide

-- A live stream of the first; a commit that grants the second and t in its place; a commit of
-- an edit of each; and a heartbeat.
def colliding : List (ServerEvent (List Name × Int)) := [.handle,.handle,
  .batch {items:=[],log:=[],store:=([first],0),register:=some ([first],0)},.dispatch,.dispatch,.handle,.handle,.handle,.handle,.handle,
  .batch {items:=[row 1 ['g'] 1],log:=[row 1 ['g'] 1],store:=([second,['t']],0)},.dispatch,.dispatch,
  .batch {items:=[row 2 first 1],log:=[row 1 ['g'] 1,row 2 first 1],store:=([second,['t']],0)},.dispatch,
  .batch {items:=[row 3 second 1],log:=[row 1 ['g'] 1,row 2 first 1,row 3 second 1],store:=([second,['t']],0)},.dispatch,
  .handle,.tick,.handle]

end Sample

-- The view changes unheard, and neither slice's edit is sent ahead of the vouch past both.
theorem colliding_view_unheard : ∃ s, (machine Sample.hosted Sample.user Sample.documents 8).Runs (opens Sample.held) Sample.colliding s ∧
    sentRows s.handler.sent = [] ∧ ¬s.Delivers Sample.hosted Sample.user Sample.documents 8 := by
  obtain ⟨s,runs,found⟩ := Machine.follow_finds (machine Sample.hosted Sample.user Sample.documents 8) (opens Sample.held) Sample.colliding
    (fun s => decide (sentRows s.handler.sent = [] ∧ s.phase.entered = true ∧ s.handler.since = 0 ∧ s.handler.cursor = 3 ∧
      Sample.row 2 Sample.first 1 ∈ s.core.log ∧
      ∀ view ∈ viewsSeen s.handler.entered s.handler.sent, covered view Sample.first = true)) (by decide +kernel)
  obtain ⟨unsent,entered,since,cursor,logged,throughout⟩ := of_decide_eq_true found
  refine ⟨s,runs,unsent,fun delivers => ?_⟩
  have sent := (delivers.complete entered).2 _ logged (by rw [since]; decide) (by rw [cursor]; decide) throughout
  rw [unsent] at sent
  cases sent

end Server

end PhaseLock
