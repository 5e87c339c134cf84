import PhaseLock.Exchange

namespace PhaseLock
variable {V D : Type}

namespace Stamp

theorem Before.irrefl {a : Stamp} : ¬Before a a := fun before => absurd before.1 (lt_irrefl _)

theorem Before.asymm {a b : Stamp} (first : Before a b) : ¬Before b a := fun second => Before.irrefl (first.trans second)

end Stamp

-- An answer that decides its mutation, and one after which it is not decided again.
def Answer.decides (a : Answer) : Prop := a.how = .decided ∨ a.how = .proof
def Answer.settles (a : Answer) : Prop := a.decides ∨ a.how = .unreadable

namespace Wiring

-- An answer under a mutation's series and number.
def Names (wiring : Wiring) (a : Answer) (x : Mutation D) : Prop := a.series = some (.series (wiring.digest x.series),x.n)

-- A mutation was decided, or was refused unread.
def Settled (wiring : Wiring) (trace : List Answer) (x : Mutation D) : Prop := ∃ a ∈ trace, wiring.Names a x ∧ a.settles

theorem Settled.mono {wiring : Wiring} {trace later : List Answer} {x : Mutation D} (settled : wiring.Settled trace x)
    (more : trace <+: later) : wiring.Settled later x := by
  obtain ⟨a,member,rest⟩ := settled
  exact ⟨a,more.subset member,rest⟩

end Wiring

namespace Exchange
open Stamp
variable {wiring : Wiring} {s after : Exchange V D} {x y : Mutation D} {trace later : List Answer}

-- What the client ever filed or sent.
def Known (s : Exchange V D) (x : Mutation D) : Prop := x ∈ s.outbox ∨ x ∈ s.handed

-- An @online mutation that something posted since was not posted behind: its connection is gone.
def Late (s : Exchange V D) (x : Mutation D) : Prop :=
  x ∉ s.outbox ∧ ∃ p ∈ s.posted, x ∉ p.given ∧ ∃ y ∈ p.request, Before x.stamp y.stamp

-- A mutation is decided only once all that was handed over before it is settled.
def Leads (wiring : Wiring) (s : Exchange V D) (before : List Answer) (a : Answer) : Prop :=
  a.decides → ∀ series n, a.series = some (.series (wiring.digest series),n) → ∃ p ∈ s.posted, ∃ y ∈ p.request, wiring.Names a y ∧
    ∀ x, x ∈ s.outbox ∨ x ∈ p.given → Before x.stamp y.stamp → wiring.Settled before x ∨ s.Late x

-- The answers the database gave, each behind those it had to wait for, and whose their edits are.
structure Tracks (wiring : Wiring) (s : Exchange V D) (trace : List Answer) : Prop where
  led : Traced (s.Leads wiring) trace
  made : ∀ a ∈ trace, ∀ row ∈ a.items, ∀ e, readEdit row.edit = some e → e.id < wiring.own →
    ∃ x, s.Known x ∧ x.id = e.id ∧ wiring.Names a x ∧ a.settles

-- What an outcome tells of its mutation: it is settled, and an ok is at or behind its edits.
def Told (wiring : Wiring) (s : Exchange V D) (trace : List Answer) (x : Mutation D) (outcome : Outcome) : Prop :=
  s.Late x ∨ ∃ a ∈ trace, wiring.Names a x ∧ a.settles ∧ ∀ position, outcome = .ok position → ∀ row ∈ a.items, row.position ≤ position

-- A submission has outcomes for the first of its request's mutations, and for all unless it bounced.
structure Whole (wiring : Wiring) (s : Exchange V D) (trace : List Answer) (sub : Submitted D) : Prop where
  posted : ∃ p ∈ s.posted, p.request = sub.request
  told : sub.reply.status = 0 → ∃ done left, sub.request = done++left ∧ List.Forall₂ (s.Told wiring trace) done sub.outcomes ∧
    (sub.reply.bounce = none → left = [])

-- A result the client has for an id.
def Hears (wiring : Wiring) (s : Exchange V D) (id : Nat) (result : MutationResult) : Prop :=
  ∃ x, s.Known x ∧ x.id = id ∧ ∃ a ∈ s.db.answered, wiring.Names a x ∧ a.settles ∧
    ∀ position, result = .ok position → ∀ row ∈ a.items, (row.position : Int) ≤ position

def Tells (wiring : Wiring) (s : Exchange V D) (outcome : MutationOutcome) : Prop :=
  ∀ results, outcome.results = some results → ∀ row ∈ outcome.ids.zip results, s.Hears wiring row.1 row.2

-- A request went out behind all its connection was handed and all the outbox took before it.
structure Posted (wiring : Wiring) (s : Exchange V D) (p : Posting D) : Prop where
  sorted : p.request.Pairwise fun a b => Before a.stamp b.stamp
  within : ∀ x ∈ p.request, x ∈ p.given
  known : ∀ x ∈ p.given, x ∈ s.handed
  leads : ∀ y ∈ p.request, ∀ x, x ∈ s.outbox ∨ x ∈ p.given → Before x.stamp y.stamp →
    wiring.Settled s.db.answered x ∨ s.Late x ∨ x ∈ p.request

-- The connection's calls, behind those that were answered.
structure Piped (wiring : Wiring) (s : Exchange V D) : Prop where
  parts : ∃ done lost, s.sent = done++s.pipe.calls.flatten++lost ∧ (∀ x ∈ done, wiring.Settled s.db.answered x) ∧ (s.pipe.ended = false → lost = [])
  idle : s.pipe.calls = [] → s.pipe.request = none ∧ s.pipe.results = []
  first : ∀ call rest, s.pipe.calls = call :: rest → s.pipe.results.length ≤ call.length ∧
    (∀ row ∈ (call.map Mutation.id).zip s.pipe.results, s.Hears wiring row.1 row.2) ∧
    (∀ x ∈ call.take s.pipe.results.length, wiring.Settled s.db.answered x) ∧
    ∀ request, s.pipe.request = some request → (∃ p ∈ s.posted, p.request = request) ∧ request <+: call.drop s.pipe.results.length

-- What holds in every run.
structure Holds (wiring : Wiring) (s : Exchange V D) : Prop where
  kept : Journal.Kept s.journal
  sending : Journal.Sending s.journal.engine
  bound : s.journal.engine.nextId ≤ wiring.own
  rows : ∀ o x, s.journal.engine.core.store.mutations.get o = some x → x ∈ s.outbox
  sends : ∀ call ∈ s.journal.engine.sends, ∀ x ∈ call.wire, x ∈ s.handed
  below : ∀ x, s.Known x → Before x.stamp s.journal.engine.stamp
  linear : ∀ x y, s.Known x → s.Known y → x = y ∨ Before x.stamp y.stamp ∨ Before y.stamp x.stamp
  posted : ∀ p ∈ s.posted, s.Posted wiring p
  ahead : ∀ p ∈ s.posted, ∀ y ∈ p.request, ∀ x ∈ s.sent, Before x.stamp y.stamp → x ∈ s.outbox ∨ x ∈ p.given
  piped : s.Piped wiring
  path : ∃ events, Db.machine.Runs {} events s.db
  tracks : s.Tracks wiring s.db.writer.trace
  waiting : ∀ row ∈ s.waiting, s.Whole wiring s.db.writer.trace row
  replied : ∀ row ∈ s.replied, s.Whole wiring s.db.answered row
  told : ∀ outcome ∈ s.told, s.Tells wiring outcome
  queued : ∀ outcome ∈ s.journal.engine.mutationOutcomes, s.Tells wiring outcome
  answers : ∀ row ∈ s.journal.answers, s.Hears wiring row.1 row.2
  entered : ∀ id ∈ s.journal.entered, ∃ x, s.Known x ∧ x.id = id ∧ wiring.Settled s.db.answered x
  carries : s.journal.engine.Carries (wiring.Logged s.db)
  left : ∀ x ∈ s.outbox, (∃ o, s.journal.engine.core.store.mutations.get o = some x) ∨ wiring.Settled s.db.answered x

-- The client's mutations only grow, each new one behind all there were; requests and answers stay.
structure Grows (s after : Exchange V D) : Prop where
  outbox : ∀ x ∈ s.outbox, x ∈ after.outbox
  handed : ∀ x ∈ s.handed, x ∈ after.handed
  posted : ∀ p ∈ s.posted, p ∈ after.posted
  behind : ∀ x ∈ after.outbox, x ∈ s.outbox ∨ ∀ y, s.Known y → Before y.stamp x.stamp
  answered : s.db.answered <+: after.db.answered

theorem Grows.known (grows : s.Grows after) (known : s.Known x) : after.Known x := known.imp (grows.outbox x) (grows.handed x)

theorem Grows.settled (grows : s.Grows after) (settled : wiring.Settled s.db.answered x) : wiring.Settled after.db.answered x :=
  settled.mono grows.answered

-- What was known and not of the outbox is not of it later.
theorem Grows.fresh (grows : s.Grows after) (known : s.Known x) (member : x ∈ after.outbox) : x ∈ s.outbox :=
  (grows.behind x member).resolve_right fun new => Before.irrefl (new x known)

theorem Grows.late (grows : s.Grows after) (known : s.Known x) (late : s.Late x) : after.Late x := by
  obtain ⟨out,p,member,rest⟩ := late
  exact ⟨fun member => out (grows.fresh known member),p,grows.posted p member,rest⟩

theorem Posted.of_known {p : Posting D} (posted : s.Posted wiring p) (member : x ∈ p.request) : s.Known x :=
  .inr (posted.known x (posted.within x member))

-- Nothing new comes before what was posted.
theorem Grows.owed {p : Posting D} (grows : s.Grows after) (posted : s.Posted wiring p) (inside : y ∈ p.request)
    (before : Before x.stamp y.stamp) (owed : x ∈ after.outbox ∨ x ∈ p.given) : x ∈ s.outbox ∨ x ∈ p.given := by
  rcases owed with member | given
  · rcases grows.behind x member with old | new
    · exact .inl old
    · exact absurd (new y (posted.of_known inside)) before.asymm
  · exact .inr given

theorem known_owed {p : Posting D} (posted : s.Posted wiring p) (owed : x ∈ s.outbox ∨ x ∈ p.given) : s.Known x :=
  owed.imp id (posted.known x)

theorem Grows.posts {p : Posting D} (grows : s.Grows after) (posted : s.Posted wiring p) : after.Posted wiring p := by
  refine ⟨posted.sorted,posted.within,fun x given => grows.handed x (posted.known x given),fun y inside x owed before => ?_⟩
  have owed := grows.owed posted inside before owed
  exact (posted.leads y inside x owed before).imp grows.settled (Or.imp (grows.late (known_owed posted owed)) id)

theorem Grows.tracks (grows : s.Grows after) (posted : ∀ p ∈ s.posted, s.Posted wiring p) (tracks : s.Tracks wiring trace) :
    after.Tracks wiring trace := by
  refine ⟨tracks.led.imp fun before a _ _ leads decides series n is => ?_,fun a member row inside e read own => ?_⟩
  · obtain ⟨p,member,y,inside,names,each⟩ := leads decides series n is
    refine ⟨p,grows.posted p member,y,inside,names,fun x owed first => ?_⟩
    have owed := grows.owed (posted p member) inside first owed
    exact (each x owed first).imp id (grows.late (known_owed (posted p member) owed))
  · obtain ⟨x,known,rest⟩ := tracks.made a member row inside e read own
    exact ⟨x,grows.known known,rest⟩

theorem Grows.tells_of {outcome : Outcome} (grows : s.Grows after) (known : s.Known x) (more : trace <+: later)
    (told : s.Told wiring trace x outcome) : after.Told wiring later x outcome := by
  rcases told with late | ⟨a,member,rest⟩
  · exact .inl (grows.late known late)
  · exact .inr ⟨a,more.subset member,rest⟩

theorem Grows.whole {sub : Submitted D} (grows : s.Grows after) (posted : ∀ p ∈ s.posted, s.Posted wiring p) (more : trace <+: later)
    (whole : s.Whole wiring trace sub) : after.Whole wiring later sub := by
  obtain ⟨p,member,is⟩ := whole.posted
  refine ⟨⟨p,grows.posted p member,is⟩,fun status => ?_⟩
  obtain ⟨done,left,split,told,all⟩ := whole.told status
  refine ⟨done,left,split,List.forall₂_iff_get.mpr ⟨told.length_eq,fun i inside right => ?_⟩,all⟩
  refine grows.tells_of ((posted p member).of_known ?_) more (told.get inside right)
  rw [is,split]
  exact List.mem_append_left _ (List.get_mem _ _)

theorem Grows.hears {id : Nat} {result : MutationResult} (grows : s.Grows after) (hears : s.Hears wiring id result) :
    after.Hears wiring id result := by
  obtain ⟨x,known,same,a,member,rest⟩ := hears
  exact ⟨x,grows.known known,same,a,grows.answered.subset member,rest⟩

theorem Grows.tells {outcome : MutationOutcome} (grows : s.Grows after) (tells : s.Tells wiring outcome) : after.Tells wiring outcome :=
  fun results is row member => grows.hears (tells results is row member)

theorem Holds.sound (held : s.Holds wiring) : s.db.Sound := by
  obtain ⟨events,path⟩ := held.path
  exact Db.runs_sound path

theorem Holds.committed (held : s.Holds wiring) : s.db.answered <+: s.db.writer.trace := held.sound.writer.trace

-- The open batch, as a request finds and leaves it.
structure Going (wiring : Wiring) (s : Exchange V D) (w : Writer) : Prop where
  leads : s.db.writer.Leads w
  tracks : s.Tracks wiring w.trace

theorem Holds.going (held : s.Holds wiring) : s.Going wiring s.db.writer := ⟨held.sound.writer.sound.leads,held.tracks⟩

variable {w next : Writer} {a : Answer}

theorem Going.same (going : s.Going wiring w) (store : next.store = w.store) (position : next.position = w.position) (trace : next.trace = w.trace) :
    s.Going wiring next := by
  refine ⟨going.leads.trans (going.leads.sound.same_leads store position trace),?_⟩
  rw [trace]
  exact going.tracks

theorem Going.behind (going : s.Going wiring w) : ∀ row ∈ w.store.log, row.position ≤ w.position :=
  fun _ member => going.leads.sound.logged.behind member

theorem Tracks.concat (tracks : s.Tracks wiring trace) (leads : s.Leads wiring trace a)
    (made : ∀ row ∈ a.items, ∀ e, readEdit row.edit = some e → e.id < wiring.own → ∃ x, s.Known x ∧ x.id = e.id ∧ wiring.Names a x ∧ a.settles) :
    s.Tracks wiring (trace++[a]) := by
  refine ⟨tracks.led.concat leads,fun b member => ?_⟩
  rcases List.mem_append.mp member with old | new
  · exact tracks.made b old
  · rw [List.mem_singleton.mp new]
    exact made

theorem Going.foreign {row : Option (SeriesKey × Nat) × Nat} (going : s.Going wiring w) (foreign : wiring.Foreign row)
    (answered : Answered w a next) (own : a.From row.1 row.2) : s.Going wiring next := by
  refine ⟨going.leads.trans (going.leads.sound.answered answered),?_⟩
  rw [answered.trace]
  refine going.tracks.concat (fun _ series n is => ?_) fun logged member e read mine => ?_
  · rw [own.series] at is
    exact absurd rfl (foreign.1 _ n is series)
  · obtain ⟨edit,reads,id⟩ := own.edits logged member
    rw [read] at reads
    cases reads
    rw [id] at mine
    exact absurd foreign.2 (Nat.not_le.mpr mine)

-- A number at or below its series' mark was settled, or came too late for its connection.
theorem Going.deduped (inj : Function.Injective wiring.digest) (held : s.Holds wiring) (going : s.Going wiring w) (known : s.Known x)
    (before : w.decidedBefore (some (.series (wiring.digest x.series),x.n)) = true) : s.Late x ∨ wiring.Settled w.trace x := by
  unfold Writer.decidedBefore at before
  rw [Option.any_some,Option.any_eq_true] at before
  obtain ⟨mark,is,reached⟩ := before
  rw [going.leads.sound.marked.largest] at is
  obtain ⟨b,member,marks⟩ := List.mem_filterMap.mp (List.max?_mem is)
  unfold marking at marks
  split at marks
  · rename_i decides
    obtain ⟨row,numbered,last⟩ := Option.map_eq_some_iff.mp marks
    obtain ⟨numbered,key⟩ := Option.filter_eq_some_iff.mp numbered
    obtain ⟨k,n⟩ := row
    have key : k = .series (wiring.digest x.series) := by simpa using key
    have last : n = mark := last
    subst key last
    obtain ⟨first,front,_,leads⟩ := going.tracks.led.at_mem member
    obtain ⟨p,posted,y,inside,names,each⟩ := leads decides x.series n numbered
    have same : y.series = x.series ∧ y.n = n := by
      unfold Wiring.Names at names
      rw [numbered] at names
      have both := Prod.mk.inj (Option.some.inj names)
      exact ⟨inj (SeriesKey.series.inj both.1).symm,both.2.symm⟩
    have reached : x.n ≤ n := by simpa using reached
    rcases held.linear x y known ((held.posted p posted).of_known inside) with rfl | first_ | later
    · exact .inr ⟨b,member,names,.inl decides⟩
    · by_cases owed : x ∈ s.outbox ∨ x ∈ p.given
      · exact (each x owed first_).symm.imp id fun settled => settled.mono front
      · rw [not_or] at owed
        exact .inl ⟨owed.1,p,posted,owed.2,y,inside,first_⟩
    · have earlier : y.n < x.n := by
        have later := later.2
        unfold Mutation.stamp at later
        dsimp only at later
        omega
      omega
  · cases marks

-- One mutation of a request, once those before it are settled.
theorem Going.turn {p : Posting D} {xs ys : List (Mutation D)} (inj : Function.Injective wiring.digest) (held : s.Holds wiring)
    (going : s.Going wiring w) (posted : p ∈ s.posted) (place : p.request = xs++x :: ys)
    (done : ∀ z ∈ xs, s.Late z ∨ wiring.Settled w.trace z) (answered : Answered w a next)
    (own : a.From (some (.series (wiring.digest x.series),x.n)) x.id) :
    s.Going wiring next ∧ ∀ outcome, a.how ≠ .bounced → a.outcome = some outcome → (∀ position, outcome = .ok position → position = next.position) →
      s.Told wiring next.trace x outcome := by
  have post := held.posted p posted
  have inside : x ∈ p.request := by
    rw [place]
    exact List.mem_append_right _ List.mem_cons_self
  have known := post.of_known inside
  have leads := going.leads.trans (going.leads.sound.answered answered)
  have reach : s.db.answered <+: w.trace := held.committed.trans going.leads.trace
  have last : a ∈ next.trace := by
    rw [answered.trace]
    exact List.mem_append_right _ List.mem_cons_self
  refine ⟨⟨leads,?_⟩,fun outcome whole is head => ?_⟩
  · rw [answered.trace]
    refine going.tracks.concat (fun _ series n is => ?_) fun row member e read _ => ?_
    · refine ⟨p,posted,x,inside,own.series,fun z owed before => ?_⟩
      rcases post.leads x inside z owed before with settled | late | member
      · exact .inl (settled.mono reach)
      · exact .inr late
      · have ahead : z ∈ xs := by
          have sorted := post.sorted
          rw [place] at member sorted
          rcases List.mem_append.mp member with front | back
          · exact front
          · rcases List.mem_cons.mp back with rfl | behind
            · exact absurd before Stamp.Before.irrefl
            · exact absurd before (List.rel_of_pairwise_cons (List.pairwise_append.mp sorted).2.1 behind).asymm
        exact (done z ahead).symm
    · obtain ⟨edit,reads,id⟩ := own.edits row member
      rw [read] at reads
      cases reads
      have accepted : a.accepted := by
        by_contra other
        rw [(answered.others other).1] at member
        cases member
      exact ⟨x,known,id.symm,own.series,.inl (.inl accepted.1)⟩
  · -- every edit there is stands at or below the head
    have low : ∀ b ∈ next.trace, ∀ position, outcome = .ok position → ∀ row ∈ b.items, row.position ≤ position := by
      intro b member position ok row listed
      rw [head position ok]
      exact (leads.sound.wellFormed.head.2 row (List.mem_flatMap.mpr ⟨b,member,listed⟩)).2
    have settled : s.Late x ∨ wiring.Settled next.trace x := by
      by_cases again : a.how = .deduped
      · have before := (answered.dedup.mp again).2
        rw [own.series] at before
        refine (going.deduped inj held known before).imp id fun settled => settled.mono ?_
        rw [answered.trace]
        exact List.prefix_append _ _
      · refine .inr ⟨a,last,own.series,?_⟩
        unfold Answer.settles Answer.decides
        cases how : a.how <;> simp_all
    rcases settled with late | ⟨b,member,names,settles⟩
    · exact .inl late
    · exact .inr ⟨b,member,names,settles,low b member⟩

-- A submission tells of the mutations of its request it comes to, all of them unless it bounces.
theorem Going.call {p : Posting D} {call : Writer.Call} {front rest : List (Mutation D)} {earlier : List Outcome}
    (inj : Function.Injective wiring.digest) (held : s.Holds wiring) (posted : p ∈ s.posted) (place : p.request = front++rest)
    (told : List.Forall₂ (s.Told wiring s.db.writer.trace) front earlier) (reads : List.Forall₂ wiring.Reads rest call.mutations)
    (servertime : Int) :
    ∃ next reply, s.db.writer.handle servertime (.submit call) = .ok (next.replies reply) ∧ s.Going wiring next ∧
      (reply.status = 0 → ∃ done left, p.request = done++left ∧
        List.Forall₂ (s.Told wiring next.trace) done (earlier++reply.outcomes) ∧ (reply.bounce = none → left = [])) := by
  cases current : call.current with
  | false =>
    refine ⟨s.db.writer,{status:=401},?_,held.going,fun status => (by cases status)⟩
    simp only [Writer.handle,Writer.handleSubmit,current,Bool.not_false,if_true]
  | true =>
    let J : List (Asked × Outcome) → Writer → Prop := fun done w => ∃ xs ys, rest = xs++ys ∧ xs.length = done.length ∧
      List.Forall₂ (s.Told wiring w.trace) (front++xs) (earlier++done.map Prod.snd)
    have later : ∀ {w next : Writer} {xs : List (Mutation D)} {outcomes : List Outcome}, w.trace <+: next.trace →
        List.Forall₂ (s.Told wiring w.trace) xs outcomes → List.Forall₂ (s.Told wiring next.trace) xs outcomes :=
      fun more told => told.imp fun _ _ told => told.imp id fun told => by
        obtain ⟨a,member,rest⟩ := told
        exact ⟨a,more.subset member,rest⟩
    obtain ⟨next,reply,ran,going,whole⟩ := @runCall_turns (s.Going wiring) J call.mutations Going.behind (by
        intro w a next done m more whole going told answered own
        obtain ⟨xs,ys,split,size,told⟩ := told
        have tail : List.Forall₂ wiring.Reads ys (m :: more) := by
          have dropped := List.forall₂_drop done.length reads
          rw [split,← whole,← size] at dropped
          rwa [List.drop_left,show xs.length = (done.map Prod.fst).length by simp [size],List.drop_left] at dropped
        have longer : w.trace <+: next.trace := by
          rw [answered.trace]
          exact List.prefix_append _ _
        cases tail with
        | cons head behind =>
          rename_i x ys
          rw [show m.key = some (.series (wiring.digest x.series),x.n) by unfold Asked.key; rw [head.1]; rfl,head.2] at own
          have done_ : ∀ z ∈ front++xs, s.Late z ∨ wiring.Settled w.trace z := by
            intro z member
            obtain ⟨i,inside,rfl⟩ := List.getElem_of_mem member
            refine (told.get inside (told.length_eq ▸ inside)).imp id fun told => ?_
            obtain ⟨a,member,names,settles,_⟩ := told
            exact ⟨a,member,names,settles⟩
          obtain ⟨onward,tells⟩ := going.turn inj held posted (by rw [place,split,List.append_assoc]) done_ answered own
          refine ⟨onward,fun _ => ⟨xs,x :: ys,split,size,later longer told⟩,fun outcome whole is head =>
            ⟨xs++[x],ys,by simp [split],by simp [size],?_⟩⟩
          rw [List.map_append,← List.append_assoc,← List.append_assoc]
          exact List.rel_append (later longer told) (.cons (tells outcome whole is head) .nil))
      servertime call.attempt call.mutations s.db.writer [] rfl held.going ⟨[],rest,rfl,rfl,by simpa using told⟩
    refine ⟨next,reply,?_,going,fun _ => ?_⟩
    · simp only [Writer.handle,Writer.handleSubmit,current,Bool.not_true,Bool.false_eq_true,if_false]
      rw [show ([] : List Outcome) = ([] : List (Asked × Outcome)).map Prod.snd from rfl,ran]
      rfl
    · obtain ⟨all,left,asked,outcomes,⟨xs,ys,split,size,told⟩,none⟩ := whole
      refine ⟨front++xs,ys,by rw [place,split,List.append_assoc],by rw [outcomes]; exact told,fun bounce => ?_⟩
      have sizes := reads.length_eq
      rw [← asked,none bounce,List.append_nil,split,List.length_append,List.length_map,size] at sizes
      exact List.length_eq_zero_iff.mp (by omega)

theorem Grows.refl (s : Exchange V D) : s.Grows s := ⟨fun _ => id,fun _ => id,fun _ => id,fun _ => .inl,List.prefix_refl _⟩

theorem Logged.mono {db later : Db} {e : WireEdit V} (more : db.answered <+: later.answered) (logged : wiring.Logged db e) :
    wiring.Logged later e := by
  intro own
  obtain ⟨row,member,rest⟩ := logged own
  obtain ⟨a,inside,listed⟩ := List.mem_flatMap.mp member
  exact ⟨row,List.mem_flatMap.mpr ⟨a,more.subset inside,listed⟩,rest⟩

theorem carries_imp {P Q : WireEdit V → Prop} {engine : Engine V D} (implied : ∀ e, P e → Q e) (held : engine.Carries P) : engine.Carries Q :=
  ⟨fun item member e inside => implied e (held.inbox item member e inside),fun work member e inside => implied e (held.pushes work member e inside),
    fun at_ e inside => implied e (held.parked at_ e inside)⟩

theorem Holds.serves {db : Db} {waiting replied : List (Submitted D)} (held : s.Holds wiring)
    (path : ∃ events, Db.machine.Runs {} events db) (more : s.db.answered <+: db.answered) (tracks : s.Tracks wiring db.writer.trace)
    (waits : ∀ row ∈ waiting, s.Whole wiring db.writer.trace row) (replies : ∀ row ∈ replied, s.Whole wiring db.answered row) :
    Holds wiring {s with db,waiting,replied} := by
  have grows : s.Grows {s with db,waiting,replied} := ⟨fun _ => id,fun _ => id,fun _ => id,fun _ => .inl,more⟩
  refine {held with
    posted := fun p member => grows.posts (held.posted p member)
    piped := ?_
    path := path
    tracks := grows.tracks held.posted tracks
    waiting := fun row member => grows.whole held.posted (List.prefix_refl _) (waits row member)
    replied := fun row member => grows.whole held.posted (List.prefix_refl _) (replies row member)
    told := fun outcome member => grows.tells (held.told outcome member)
    queued := fun outcome member => grows.tells (held.queued outcome member)
    answers := fun row member => grows.hears (held.answers row member)
    entered := ?_
    carries := carries_imp (fun e => Logged.mono more) held.carries
    left := fun x member => (held.left x member).imp id grows.settled}
  · obtain ⟨⟨done,lost,parts,settled,open_⟩,idle,first⟩ := held.piped
    refine ⟨⟨done,lost,parts,fun x member => grows.settled (settled x member),open_⟩,idle,fun call rest is => ?_⟩
    obtain ⟨size,hears,settled,request⟩ := first call rest is
    exact ⟨size,fun row member => grows.hears (hears row member),fun x member => grows.settled (settled x member),request⟩
  · intro id member
    obtain ⟨x,known,same,settled⟩ := held.entered id member
    exact ⟨x,known,same,grows.settled settled⟩

theorem Holds.wholes {row : Submitted D} (held : s.Holds wiring) (whole : s.Whole wiring trace row) (more : trace <+: later) :
    s.Whole wiring later row := (Grows.refl s).whole held.posted more whole

theorem Holds.submits {p : Posting D} {call : Writer.Call} {front rest : List (Mutation D)} {earlier : List Outcome}
    (inj : Function.Injective wiring.digest) (held : s.Holds wiring) (posted : p ∈ s.posted) (place : p.request = front++rest)
    (told : List.Forall₂ (s.Told wiring s.db.writer.trace) front earlier) (reads : List.Forall₂ wiring.Reads rest call.mutations)
    (servertime : Int) : Holds wiring (s.served servertime p.request earlier call) := by
  obtain ⟨events,path⟩ := held.path
  obtain ⟨next,reply,ran,going,tells⟩ := Going.call inj held posted place told reads servertime
  have stepped : s.db.next (.request servertime (.submit call)) = {s.db with writer:=next.replies reply} := by simp only [Db.next,ran]
  have further : Db.machine.Runs {} (events++[.request servertime (.submit call)]) (s.db.next (.request servertime (.submit call))) :=
    .step path trivial
  rw [stepped] at further
  have last : (next.replies reply).after.getLast? = some reply := by simp [Writer.replies]
  unfold served
  rw [ran,stepped]
  dsimp only
  rw [last]
  refine held.serves ⟨_,further⟩ (List.prefix_refl _) going.tracks (fun row member => ?_) held.replied
  rcases List.mem_append.mp member with old | new
  · exact held.wholes (held.waiting row old) going.leads.trace
  · have new : row ∈ [(⟨p.request,earlier,reply⟩ : Submitted D)] := new
    rw [List.mem_singleton.mp new]
    exact ⟨⟨p,posted,rfl⟩,tells⟩

theorem Holds.delivers (inj : Function.Injective wiring.digest) (held : s.Holds wiring) {servertime : Int} {request : List (Mutation D)}
    {call : Writer.Call} (allowed : s.Allowed wiring (.deliver servertime request call)) : Holds wiring (s.served servertime request [] call) := by
  obtain ⟨⟨p,posted,rfl⟩,reads⟩ := allowed
  exact held.submits inj posted (List.nil_append _).symm .nil reads servertime

theorem Holds.resubmits (inj : Function.Injective wiring.digest) (held : s.Holds wiring) {servertime : Int} {sub : Submitted D}
    {call : Writer.Call} (allowed : s.Allowed wiring (.resubmit servertime sub call)) :
    Holds wiring (s.served servertime sub.request sub.outcomes call) := by
  obtain ⟨member,status,_,reads⟩ := allowed
  have whole := held.wholes (held.replied sub member) held.committed
  obtain ⟨p,posted,is⟩ := whole.posted
  obtain ⟨done,left,split,told,_⟩ := whole.told status
  rw [split,← told.length_eq,List.drop_left] at reads
  rw [← is] at split ⊢
  exact held.submits inj posted split told reads servertime

theorem Holds.others (held : s.Holds wiring) {event : DbEvent} (allowed : s.Allowed wiring (.other event)) :
    Holds wiring (s.next wiring (.other event)) := by
  obtain ⟨events,path⟩ := held.path
  have going := held.going
  have foreign : ∀ {w next : Writer} {a : Answer} {row : Option (SeriesKey × Nat) × Nat}, wiring.Foreign row → s.Going wiring w →
      Answered w a next → a.From row.1 row.2 → s.Going wiring next := fun foreign going answered own => going.foreign foreign answered own
  cases event with
  | request servertime req =>
    have allowed : ∀ row ∈ req.names, wiring.Foreign row := allowed
    obtain ⟨next,ran,after⟩ := handle_named Going.behind foreign Going.same (fun install entry minute servertime going =>
      ⟨going.leads.trans (going.leads.sound.armed install entry minute servertime),going.tracks⟩) going servertime req allowed
    have stepped : s.db.next (.request servertime req) = {s.db with writer:=next} := by simp only [Db.next,ran]
    have further : Db.machine.Runs {} (events++[.request servertime req]) (s.db.next (.request servertime req)) := .step path trivial
    rw [stepped] at further
    have is : s.next wiring (.other (.request servertime req)) = {s with db:={s.db with writer:=next}} := by
      unfold Exchange.next
      dsimp only
      rw [ran,stepped]
    rw [is]
    exact held.serves ⟨_,further⟩ (List.prefix_refl _) after.tracks
      (fun row member => held.wholes (held.waiting row member) after.leads.trace) held.replied
  | commit =>
    have is : s.next wiring (.other .commit) = {s with
        db:=s.db.next .commit
        waiting:=[]
        replied:=s.replied++s.waiting} := rfl
    rw [is]
    have further : Db.machine.Runs {} (events++[.commit]) (s.db.next .commit) := .step path trivial
    refine held.serves ⟨_,further⟩ held.committed held.tracks (fun _ none => (by cases none)) fun row member => ?_
    rcases List.mem_append.mp member with old | new
    · exact held.wholes (held.replied row old) held.committed
    · exact held.waiting row new
  | restart servertime id ops ran =>
    obtain ⟨own,admitted⟩ := allowed
    have is : s.next wiring (.other (.restart servertime id ops ran)) = {s with
        db:=s.db.next (.restart servertime id ops ran)
        waiting:=[]} := rfl
    have disk : s.Tracks wiring s.db.answered := ⟨held.tracks.led.of_prefix held.committed,fun a member => held.tracks.made a (held.committed.subset member)⟩
    have further : Db.machine.Runs {} (events++[.restart servertime id ops ran]) (s.db.next (.restart servertime id ops ran)) :=
      .step path admitted
    have grown := (Db.step_sound held.sound (.restart servertime id ops ran)).2.answered
    rw [is]
    refine held.serves ⟨_,further⟩ grown ?_ (fun _ none => (by cases none)) fun row member => held.wholes (held.replied row member) grown
    -- bootstrap runs over what is committed alone
    let I : Writer → Prop := fun w => (Writer.opens s.db.disk s.db.answered).Leads w ∧ s.Tracks wiring w.trace
    have start : I (Writer.opens s.db.disk s.db.answered) := ⟨held.sound.disk.leads,disk⟩
    obtain ⟨next,booted,_,tracks⟩ := @bootstrap_named (Writer.opens s.db.disk s.db.answered) I (fun row => row.1 = none ∧ wiring.own ≤ row.2)
      (fun holds _ member => holds.1.sound.logged.behind member)
      (by
        intro w a next row foreign holds answered from_
        refine ⟨holds.1.trans (holds.1.sound.answered answered),?_⟩
        rw [answered.trace]
        refine holds.2.concat (fun _ series n is => ?_) fun logged member e read mine => ?_
        · rw [from_.series,foreign.1] at is
          cases is
        · obtain ⟨edit,reads,is⟩ := from_.edits logged member
          rw [read] at reads
          cases reads
          rw [is] at mine
          exact absurd foreign.2 (Nat.not_le.mpr mine))
      (fun holds store position trace => ⟨holds.1.trans (holds.1.sound.same_leads store position trace),by rw [trace]; exact holds.2⟩)
      start servertime id ops ran ⟨rfl,own⟩
    unfold Db.next
    dsimp only
    split
    · rw [booted]
      exact tracks
    · exact disk

end Exchange
end PhaseLock
