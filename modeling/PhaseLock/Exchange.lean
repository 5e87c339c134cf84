import PhaseLock.Advances
import PhaseLock.Requests
import PhaseLock.Histories

namespace PhaseLock
variable {V D : Type}

-- The most mutations a request may carry, from a session or without one.
structure MutationLimits where
  session : Nat := 128
  anonymous : Nat := 8
deriving DecidableEq

namespace MutationLimits

def of (limits : MutationLimits) (anonymous : Bool) : Nat := if anonymous then limits.anonymous else limits.session

def learn (limits : MutationLimits) (anonymous : Bool) (max : Nat) : MutationLimits :=
  if anonymous then {limits with anonymous:=max} else {limits with session:=max}

end MutationLimits

-- A connection's sends: the calls that wait, the first with the results it has so far and the
-- request in flight for it, and whether the connection has ended, which takes no further call.
structure Pipe (D : Type) where
  calls : List (List (Mutation D)) := []
  results : List MutationResult := []
  request : Option (List (Mutation D)) := none
  ended : Bool := false

namespace Pipe

def sendMutations (pipe : Pipe D) (calls : List (List (Mutation D))) : Pipe D :=
  if pipe.ended then pipe else {pipe with calls:=pipe.calls++calls}

-- The next request of the call in progress: of what has no result yet, as many as the limit allows.
def next (pipe : Pipe D) (limit : Nat) : Option (List (Mutation D)) :=
  match pipe.calls,pipe.request with
  | call :: _,none => if pipe.results.length < call.length then some ((call.drop pipe.results.length).take limit) else none
  | _,_ => none

-- A request's outcomes, in order; the call resolves once it has as many as mutations.
def answered (pipe : Pipe D) (outcomes : List MutationResult) : Pipe D × Option (List Nat × List MutationResult) :=
  match pipe.calls with
  | [] => (pipe,none)
  | call :: rest =>
    let results := pipe.results++outcomes
    if results.length < call.length then ({pipe with results,request:=none},none)
    else ({pipe with calls:=rest,results:=[],request:=none},some (call.map Mutation.id,results))

-- A send that fails rejects its call and every one behind it, and ends the connection.
def fail (pipe : Pipe D) : Pipe D := {pipe with calls:=[],results:=[],request:=none,ended:=true}

end Pipe

-- A request as it went out, and all its connection had been handed by then.
structure Posting (D : Type) where
  given : List (Mutation D)
  request : List (Mutation D)

-- A request as the database was given it, or what a bounce had left of it: the outcomes of the
-- submissions before, and this one's reply.
structure Submitted (D : Type) where
  request : List (Mutation D)
  earlier : List Outcome := []
  reply : Reply

def Submitted.outcomes (sub : Submitted D) : List Outcome := sub.earlier++sub.reply.outcomes

-- A client and its database: the Engine, the sends of its connection, the requests that ever went
-- out, the calls that were answered whole, and the database with the replies of its open batch
-- and those it has given.  Beside them stand the mutations the outbox ever took, and those a
-- connection was ever handed.
structure Exchange (V D : Type) where
  journal : Journal V D
  pipe : Pipe D := {}
  limits : MutationLimits := {}
  posted : List (Posting D) := []
  told : List MutationOutcome := []
  db : Db := {}
  waiting : List (Submitted D) := []
  replied : List (Submitted D) := []
  outbox : List (Mutation D) := []
  handed : List (Mutation D) := []

-- What the Engine does, with the transport and the database around it.  A request that is retried,
-- or that arrives late, is one delivered again; one that bounced is submitted again from its first
-- undecided mutation.
inductive Exchanging (V D : Type) where
  | engine (happening : Happening V D)
  | post (anonymous : Bool)
  | respond (sub : Submitted D)
  | tooMany (anonymous : Bool) (max : Nat)
  | fail
  | close
  | deliver (servertime : Int) (request : List (Mutation D)) (call : Writer.Call)
  | resubmit (servertime : Int) (sub : Submitted D) (call : Writer.Call)
  | other (event : DbEvent)

-- How the wire and the other clients are: the text of a series, the texts of the reasons, and a
-- bound, below which the ids are this client's.
structure Wiring where
  digest : Nat → Name
  say : Reason → Name
  own : Nat

namespace Wiring
variable (wiring : Wiring)

-- A mutation as the database reads it out of a request.
def Reads (x : Mutation D) (m : Asked) : Prop := m.series = some (wiring.digest x.series,x.n) ∧ m.id = x.id

instance (x : Mutation D) (m : Asked) : Decidable (wiring.Reads x m) := inferInstanceAs (Decidable (_ ∧ _))

def result : Outcome → MutationResult
  | .ok position => .ok position
  | .reject reason => .reject (wiring.say reason)
  | .conflict slices => .conflict slices

-- What is not this client's is under other series, and under other ids.
def Foreign (row : Option (SeriesKey × Nat) × Nat) : Prop :=
  (∀ name n, row.1 = some (.series name,n) → ∀ series, wiring.digest series ≠ name) ∧ wiring.own ≤ row.2

instance [∀ name, Decidable (∀ series, wiring.digest series ≠ name)] (row : Option (SeriesKey × Nat) × Nat) : Decidable (wiring.Foreign row) := by
  obtain ⟨key,id⟩ := row
  match key with
  | none => exact decidable_of_iff (wiring.own ≤ id) (by simp [Foreign])
  | some (.cron install entry,n) => exact decidable_of_iff (wiring.own ≤ id) (by simp [Foreign])
  | some (.series name,n) => exact decidable_of_iff ((∀ series, wiring.digest series ≠ name) ∧ wiring.own ≤ id) (by simp [Foreign])

-- An edit that carries an id of this client's is one the database logged under it.
def Logged (db : Db) (e : WireEdit V) : Prop :=
  e.id < wiring.own → ∃ row ∈ editsMade db.answered, ∃ logged, readEdit row.edit = some logged ∧ logged.id = e.id

instance (db : Db) (e : WireEdit V) : Decidable (wiring.Logged db e) :=
  decidable_of_iff (e.id < wiring.own → ∃ row ∈ editsMade db.answered, (readEdit row.edit).any (·.id = e.id) = true) (by
    unfold Logged
    simp [Option.any_eq_true])

end Wiring

deriving instance DecidableEq for Reply
deriving instance DecidableEq for Submitted

namespace Exchange

-- What the current connection has been handed.
def sent (s : Exchange V D) : List (Mutation D) := s.journal.engine.sentOn s.journal.engine.conn

-- A connection whose signal has not fired.
def live (s : Exchange V D) : Prop :=
  s.journal.engine.ended = false ∧ s.journal.engine.connection = true ∧ s.journal.engine.conn ∉ s.journal.engine.abortedConns

instance (s : Exchange V D) : Decidable s.live := inferInstanceAs (Decidable (_ ∧ _))

-- The Engine's own step: what it sends goes to its connection, and a new connection, or a new
-- process, starts with nothing in flight.
def engineSteps (s : Exchange V D) (happening : Happening V D) : Exchange V D :=
  let journal := s.journal.next happening
  let fresh := (journal.engine.core.store.mutations.scan.map Prod.snd).filter (s.journal.engine.nextId ≤ ·.id)
  match happening with
  | .restart _ _ => {s with
      journal
      pipe:={}
      told:=[]
      outbox:=s.outbox++fresh}
  | .event _ =>
    let extra := (journal.engine.sends.drop s.journal.engine.sends.length).map SendCall.wire
    {s with
      journal
      pipe:=if journal.engine.conn = s.journal.engine.conn then s.pipe.sendMutations extra else {}
      outbox:=s.outbox++fresh
      handed:=s.handed++extra.flatten}

-- A request in the database's open batch, its reply kept until the batch commits.
def served (s : Exchange V D) (servertime : Int) (request : List (Mutation D)) (earlier : List Outcome) (call : Writer.Call) : Exchange V D :=
  {s with
    db:=s.db.next (.request servertime (.submit call))
    waiting:=match s.db.writer.handle servertime (.submit call) with
      | .ok writer => s.waiting++writer.after.getLast?.toList.map fun reply => ⟨request,earlier,reply⟩
      | .error _ => []}

def next (wiring : Wiring) (s : Exchange V D) : Exchanging V D → Exchange V D
  | .engine happening => s.engineSteps happening
  | .post anonymous => match s.pipe.next (s.limits.of anonymous) with
    | none => s
    | some request => {s with
        pipe:={s.pipe with request:=some request}
        posted:=s.posted++[⟨s.sent,request⟩]}
  | .respond sub =>
    let (pipe,resolved) := s.pipe.answered (sub.outcomes.map wiring.result)
    {s with
      pipe
      told:=s.told++resolved.toList.map fun row => ⟨row.1,some row.2,s.journal.engine.conn⟩}
  | .tooMany anonymous max => {s with
      limits:=s.limits.learn anonymous max
      pipe:={s.pipe with request:=none}}
  | .fail => {s with pipe:=s.pipe.fail}
  | .close => {s with pipe:={s.pipe with ended:=true}}
  | .deliver servertime request call => s.served servertime request [] call
  | .resubmit servertime sub call => s.served servertime sub.request sub.outcomes call
  | .other event =>
    let after := s.db.next event
    match event with
    | .request servertime req => match s.db.writer.handle servertime req with
      | .ok _ => {s with db:=after}
      | .error _ => {s with db:=after,waiting:=[]}
    | .commit => {s with
        db:=after
        waiting:=[]
        replied:=s.replied++s.waiting}
    | .restart _ _ _ _ => {s with db:=after,waiting:=[]}

-- An answer the Engine hears is a call's that was answered whole, or that it failed, and an edit
-- of its own comes from the log.
def Brings (wiring : Wiring) (s : Exchange V D) : Happening V D → Prop
  | .event (.results outcome) => outcome.results = none ∨ outcome ∈ s.told
  | .event event => ∀ e ∈ event.carried, wiring.Logged s.db e
  | .restart _ _ => True

-- What may happen: only a live connection posts and hears a reply, one to the request in flight,
-- committed and whole; what is submitted again is what a committed reply left undecided; and the
-- database's other requests are not this client's.
def Allowed (wiring : Wiring) (s : Exchange V D) : Exchanging V D → Prop
  | .engine happening => s.journal.Allowed happening ∧ (s.journal.next happening).engine.nextId ≤ wiring.own ∧ s.Brings wiring happening
  | .post _ => s.live
  | .respond sub => s.live ∧ sub.reply.status = 0 ∧ sub.reply.bounce = none ∧ s.pipe.request = some sub.request ∧ sub ∈ s.replied
  | .tooMany _ max => 0 < max ∧ ∃ request, s.pipe.request = some request ∧ max < request.length
  | .fail => True
  | .close => True
  | .deliver _ request call => (∃ p ∈ s.posted, p.request = request) ∧ List.Forall₂ wiring.Reads request call.mutations
  | .resubmit _ sub call => sub ∈ s.replied ∧ sub.reply.status = 0 ∧ sub.reply.bounce ≠ none ∧
      List.Forall₂ wiring.Reads (sub.request.drop sub.outcomes.length) call.mutations
  | .other event => match event with
    | .request _ req => ∀ row ∈ req.names, wiring.Foreign row
    | .commit => True
    | .restart servertime id ops ran => wiring.own ≤ id ∧ Db.machine.allowed s.db (.restart servertime id ops ran)

instance (j : Journal V D) (happening : Happening V D) : Decidable (j.Allowed happening) :=
  Happening.casesOn (motive := fun happening => Decidable (j.Allowed happening)) happening
    (fun event => Engine.Event.casesOn (motive := fun event => Decidable (j.Allowed (.event event))) event
      (fun _ => isTrue trivial) (fun _ _ => isTrue trivial) (fun _ _ => isTrue trivial) (fun _ _ => isTrue trivial)
      (fun _ => isTrue trivial) (fun _ => isTrue trivial) (isTrue trivial) (fun _ => isTrue trivial)
      (fun _ promise => inferInstanceAs (Decidable (promise ∉ j.asked))) (isTrue trivial) (isTrue trivial) (isTrue trivial))
    fun _ _ => isTrue trivial

instance (wiring : Wiring) (s : Exchange V D) [∀ e : WireEdit V, Decidable (wiring.Logged s.db e)] (happening : Happening V D) :
    Decidable (s.Brings wiring happening) :=
  let carries (event : Engine.Event V D) : Decidable (∀ e ∈ event.carried, wiring.Logged s.db e) := inferInstance
  Happening.casesOn (motive := fun happening => Decidable (s.Brings wiring happening)) happening
    (fun event => Engine.Event.casesOn (motive := fun event => Decidable (s.Brings wiring (.event event))) event
      (fun weather => carries (.pass weather)) (fun conn item => carries (.hook conn item)) (fun call item => carries (.push call item))
      (fun call outcome => carries (.outcome call outcome)) (fun outcome => inferInstanceAs (Decidable (outcome.results = none ∨ outcome ∈ s.told)))
      (fun timer => carries (.backoff timer)) (carries .retry) (fun data => carries (.sendMutation data))
      (fun data promise => carries (.sendOnlineMutation data promise)) (carries .newQuery) (carries .reconnectNow) (carries .abort))
    fun _ _ => isTrue trivial

instance [DecidableEq D] (wiring : Wiring) [∀ name, Decidable (∀ series, wiring.digest series ≠ name)] (s : Exchange V D)
    (event : Exchanging V D) : Decidable (s.Allowed wiring event) := by
  have asked : ∀ P : List (Mutation D) → Prop, (∀ request, Decidable (P request)) → Decidable (∃ request, s.pipe.request = some request ∧ P request) := by
    intro P decides
    exact match s.pipe.request with
    | none => isFalse fun is => by
      obtain ⟨_,none,_⟩ := is
      cases none
    | some request => decidable_of_iff (P request) (by simp)
  cases event with
  | engine happening =>
    exact inferInstanceAs (Decidable (s.journal.Allowed happening ∧ (s.journal.next happening).engine.nextId ≤ wiring.own ∧ s.Brings wiring happening))
  | post anonymous => exact inferInstanceAs (Decidable s.live)
  | respond sub => exact inferInstanceAs (Decidable (_ ∧ _ ∧ _ ∧ _ ∧ _))
  | tooMany anonymous max =>
    have larger := asked (fun request => max < request.length) fun _ => inferInstance
    exact inferInstanceAs (Decidable (_ ∧ _))
  | fail => exact isTrue trivial
  | close => exact isTrue trivial
  | deliver servertime request call => exact inferInstanceAs (Decidable (_ ∧ _))
  | resubmit servertime sub call => exact inferInstanceAs (Decidable (_ ∧ _ ∧ _ ∧ _))
  | other event =>
    cases event with
    | request servertime req => exact inferInstanceAs (Decidable (∀ row ∈ req.names,wiring.Foreign row))
    | commit => exact isTrue trivial
    | restart servertime id ops ran => exact inferInstanceAs (Decidable (_ ∧ _))

def machine (wiring : Wiring) : Machine (Exchange V D) (Exchanging V D) := ⟨Allowed wiring,next wiring⟩

-- A first start, with a database that has not opened.
def first (wants : List Name) (predictor : Option (Predictor V D)) (weather : Weather) : Exchange V D :=
  {journal:=Journal.first wants predictor weather}

end Exchange
end PhaseLock
