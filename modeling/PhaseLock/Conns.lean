import PhaseLock.Storage
import PhaseLock.Views
import Mathlib.Data.List.SplitBy

namespace PhaseLock
open Selectors (intersect viewToken)

-- What the core tells the dispatcher, of one principal's connection and of every commit.  A
-- registration's reply carries its grant, or none where the token was stale.
inductive Res where
  | account (generation : Int)
  | forgotten
  | view (grant : Grant) (position : Nat)
  | commit (position : Nat) (items : List LogRow)
  | registered (grant : Option Grant) (position : Nat)
  | shutdown

-- A frame of a connection's backlog: a view change, the end a failed grantor or a
-- revocation queues, or a commit's edits, one list a mutation.
inductive Queued where
  | view (position : Nat) (selectors : List Name)
  | ends (code : Nat)
  | commit (mutations : List (List LogRow))

-- Whom a token speaks for: no user is the anonymous principal.
structure Principal where
  user : Option Name
  generation : Int

-- A connection as the server holds it.  Its token is its view's hash, empty before it has one.
structure Conn where
  wants : List Name
  ephemeral : Bool
  principal : Principal
  selectors : List Name := []
  token : Name := []
  active : Bool := false
  streaming : Bool := false
  backlog : List Queued := []
  overflowed : Bool := false
  shutdown : Bool := false
  revoked : Bool := false
  failure : Option Name := none

def endGrantorFailed : Nat := 600
def endOverflow : Nat := 601
def endRevoked : Nat := 603

-- Rows in position order, a mutation's together.
def groupPositions (items : List LogRow) : List (List LogRow) := items.splitBy (·.position == ·.position)

def coversAny (selectors : List Name) (items : List LogRow) : Bool := items.any (covered selectors ·.slice)

namespace Conn

-- A live connection whose backlog is at the limit ends instead.
def queue (max : Nat) (c : Conn) (frame : Queued) : Conn :=
  if !c.active then c
  else if max ≤ c.backlog.length then {c with
    overflowed:=true
    active:=false}
  else {c with backlog:=c.backlog++[frame]}

-- A change to the user's account ends the connections whose tokens no longer speak for it.
def account (max : Nat) (c : Conn) (generation : Int) : Conn :=
  if c.principal.user = none ∨ c.principal.generation = generation ∨ c.revoked = true then c
  else {({c with revoked:=true}).queue max (.ends endRevoked) with active:=false}

-- A grant that changed this view comes ahead of its batch's edits, at the position published
-- before the batch; a grantor that failed ends the connection.
def view (max position : Nat) (c : Conn) : Grant → Conn
  | .ok granted =>
    let selectors := intersect granted c.wants
    let next := {c with
      selectors
      token:=viewToken selectors
      failure:=none}
    if c.active ∧ c.token ≠ viewToken selectors then next.queue max (.view position selectors) else next
  | .error why =>
    let next := {c with failure:=some why}
    if c.active then {next.queue max (.ends endGrantorFailed) with active:=false} else next

-- The registration's own view; one that its batch revoked never starts.
def registered (c : Conn) : Option Grant → Conn
  | some (.ok granted) => {c with
      selectors:=intersect granted c.wants
      token:=viewToken (intersect granted c.wants)
      failure:=none
      active:=c.active || (!c.ephemeral && !c.revoked)}
  | some (.error why) => {c with failure:=some why}
  | none => {c with failure:=none}

-- A commit is queued once to a streaming connection whose view covers any of it.
def commit (max : Nat) (c : Conn) (items : List LogRow) : Conn :=
  if c.active ∧ c.streaming ∧ coversAny c.selectors items then c.queue max (.commit (groupPositions items)) else c

def stop (c : Conn) : Conn := if c.active then {c with
  active:=false
  shutdown:=true} else c

-- The visibility check, once the dispatcher has published the read's position or stopped.
def visible (c : Conn) (selector : Name) (published position : Nat) : Nat :=
  if published < position then 503
  else if c.revoked then 401
  else if c.failure.isSome then 500
  else if covered c.selectors selector then 200 else 403

-- A view result that comes with the token the connection holds has the view it has.
def Distinct (c : Conn) : Res → Prop
  | .view (.ok granted) _ => c.active = true → c.token = viewToken (intersect granted c.wants) →
      c.selectors = intersect granted c.wants
  | _ => True

end Conn

-- The connection as the dispatcher's next result leaves it, at the position published before.
def Res.reaches (max position : Nat) (c : Conn) : Res → Conn
  | .account generation => c.account max generation
  | .forgotten => c
  | .view grant _ => c.view max position grant
  | .commit _ items => c.commit max items
  | .registered grant _ => c.registered grant
  | .shutdown => c.stop

end PhaseLock
