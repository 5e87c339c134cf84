import PhaseLock.Runs
import PhaseLock.Streaming

namespace PhaseLock

-- What the bundle answers of one principal on a store: its grant, and its account's generation.
structure Host (σ : Type) where
  grant : σ → Grant
  generation : σ → Int

-- What a request asks: a stream since a position, -1 being none, with the token of the view its
-- client holds; or a read of a selector, a snapshot at one cut or a page of edits.
inductive Ask where
  | stream (since : Option Nat) (presented : Name) (wants : List Name)
  | snapshot (selector : Name)
  | edits (selector : Name)

def Ask.ephemeral : Ask → Bool
  | .stream .. => false
  | _ => true

def Ask.wants : Ask → List Name
  | .stream _ _ wants => if wants = [] then [['*']] else wants
  | _ => []

def Ask.selector : Ask → Name
  | .snapshot selector => selector
  | .edits selector => selector
  | .stream .. => []

-- Rows are read by position, then slice.
def LogRow.Before (a b : LogRow) : Prop := a.position < b.position ∨ a.position = b.position ∧ a.slice < b.slice

-- A log as the database holds it at a head: what it may open with.
structure Opening (σ : Type) where
  store : σ
  log : List LogRow
  head : Nat
  ordered : log.Pairwise LogRow.Before
  behind : ∀ row ∈ log, row.position ≤ head
  bounded : head < i64Max

-- A group commit, as it leaves the database: the edits it committed and the log and store they
-- left.  It may answer the connection's registration, at the store of that request's turn, and
-- may leave the core holding the user's account for other requests.
structure Batch (σ : Type) where
  items : List LogRow
  log : List LogRow
  store : σ
  register : Option σ := none
  looked : Bool := false

-- The core as its last batch left it: whether it has taken the connection's registration, the
-- connection's grant, whose mark is the one last sent it, and the generation the core last told
-- the server of.  Beside them, every edit ever committed, and the head and the store each batch
-- left.
structure DbCore (σ : Type) where
  store : σ
  log : List LogRow
  head : Nat
  asked : Bool := false
  granted : Option Grant := none
  account : Option Int := none
  closed : Bool := false
  committed : List LogRow
  history : List (Nat × σ)

-- What the dispatcher has published: a position, the server's copy of the user's generation, and
-- the registration's reply.  Begun is the last batch it has started on.
structure Dispatcher where
  position : Nat
  stopped : Bool := false
  generation : Option Int := none
  reply : Option (Option Grant × Nat) := none
  begun : Nat

def Dispatcher.takes (d : Dispatcher) : Res → Dispatcher
  | .account generation => {d with generation:=some generation}
  | .forgotten => {d with generation:=none}
  | .view _ at_ => {d with begun:=at_}
  | .commit at_ _ => {d with
      position:=at_
      begun:=at_}
  | .registered grant at_ => {d with
      begun:=at_
      reply:=some (grant,at_)}
  | .shutdown => {d with stopped:=true}

-- One request served: the core, the results on their way to the dispatcher, the connection
-- and the request's handler, whose read saw a head.
structure Server (σ : Type) where
  core : DbCore σ
  channel : List Res := []
  dispatcher : Dispatcher
  conn : Option Conn := none
  handler : Handler := {}
  seen : Nat := 0

-- The steps: a group commit, the core's close, the dispatcher's next result, the handler's next
-- step, its heartbeat, and the end of its connection.
inductive ServerEvent (σ : Type) where
  | batch (b : Batch σ)
  | close
  | dispatch
  | handle
  | tick
  | ends (code : Option Nat)

variable {σ : Type}

-- What a group commit's edits and log may be: its positions are above the head, a slice edited
-- at most once at one, and erasure drops rows.
structure Batch.Follows (b : Batch σ) (core : DbCore σ) : Prop where
  ordered : b.items.Pairwise LogRow.Before
  above : ∀ row ∈ b.items, core.head < row.position
  bounded : ∀ row ∈ b.items, row.position < i64Max
  kept : b.log.Sublist (core.log++b.items)
  still : b.items = [] → b.store = core.store

namespace Server

def opens (d : Opening σ) : Server σ where
  core :=
    {store:=d.store,log:=d.log,head:=d.head,committed:=d.log,history:=[(d.head,d.store)]}
  dispatcher := {position:=d.head,begun:=d.head}

section
variable (host : Host σ) (who : Principal) (ask : Ask) (limit : Nat)

-- The stale-token check.
def generationOk (store : σ) : Bool := who.user.isNone || host.generation store = who.generation

-- The server hears of the user's generation when it is no longer the one it was told.
def accountResults (told : Option Int) (looked : Bool) (generation : Int) : List Res :=
  if looked then (if told = some generation then [] else [.account generation])
  else if told.isSome then [.forgotten] else []

-- A group commit's results: changes to the account and the view ahead of its edits, and the
-- registration's reply behind them, with the grant as the batch leaves it.
def batchResults (core : DbCore σ) (b : Batch σ) : List Res :=
  let head := (lastPosition b.items).getD core.head
  let accepts := b.register.any (generationOk host who)
  let grant := host.grant b.store
  let looked := who.user.isSome && (core.granted.isSome || accepts || b.looked)
  accountResults core.account looked (host.generation b.store)++
    (if core.granted.any (fun sent => grantMark sent ≠ grantMark grant) then [.view (viewFill grant) head] else [])++
    (if b.items = [] then [] else [.commit head b.items])++
    (if b.register.isSome then [.registered (if accepts then some (viewFill grant) else none) head] else [])

def batchCore (core : DbCore σ) (b : Batch σ) : DbCore σ :=
  let head := (lastPosition b.items).getD core.head
  let accepts := b.register.any (generationOk host who)
  let looked := who.user.isSome && (core.granted.isSome || accepts || b.looked)
  {core with
    store:=b.store
    log:=b.log
    head
    asked:=core.asked || b.register.isSome
    granted:=if core.granted.isSome || accepts then some (host.grant b.store) else none
    account:=if looked then some (host.generation b.store) else none
    committed:=core.committed++b.items
    history:=core.history++[(head,b.store)]}

def batch (s : Server σ) (b : Batch σ) : Server σ := {s with
  core:=batchCore host who s.core b
  channel:=s.channel++batchResults host who s.core b}

def dispatch (s : Server σ) : Server σ := match s.channel with
  | [] => s
  | res :: channel => {s with
      channel
      dispatcher:=s.dispatcher.takes res
      conn:=s.conn.map fun c => res.reaches limit s.dispatcher.position c}

def phase (s : Server σ) : Phase := s.handler.phase

def goes (s : Server σ) (phase : Phase) : Server σ := {s with handler:={s.handler with phase}}

-- The token checked against the server's copy of the account.
def arrive (s : Server σ) : Server σ :=
  if who.user.isSome ∧ s.dispatcher.generation.any (· ≠ who.generation) then s.goes (.answered 401) else s.goes .admitted

def insert (s : Server σ) : Server σ := {s.goes .opening with conn:=some {
  wants:=ask.wants
  ephemeral:=ask.ephemeral
  principal:=who}}

-- A registration answered: a refusal, or the connection's view, which must cover a read.
def enter (s : Server σ) : Server σ := match s.conn,s.dispatcher.reply with
  | some c,some (some (.ok _),position) =>
    if c.revoked then s.goes (.answered 401)
    else match ask with
      | .stream since presented _ => {s with handler:=s.handler.enters c since presented position}
      | .snapshot selector => s.goes (if covered c.selectors selector then .cutting else .answered 403)
      | .edits selector => s.goes (if covered c.selectors selector then .cutting else .answered 403)
  | _,some (some (.error _),_) => s.goes (.answered 500)
  | _,some (none,_) => s.goes (.answered 401)
  | _,_ => s

-- The handler's step under the server's lock: the connection's backlog is taken whole.
def serves (s : Server σ) (streaming : Bool) (step : Handler → Conn → Handler) : Server σ := match s.conn with
  | some c => {s with
      handler:=step s.handler c
      conn:=some {c with
        backlog:=[]
        streaming:=c.streaming || streaming}}
  | none => s

-- A snapshot's cut is one read of the store and its head.
def cut (s : Server σ) : Server σ := {s.goes (.checking s.core.head) with seen:=s.core.head}

-- A page's edits, and after them the head that bounds them.
def page (s : Server σ) : Server σ := {s.goes .heading with seen:=s.core.head}

def bound (s : Server σ) : Server σ := s.goes (.checking s.core.head)

def check (s : Server σ) (position : Nat) : Server σ := match s.conn with
  | some c => s.goes (.answered (c.visible ask.selector s.dispatcher.position position))
  | none => s

-- A connection's end: its client's, the server's, its token's expiry, or a failed read's.
def ends (s : Server σ) (code : Option Nat) : Server σ := {s with handler:=match code with
  | some code => {s.handler.write (.ends code) with phase:=.gone}
  | none => {s.handler with phase:=.gone}}

-- A handler's step is the one its phase is at.
def next (s : Server σ) : ServerEvent σ → Server σ
  | .batch b => s.batch host who b
  | .close => {s with
      core:={s.core with closed:=true}
      channel:=s.channel++[.shutdown]}
  | .dispatch => s.dispatch limit
  | .ends code => s.ends code
  | .tick => s.goes (.ticking s.dispatcher.position)
  | .handle => match s.phase with
    | .arriving => s.arrive who
    | .admitted => s.insert who ask
    | .opening => s.enter ask
    | .taking => s.serves false Handler.take
    | .reading => {s with handler:=s.handler.read s.core.log}
    | .switching => s.serves true fun h c => h.switch c s.dispatcher.position
    | .hot published => {s with handler:=s.handler.catchup s.core.log published}
    | .live => s.serves false Handler.wake
    | .ticking published => s.serves false fun h c => h.beat c published
    | .cutting => match ask with
      | .snapshot _ => s.cut
      | _ => s.page
    | .heading => s.bound
    | .checking position => s.check ask position
    | .answered _ => s
    | .gone => s

def allowed (s : Server σ) : ServerEvent σ → Prop
  | .batch b => s.core.closed = false ∧ b.Follows s.core ∧ (b.register ≠ none → s.conn.isSome = true ∧ s.core.asked = false)
  | .close => s.core.closed = false
  | .dispatch => s.dispatcher.stopped = false
  | .ends _ => ∀ status, s.phase ≠ .answered status
  | .tick => s.phase = .live
  | .handle => match s.phase with
    | .opening => s.dispatcher.reply.isSome = true
    | .checking position => position ≤ s.dispatcher.position ∨ s.dispatcher.stopped = true
    | _ => True

def machine : Machine (Server σ) (ServerEvent σ) := ⟨allowed,next host who ask limit⟩

end

-- A batch's grant of one hash with the one before gives the selectors that one did, and so do
-- their views of one token.
def Apart (host : Host σ) (ask : Ask) (s : Server σ) : ServerEvent σ → Prop
  | .batch b => ∀ old ∈ s.core.granted, (grantMark old = grantMark (host.grant b.store) →
      grantSelectors old = grantSelectors (host.grant b.store)) ∧
        Parted ask.wants (grantSelectors old) (grantSelectors (host.grant b.store))
  | _ => True

end Server

end PhaseLock
