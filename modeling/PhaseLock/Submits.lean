import PhaseLock.Walk
import PhaseLock.Writer

namespace PhaseLock
namespace Submits

-- A request body is read to its first 16 MiB.
def maxBody : Nat := 2^24

-- What the host answers at a mutation's turn: whether its data reads, its sender's grant and
-- account, and what its decider wrote and how it ended.  Its texts are JS strings, which stay
-- short of 2^30 units.
structure Turn where
  data : Except Name Unit
  grant : Except Name (List Name)
  account : Except Name (Option Name)
  ops : List Write
  ran : Ran
  short : ∀ why, data = .error why ∨ grant = .error why ∨ account = .error why ∨ ran = .refused why ∨ ran = .threw why →
    (Mp.utf8 why).length ≤ 3*2^30

-- The texts a mutation is answered with.
def reasonText (dev : Bool) : Reason → Name
  | .unreadable why | .grantor why | .decider why | .lookup why => why
  | .notVisible slice => "expect: ".toList++slice++" is not a slice the sender may see".toList
  | .bug why => if dev then "decide error: ".toList++why else "internal error".toList
  | .credentialsChanged =>
    "the sender's credentials changed ".toList++Nat.toDigits 10 (maxBounces+1)++" times while its proof was checked".toList
  | .invalidCredentials => "invalid credentials".toList

def kindVal (kind : String) : Mp.Val := .str (Mp.utf8 kind.toList)

def rejectVal (why : Name) : Mp.Val := .array [kindVal "reject",.str (Mp.utf8 why)]

-- An outcome as it is written; positions and seqs are 64-bit.
def outcomeVal (dev : Bool) : Outcome → Mp.Val
  | .ok position => .array [kindVal "ok",.int (position%2^64 : Nat)]
  | .reject reason => rejectVal (reasonText dev reason)
  | .conflict slices => .array [kindVal "conflict",
      .map (slices.map fun row => (.str (Mp.utf8 row.1),.int (row.2%2^64 : Nat)))]

-- A submitted mutation, and what the writer answered in its turn.
structure Turned where
  value : Mp.Node
  asked : Asked
  answer : Answer

-- The core over its writer, and every turn a submitted mutation has had.
structure Db where
  writer : Writer
  log : List Turned := []

-- What the core dies of: a body the check did not prepare, or its own store.
inductive Death where
  | prepared (why : Name)
  | store (fatal : Fatal)
  | index

structure Res where
  status : Nat := 0
  errmsg : Name := []
  buf : Bytes := []
  bounce : Bool := false
  hash : Option Name := none

def bigEndianOf (s : Bytes) : Nat := s.foldl (fun x b => x*256+b.toNat) 0

-- A prepared mutation, with its proof's verdict and what the host answers it.
def askedOf (items : List Mp.Node) (id : Bytes) (verdict : Option Verdict) (t : Turn) : Asked where
  series := match items with
    | .str key :: n :: _ => some ((fromUtf8 key).getD [],n.asU64.getD 0)
    | _ => none
  id := bigEndianOf id
  data := t.data
  expect := (((items[4]?).bind Mp.Node.entries).getD []).map fun entry =>
    ((fromUtf8 (entry.1.asStr.getD [])).getD [],entry.2.asU64.getD 0)
  verdict
  grant := t.grant
  account := t.account
  ops := t.ops
  ran := t.ran

structure Walking where
  db : Db
  outcomes : Bytes := []
  count : Nat := 0
  bounce : Option (Option Name) := none

-- A mutation's turn, into the log.
def Walking.turns (s : Walking) (value : Mp.Node) (m : Asked) (writer : Writer) : Walking :=
  {s with db:=⟨writer,s.db.log++(writer.trace.drop s.db.writer.trace.length).map (Turned.mk value m)⟩}

def Walking.decides (s : Walking) (dev : Bool) (outcome : Outcome) : Walking := {s with
  outcomes:=s.outcomes++(outcomeVal dev outcome).write
  count:=s.count+1}

section Core
variable (dev : Bool) (servertime : Int) (turn : Nat → Turn) (verdicts : List Verdict) (attempt : Nat)

-- The prepared values of a body, one after another, until one bounces.
def walkBody : Nat → Nat → Bytes → Walking → Except Death Walking
  | _,_,[],s => .ok s
  | 0,_,_ :: _,_ => .error .index
  | fuel+1,k,b :: body,s =>
    match Mp.parse (b :: body) with
    | .error _ => .error (.prepared "prepared body".toList)
    | .ok (c,rest) => match c.items with
      | none => .error (.prepared "not an array".toList)
      | some items => match items[2]? with
        | some (Mp.Node.bin id) =>
          let m := askedOf items id verdicts[k]? (turn k)
          match m.data with
          | .error why =>
            let outcome := Outcome.reject (.unreadable why)
            let answer : Answer := ⟨m.series.map fun row => (.series row.1,row.2),.unreadable,some outcome,[],[],
              s.db.writer.store,s.db.writer.store,s.db.writer.position⟩
            walkBody fuel (k+1) rest ((s.turns c m (s.db.writer.answers answer)).decides dev outcome)
          | .ok () => match s.db.writer.runMutation servertime attempt m with
            | .error fatal => .error (.store fatal)
            | .ok (writer,.error hash) => .ok {s.turns c m writer with bounce:=some hash}
            | .ok (writer,.ok outcome) => walkBody fuel (k+1) rest ((s.turns c m writer).decides dev outcome)
        | _ => .error (.prepared "no id".toList)

-- A call, whose token's generation the sender's account must still have.
def handleSubmit (current : Bool) (db : Db) (body : Bytes) : Except Death (Db × Res) :=
  if current = false then .ok (db,{status:=401})
  else do
    let s ← walkBody dev servertime turn verdicts attempt body.length 0 body {db}
    return (s.db,{buf:=Mp.array s.count++s.outcomes,bounce:=s.bounce.isSome,hash:=s.bounce.getD none})

end Core

inductive HashError where
  | busy | limited | closed
deriving DecidableEq

def HashError.message : HashError → Name
  | .busy => "password hashing is busy; try again".toList
  | .limited => "too many password attempts; slow down".toList
  | .closed => "the server is shutting down".toList

-- What a request meets outside the handler: whether a password matches a hash, the hash each
-- password to hash is given, the checks the hasher or the client's budget refuses, by the
-- submission, the mutation and the password; its sender's account; and at each submission what
-- the writer did before it, its time, whether the sender's token is current, its answer lost,
-- and what the host answers each mutation in its turn.
structure Env where
  dev : Bool
  verifies : Name → Name → Bool
  hashes : Nat → Name → Except HashError Short
  refuses : Nat → Nat → Nat → Option HashError
  account : Except Name (Option Name)
  before : Nat → Writer → Writer
  servertime : Nat → Int
  current : Nat → Bool
  lost : Nat → Option Name
  turn : Nat → Nat → Turn

section Server
variable (env : Env)

-- Each password in turn, until one fails; failed when there is no hash.
def checkPasswords (attempt i : Nat) (hash : Option Name) : Nat → List Name → Except HashError Proof
  | _,[] => .ok .passed
  | j,password :: rest => match hash with
    | none => .ok .failed
    | some h => match env.refuses attempt i j with
      | some e => .error e
      | none => if env.verifies h password then checkPasswords attempt i hash (j+1) rest else .ok .failed

-- Each mutation's verdict: none for one without proofs.
def prove (attempt : Nat) (hash : Option Name) : Nat → List (List Name) → Except HashError (List Verdict)
  | _,[] => .ok []
  | i,passwords :: rest => do
    let verdict : Verdict ← if passwords = [] then pure ⟨.none,none⟩ else do
      let state ← checkPasswords env attempt i hash 0 passwords
      pure ⟨state,hash⟩
    let more ← prove attempt hash (i+1) rest
    return verdict :: more

-- An encoded array's elements, each in its own bytes.
def splitMany : Nat → Bytes → Option (List Bytes)
  | 0,_ => some []
  | n+1,buf => match Mp.parse buf with
    | .error _ => none
    | .ok (_,rest) => (splitMany n rest).map (buf.take (buf.length-rest.length) :: ·)

def splitArray (buf : Bytes) : Option (List Bytes) :=
  match buf with
  | [] => none
  | h :: rest =>
    if 0x90 ≤ h ∧ h ≤ 0x9f then splitMany (h.toNat-0x90) rest
    else if h = 0xdc then if rest.length < 2 then none else splitMany (bigEndianOf (rest.take 2)) (rest.drop 2)
    else if h = 0xdd then if rest.length < 4 then none else splitMany (bigEndianOf (rest.take 4)) (rest.drop 4)
    else none

inductive Ended where
  | answered (outcomes : List Bytes)
  | refused (res : Res)
  | died (death : Death)

-- How a call's submissions ended, what they left, and how many they were.
structure Call where
  ended : Ended
  db : Db
  submissions : Nat

-- A request's passing mutations, submitted from the first undecided one until none bounces;
-- none when the submissions run out.
def decide (pc : Prepared) : Nat → Nat → Nat → List Verdict → List Bytes → Db → Option Call
  | 0,_,_,_,_,_ => none
  | fuel+1,first,attempt,verdicts,outcomes,db =>
    match pc.offsets[first]? with
    | none => some ⟨.died .index,db,attempt⟩
    | some start =>
      let db := {db with writer:=env.before attempt db.writer}
      match env.lost attempt with
      | some why => some ⟨.refused {status:=503,errmsg:=why},db,attempt+1⟩
      | none =>
        match handleSubmit env.dev (env.servertime attempt) (env.turn attempt) (verdicts.drop first) attempt
            (env.current attempt) db (pc.body.drop start) with
        | .error death => some ⟨.died death,db,attempt+1⟩
        | .ok (db,res) =>
          if res.status ≠ 0 then some ⟨.refused res,db,attempt+1⟩
          else match splitArray res.buf with
            | none => some ⟨.refused {status:=500,errmsg:="malformed outcomes".toList},db,attempt+1⟩
            | some outs =>
              let outcomes := outcomes++outs
              if res.bounce = false then some ⟨.answered outcomes,db,attempt+1⟩
              else
                let first := first+outs.length
                match prove env (attempt+1) res.hash 0 (pc.proofs.drop first) with
                | .error e => some ⟨.refused {status:=503,errmsg:=e.message},db,attempt+1⟩
                | .ok again =>
                  let verdicts := verdicts.take first++again++verdicts.drop (first+again.length)
                  decide pc fuel first (attempt+1) verdicts outcomes db

-- What a request is answered: its outcomes, or an error.
inductive Resp where
  | outcomes (body : Bytes)
  | error (status : Nat) (message : Name)
  | died (death : Death)

structure Handled where
  resp : Resp
  db : Db
  submissions : Nat := 0

def hashFailed (e : HashError) : Resp := .error (if e = .limited then 429 else 503) e.message

def refuse (res : Res) : Resp :=
  if res.status = 401 then .error 401 "token rejected".toList
  else if res.status = 503 then .error 503 res.errmsg
  else .error 500 res.errmsg

def hashAll : Nat → List Name → Except HashError (List Short)
  | _,[] => .ok []
  | j,password :: rest => do
    let h ← env.hashes j password
    let more ← hashAll (j+1) rest
    return h :: more

-- One outcome for each of the request's mutations: the core's for those that passed, in order.
def merged : List (Option Name) → List Bytes → Bytes
  | [],_ => []
  | none :: reasons,outs => outs.headD []++merged reasons outs.tail
  | some why :: reasons,outs => (rejectVal why).write++merged reasons outs

def proofsChecked (pc : Prepared) : Except Resp (List Verdict) :=
  if pc.proofs.any (· ≠ []) = false then .ok []
  else match env.account with
    | .error why => .error (.error 500 why)
    | .ok hash => match prove env 0 hash 0 pc.proofs with
      | .error e => .error (hashFailed e)
      | .ok verdicts => .ok verdicts

def answer (pc : Prepared) (outcomes : List Bytes) : Resp := .outcomes (Mp.array pc.reasons.length++merged pc.reasons outcomes)

def handlePrepared (fuel : Nat) (pc : Prepared) (db : Db) : Option Handled :=
  match hashAll env 0 pc.passwords with
  | .error e => some {resp:=hashFailed e,db}
  | .ok hashes =>
    let pc := pc.fill hashes
    match proofsChecked env pc with
    | .error resp => some {resp,db}
    | .ok verdicts =>
      if pc.offsets = [] then some {resp:=answer pc [],db}
      else (decide env pc fuel 0 0 verdicts [] db).map fun call => match call.ended with
        | .answered outcomes => ⟨answer pc outcomes,call.db,call.submissions⟩
        | .refused res => ⟨refuse res,call.db,call.submissions⟩
        | .died death => ⟨.died death,call.db,call.submissions⟩

def handleMutations (digest : Digest) (sc : Walk.Schema) (limit fuel : Nat) (request : Bytes) (db : Db) : Option Handled :=
  match Walk.prepare digest sc (request.take maxBody) limit with
  | .error .tooMany =>
    some {resp:=.error 413 "the request carries more mutations than the database takes in one".toList,db}
  | .error (.malformed why) => some {resp:=.error 400 why,db}
  | .ok pc => handlePrepared env fuel pc db

end Server
end Submits
end PhaseLock
