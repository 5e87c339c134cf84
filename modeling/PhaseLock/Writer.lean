import PhaseLock.Selectors
import PhaseLock.Storage

namespace PhaseLock

-- What a commit tells the calls that read the store: a key written, and a slice's text
-- cleared.
inductive Touch where
  | written (key : Key)
  | cleared (text : Key)
deriving DecidableEq

-- A mutation's edits as they commit: its position is taken by its first edit, and none
-- until then is 0.
structure Committing where
  store : Storage
  position : Nat
  at_ : Nat := 0
  items : List LogRow := []
  touches : List Touch := []

def Touched.sets (t : Touched) : Bool := t.entries.any (·.2.isSome)

-- A slice the buffer deleted is born again when the buffer wrote to it after, and otherwise
-- dies; a slice it only wrote is edited when it is live, and born when it is not.
def Touched.life (t : Touched) (live : Bool) : Lifecycle :=
  match t.del with
  | some _ => if t.sets then .birth else .death
  | none => if live then .normal else .birth

-- The slice's row: a birth revives it, a death ends it, and an erasure drops its edits
-- before this one.
def Storage.enters (st : Storage) (t : Touched) (life : Lifecycle) (pos : Nat) : Storage :=
  let st := if life = .birth then st.sliceBirth t.name pos else st
  let st := if life = .death then st.sliceDeath t.name pos else st
  if t.del = some true then st.sliceErase t.name pos else st

def Storage.applyEntry (life : Lifecycle) (st : Storage) (row : Key × Option Bytes) : Storage :=
  match row.2 with
  | some value => st.set row.1 value
  | none => if life = .birth then st else st.del row.1

-- The store: a live slice's birth or death clears it first, then the edit's operations apply.
def Storage.applies (st : Storage) (t : Touched) (live : Bool) (life : Lifecycle) : Storage :=
  let st := if live ∧ life ≠ .normal then st.delPrefix (slicePrefix t.name) else st
  if life = .death then st else t.entries.foldl (Storage.applyEntry life) st

def touchesOf (t : Touched) (live : Bool) (life : Lifecycle) : List Touch :=
  (if live ∧ life ≠ .normal then [.cleared (slicePrefix t.name)] else [])++
    if life = .death then [] else (t.entries.filter (fun row => row.2.isSome ∨ life ≠ .birth)).map fun row => .written row.1

-- The edit, appended to the log at the slice's next seq and queued for the connections.
def Storage.logs (st : Storage) (t : Touched) (life : Lifecycle) (seq pos id : Nat) (servertime : Int) :
    Except Fatal (Storage × LogRow) := do
  let edit := encodeEdit pos t.name (seq+1) id servertime life t.entries
  let (st,next) ← st.sliceNextSeq t.name (encodedLen edit) pos
  if next ≠ seq+1 then .error (.seqAfter t.name next seq)
  else
    let row : LogRow := ⟨pos,t.name,next,life,edit⟩
    let st ← st.append row
    return (st,row)

-- One slice's part of a mutation; an unborn or deleted slice that gains no key is no edit.
def commitSlice (id : Nat) (servertime : Int) (c : Committing) (t : Touched) : Except Fatal Committing :=
  let (seq,live) := c.store.sliceState t.name
  let life := t.life live
  if !live && (life = .death || !t.sets) then .ok c
  else do
    let position := if c.at_ = 0 then c.position+1 else c.position
    let pos := if c.at_ = 0 then position else c.at_
    let (store,row) ← ((c.store.enters t life pos).applies t live life).logs t life seq pos id servertime
    return ⟨store,position,pos,c.items++[row],c.touches++touchesOf t live life⟩

-- The buffer as the mutation's edits, one per slice it touched, all at one position; a
-- mutation that edits nothing takes none.
def commitEdits (id : Nat) (servertime : Int) (store : Storage) (position : Nat) (wb : WriteBuffer) : Except Fatal Committing :=
  wb.touched.foldlM (commitSlice id servertime) {store,position}

-- Why a mutation is rejected.
inductive Reason where
  | unreadable (why : Name)
  | grantor (why : Name)
  | notVisible (slice : Name)
  | decider (why : Name)
  | bug (why : Name)
  | lookup (why : Name)
  | credentialsChanged
  | invalidCredentials
deriving DecidableEq

inductive Outcome where
  | ok (position : Nat)
  | reject (reason : Reason)
  | conflict (slices : List (Name × Nat))
deriving DecidableEq

inductive Proof where
  | none | passed | failed
deriving DecidableEq

-- A proof as it was checked, against the hash lookup answered then.
structure Verdict where
  state : Proof
  hash : Option Name
deriving DecidableEq

-- How a decider, a cron hook or bootstrap ended over its buffer.
inductive Ran where
  | carried
  | refused (why : Name)
  | threw (why : Name)
deriving DecidableEq

-- A prepared mutation, and what its host answers at its turn: whether its data reads, its
-- sender's grant and account, and what its decider wrote and how it ended.
structure Asked where
  series : Option (Name × Nat)
  id : Nat
  data : Except Name Unit
  expect : List (Name × Nat)
  verdict : Option Verdict
  grant : Except Name (List Name)
  account : Except Name (Option Name)
  ops : List Write
  ran : Ran

-- The most times a call bounces.
def maxBounces : Nat := 3

-- How a mutation was answered, with the store around it: a number decided before, data that
-- does not read, a proof that bounced or failed, or its expectations and decider.
inductive How where
  | deduped | unreadable | bounced | proof | decided
deriving DecidableEq

structure Answer where
  series : Option (SeriesKey × Nat)
  how : How
  outcome : Option Outcome
  ops : List Write
  items : List LogRow
  before : Storage
  after : Storage
  head : Nat

-- The buffer a mutation's writes made.
abbrev Answer.wb (a : Answer) : WriteBuffer := WriteBuffer.writes a.ops

-- What a request is answered with once its batch commits.
structure Reply where
  status : Nat := 0
  outcomes : List Outcome := []
  bounce : Option (Option Name) := none
  marks : List Nat := []

-- The writer within a group commit: its open transaction, the position, and what the batch
-- commits and answers; and every answer it has given.
structure Writer where
  store : Storage := {}
  position : Nat := 0
  items : List LogRow := []
  touches : List Touch := []
  after : List Reply := []
  trace : List Answer := []

namespace Writer

-- Every expected slice's seq must be what the client names, and every one must be inside
-- the sender's grant.
def checkExpect (store : Storage) (grant : Except Name (List Name)) (expect : List (Name × Nat)) : Option Outcome :=
  if expect = [] then none
  else match grant with
    | .error why => some (.reject (.grantor why))
    | .ok selectors =>
      match expect.find? (fun row => !Selectors.viewCovers selectors (Mp.utf8 row.1)) with
      | some (name,_) => some (.reject (.notVisible name))
      | none =>
        let conflicts := expect.filterMap fun row =>
          let seq := (store.sliceState row.1).1
          if seq ≠ row.2 then some (row.1,seq) else none
        if conflicts = [] then none else some (.conflict conflicts)

-- The buffer's edits, in the open transaction.
def commits (w : Writer) (id : Nat) (servertime : Int) (wb : WriteBuffer) : Except Fatal (Writer × List LogRow) := do
  let c ← commitEdits id servertime w.store w.position wb
  return ({w with
    store:=c.store
    position:=c.position
    items:=w.items++c.items
    touches:=w.touches++c.touches},c.items)

def decide (servertime : Int) (w : Writer) (m : Asked) : Except Fatal (Writer × Outcome × List LogRow) :=
  match checkExpect w.store m.grant m.expect with
  | some outcome => .ok (w,outcome,[])
  | none => match m.ran with
    | .refused why => .ok (w,.reject (.decider why),[])
    | .threw why => .ok (w,.reject (.bug why),[])
    | .carried => do
      let (w,items) ← w.commits m.id servertime (WriteBuffer.writes m.ops)
      return (w,.ok w.position,items)

inductive ProofCheck where
  | holds
  | decided (reason : Reason)
  | bounced (hash : Option Name)

-- A proof stands only against the hash lookup answers now.
def checkProof (attempt : Nat) (account : Except Name (Option Name)) (v : Verdict) : ProofCheck :=
  match account with
  | .error why => .decided (.lookup why)
  | .ok now =>
    if now ≠ v.hash ∧ attempt < maxBounces then .bounced now
    else if now ≠ v.hash then .decided .credentialsChanged
    else if v.state = .failed then .decided .invalidCredentials
    else .holds

-- The check of a mutation's proof, which only a proven mutation has.
def proofOf (attempt : Nat) (m : Asked) : ProofCheck :=
  match m.verdict with
  | some v => if v.state ≠ Proof.none then checkProof attempt m.account v else .holds
  | none => .holds

def mark (w : Writer) (series : Option (SeriesKey × Nat)) (servertime : Int) : Writer :=
  match series with
  | some (key,n) => {w with store:=w.store.seriesMark key n servertime}
  | none => w

-- A number at or below its series' mark was decided already.
def decidedBefore (w : Writer) (series : Option (SeriesKey × Nat)) : Bool :=
  series.any fun row => (w.store.seriesHwm row.1).any (row.2 ≤ ·)

def answers (w : Writer) (answer : Answer) : Writer := {w with trace:=w.trace++[answer]}

-- One mutation: the dedup check, then its proof, then its decision, which moves the mark;
-- or the hash its call bounced with, which decides nothing.
def runMutation (servertime : Int) (attempt : Nat) (w : Writer) (m : Asked) : Except Fatal (Writer × Except (Option Name) Outcome) :=
  let series := m.series.map fun row => (SeriesKey.series row.1,row.2)
  let answer : Answer := ⟨series,.deduped,none,[],[],w.store,w.store,w.position⟩
  if w.decidedBefore series then
    .ok (w.answers {answer with outcome:=some (.ok w.position)},.ok (.ok w.position))
  else
    match proofOf attempt m with
    | .bounced hash => .ok (w.answers {answer with how:=.bounced},.error hash)
    | .decided reason =>
      let after := w.mark series servertime
      .ok (after.answers {answer with
        how:=.proof
        outcome:=some (.reject reason)
        after:=after.store},.ok (.reject reason))
    | .holds => do
      let (after,outcome,items) ← w.decide servertime m
      let after := after.mark series servertime
      return (after.answers {answer with
        how:=.decided
        outcome:=some outcome
        ops:=m.ops
        items
        after:=after.store
        head:=after.position},.ok outcome)

-- A call's mutations in their order, until one bounces.
def runCall (servertime : Int) (attempt : Nat) (outcomes : List Outcome) (w : Writer) : List Asked → Except Fatal (Writer × Reply)
  | [] => .ok (w,{outcomes})
  | m :: rest =>
    match m.data with
    | .error why =>
      let answer : Answer := ⟨m.series.map fun row => (.series row.1,row.2),.unreadable,some (.reject (.unreadable why)),[],[],
        w.store,w.store,w.position⟩
      runCall servertime attempt (outcomes++[.reject (.unreadable why)]) (w.answers answer) rest
    | .ok () => do
      let (w,ran) ← w.runMutation servertime attempt m
      match ran with
      | .error hash => .ok (w,{outcomes,bounce:=some hash})
      | .ok outcome => runCall servertime attempt (outcomes++[outcome]) w rest

-- A call, whose token's generation the sender's account must still have.
structure Call where
  current : Bool
  attempt : Nat
  mutations : List Asked

def replies (w : Writer) (reply : Reply) : Writer := {w with after:=w.after++[reply]}

def handleSubmit (servertime : Int) (w : Writer) (call : Call) : Except Fatal Writer :=
  if !call.current then .ok (w.replies {status:=401})
  else do
    let (w,reply) ← w.runCall servertime call.attempt [] call.mutations
    return w.replies reply

-- Every cron entry without a mark gets the request's minute.
def handleArm (servertime : Int) (w : Writer) (keys : List SeriesKey) (minute : Nat) : Writer :=
  let armed : Writer × List Nat := keys.foldl (fun s key => match s.1.store.seriesHwm key with
    | some m => (s.1,s.2++[m])
    | none => ({s.1 with store:=s.1.store.seriesMark key minute servertime},s.2++[minute])) (w,[])
  armed.1.replies {marks:=armed.2}

-- One tick of a cron entry: a slot at or below its mark was decided already.
def handleTick (servertime : Int) (w : Writer) (install entry : Name) (slot id : Nat) (ops : List Write) (ran : Ran) :
    Except Fatal Writer :=
  let series := some (SeriesKey.cron install entry,slot)
  let answer : Answer := ⟨series,.deduped,none,[],[],w.store,w.store,w.position⟩
  if w.decidedBefore series then .ok ((w.answers answer).replies {})
  else match ran with
    | .carried => do
      let (after,items) ← w.commits id servertime (WriteBuffer.writes ops)
      let after := after.mark series servertime
      return (after.answers {answer with
        how:=.decided
        outcome:=some (.ok after.position)
        ops
        items
        after:=after.store
        head:=after.position}).replies {}
    | .refused why | .threw why =>
      let after := w.mark series servertime
      .ok ((after.answers {answer with
        how:=.decided
        outcome:=some (.reject (.bug why))
        ops
        after:=after.store}).replies {status:=500})

inductive Req where
  | submit (call : Call)
  | tick (install entry : Name) (slot id : Nat) (ops : List Write) (ran : Ran)
  | arm (keys : List (Name × Name)) (minute : Nat)

def handle (servertime : Int) (w : Writer) : Req → Except Fatal Writer
  | .submit call => w.handleSubmit servertime call
  | .tick install entry slot id ops ran => w.handleTick servertime install entry slot id ops ran
  | .arm keys minute => .ok (w.handleArm servertime (keys.map fun row => .cron row.1 row.2) minute)

-- On an empty log, what bootstrap writes commits as one mutation's edits; one that throws
-- fails the open.
def bootstrap (servertime : Int) (w : Writer) (id : Nat) (ops : List Write) (ran : Ran) : Except Fatal Writer :=
  match ran with
  | .carried =>
    let wb := WriteBuffer.writes ops
    if wb.isEmpty then .ok w
    else do
      let (after,items) ← w.commits id servertime wb
      return {after.answers ⟨none,.decided,some (.ok after.position),ops,items,w.store,after.store,after.position⟩ with
        items:=[]
        touches:=[]}
  | .refused _ | .threw _ => .ok w

-- A writer opens over the database on its disk, its position the log's last.
def opens (disk : Storage) (trace : List Answer) : Writer := {store:=disk,position:=disk.maxPosition,trace}

end Writer
end PhaseLock
