import PhaseLock.ReadSets
import PhaseLock.Selectors
import PhaseLock.Accounting

namespace PhaseLock
namespace Registrations
open Mp ReadSets

-- What the bundle answers of a principal on a store, and what the call read there: its grantor
-- the selectors it returned, and lookup the account's generation and password hash, -1 and none
-- for no account; or why it threw.
structure Bundle where
  grant : Option Name → OrderedMap Key Bytes → Except Name (List Name) × ReadSet
  account : Option Name → OrderedMap Key Bytes → Except Name (Int × Option Name) × ReadSet
  dev : Bool

-- Two stores hold the same of what a call read.
def Agree (r : ReadSet) (a b : OrderedMap Key Bytes) : Prop := ∀ key, r.Reads (utf8 key) → a.get key = b.get key

-- A recorded call answers of the store what it read there, and of nothing else.
structure Bundle.Recorded (b : Bundle) : Prop where
  grant : ∀ user kv kv', Agree (b.grant user kv).2 kv kv' → (b.grant user kv').1 = (b.grant user kv).1
  account : ∀ user kv kv', Agree (b.account user kv).2 kv kv' → (b.account user kv').1 = (b.account user kv).1

namespace Bundle
variable (b : Bundle)

-- What a client is told of a failure that is a bug.
def bugReason (why : Name) : Name := if b.dev then why else "internal error".toList

-- Every selector in wire form, or the first malformed one.
def normalized : List Name → Except Name (List Name)
  | [] => .ok []
  | s :: rest => match Selectors.normalizeBundleSelector s with
    | some n => (normalized rest).map (n :: ·)
    | none => .error s

def grantOf (user : Option Name) (kv : OrderedMap Key Bytes) : Except Name (List Name) :=
  match (b.grant user kv).1 with
  | .error why => .error (b.bugReason ("grant failed: ".toList++why))
  | .ok raw => match normalized raw with
    | .error s => .error (b.bugReason ("grant returned a malformed selector: ".toList++s))
    | .ok selectors => .ok selectors

-- A lookup that throws is no account.
def accountOf (user : Option Name) (kv : OrderedMap Key Bytes) : Except Name (Int × Option Name) :=
  match (b.account user kv).1 with
  | .error why => .error (b.bugReason ("lookup failed: ".toList++why))
  | .ok account => .ok account

end Bundle

-- A principal's registration: its grant and its account as each was last run, with what the
-- call read.
structure Reg where
  user : Option Name
  granted : Bool := false
  selectors : List Name := []
  failure : Option Name := none
  greads : ReadSet := {}
  looked : Bool := false
  generation : Int := 0
  passwordHash : Option Name := none
  lookupFailure : Option Name := none
  areads : ReadSet := {}

namespace Reg

def reads (g : Reg) : Cached → ReadSet
  | .grant => g.greads
  | .account => g.areads

def setReads (g : Reg) (r : ReadSet) : Cached → Reg
  | .grant => {g with greads:=r}
  | .account => {g with areads:=r}

def dirtied (g : Reg) (grant account : Bool) : Reg := {g with
  greads:={g.greads with dirty:=g.greads.dirty || grant}
  areads:={g.areads with dirty:=g.areads.dirty || account}}

-- What the registration holds of its grant, and of its account.
def grant (g : Reg) : Except Name (List Name) := match g.failure with
  | some why => .error why
  | none => .ok g.selectors

def account (g : Reg) : Except Name (Int × Option Name) := match g.lookupFailure with
  | some why => .error why
  | none => .ok (g.generation,g.passwordHash)

end Reg

-- What a run of the grantor leaves of its registration, and of lookup.
def Reg.granting (b : Bundle) (kv : OrderedMap Key Bytes) (user : Option Name) (g : Reg) : Reg :=
  match b.grantOf user kv with
  | .ok selectors => {g with
      selectors
      failure:=none
      granted:=true}
  | .error why => {g with
      selectors:=[]
      failure:=some why
      granted:=true}

def Reg.looking (b : Bundle) (kv : OrderedMap Key Bytes) (user : Option Name) (g : Reg) : Reg :=
  match b.accountOf user kv with
  | .ok (generation,passwordHash) => {g with
      generation
      passwordHash
      lookupFailure:=none
      looked:=true}
  | .error why => {g with
      generation:=-1
      passwordHash:=none
      lookupFailure:=some why
      looked:=true}

-- The registrations by their slots, the slots that are free, each principal's slot, and the
-- index of what their calls read.
structure Regs where
  slots : List (Option Reg) := []
  free : List Nat := []
  byPrincipal : OrderedMap (Option Name) Nat := (∅ : OrderedMap (Option Name) Nat)
  index : ReadIndex := {}

namespace Regs

def reg (s : Regs) (i : Nat) : Option Reg := (s.slots[i]?).join

def modify (s : Regs) (i : Nat) (f : Reg → Reg) : Regs := {s with slots:=s.slots.modify i (Option.map f)}

-- Each live registration's calls, and those that are clean.
def linked (s : Regs) (c : Call) : Option ReadSet := (s.reg c.reg).map (·.reads c.what)
def clean (s : Regs) (c : Call) : Option ReadSet := (s.linked c).filter fun r => !r.dirty

-- Replaces a call's read set in the index, the one it held dropped.
def relink (s : Regs) (c : Call) (next : ReadSet) : Regs :=
  match s.linked c with
  | none => s
  | some old => {s.modify c.reg (·.setReads next c.what) with index:=(s.index.unlink c old).link c next}

def dirty (s : Regs) (hits : Finset Call) : Regs :=
  {s with slots:=s.slots.mapIdx fun i g => g.map fun g => g.dirtied (⟨i,.grant⟩ ∈ hits) (⟨i,.account⟩ ∈ hits)}

-- Dirties every call a written key touched, or a cleared slice.
def touch (s : Regs) : Touch → Regs
  | .written key => s.dirty (s.index.written (utf8 key) s.clean)
  | .cleared text => s.dirty (s.index.cleared (utf8 text) s.clean)

-- The principal's registration, made when it has none.
def regOf (s : Regs) (user : Option Name) : Nat × Regs :=
  match s.byPrincipal.get user with
  | some i => (i,s)
  | none => match s.free.getLast? with
    | some i => (i,{s with
        slots:=s.slots.set i (some {user})
        free:=s.free.dropLast
        byPrincipal:=s.byPrincipal.set user i})
    | none => (s.slots.length,{s with
        slots:=s.slots++[some {user}]
        byPrincipal:=s.byPrincipal.set user s.slots.length})

section
variable (b : Bundle) (kv : OrderedMap Key Bytes)

-- Runs the grantor, replacing the registration's selectors and read set.  One that throws or
-- returns a malformed selector grants nothing.
def grantRun (s : Regs) (i : Nat) : Regs :=
  match s.reg i with
  | none => s
  | some g => (s.relink ⟨i,.grant⟩ {(b.grant g.user kv).2 with dirty:=false}).modify i (Reg.granting b kv g.user)

def accountRun (s : Regs) (i : Nat) : Regs :=
  match s.reg i with
  | none => s
  | some g => (s.relink ⟨i,.account⟩ {(b.account g.user kv).2 with dirty:=false}).modify i (Reg.looking b kv g.user)

-- The principal's registration, its grant current as of this point in the batch.
def regGrant (s : Regs) (user : Option Name) : Nat × Regs :=
  let (i,s) := s.regOf user
  (i,if (s.reg i).any fun g => !g.granted || g.greads.dirty then s.grantRun b kv i else s)

-- Its account, likewise.
def regAccount (s : Regs) (user : Option Name) : Nat × Regs :=
  let (i,s) := s.regOf user
  (i,if (s.reg i).any fun g => !g.looked || g.areads.dirty then s.accountRun b kv i else s)

end

def grantForget (s : Regs) (i : Nat) : Regs := (s.relink ⟨i,.grant⟩ {}).modify i fun g => {g with
  granted:=false
  selectors:=[]
  failure:=none}

def accountForget (s : Regs) (i : Nat) : Regs := (s.relink ⟨i,.account⟩ {}).modify i fun g => {g with
  looked:=false
  passwordHash:=none
  lookupFailure:=none}

-- Drops a registration, its slot free.
def expire (s : Regs) (i : Nat) : Regs :=
  match s.reg i with
  | none => s
  | some g =>
    let s := (s.relink ⟨i,.grant⟩ {}).relink ⟨i,.account⟩ {}
    {s with
      slots:=s.slots.set i none
      byPrincipal:=s.byPrincipal.del g.user
      free:=s.free++[i]}

end Regs

-- The writer with its registrations.
structure Turns where
  w : Writer
  regs : Regs := {}

-- A mutation with its sender.
structure Sent where
  user : Option Name
  m : Asked

namespace Turns
variable (b : Bundle)

def kv (s : Turns) : OrderedMap Key Bytes := s.w.store.kv

-- The OCC check, with what the sender may see now.
def checkExpect (s : Turns) (user : Option Name) (expect : List (Name × Nat)) : Option Outcome × Turns :=
  if expect = [] then (none,s)
  else
    let (i,regs) := s.regs.regGrant b s.kv user
    (Writer.checkExpect s.w.store (((regs.reg i).map Reg.grant).getD (.ok [])) expect,{s with regs})

-- The hash lookup answers for the sender now, none for the anonymous principal.
def hashNow (s : Turns) (user : Option Name) : Except Name (Option Name) × Turns :=
  match user with
  | none => (.ok none,s)
  | some _ =>
    let (i,regs) := s.regs.regAccount b s.kv user
    ((((regs.reg i).map Reg.account).getD (.ok (-1,none))).map Prod.snd,{s with regs})

def checkProof (s : Turns) (attempt : Nat) (user : Option Name) (v : Verdict) : Writer.ProofCheck × Turns :=
  let (account,s) := s.hashNow b user
  (Writer.checkProof attempt account v,s)

def proofOf (s : Turns) (attempt : Nat) (t : Sent) : Writer.ProofCheck × Turns :=
  match t.m.verdict with
  | some v => if v.state ≠ Proof.none then s.checkProof b attempt t.user v else (.holds,s)
  | none => (.holds,s)

-- The writes a mutation committed touch the calls that read them.
def commits (s : Turns) (id : Nat) (servertime : Int) (wb : WriteBuffer) : Except Fatal (Turns × List LogRow) := do
  let (w,items) ← s.w.commits id servertime wb
  return (⟨w,(w.touches.drop s.w.touches.length).foldl Regs.touch s.regs⟩,items)

def decide (servertime : Int) (s : Turns) (t : Sent) : Except Fatal (Turns × Outcome × List LogRow) :=
  let (checked,s) := s.checkExpect b t.user t.m.expect
  match checked with
  | some outcome => .ok (s,outcome,[])
  | none => match t.m.ran with
    | .refused why => .ok (s,.reject (.decider why),[])
    | .threw why => .ok (s,.reject (.bug why),[])
    | .carried => do
      let (s,items) ← s.commits t.m.id servertime (WriteBuffer.writes t.m.ops)
      return (s,.ok s.w.position,items)

-- One mutation: the dedup check, then its proof, then its decision, which moves the mark.
def runMutation (servertime : Int) (attempt : Nat) (s : Turns) (t : Sent) : Except Fatal (Turns × Except (Option Name) Outcome) :=
  let series := t.m.series.map fun row => (SeriesKey.series row.1,row.2)
  let answer : Answer := ⟨series,.deduped,none,[],[],s.w.store,s.w.store,s.w.position⟩
  if s.w.decidedBefore series then
    .ok ({s with w:=s.w.answers {answer with outcome:=some (.ok s.w.position)}},.ok (.ok s.w.position))
  else
    let (proof,s) := s.proofOf b attempt t
    match proof with
    | .bounced hash => .ok ({s with w:=s.w.answers {answer with how:=.bounced}},.error hash)
    | .decided reason =>
      let after := s.w.mark series servertime
      .ok ({s with w:=after.answers {answer with
        how:=.proof
        outcome:=some (.reject reason)
        after:=after.store}},.ok (.reject reason))
    | .holds => do
      let (s,outcome,items) ← s.decide b servertime t
      let after := s.w.mark series servertime
      return ({s with w:=after.answers {answer with
        how:=.decided
        outcome:=some outcome
        ops:=t.m.ops
        items
        after:=after.store
        head:=after.position}},.ok outcome)

end Turns

-- What a batch does to the registrations: mutations, ticks and token checks, and at its end the
-- calls it runs again, forgets or drops; and the next batch.
inductive TurnEvent where
  | mutation (servertime : Int) (attempt : Nat) (t : Sent)
  | tick (servertime : Int) (id : Nat) (ops : List Write)
  | token (user : Name)
  | grant (i : Nat)
  | account (i : Nat)
  | forget (c : Call)
  | expire (i : Nat)
  | next (w : Writer)

namespace Turns
variable (b : Bundle)

def next (s : Turns) : TurnEvent → Turns
  | .mutation servertime attempt t => match s.runMutation b servertime attempt t with
    | .ok (after,_) => after
    | .error _ => s
  | .tick servertime id ops => match s.commits id servertime (WriteBuffer.writes ops) with
    | .ok (after,_) => after
    | .error _ => s
  | .token user => {s with regs:=(s.regs.regAccount b s.kv (some user)).2}
  | .grant i => {s with regs:=s.regs.grantRun b s.kv i}
  | .account i => {s with regs:=s.regs.accountRun b s.kv i}
  | .forget c => {s with regs:=match c.what with
      | .grant => s.regs.grantForget c.reg
      | .account => s.regs.accountForget c.reg}
  | .expire i => {s with regs:=s.regs.expire i}
  | .next w => {s with w}

-- A writer that dies ends the run, and a batch starts on the store the last one left.
def machine : Machine Turns TurnEvent where
  allowed s event := match event with
    | .mutation servertime attempt t => ∃ done, s.runMutation b servertime attempt t = .ok done
    | .tick servertime id ops => ∃ done, s.commits id servertime (WriteBuffer.writes ops) = .ok done
    | .next w => w.store.kv = s.kv
    | _ => True
  next := next b

end Turns
end Registrations
end PhaseLock
