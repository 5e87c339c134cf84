import PhaseLock.Slots
import PhaseLock.DbRuns

namespace PhaseLock
namespace Cron

-- The cron scheduler over the database's writer: the marks it holds in memory, the ticks it
-- fires one at a time, and the series rows that decide them.

variable {ζ : Type} [DecidableEq ζ]

-- The zones but UTC, whose clocks are the time zone database's: what a spec's search comes to
-- on them.  No zone's clocks were turned back over the start of 1970.
structure Zones (ζ : Type) where
  utc : ζ
  next : Spec ζ → Int → Search
  epoch : ∀ {s t x}, 0 ≤ t → next s t = .slot x → 0 ≤ x

def Zones.nextOf (z : Zones ζ) (sched : Schedule ζ) (after : Int) : Search :=
  match sched with
  | .every d => (Schedule.every d : Schedule ζ).next after
  | .spec s => if s.tz = z.utc then (Schedule.spec s).next after else z.next s after

-- The slots of a search in turn, to the last that is due.
inductive DueAfter (next : Int → Search) (now : Int) : Int → Int → Prop where
  | last {mark slot : Int} : next mark = .slot slot → slot ≤ now →
      (next slot = .none ∨ ∃ x, next slot = .slot x ∧ now < x) → DueAfter next now mark slot
  | more {mark t slot : Int} : next mark = .slot t → t ≤ now → DueAfter next now t slot → DueAfter next now mark slot

-- The last slot of a schedule after a mark and at or before now, in any zone.
def Zones.Due (z : Zones ζ) (sched : Schedule ζ) (mark now slot : Int) : Prop :=
  match sched with
  | .every d => (Schedule.every d : Schedule ζ).latest mark now = .slot slot
  | .spec s => DueAfter (z.nextOf (.spec s)) now mark slot

-- A slot as the writer's unsigned number, and a stored mark as the scheduler's signed one.
def u64 (x : Int) : Nat := (x%2^64).toNat
def i64 (n : Nat) : Int := if n < 2^63 then n else n-2^64

structure Entry (ζ : Type) where
  install : Name
  name : Name
  sched : Schedule ζ

def Entry.key (e : Entry ζ) : SeriesKey := .cron e.install e.name

-- One run of an entry's hook: its slot, the reading of the clock at the wake that fired it, the
-- mark the entry was armed with, whether the hook failed, and the store around the tick.
structure Run (ζ : Type) where
  entry : Entry ζ
  slot : Int
  clock : Nat
  armed : Int
  failed : Bool
  before : Storage
  after : Storage

-- Where the scheduler is: before it is armed, waiting for the marks, asleep, at an entry of a
-- wake's round, or waiting for a tick, which the writer may have handled.
inductive Phase where
  | off
  | arming (marks : List Nat)
  | asleep
  | firing (clock : Nat) (i : Nat)
  | ticking (clock : Nat) (i : Nat) (slot : Int) (handled : Bool)

-- The runs are those of committed batches, of the open one, and every one there was.
structure Scheduler (ζ : Type) where
  db : Db := {}
  entries : List (Entry ζ) := []
  phase : Phase := .off
  marks : List Int := []
  armed : List Int := []
  kept : List (Run ζ) := []
  opened : List (Run ζ) := []
  all : List (Run ζ) := []

inductive SchedulerEvent (ζ : Type) where
  | submit (servertime : Int) (call : Writer.Call)
  | commit
  | restart (entries : List (Entry ζ)) (servertime : Int) (id : Nat) (ops : List Write) (ran : Ran)
  | arm (servertime : Int) (clock : Nat)
  | wake (clock : Nat)
  | fire (slot : Option Int)
  | tick (servertime : Int) (id : Nat) (ops : List Write) (ran : Ran)

namespace Scheduler

-- A round over the entries ends in sleep.
def turn (s : Scheduler ζ) (clock i : Nat) : Phase := if i < s.entries.length then .firing clock i else .asleep

def minuteOf (clock : Nat) : Int := (clock/1000 : Nat)-(clock/1000 : Nat)%60

-- The request that gives every entry without a mark the current minute.
def arm (s : Scheduler ζ) (servertime : Int) (clock : Nat) : Scheduler ζ :=
  let db := s.db.next (.request servertime (.arm (s.entries.map fun e => (e.install,e.name)) (u64 (minuteOf clock))))
  {s with
    db
    phase:=.arming ((db.writer.after.getLast?.map Reply.marks).getD [])}

-- The entry's mark advances as its slot fires, before the tick is decided.
def fire (s : Scheduler ζ) : Option Int → Scheduler ζ
  | some slot => match s.phase with
    | .firing clock i => {s with
      marks:=s.marks.set i slot
      phase:=.ticking clock i slot false}
    | _ => s
  | none => match s.phase with
    | .firing clock i => {s with phase:=s.turn clock (i+1)}
    | _ => s

def tick (s : Scheduler ζ) (servertime : Int) (id : Nat) (ops : List Write) (ran : Ran) : Scheduler ζ :=
  match s.phase with
  | .ticking clock i slot false => match s.entries[i]?,s.armed[i]? with
    | some e,some armed =>
      let db := s.db.next (.request servertime (.tick e.install e.name (u64 slot) id ops ran))
      let runs := if s.db.writer.decidedBefore (some (e.key,u64 slot)) then []
        else [⟨e,slot,clock,armed,ran ≠ .carried,s.db.writer.store,db.writer.store⟩]
      {s with
        db
        phase:=.ticking clock i slot true
        opened:=s.opened++runs
        all:=s.all++runs}
    | _,_ => s
  | _ => s

-- A commit answers the batch's requests: the marks that arm the scheduler, or its tick.
def commit (s : Scheduler ζ) : Scheduler ζ :=
  let s := {s with
    db:=s.db.next .commit
    kept:=s.kept++s.opened
    opened:=[]}
  match s.phase with
  | .arming marks => {s with
    phase:=.asleep
    marks:=marks.map i64
    armed:=marks.map i64}
  | .ticking clock i _ true => {s with phase:=s.turn clock (i+1)}
  | _ => s

def next (s : Scheduler ζ) : SchedulerEvent ζ → Scheduler ζ
  | .submit servertime call => {s with db:=s.db.next (.request servertime (.submit call))}
  | .commit => s.commit
  | .restart entries servertime id ops ran => {s with
    db:=s.db.next (.restart servertime id ops ran)
    entries
    phase:=.off
    marks:=[]
    armed:=[]
    opened:=[]}
  | .arm servertime clock => s.arm servertime clock
  | .wake clock => {s with phase:=s.turn clock 0}
  | .fire slot => s.fire slot
  | .tick servertime id ops ran => s.tick servertime id ops ran

-- A clock's reading is in milliseconds and never below 0.
def allowed (z : Zones ζ) (s : Scheduler ζ) : SchedulerEvent ζ → Prop
  | .restart _ _ _ _ ran => s.db.disk.maxPosition = 0 → ran = .carried
  | .arm _ clock => (match s.phase with
    | .off => True
    | _ => False) ∧ clock < 2^63
  | .wake clock => (match s.phase with
    | .asleep => True
    | _ => False) ∧ clock < 2^63
  | .fire slot => match s.phase with
    | .firing clock i => ∃ e mark, s.entries[i]? = some e ∧ s.marks[i]? = some mark ∧ match slot with
      | some slot => z.Due e.sched mark (clock/1000 : Nat) slot
      | none => ∀ slot, ¬z.Due e.sched mark (clock/1000 : Nat) slot
    | _ => False
  | .tick _ _ _ _ => match s.phase with
    | .ticking _ _ _ handled => handled = false
    | _ => False
  | _ => True

def machine (z : Zones ζ) : Machine (Scheduler ζ) (SchedulerEvent ζ) := ⟨allowed z,next⟩

end Scheduler
end Cron
end PhaseLock
