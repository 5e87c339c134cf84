import PhaseLock.Conns

namespace PhaseLock

-- A frame as a connection is sent it; an edits frame with the view that filtered it.
inductive Sent where
  | view (position : Nat) (selectors : List Name)
  | edits (rows : List LogRow) (under : List Name)
  | live (position : Nat)
  | vouch (position : Nat)
  | ends (code : Nat)

-- Where a request's handler stands: before its registration is answered, in the cold
-- catchup, at the switch and the hot catchup, live, or reading under an ephemeral
-- connection; and how it ended.
inductive Phase where
  | arriving
  | admitted
  | opening
  | taking
  | reading
  | switching
  | hot (published : Nat)
  | live
  | ticking (published : Nat)
  | cutting
  | heading
  | checking (position : Nat)
  | answered (status : Nat)
  | gone
deriving DecidableEq

-- A stream's handler: its own view and cursor, and the last position the client was told of.
-- It was entered at since, under the view entered.
structure Handler where
  phase : Phase := .arriving
  since : Nat := 0
  entered : List Name := []
  selectors : List Name := []
  cursor : Nat := 0
  told : Nat := 0
  sent : List Sent := []

-- The positions the log's rows can hold.
def i64Max : Nat := 2^63-1

-- A position as the store compares it: past the largest it wraps.
def asI64 (n : Nat) : Int := if n ≤ i64Max then n else (n : Int)-2^64

-- The log's rows from a position through another.
def readLog (log : List LogRow) (lower upper : Nat) : List LogRow :=
  if upper < lower then [] else log.filter fun row => asI64 lower ≤ row.position ∧ row.position ≤ min upper i64Max

def coldBatch : Nat := 1000

-- A mutation's edits that are in the view.
def editsFrame (edits : List LogRow) (selectors : List Name) : Option (List LogRow) :=
  let rows := edits.filter (covered selectors ·.slice)
  if rows = [] then none else some rows

def groupPosition (edits : List LogRow) : Nat := (edits.head?.map LogRow.position).getD 0

def lastPosition (items : List LogRow) : Option Nat := items.getLast?.map LogRow.position

namespace Handler

def write (h : Handler) (frame : Sent) : Handler := {h with sent:=h.sent++[frame]}

-- One mutation of a queued commit: the hot catchup sent those at or below the cursor.
def mutation (h : Handler) (edits : List LogRow) : Handler :=
  if groupPosition edits ≤ h.cursor then h
  else match editsFrame edits h.selectors with
    | some rows => {h.write (.edits rows h.selectors) with cursor:=groupPosition edits}
    | none => h

-- Writes frames taken from the backlog, up to an end; whether the connection goes on.
def forward (h : Handler) : List Queued → Bool × Handler
  | [] => (true,h)
  | .ends code :: _ => (false,h.write (.ends code))
  | .view position selectors :: rest =>
    forward {h.write (.view (max position h.cursor) selectors) with selectors} rest
  | .commit mutations :: rest => forward (mutations.foldl mutation h) rest

-- The backlog taken whole, then the end of a connection that has ended.
def drain (h : Handler) (c : Conn) : Bool × Handler := match h.forward c.backlog with
  | (false,next) => (false,next)
  | (true,next) => (!(c.overflowed || c.shutdown),if c.overflowed then next.write (.ends endOverflow) else next)

-- One mutation of a replay.
def replayed (h : Handler) (edits : List LogRow) : Handler := match editsFrame edits h.selectors with
  | some rows => {h.write (.edits rows h.selectors) with told:=groupPosition edits}
  | none => h

def replay (h : Handler) (log : List LogRow) (lower upper : Nat) : Handler :=
  let items := readLog log lower upper
  let next := (groupPositions items).foldl replayed h
  {next with cursor:=max next.cursor ((lastPosition items).getD 0)}

def moves (h : Handler) (ok : Bool) (phase : Phase) : Handler := {h with phase:=if ok then phase else .gone}

-- A stream starts at its client's checkpoint, or at the view's position, with the view itself
-- unless the client presents its token.
def enters (h : Handler) (c : Conn) (since : Option Nat) (presented : Name) (position : Nat) : Handler :=
  let cursor := since.getD position
  let next := {h with
    phase:=.taking
    since:=cursor
    entered:=c.selectors
    selectors:=c.selectors
    cursor
    told:=cursor}
  if presented ≠ c.token then next.write (.view cursor c.selectors) else next

-- The cold catchup's take: the views queued meanwhile.
def take (h : Handler) (c : Conn) : Handler :=
  let (ok,next) := h.drain c
  next.moves ok .reading

-- A window of the cold catchup: the replay is done when it moves the cursor nowhere, and a
-- window that ended past the last frame is vouched for.
def read (h : Handler) (log : List LogRow) : Handler :=
  let next := h.replay log (h.cursor+1) (h.cursor+coldBatch)
  if next.cursor = h.cursor then {next with phase:=.switching}
  else if next.told < next.cursor then {next.write (.vouch next.cursor) with
    told:=next.cursor
    phase:=.taking}
  else {next with phase:=.taking}

-- The switch to streaming, through the position published as of it.
def switch (h : Handler) (c : Conn) (published : Nat) : Handler :=
  let (ok,next) := {h with selectors:=c.selectors}.drain c
  next.moves ok (.hot published)

def catchup (h : Handler) (log : List LogRow) (published : Nat) : Handler :=
  let next := h.replay log (h.cursor+1) published
  let cursor := max next.cursor published
  {next.write (.live cursor) with
    cursor
    phase:=.live}

def wake (h : Handler) (c : Conn) : Handler :=
  let (ok,next) := h.drain c
  next.moves ok .live

-- A heartbeat names the cursor, brought up to the position published before its backlog was taken.
def beat (h : Handler) (c : Conn) (published : Nat) : Handler :=
  let (ok,next) := h.drain c
  if ok then
    let cursor := max next.cursor published
    {next.write (.vouch cursor) with
      cursor
      phase:=.live}
  else {next with phase:=.gone}

end Handler

end PhaseLock
