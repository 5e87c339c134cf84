import PhaseLock.Engine
import PhaseLock.Database

namespace PhaseLock

-- An Engine of a build with its wants, and one database it syncs from: the
-- connection's stream as it has been delivered and as passes have read it, the
-- selectors the stored token names, and the highest vouch or live mark read.
structure World (V D : Type) where
  engine : Engine V D
  wants : List Name
  stream : Stream
  heard : Stream
  named : List Name := []
  vouched : Int := -1

-- A step of the Engine, with the selectors the database streams under where a
-- connection it opens presents a token that is current; or a crash and a new start.
inductive Step (V D : Type) where
  | engine (event : Engine.Event V D) (current : Option (List Name))
  | restart (wants : List Name) (weather : Weather)

variable {V D : Type}

-- What the next pass takes up, if it runs at all.
def Engine.takes (engine : Engine V D) : Option Turn :=
  if engine.ended ∨ engine.aborted then none else some engine.turn

-- No connection's stream: nothing is delivered before the next.
def closedStream (core : Core V D) : Stream := ⟨false,true,core.cursor,core.selectors,false⟩

def Stream.close (s : Stream) (cursor : Int) : Stream := ⟨false,true,cursor,s.selectors,false⟩

-- A connection's stream starts where its cursor stands, under the view it presents.
def Stream.reopen (s : Stream) (cursor : Int) (current : Option (List Name)) : Stream :=
  ⟨false,false,cursor,current.getD s.selectors,current.isSome⟩

-- The pushes a pass accepts each continue the download as its record stands.
def Database.PushesAll (db : Database V) (core : Core V D) : List (BackfillWork V) → Prop
  | [] => True
  | work :: rest => (∀ entry ∈ core.backfills.get work.call.selector, db.Pushes work.call.selector entry.record work.item) ∧
      match core.parkPushIn work.call.selector work.item with
      | .ok next => db.PushesAll next rest
      | .error _ => True

instance Database.PushesAll.decide [DecidableEq V] (db : Database V) (core : Core V D) (pushes : List (BackfillWork V)) :
    Decidable (db.PushesAll core pushes) :=
  match pushes with
  | [] => isTrue trivial
  | work :: rest =>
    have : Decidable (match core.parkPushIn work.call.selector work.item with
        | .ok next => db.PushesAll next rest
        | .error _ => True) :=
      match core.parkPushIn work.call.selector work.item with
      | .ok next => PushesAll.decide db next rest
      | .error _ => isTrue trivial
    inferInstanceAs (Decidable (_ ∧ _))

namespace World

-- The items of the inbox the next pass reads in its transaction.
def reads (w : World V D) : List (Inbound V) :=
  if w.engine.takes = some .inbox then w.engine.inbox.takeWhile (!Engine.isEnd ·) else []

-- What the database and the host may do: it streams and pushes by its contract, takes
-- a token as current only for the selectors the frame that brought it named, and a
-- timer that fires was set.  A start is of one of the builds there are.
def Allowed (db : Database V) (builds : List Name → Prop) (w : World V D) : Step V D → Prop
  | .engine (.pass _) current => match w.engine.takes with
    | some .pushes => db.PushesAll w.engine.startCalls.core
        (w.engine.backfillWork.filter (w.engine.startCalls.core.accepts w.engine.conn))
    | some .connect => ∀ selectors ∈ current, selectors = w.named ∧ w.engine.core.view ≠ none ∧
        ∀ v ∈ selectors, covered w.wants v = true
    | _ => True
  | .engine (.hook conn item) _ => w.engine.ended = false → conn = w.engine.conn →
      w.stream.closed = false ∧ w.stream.Sends db w.wants item
  | .engine (.backoff timer) _ => timer ∈ w.engine.core.timers
  | .engine .retry _ => w.engine.retryTimer = true
  | .engine _ _ => True
  | .restart wants _ => builds wants ∧ ∀ want ∈ wants, SliceType want

instance [DecidableEq V] (db : Database V) (builds : List Name → Prop) [DecidablePred builds] (w : World V D) (step : Step V D) :
    Decidable (w.Allowed db builds step) := by
  cases step with
  | restart wants weather => exact inferInstanceAs (Decidable (_ ∧ _))
  | engine event current =>
    cases event with
    | pass weather =>
      dsimp only [Allowed]
      cases w.engine.takes with
      | none => exact inferInstanceAs (Decidable True)
      | some turn => cases turn <;> infer_instance
    | _ => dsimp only [Allowed]; infer_instance

def next (w : World V D) : Step V D → World V D
  | .restart wants weather =>
    let engine := Engine.start wants w.engine.predictor w.engine.core.store (w.engine.series+1) w.engine.nextId
      w.engine.core.nextEntry weather
    {w with engine,wants,stream:=closedStream engine.core,heard:=closedStream engine.core}
  | .engine event current =>
    let engine := w.engine.react event
    match event with
    | .hook conn item => {w with
        engine
        stream:=if w.engine.ended ∨ conn ≠ w.engine.conn then w.stream else w.stream.after item}
    | .pass _ => match w.engine.takes with
      | some .inbox =>
        if (w.engine.inbox.head?.any Engine.isEnd) then
          {w with engine,stream:=w.heard.close engine.core.cursor,heard:=w.heard.close engine.core.cursor}
        else match w.engine.startCalls.core.onItemsIn w.reads with
          | .error _ => {w with engine}
          | .ok _ => {w with
              engine
              heard:=w.heard.reads w.reads
              named:=w.reads.foldl namedBy w.named
              vouched:=w.reads.foldl vouchedBy w.vouched}
      | some .connect =>
        {w with
          engine
          stream:=w.heard.reopen engine.core.cursor current
          heard:=w.heard.reopen engine.core.cursor current}
      | _ => {w with engine}
    | _ => {w with engine}

def machine (db : Database V) (builds : List Name → Prop) : Machine (World V D) (Step V D) := ⟨Allowed db builds,next⟩

-- Before anything ran: an empty store.
def blank (predictor : Option (Predictor V D)) : World V D :=
  ⟨{core:={},predictor,series:=0,nextId:=0},[],closedStream ({} : Core V D),closedStream ({} : Core V D),[],-1⟩

-- The first start of a build.
def first (wants : List Name) (predictor : Option (Predictor V D)) : World V D :=
  (blank predictor).next (.restart wants {})

end World
end PhaseLock
