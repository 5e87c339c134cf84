import PhaseLock.Cursor
import PhaseLock.Prepare
import Mathlib.Data.List.FinRange

namespace PhaseLock
namespace Walk
open Mp Submits

-- The deepest a walk goes, and the furthest a Date reaches either side of the epoch, in
-- milliseconds.
def maxDepth : Nat := 512
def dateMaxMs : Int := 8640000000000000

inductive Lit where
  | str (s : Bytes)
  | int (i : Int)
  | bool (b : Bool)
deriving DecidableEq

inductive Jt where
  | null | int | string | boolean | object | array | any | none
deriving DecidableEq

-- A union's solution over a table of n types.
inductive Sol (n : Nat) where
  | found (ty : Fin n)
  | jsonType (opts : List (Jt × Sol n))
  | literal (opts : List (Lit × Sol n))
  | length (opts : List (Nat × Sol n)) (dflt : Option (Sol n))
  | index (i : Nat) (sub : Sol n)
  | field (key : Bytes) (sub : Sol n)
  | hasField (opts : List (Bytes × Sol n))

-- The kinds of field the database prepares.
inductive IntakeKind where
  | newPassword | mutationAuth | captchaToken | identityProof
deriving DecidableEq

def IntakeKind.name : IntakeKind → Name
  | .newPassword => Submits.newPassword
  | .mutationAuth => Submits.mutationAuth
  | .captchaToken => "CaptchaToken".toList
  | .identityProof => "IdentityProof".toList

structure Field (n : Nat) where
  key : Bytes
  ty : Fin n
  optional : Bool

inductive SNode (n : Nat) where
  | null | int | str | bool | date | json
  | lit (l : Lit)
  | struct (fields : List (Field n)) (disc : Option (Fin fields.length))
  | record (child : Fin n)
  | array (child : Fin n)
  | tuple (items : List (Fin n))
  | union (sol : Sol n)
  | intake (kind : IntakeKind) (child : Fin n)

-- The registry data, compiled into a table the walk interprets.
structure Schema where
  count : Nat
  nodes : Fin count → SNode count
  mutations : Option (Fin count)

inductive Kind where
  | invalid | obj | arr | str | int | float | bool | null | date
deriving DecidableEq

def kind : Node → Kind
  | .nil => .null
  | .bool _ => .bool
  | .int _ => .int
  | .uint n => if 2^63 ≤ n then .invalid else .int
  | .f32 _ | .f64 _ => .float
  | .str _ => .str
  | .array _ => .arr
  | .map _ => .obj
  | .ext type _ => if type = -1 then .date else .invalid
  | .bin _ => .invalid

def name (v : Node) : Name :=
  (match kind v,v with
    | .obj,_ => "an object"
    | .arr,_ => "an array"
    | .str,_ => "a string"
    | .int,_ => "an int"
    | .float,_ => "a float"
    | .bool,_ => "a bool"
    | .null,_ => "null"
    | .date,_ => "a timestamp"
    | .invalid,.bin _ => "a bin value"
    | .invalid,.ext .. => "an extension other than a timestamp"
    | .invalid,.uint _ => "an integer past int64"
    | .invalid,_ => "an invalid value").toList

def int : Node → Int
  | .int i => i
  | .uint n => n
  | _ => 0

-- A float's bits as a double's, which holds each of them exactly; a NaN is made quiet.
def widen (bits : Nat) : Nat :=
  let sign := bits/2^31%2*2^63
  let e := bits/2^23%2^8
  let m := bits%2^23
  if e = 255 then
    sign+2047*2^52+(if m = 0 then 0 else if m < 2^22 then m*2^29+2^51 else m*2^29)
  else if e = 0 then
    let k := m.log2
    if m = 0 then sign else sign+(k+874)*2^52+(m-2^k)*2^(52-k)
  else sign+(e+896)*2^52+m*2^29

def float : Node → Nat
  | .f32 bits => widen bits
  | .f64 bits => bits
  | _ => 0

def boolean : Node → Bool
  | .bool b => b
  | _ => false

def str (v : Node) : Bytes := v.asStr.getD []

-- A double's integer, when it is one that every client holds exactly.
def whole (bits : Nat) : Option Int :=
  let e := bits/2^52%2^11
  let m := bits%2^52+if e = 0 then 0 else 2^52
  let shift := 1075-max e 1
  let n : Nat := m/2^shift
  if e ≤ 1075 ∧ m%2^shift = 0 then some (if bits/2^63%2 = 1 then -n else n) else none

-- An int, or a float with an integral value.
def integral (v : Node) : Option Int :=
  match kind v with
  | .int => some (int v)
  | .float => whole (float v)
  | _ => none

-- A timestamp's milliseconds since the epoch; none for a malformed timestamp extension.  The
-- source counts them in doubles, which hold exactly every one a Date reaches, and any past it
-- past it.
def date : Node → Option Int
  | .ext _ p => Cursor.dateOf p
  | _ => none

def elems (v : Node) : List Node := v.items.getD []

def entries (v : Node) : List (Node × Node) := v.entries.getD []

def findField (obj : Node) (key : Bytes) : Option Node :=
  ((entries obj).find? fun entry => entry.1.asStr = some key).map (·.2)

def jsontype (v : Node) : Jt :=
  match kind v with
  | .null => .null
  | .int => .int
  | .float => if (integral v).isSome then .int else .none
  | .str | .date => .string
  | .bool => .boolean
  | .obj => .object
  | .arr => .array
  | .invalid => .none

def matchesLit (v : Node) : Lit → Bool
  | .bool b => kind v = .bool ∧ boolean v = b
  | .int i => integral v = some i
  | .str s => kind v = .str ∧ str v = s

structure Path where
  bytes : Bytes
  segments : Nat

namespace Path

-- At most 127 bytes of a segment, and none once the path is long or deep.
def push (path : Path) (head tail : Bytes) : Path :=
  let n := min (head.length+tail.length) 127
  let n := if 1024 < path.bytes.length+n ∨ maxDepth < path.segments then 0 else n
  ⟨path.bytes++(head++tail).take n,path.segments+1⟩

def index (path : Path) (i : Nat) : Path := path.push (utf8 ("[".toList++Nat.toDigits 10 i++"]".toList)) []

def key (path : Path) (k : Bytes) (cap : Bool) : Path :=
  path.push (utf8 ".".toList) (if cap && 100 < k.length then k.take 100 else k)

end Path

def fail {α : Type} (path : Path) (msg : Name) : Except Name α :=
  .error ("$".toList++fromUtf8Lossy path.bytes++": ".toList++msg)

-- What a sink consumes.
inductive Event where
  | beginObj (n : Nat)
  | key (k : Bytes)
  | endObj
  | beginArr (n : Nat)
  | endArr
  | str (s : Bytes)
  | int (i : Int)
  | float (bits : Nat)
  | bool (b : Bool)
  | null
  | date (ms : Int)
  | hole
deriving DecidableEq

-- One field the database prepares for the decider, met by a check, and the result to write in
-- its place: a string, a MutationAuthResult's kind, or a hole the sink marks.
structure Intake where
  kind : IntakeKind
  key : Bytes
  node : Node
  result : Option Bytes := none
  resultKind : Option Bytes := none
  hole : Bool := false

-- How a walk goes: whether it rejects fields the schema does not name; whether it collects the
-- prepared fields of the top-level value; their results, for a write; and whether these fields
-- hold their results already.
structure Mode where
  strict : Bool
  collects : Bool := false
  results : Option (List Intake) := none
  prepared : Bool := false

-- What a part of a walk emitted, and whether the top-level struct is still to come.
structure Out where
  events : List Event
  top : Bool
  intakes : List Intake

abbrev Step := Bool → Except Name Out

def stop (path : Path) (msg : Name) : Step := fun _ => fail path msg

def emit (events : List Event) : Step := fun top => .ok ⟨events,top,[]⟩

-- Parts of a walk one after another, up to the first that fails.
def each : List Step → Step
  | [],top => .ok ⟨[],top,[]⟩
  | step :: rest,top => do
    let first ← step top
    let others ← each rest first.top
    return ⟨first.events++others.events,others.top,first.intakes++others.intakes⟩

def scalar (path : Path) (v : Node) : Step :=
  match kind v with
  | .null => emit [.null]
  | .bool => emit [.bool (boolean v)]
  | .int => emit [.int (int v)]
  | .float => emit [.float (float v)]
  | .str => emit [.str (str v)]
  | .date => match date v with
    | none => stop path "malformed timestamp".toList
    | some ms =>
      if ms < -dateMaxMs ∨ dateMaxMs < ms then stop path "a timestamp outside the range of a Date".toList
      else emit [.date ms]
  | _ => stop path (name v++" is not allowed".toList)

def walkItems (path : Path) (inner : Nat → Path → Node → Step) (v : Node) : Step :=
  each [emit [.beginArr (elems v).length],each ((elems v).mapIdx fun i e => inner i (path.index i) e),emit [.endArr]]

def walkEntry (path : Path) (inner : Path → Node → Step) (entry : Node × Node) : Step :=
  match entry.1.asStr with
  | none => stop path "a map key is not a string".toList
  | some k => each [emit [.key k],inner (path.key k true) entry.2]

def walkEntries (path : Path) (inner : Path → Node → Step) (v : Node) : Step :=
  each [emit [.beginObj (entries v).length],each ((entries v).map (walkEntry path inner)),emit [.endObj]]

-- The schema-free walk: one value copied to the sink as it is.
def passthrough : Nat → Path → Node → Step
  | 0,path,_ => stop path "nested too deeply".toList
  | levels+1,path,v => match kind v with
    | .arr => walkItems path (fun _ => passthrough levels) v
    | .obj => walkEntries path (passthrough levels) v
    | _ => scalar path v

def expected (path : Path) (what : String) (v : Node) : Step :=
  stop path ("expected ".toList++what.toList++", not ".toList++name v)

def walkRecord (path : Path) (inner : Path → Node → Step) (v : Node) : Step :=
  if kind v ≠ .obj then expected path "an object" v else walkEntries path inner v

def walkArray (path : Path) (inner : Path → Node → Step) (v : Node) : Step :=
  if kind v ≠ .arr then expected path "an array" v else walkItems path (fun _ => inner) v

def walkTuple {n : Nat} (path : Path) (inner : Fin n → Path → Node → Step) (items : List (Fin n)) (v : Node) : Step :=
  if kind v ≠ .arr then expected path "an array" v
  else if (elems v).length ≠ items.length then
    stop path ("expected ".toList++Nat.toDigits 10 items.length++" items, not ".toList++Nat.toDigits 10 (elems v).length)
  else walkItems path (fun i => match items[i]? with
    | some ty => inner ty
    | none => fun path _ => stop path []) v

-- A struct's slots, one a declared field, each with the value an entry gives it.
def slots {n : Nat} (strict : Bool) (path : Path) (fields : List (Field n)) :
    List (Node × Node) → List (Option Node) → Except Name (List (Option Node))
  | [],found => .ok found
  | (k,fv) :: rest,found => match k.asStr with
    | none => fail path "a map key is not a string".toList
    | some k => match fields.findIdx? (·.key = k) with
      | none => if strict then fail (path.key k true) "unknown field".toList else slots strict path fields rest found
      | some i =>
        if (found.getD i none).isSome then fail (path.key k false) "repeated field".toList
        else slots strict path fields rest (found.set i (some fv))

def slot {k : Nat} (found : List (Option Node)) (i : Fin k) : Option Node := found.getD i none

-- The discriminator first, and then declaration order.
def order {n : Nat} (fields : List (Field n)) (disc : Option (Fin fields.length)) : List (Fin fields.length) :=
  disc.toList++(List.finRange fields.length).filter fun i => some i ≠ disc

def intakeOf {n : Nat} : SNode n → Option IntakeKind
  | .intake kind _ => some kind
  | _ => none

def Mode.resultFor (mode : Mode) (key : Bytes) : Option Intake := (mode.results.getD []).find? (·.key = key)

-- What a write puts in a prepared field's place, if its results say.
def Intake.written (i : Intake) : Option (List Event) :=
  if i.hole then some [.hole]
  else match i.result,i.resultKind with
    | some result,_ => some [.str result]
    | none,some k => some [.beginObj 1,.key (utf8 "kind".toList),.str k,.endObj]
    | none,none => none

-- A field of a struct; top when the struct is the top-level value's.
def walkField (mode : Mode) (sc : Schema) (value : Fin sc.count → Path → Node → Step) (copy : Path → Node → Step) (top : Bool)
    (path : Path) (f : Field sc.count) (fv : Node) : Step :=
  let path := path.key f.key false
  each [emit [.key f.key],
    match (if top then intakeOf (sc.nodes f.ty) else none) with
    | none => value f.ty path fv
    | some kind => each [fun top => .ok ⟨[],top,if mode.collects then [⟨kind,f.key,fv,none,none,false⟩] else []⟩,
        match (mode.resultFor f.key).bind Intake.written with
        | some events => emit events
        | none => if mode.prepared then copy path fv else value f.ty path fv]]

def walkStruct (mode : Mode) (sc : Schema) (value : Fin sc.count → Path → Node → Step) (copy : Path → Node → Step)
    (path : Path) (fields : List (Field sc.count)) (disc : Option (Fin fields.length)) (v : Node) : Step :=
  if kind v ≠ .obj then expected path "an object" v
  else fun top => do
    let found ← slots mode.strict path fields (entries v) (List.replicate fields.length none)
    match (fields.zip found).find? fun row => row.2.isNone && !row.1.optional with
    | some row => fail (path.key row.1.key false) "missing required field".toList
    | none =>
      each [emit [.beginObj (found.countP Option.isSome)],
        each ((order fields disc).map fun i => match slot found i with
          | none => emit []
          | some fv => walkField mode sc value copy top path fields[i] fv),
        emit [.endObj]] false

mutual
-- Evaluates a solution: obj is the container being navigated, subj the value being tested; found
-- walks the union's value as the member matched.
def solution {n : Nat} (path : Path) (found : Fin n → Step) : Sol n → Node → Node → Step
  | .found ty,_,_ => found ty
  | .jsonType opts,obj,subj => jsonOption path found (jsontype subj) opts none obj subj
  | .literal opts,obj,subj => litOption path found opts obj subj
  | .length opts dflt,obj,subj =>
    if kind subj ≠ .arr then expected path "an array" subj
    else lenOption path found (elems subj).length opts (otherLength path found dflt obj subj) obj subj
  | .index i sub,_,subj => match (elems subj)[i]? with
    | some e => solution path found sub e e
    | none => stop path ("missing index ".toList++Nat.toDigits 10 i)
  | .field key sub,obj,_ => match findField obj key with
    | some fv => solution path found sub obj fv
    | none => stop path ("missing discriminator \"".toList++fromUtf8Lossy key++"\"".toList)
  | .hasField opts,obj,_ => fieldOption path found opts obj

-- The option for a JSON type, or the last for any type met before it.
def jsonOption {n : Nat} (path : Path) (found : Fin n → Step) (jt : Jt) : List (Jt × Sol n) → Option Step → Node → Node → Step
  | [],any,_,subj => any.getD (stop path (name subj++" is not allowed here".toList))
  | (k,sol) :: rest,any,obj,subj =>
    if k = jt then solution path found sol obj subj
    else jsonOption path found jt rest (if k = .any then some (solution path found sol obj subj) else any) obj subj

def litOption {n : Nat} (path : Path) (found : Fin n → Step) : List (Lit × Sol n) → Node → Node → Step
  | [],_,subj =>
    if kind subj = .str then stop path ("unexpected value \"".toList++fromUtf8Lossy ((str subj).take 100)++"\"".toList)
    else stop path "unexpected value".toList
  | (l,sol) :: rest,obj,subj =>
    if matchesLit subj l then solution path found sol obj subj else litOption path found rest obj subj

def lenOption {n : Nat} (path : Path) (found : Fin n → Step) (len : Nat) : List (Nat × Sol n) → Step → Node → Node → Step
  | [],dflt,_,_ => dflt
  | (l,sol) :: rest,dflt,obj,subj =>
    if l = len then solution path found sol obj subj else lenOption path found len rest dflt obj subj

def otherLength {n : Nat} (path : Path) (found : Fin n → Step) : Option (Sol n) → Node → Node → Step
  | some d,obj,subj => solution path found d obj subj
  | none,_,subj => stop path ("unexpected length ".toList++Nat.toDigits 10 (elems subj).length)

def fieldOption {n : Nat} (path : Path) (found : Fin n → Step) : List (Bytes × Sol n) → Node → Step
  | [],_ => stop path "none of the fields a member needs is present".toList
  | (key,sol) :: rest,obj =>
    if (findField obj key).isSome then solution path found sol obj obj else fieldOption path found rest obj
end

def walkLit (path : Path) (l : Lit) (v : Node) : Step :=
  if matchesLit v l = false then
    stop path (match l with
      | .str s => "expected \"".toList++fromUtf8Lossy s++"\"".toList
      | .bool b => "expected ".toList++(toString b).toList
      | .int i => "expected ".toList++(toString i).toList)
  else match l with
    | .int i => emit [.int i]
    | _ => scalar path v

def value (mode : Mode) (sc : Schema) : Nat → Fin sc.count → Path → Node → Step
  | 0,_,path,_ => stop path "nested too deeply".toList
  | levels+1,ty,path,v => match sc.nodes ty with
    | .null => if kind v ≠ .null then expected path "null" v else scalar path v
    | .int => match integral v with
      | none => expected path "an int" v
      | some i => emit [.int i]
    | .str => if kind v ≠ .str then expected path "a string" v else scalar path v
    | .bool => if kind v ≠ .bool then expected path "a bool" v else scalar path v
    | .date => if kind v ≠ .date then expected path "a timestamp" v else scalar path v
    | .json => passthrough (levels+1) path v
    | .lit l => walkLit path l v
    | .struct fields disc => walkStruct mode sc (value mode sc levels) (passthrough levels) path fields disc v
    | .record child => walkRecord path (value mode sc levels child) v
    | .array child => walkArray path (value mode sc levels child) v
    | .tuple items => walkTuple path (value mode sc levels) items v
    | .union sol => solution path (fun ty => value mode sc levels ty path v) sol v v
    | .intake _ child => value mode sc levels child path v

def run (mode : Mode) (sc : Schema) (v : Node) (ty : Fin sc.count) : Except Name Out := value mode sc maxDepth ty ⟨[],0⟩ v true

-- Checks a value against a type, and collects the prepared fields of the top-level value.
def check (sc : Schema) (v : Node) (ty : Fin sc.count) (strict : Bool) : Except Name (List Intake) := do
  let out ← run {strict,collects:=true} sc v ty
  return out.intakes

-- Writes a value as checked under a type, each prepared field replaced by its result.
def write (sc : Schema) (v : Node) (ty : Fin sc.count) (strict : Bool) (results : Option (List Intake)) : Except Name (List Event) := do
  let out ← run {strict,results} sc v ty
  return out.events

-- The walk of a mutation write prepared, whose prepared fields hold their results.
def prepared (sc : Schema) (v : Node) (ty : Fin sc.count) : Except Name (List Event) := do
  let out ← run {strict:=true,prepared:=true} sc v ty
  return out.events

-- A msgpack writer's bytes for an event.
def Event.bytes : Event → Bytes
  | .beginObj n => Mp.map n
  | .key k | .str k => Mp.str k
  | .beginArr n => Mp.array n
  | .int i => Mp.int i
  | .float bits => Mp.double bits
  | .bool b => [if b then 0xc3 else 0xc2]
  | .null => [0xc0]
  | .date ms => Mp.timestamp (ms/1000) (ms%1000*1000000).toNat
  | .endObj | .endArr | .hole => []

def sink (w : HoleWriter) : Event → HoleWriter
  | .hole => w.hole
  | e => w.raw e.bytes

-- Checks one mutation's data and prepares its fields.
def prepareMutation (digest : Digest) (sc : Schema) (items : List Node) : Except Name PreparedMutation :=
  match sc.mutations with
  | none => .error "this database takes no mutations".toList
  | some mutations => do
    let data := items.getD 3 .nil
    let il ← check sc data mutations true
    match (items[4]?).bind expectReason with
    | some why => throw why
    | none => pure ()
    let proofs ← (il.filter (·.kind = .mutationAuth)).mapM fun i => proofOf i.node
    let passwords ← (il.filter (·.kind ≠ .mutationAuth)).mapM fun i => passwordOf i.kind.name i.node
    let il := il.map fun i =>
      if i.kind = .mutationAuth then {i with resultKind:=some (utf8 "password".toList)} else {i with hole:=true}
    let w : HoleWriter := ⟨Mp.array (if 4 < items.length then 5 else 4)++headOf digest items,[]⟩
    let events ← write sc data mutations true (some il)
    let w := events.foldl sink w
    return ⟨w.buf++((items[4]?).map expectOf).getD [],proofs,passwords,w.holes⟩

def prepare (digest : Digest) (sc : Schema) (body : Bytes) (max : Nat) : Except PrepareError Prepared := do
  let mutations ← requested max body.length body 0
  return mutations.foldl (fun p items => p.push (prepareMutation digest sc items)) {}

end Walk
end PhaseLock
