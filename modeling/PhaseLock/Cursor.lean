import PhaseLock.JsTexts
import PhaseLock.Measure

namespace PhaseLock
namespace Cursor
open Mp Skeleton JsTexts

-- A value as either side holds it: a number that is a safe integer by its value and any other
-- by its bits, a string in the side's own texts, and a Date by its milliseconds, none when
-- they are NaN.
inductive Value (τ : Type) where
  | nil
  | bool (b : Bool)
  | int (i : Int)
  | float (bits : Nat)
  | str (text : τ)
  | bin (s : Bytes)
  | date (ms : Option Int)
  | array (items : List (Value τ))
  | map (entries : List (Value τ × Value τ))

section Texts
variable {τ υ : Type} (f : τ → υ)

mutual
def Value.mapText : Value τ → Value υ
  | .nil => .nil
  | .bool b => .bool b
  | .int i => .int i
  | .float bits => .float bits
  | .str text => .str (f text)
  | .bin s => .bin s
  | .date ms => .date ms
  | .array items => .array (Value.mapTexts items)
  | .map entries => .map (Value.mapEntries entries)
def Value.mapTexts : List (Value τ) → List (Value υ)
  | [] => []
  | v :: rest => v.mapText :: Value.mapTexts rest
def Value.mapEntries : List (Value τ × Value τ) → List (Value υ × Value υ)
  | [] => []
  | (k,v) :: rest => (k.mapText,v.mapText) :: Value.mapEntries rest
end

end Texts

-- The most a safe integer is, and the most milliseconds a Date has on either side of the epoch.
def maxSafe : Int := 2^53-1
def dateMaxMs : Int := 8640000000000000

namespace Writer

-- A container's header: its fixed form, then the 16- and 32-bit forms.
def header (n fix wide : Nat) : Bytes :=
  if n < 16 then [UInt8.ofNat (fix+n)]
  else if n < 0x10000 then UInt8.ofNat wide :: bigEndian 2 n
  else UInt8.ofNat (wide+1) :: bigEndian 4 n

def arrayHeader (n : Nat) : Bytes := header n 0x90 0xdc
def mapHeader (n : Nat) : Bytes := header n 0x80 0xde

def str (s : Units) : Bytes :=
  let n := utf8Count s
  (if n < 32 then [UInt8.ofNat (0xa0+n)]
    else if n < 0x100 then [0xd9,UInt8.ofNat n]
    else if n < 0x10000 then 0xda :: bigEndian 2 n
    else 0xdb :: bigEndian 4 n)++utf8Encode s

-- Both halves of a 64-bit integer, each as the bits a DataView keeps.
def setInt64 (v : Int) : Bytes := bigEndian 4 (v/2^32%2^32).toNat++bigEndian 4 (v%2^32).toNat

-- A safe integer in its smallest form.
def int (v : Int) : Bytes :=
  if 0 ≤ v then
    if v < 0x80 then [UInt8.ofNat v.toNat]
    else if v < 0x100 then [0xcc,UInt8.ofNat v.toNat]
    else if v < 0x10000 then 0xcd :: bigEndian 2 v.toNat
    else if v < 0x100000000 then 0xce :: bigEndian 4 v.toNat
    else 0xcf :: setInt64 v
  else if -0x20 ≤ v then [UInt8.ofNat (v%2^8).toNat]
  else if -0x80 ≤ v then [0xd0,UInt8.ofNat (v%2^8).toNat]
  else if -0x8000 ≤ v then 0xd1 :: bigEndian 2 (v%2^16).toNat
  else if -0x80000000 ≤ v then 0xd2 :: bigEndian 4 (v%2^32).toNat
  else 0xd3 :: setInt64 v

def bin (s : Bytes) : Bytes :=
  (if s.length < 0x100 then [0xc4,UInt8.ofNat s.length]
    else if s.length < 0x10000 then 0xc5 :: bigEndian 2 s.length
    else 0xc6 :: bigEndian 4 s.length)++s

def float64 (bits : Nat) : Bytes := 0xcb :: bigEndian 8 bits

def encodeDateToTimeSpec (ms : Int) : Int × Int :=
  let sec := ms/1000
  let nsec := (ms-sec*1000)*1000000
  let nsecInSec := nsec/1000000000
  (sec+nsecInSec,nsec-nsecInSec*1000000000)

def timestamp32MaxSec : Int := 0x100000000-1
def timestamp64MaxSec : Int := 0x400000000-1

-- The smallest timestamp extension that holds a Date.  A NaN's bits are zeros.
def timestamp : Option Int → Bytes
  | none => [0xc7,12,0xff]++bigEndian 12 0
  | some ms =>
    let (sec,nsec) := encodeDateToTimeSpec ms
    if 0 ≤ sec ∧ sec ≤ timestamp64MaxSec then
      if nsec = 0 ∧ sec ≤ timestamp32MaxSec then [0xd6,0xff]++bigEndian 4 sec.toNat
      else [0xd7,0xff]++(bigEndian 4 (nsec*4+sec/2^32).toNat++bigEndian 4 (sec%2^32).toNat)
    else [0xc7,12,0xff]++(bigEndian 4 nsec.toNat++setInt64 sec)

end Writer

-- A value by the calls for its parts.
mutual
def Value.write : Value Units → Bytes
  | .nil => [0xc0]
  | .bool b => [if b then 0xc3 else 0xc2]
  | .int i => Writer.int i
  | .float bits => Writer.float64 bits
  | .str s => Writer.str s
  | .bin s => Writer.bin s
  | .date ms => Writer.timestamp ms
  | .array items => Writer.arrayHeader items.length++Value.writes items
  | .map entries => Writer.mapHeader entries.length++Value.writeEntries entries
def Value.writes : List (Value Units) → Bytes
  | [] => []
  | v :: rest => v.write++Value.writes rest
def Value.writeEntries : List (Value Units × Value Units) → Bytes
  | [] => []
  | (k,v) :: rest => k.write++(v.write++Value.writeEntries rest)
end

-- The levels of nesting any goes through: a value is a tree, so nothing legitimate nests deeper.
def maxDepth : Nat := 512

-- An object's entry, its key a string.
def Writer.entry (any : Value Units → Option Bytes) (entry : Value Units × Value Units) : Option Bytes :=
  match entry.1 with
  | .str key => (any entry.2).map (Writer.str key++·)
  | _ => none

-- Any value with no schema.  A byte array and a Map have no form.
def Writer.any : Nat → Value Units → Option Bytes
  | 0,_ => none
  | levels+1,v => match v with
    | .bin _ => none
    | .array items => (items.mapM (Writer.any levels)).map fun each : List Bytes => Writer.arrayHeader items.length++each.flatten
    | .map entries => (entries.mapM (Writer.entry (Writer.any levels))).map fun each : List Bytes =>
        Writer.mapHeader entries.length++each.flatten
    | v => some v.write

inductive Kind where
  | nil | bool | int | float | str | bin | array | map | ext
deriving DecidableEq

inductive Refusal where
  | truncated
  | invalidByte (b : Nat)
  | expected (kind : Kind) (b : Nat)
  | extension (type : Int)
  | timestampOf (size : Nat)
  | timestamp
  | tooDeep
  | keyNotString
  | bin
  | count (n : Nat)
deriving DecidableEq

-- The buffer's bytes from the cursor on, and how many of them are before the reader's end.
structure Reader where
  data : Bytes
  left : Nat

-- An integer as a double holds it: its highest 53 bits, rounded to the nearest, ties to even.
def nearest (i : Int) : Int :=
  let n := i.natAbs
  let unit := 2^(Nat.log2 n-52)
  let q := n/unit
  let up := unit < 2*(n%unit) ∨ unit = 2*(n%unit) ∧ q%2 = 1
  i.sign*((if up then q+1 else q)*unit : Nat)

-- A float's bits in the width of a double.
def widen (bits : Nat) : Nat :=
  let sign := bits/2^31%2*2^63
  let exponent := bits/2^23%2^8
  let fraction := bits%2^23
  if exponent = 255 then sign+2047*2^52+fraction*2^29
  else if exponent ≠ 0 then sign+(exponent+896)*2^52+fraction*2^29
  else if fraction = 0 then sign
  else
    let top := Nat.log2 fraction
    sign+(top+874)*2^52+(fraction-2^top)*2^(52-top)

def kindOf (b : Nat) : Option Kind :=
  if b ≤ 0x7f ∨ 0xe0 ≤ b then some .int
  else if b ≤ 0x8f then some .map
  else if b ≤ 0x9f then some .array
  else if b ≤ 0xbf then some .str
  else match b with
    | 0xc0 => some .nil
    | 0xc2 | 0xc3 => some .bool
    | 0xc4 | 0xc5 | 0xc6 => some .bin
    | 0xc7 | 0xc8 | 0xc9 | 0xd4 | 0xd5 | 0xd6 | 0xd7 | 0xd8 => some .ext
    | 0xca | 0xcb => some .float
    | 0xcc | 0xcd | 0xce | 0xcf | 0xd0 | 0xd1 | 0xd2 | 0xd3 => some .int
    | 0xd9 | 0xda | 0xdb => some .str
    | 0xdc | 0xdd => some .array
    | 0xde | 0xdf => some .map
    | _ => none

namespace Reader

def need (r : Reader) (n : Nat) : Except Refusal Unit := if r.left < n then .error .truncated else .ok ()

def advance (r : Reader) (n : Nat) : Reader := ⟨r.data.drop n,r.left-n⟩

def byteAt (r : Reader) (i : Nat) : Nat := ((r.data.drop i).headD 0).toNat

-- The unsigned integer of a width some bytes on.
def uintAt (r : Reader) (i width : Nat) : Nat := number ((r.data.drop i).take width)

def first (r : Reader) : Except Refusal Nat := do
  r.need 1
  return r.byteAt 0

def kind (r : Reader) : Except Refusal Kind := do
  let b ← r.first
  match kindOf b with
  | some kind => return kind
  | none => .error (.invalidByte b)

-- A length or a count after its first byte.
def length (r : Reader) (width : Nat) : Except Refusal (Nat × Reader) := do
  r.need (1+width)
  return (r.uintAt 1 width,r.advance (1+width))

def arrayHeader (r : Reader) : Except Refusal (Nat × Reader) := do
  let b ← r.first
  if 0x90 ≤ b ∧ b ≤ 0x9f then return (b%16,r.advance 1)
  if b = 0xdc then r.length 2
  else if b = 0xdd then r.length 4
  else .error (.expected .array b)

def mapHeader (r : Reader) : Except Refusal (Nat × Reader) := do
  let b ← r.first
  if 0x80 ≤ b ∧ b ≤ 0x8f then return (b%16,r.advance 1)
  if b = 0xde then r.length 2
  else if b = 0xdf then r.length 4
  else .error (.expected .map b)

-- A string's length, its header read, or none for another value.
def tryStrHeader (r : Reader) : Except Refusal (Option (Nat × Reader)) := do
  let b ← r.first
  if 0xa0 ≤ b ∧ b ≤ 0xbf then return some (b%32,r.advance 1)
  if b = 0xd9 then return some (← r.length 1)
  if b = 0xda then return some (← r.length 2)
  if b = 0xdb then return some (← r.length 4)
  return none

def tryStr (r : Reader) : Except Refusal (Option (Units × Reader)) := do
  match ← r.tryStrHeader with
  | none => return none
  | some (n,r) =>
    r.need n
    return some (utf8Decode r.data n,r.advance n)

def str (r : Reader) : Except Refusal (Units × Reader) := do
  match ← r.tryStr with
  | none => .error (.expected .str (r.byteAt 0))
  | some read => return read

def bool (r : Reader) : Except Refusal (Bool × Reader) := do
  let b ← r.first
  if b ≠ 0xc2 ∧ b ≠ 0xc3 then .error (.expected .bool b) else return (b = 0xc3,r.advance 1)

def nil (r : Reader) : Except Refusal Reader := do
  let b ← r.first
  if b ≠ 0xc0 then .error (.expected .nil b) else return r.advance 1

def binHeader (r : Reader) : Except Refusal (Nat × Reader) := do
  let b ← r.first
  if b = 0xc4 then r.length 1
  else if b = 0xc5 then r.length 2
  else if b = 0xc6 then r.length 4
  else .error (.expected .bin b)

def bin (r : Reader) : Except Refusal (Bytes × Reader) := do
  let (n,r) ← r.binHeader
  r.need n
  return (r.data.take n,r.advance n)

-- An integer of a width after its first byte.
def unsigned (r : Reader) (width : Nat) : Except Refusal (Int × Reader) := do
  r.need (1+width)
  return ((r.uintAt 1 width : Nat),r.advance (1+width))

def signed (r : Reader) (width : Nat) : Except Refusal (Int × Reader) := do
  r.need (1+width)
  return (Parser.signed width (r.uintAt 1 width),r.advance (1+width))

-- An integer past its first byte, in the width that says.
def wideInt (r : Reader) : Nat → Except Refusal (Int × Reader)
  | 0xcc => r.unsigned 1
  | 0xcd => r.unsigned 2
  | 0xce => r.unsigned 4
  | 0xcf => (r.unsigned 8).map fun read => (nearest read.1,read.2)
  | 0xd0 => r.signed 1
  | 0xd1 => r.signed 2
  | 0xd2 => r.signed 4
  | 0xd3 => (r.signed 8).map fun read => (nearest read.1,read.2)
  | b => .error (.expected .int b)

def int (r : Reader) : Except Refusal (Int × Reader) := do
  let b ← r.first
  if b ≤ 0x7f then return ((b : Int),r.advance 1)
  else if 0xe0 ≤ b then return ((b : Int)-256,r.advance 1)
  else r.wideInt b

def float (r : Reader) : Except Refusal (Nat × Reader) := do
  let b ← r.first
  if b = 0xca then
    r.need 5
    return (widen (r.uintAt 1 4),r.advance 5)
  else if b = 0xcb then
    r.need 9
    return (r.uintAt 1 8,r.advance 9)
  else .error (.expected .float b)

-- A Date of milliseconds, NaN past what a Date holds.
def newDate (ms : Int) : Option Int := if -dateMaxMs ≤ ms ∧ ms ≤ dateMaxMs then some ms else none

-- A timestamp extension's header and its size.
def timestampHeader (r : Reader) : Except Refusal (Nat × Nat) := do
  let b ← r.first
  if b = 0xd6 then return (1,4)
  else if b = 0xd7 then return (1,8)
  else if b = 0xc7 then
    r.need 2
    return (2,r.byteAt 1)
  else .error (.expected .ext b)

-- Its seconds and nanoseconds, from where they are.
def timeSpec (r : Reader) (place size : Nat) : Except Refusal (Int × Nat) :=
  if size = 4 then .ok (r.uintAt place 4,0)
  else if size = 8 then
    let hi := r.uintAt place 4
    .ok ((hi%4*2^32+r.uintAt (place+4) 4 : Nat),hi/4)
  else if size = 12 then .ok (nearest (Parser.signed 8 (r.uintAt (place+4) 8)),r.uintAt place 4)
  else .error (.timestampOf size)

-- A timestamp extension in any of its three sizes, at millisecond precision.
def timestamp (r : Reader) : Except Refusal (Option Int × Reader) := do
  let (header,size) ← r.timestampHeader
  r.need (header+1+size)
  let type := Parser.signed 1 (r.byteAt header)
  if type ≠ -1 then .error (.extension type)
  else
    let (sec,nsec) ← r.timeSpec (header+1) size
    if 999999999 < nsec then .error .timestamp
    else return (newDate (sec*1000+(nsec/1000000 : Nat)),r.advance (header+1+size))

-- Elements, one after another.
def many {α : Type} (read : Reader → Except Refusal (α × Reader)) : Nat → Reader → Except Refusal (List α × Reader)
  | 0,r => .ok ([],r)
  | n+1,r => do
    let (x,r) ← read r
    let (rest,r) ← many read n r
    return (x :: rest,r)

end Reader

-- Sets an object's key, an own property whatever its name.
def setEntry (out : List (Units × Value Units)) (key : Units) (value : Value Units) : List (Units × Value Units) :=
  if out.any (·.1 = key) then out.map fun entry => if entry.1 = key then (key,value) else entry else out++[(key,value)]

-- A map's entry, as any reads it: its key a string.
def Reader.entry (any : Reader → Except Refusal (Value Units × Reader)) (r : Reader) :
    Except Refusal ((Units × Value Units) × Reader) := do
  match ← r.tryStr with
  | none => .error .keyNotString
  | some (key,r) =>
    let (value,r) ← any r
    return ((key,value),r)

-- Any value, with no schema: a map with string keys as an object.
def Reader.any : Nat → Reader → Except Refusal (Value Units × Reader)
  | 0,_ => .error .tooDeep
  | levels+1,r => do
    match ← r.kind with
    | .nil => return (.nil,← r.nil)
    | .bool =>
      let (b,r) ← r.bool
      return (.bool b,r)
    | .int =>
      let (i,r) ← r.int
      return (.int i,r)
    | .float =>
      let (bits,r) ← r.float
      return (.float bits,r)
    | .str =>
      let (s,r) ← r.str
      return (.str s,r)
    | .ext =>
      let (ms,r) ← r.timestamp
      return (.date ms,r)
    | .array =>
      let (n,r) ← r.arrayHeader
      let (items,r) ← many (any levels) n r
      return (.array items,r)
    | .map =>
      let (n,r) ← r.mapHeader
      let (entries,r) ← many (entry (any levels)) n r
      let out := entries.foldl (fun out entry => setEntry out entry.1 entry.2) []
      return (.map (out.map fun entry => (.str entry.1,entry.2)),r)
    | .bin => .error .bin

-- What a codec knows of a value before it reads it.
inductive Shape where
  | nil | bool | int | float | str | bin | date
  | array (items : List Shape)
  | map (entries : List (Shape × Shape))

section Shapes
variable {τ : Type}

mutual
def Value.shape : Value τ → Shape
  | .nil => .nil
  | .bool _ => .bool
  | .int _ => .int
  | .float _ => .float
  | .str _ => .str
  | .bin _ => .bin
  | .date _ => .date
  | .array items => .array (Value.shapes items)
  | .map entries => .map (Value.shapeEntries entries)
def Value.shapes : List (Value τ) → List Shape
  | [] => []
  | v :: rest => v.shape :: Value.shapes rest
def Value.shapeEntries : List (Value τ × Value τ) → List (Shape × Shape)
  | [] => []
  | (k,v) :: rest => (k.shape,v.shape) :: Value.shapeEntries rest
end

end Shapes

-- A value by the calls for its parts.
mutual
def Reader.typed : Shape → Reader → Except Refusal (Value Units × Reader)
  | .nil,r => do return (.nil,← r.nil)
  | .bool,r => do
    let (b,r) ← r.bool
    return (.bool b,r)
  | .int,r => do
    let (i,r) ← r.int
    return (.int i,r)
  | .float,r => do
    let (bits,r) ← r.float
    return (.float bits,r)
  | .str,r => do
    let (s,r) ← r.str
    return (.str s,r)
  | .bin,r => do
    let (s,r) ← r.bin
    return (.bin s,r)
  | .date,r => do
    let (ms,r) ← r.timestamp
    return (.date ms,r)
  | .array items,r => do
    let (n,r) ← r.arrayHeader
    if n ≠ items.length then .error (.count n)
    else
      let (items,r) ← Reader.typeds items r
      return (.array items,r)
  | .map entries,r => do
    let (n,r) ← r.mapHeader
    if n ≠ entries.length then .error (.count n)
    else
      let (entries,r) ← Reader.typedEntries entries r
      return (.map entries,r)
def Reader.typeds : List Shape → Reader → Except Refusal (List (Value Units) × Reader)
  | [],r => .ok ([],r)
  | shape :: rest,r => do
    let (v,r) ← Reader.typed shape r
    let (rest,r) ← Reader.typeds rest r
    return (v :: rest,r)
def Reader.typedEntries : List (Shape × Shape) → Reader → Except Refusal (List (Value Units × Value Units) × Reader)
  | [],r => .ok ([],r)
  | (k,v) :: rest,r => do
    let (k,r) ← Reader.typed k r
    let (v,r) ← Reader.typed v r
    let (rest,r) ← Reader.typedEntries rest r
    return ((k,v) :: rest,r)
end

-- A value as the server's writer is told it; a walk writes no Date that is not one.
mutual
def Value.val : Value Name → Val
  | .nil => .nil
  | .bool b => .bool b
  | .int i => .int i
  | .float bits => .double bits
  | .str text => .str (utf8 text)
  | .bin s => .bin s
  | .date ms => .timestamp (ms.getD 0/1000) (ms.getD 0%1000*1000000).toNat
  | .array items => .array (Value.vals items)
  | .map entries => .map (Value.valEntries entries)
def Value.vals : List (Value Name) → List Val
  | [] => []
  | v :: rest => v.val :: Value.vals rest
def Value.valEntries : List (Value Name × Value Name) → List (Val × Val)
  | [] => []
  | (k,v) :: rest => (k.val,v.val) :: Value.valEntries rest
end

-- A timestamp's milliseconds since the epoch, none for a malformed one.
def dateOf (p : Bytes) : Option Int :=
  let read : Option (Int × Nat) := match p.length with
    | 4 => some (number p,0)
    | 8 => some ((number p%2^34 : Nat),number p/2^34)
    | 12 => some (Parser.signed 8 (number (p.drop 4)),number (p.take 4))
    | _ => none
  read.bind fun (sec,nsec) => if 999999999 < nsec then none else some (sec*1000+(nsec/1000000 : Nat))

-- What a walk takes a node for: no integer past an i64, no time a Date does not hold, and no
-- other extension.
mutual
def nodeValue : Node → Option (Value Name)
  | .nil => some .nil
  | .bool b => some (.bool b)
  | .int i => some (.int i)
  | .uint n => if n < 2^63 then some (.int n) else none
  | .f32 bits => some (.float (widen bits))
  | .f64 bits => some (.float bits)
  | .str s => (Submits.fromUtf8 s).map .str
  | .bin s => some (.bin s)
  | .ext type p => if type = -1 then (dateOf p).bind fun ms => (Reader.newDate ms).map fun ms => .date (some ms) else none
  | .array items => (nodeValues items).map .array
  | .map entries => (nodeEntries entries).map .map
def nodeValues : List Node → Option (List (Value Name))
  | [] => some []
  | n :: rest => (nodeValue n).bind fun v => (nodeValues rest).map (v :: ·)
def nodeEntries : List (Node × Node) → Option (List (Value Name × Value Name))
  | [] => some []
  | (k,n) :: rest => (nodeValue k).bind fun k => (nodeValue n).bind fun v => (nodeEntries rest).map ((k,v) :: ·)
end

-- The values both sides send, nested in the levels left: safe integers, floats, texts, bins,
-- the milliseconds of a Date, and arrays and maps of any size the format has.
def Value.Admitted : Nat → Value Name → Prop
  | 0,_ => False
  | _+1,.nil | _+1,.bool _ => True
  | _+1,.int i => -maxSafe ≤ i ∧ i ≤ maxSafe
  | _+1,.float bits => bits < 2^64
  | _+1,.str text => (utf8 text).length < 2^32
  | _+1,.bin s => s.length < 2^32
  | _+1,.date ms => ∃ m, ms = some m ∧ -dateMaxMs ≤ m ∧ m ≤ dateMaxMs
  | levels+1,.array items => items.length < 2^32 ∧ ∀ v ∈ items, v.Admitted levels
  | levels+1,.map entries => entries.length < 2^32 ∧ ∀ entry ∈ entries, entry.1.Admitted levels ∧ entry.2.Admitted levels

end Cursor
end PhaseLock
