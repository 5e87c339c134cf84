import PhaseLock.Prepare
import PhaseLock.WriteBuffer
import PhaseLock.Searches
import PhaseLock.TextRuns
import PhaseLock.Encodings

namespace PhaseLock
namespace Buffer

def bang : UInt8 := 0x21

-- The text of a key before its first '!', when it has one.
def sliceOf (key : Bytes) : Option Bytes := (key.findIdx? (· = bang)).map fun i => key.take i

-- No control character and no lone surrogate, as QuickJS writes them.
def keyCharsOk : Bytes → Bool
  | [] => true
  | c :: rest =>
    let next := rest.headD 0
    if c < 0x20 ∨ c = 0x7f then false
    else if c = 0xc2 ∧ 0x80 ≤ next ∧ next ≤ 0x9f then false
    else if c = 0xed ∧ 0xa0 ≤ next then false
    else keyCharsOk rest

-- Whether a key may be written, when it holds no U+0000.
def keyWritable (key : Bytes) (nul : Bool) : Bool :=
  !nul && key.length ≤ keyMax && keyCharsOk key && (sliceOf key).any Submits.sliceNameOk

abbrev WritableKey := {key : Bytes // keyWritable key false = true}
abbrev SliceName := {name : Bytes // Submits.sliceNameOk name = true}

-- Each key written once, with its last value or a deletion, and each slice deleted, with
-- whether its history goes too.
structure WriteBuffer where
  entries : OrderedMap Bytes (Option Bytes) := (∅ : OrderedMap Bytes (Option Bytes))
  dels : OrderedMap Bytes Bool := (∅ : OrderedMap Bytes Bool)

structure Touched where
  name : Bytes
  entries : List (Bytes × Option Bytes)
  del : Option Bool
deriving DecidableEq

-- Names by their bytes.
def compareNames (a b : Bytes) : Ordering := if a < b then .lt else if a = b then .eq else .gt

namespace WriteBuffer

def put (wb : WriteBuffer) (key : Bytes) (val : Option Bytes) : WriteBuffer := {wb with entries:=wb.entries.set key val}

-- The entries under the slice, one run of the keys.
def under (wb : WriteBuffer) (slice : Bytes) : List Bytes :=
  ((wb.entries.scan.dropWhile (·.1 < slice++[bang])).takeWhile ((slice++[bang]).isPrefixOf ·.1)).map Prod.fst

def deleteSlice (wb : WriteBuffer) (slice : Bytes) (erase : Bool) : WriteBuffer where
  entries := (wb.under slice).foldl OrderedMap.del wb.entries
  -- the deletion, which one made before it joins, erasing if either does
  dels := wb.dels.set slice ((wb.dels.get slice).getD false || erase)

def touchEntry (out : List Touched) (row : Bytes × Option Bytes) : List Touched :=
  let slice := (sliceOf row.1).getD row.1
  match out.getLast? with
  | some t => if t.name = slice then out.dropLast++[{t with entries:=t.entries++[row]}] else out++[⟨slice,[row],none⟩]
  | none => [⟨slice,[row],none⟩]

def touchDel (out : List Touched) (row : Bytes × Bool) : List Touched :=
  match Searches.binarySearchBy (fun t : Touched => compareNames t.name row.1) out with
  | .ok i => out.modify i fun t => {t with del:=some row.2}
  | .error i => out.insertIdx i ⟨row.1,[],some row.2⟩

-- Every slice the buffer touched, in name order.
def touched (wb : WriteBuffer) : List Touched := wb.dels.scan.foldl touchDel (wb.entries.scan.foldl touchEntry [])

end WriteBuffer

-- A write the gate admits.
inductive Write where
  | put (key : WritableKey) (val : Option Bytes)
  | deleteSlice (slice : SliceName) (erase : Bool)

def WriteBuffer.write (wb : WriteBuffer) : Write → WriteBuffer
  | .put key val => wb.put key.val val
  | .deleteSlice slice erase => wb.deleteSlice slice.val erase

def writes (ws : List Write) : WriteBuffer := ws.foldl WriteBuffer.write {}

-- What a run of writes leaves, by the writes alone: a key's last put with no deletion of its
-- slice after it, and a slice's deletions, erasing if any does.
def Stands (ws : List Write) (key : Bytes) (val : Option Bytes) : Prop :=
  ∃ before own after, ws = before++.put own val :: after ∧ own.val = key ∧
    ∀ w ∈ after, match w with
      | .put other _ => other.val ≠ key
      | .deleteSlice slice _ => sliceOf key ≠ some slice.val

def erases (ws : List Write) (slice : Bytes) : List Bool :=
  ws.filterMap fun w => match w with
    | .deleteSlice name erase => if name.val = slice then some erase else none
    | .put _ _ => none

def deletion (ws : List Write) (slice : Bytes) : Option Bool :=
  if erases ws slice = [] then none else some ((erases ws slice).any id)

end Buffer
end PhaseLock
