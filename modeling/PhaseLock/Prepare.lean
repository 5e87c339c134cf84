import PhaseLock.Msgpack
import Mathlib.Data.List.Sort

namespace PhaseLock
namespace Submits

-- Bytes read as UTF-8, and as a text with U+FFFD in place of each run of them that starts no
-- character: the longest that could start one, or one byte.
def fromUtf8 (s : Bytes) : Option Name := (s.toByteArray.utf8Decode?).map Array.toList

def tailByte (c : UInt8) : Bool := 0x80 ≤ c && c ≤ 0xbf

def secondOk (a b : UInt8) : Bool :=
  if a = 0xe0 then 0xa0 ≤ b && b ≤ 0xbf
  else if a = 0xed then 0x80 ≤ b && b ≤ 0x9f
  else if a = 0xf0 then 0x90 ≤ b && b ≤ 0xbf
  else if a = 0xf4 then 0x80 ≤ b && b ≤ 0x8f
  else tailByte b

-- The bytes of the character a text starts with, or of the run that starts none.
def charLen (a : UInt8) (rest : Bytes) : Nat :=
  if a < 0xc2 ∨ 0xf4 < a then 1
  else match rest with
    | [] => 1
    | b :: rest =>
      if secondOk a b = false then 1
      else if a < 0xe0 then 2
      else match rest with
        | [] => 2
        | c :: rest =>
          if tailByte c = false then 2
          else if a < 0xf0 then 3
          else match rest with
            | [] => 3
            | d :: _ => if tailByte d = false then 3 else 4

def lossyFrom : Nat → Bytes → Name
  | _,[] => []
  | 0,_ => []
  | fuel+1,a :: rest =>
    let n := charLen a rest
    (fromUtf8 ((a :: rest).take n)).getD [Char.ofNat 0xfffd]++lossyFrom fuel ((a :: rest).drop n)

def fromUtf8Lossy (s : Bytes) : Name := lossyFrom s.length s

-- The most slices an expectation names, the longest series and slice name in bytes, and the
-- most values one mutation's msgpack holds.
def expectMax : Nat := 1024
def seriesMax : Nat := 64
def sliceMax : Nat := 510
def mutationMaxNodes : Nat := 2^20
def idLen : Nat := 16

-- A string a message can hold.
abbrev Short := {s : Bytes // s.length < 2^32}

theorem short_nil : ([] : Bytes).length < 2^32 := by decide

-- The kinds of field the database prepares.
def mutationAuth : Name := "MutationAuth".toList
def newPassword : Name := "NewPassword".toList

def segmentChar (c : UInt8) : Bool :=
  48 ≤ c ∧ c ≤ 57 ∨ 65 ≤ c ∧ c ≤ 90 ∨ 97 ≤ c ∧ c ≤ 122 ∨ c = 95 ∨ c = 45

def segment (s : Bytes) : Bool := s ≠ [] && s.all segmentChar

-- A family, then ':' and its parameters' values separated by ',', if it has any.
def sliceNameOk (name : Bytes) : Bool :=
  name.length ≤ sliceMax && segment (name.takeWhile (· ≠ 58)) && match name.dropWhile (· ≠ 58) with
    | [] => true
    | _ :: rest =>
      let parts := rest.splitOn 44
      let final := parts.getLastD []
      parts.dropLast.all segment && final ≠ [] && final.all fun c => segmentChar c || c = 46 || c = 126

def isNumber (n : Mp.Node) : Bool := n.asU64.any fun v => 1 ≤ v ∧ v < 2^53

def isSeq (n : Mp.Node) : Bool := n.asU64.any (· < 2^53)

-- Whether a request's element is [S, n, id, data, expect?].
def isMutation : Mp.Node → Bool
  | .array (series :: n :: id :: _ :: _) =>
    (match series,n with
      | .nil,.nil => true
      | .str s,n => s ≠ [] && s.length ≤ seriesMax && isNumber n
      | _,_ => false) && match id with
      | .bin id => id.length = idLen
      | _ => false
  | _ => false

-- A name as a reason shows it: its first 100 bytes, up to any U+0000.
def shown (s : Bytes) : Name := fromUtf8Lossy ((s.take 100).takeWhile (· ≠ 0))

-- Of names in order, the first next to itself.
def namedTwice : List Bytes → Option Bytes
  | a :: b :: rest => if a = b then some a else namedTwice (b :: rest)
  | _ => none

def entryReason (entry : Mp.Node × Mp.Node) : Option Name :=
  match entry.1.asStr with
  | none => some "expect: a slice name is not a string".toList
  | some s =>
    if 0 ∈ s ∨ sliceNameOk s = false then some ("expect: ".toList++shown s++" is not a slice name".toList)
    else if isSeq entry.2 = false then
      some ("expect: the seq of ".toList++shown s++" is not an integer from 0 to 2^53 - 1".toList)
    else none

def expectReason (e : Mp.Node) : Option Name :=
  match e.entries with
  | none => some "expect must be a map".toList
  | some m =>
    if expectMax < m.length then
      some ("expect names ".toList++Nat.toDigits 10 m.length++" slices, more than 1024".toList)
    else match m.findSome? entryReason with
      | some why => some why
      | none => (namedTwice ((m.filterMap (·.1.asStr)).insertionSort (· ≤ ·))).map fun s => "expect: ".toList++shown s++" is named twice".toList

def getField (node : Mp.Node) (key : String) : Option Mp.Node :=
  (node.entries.getD []).findSome? fun entry => if entry.1.asStr = some (Mp.utf8 key.toList) then some entry.2 else none

-- A writer, and each place in its bytes a hash goes once it is made.
structure HoleWriter where
  buf : Bytes
  holes : List Nat
deriving DecidableEq

def HoleWriter.raw (w : HoleWriter) (s : Bytes) : HoleWriter := {w with buf:=w.buf++s}

def HoleWriter.hole (w : HoleWriter) : HoleWriter := {w with holes:=w.holes++[w.buf.length]}

-- One mutation as the check prepared it: its encoding, its proofs' passwords, and each
-- password to hash with the place of its hole in the encoding.
structure PreparedMutation where
  buf : Bytes
  proofs : List Name
  passwords : List Name
  holes : List Nat

-- A password proof's password; any other kind cannot be verified yet.
def proofOf (node : Mp.Node) : Except Name Name :=
  let kind := ((getField node "kind").bind Mp.Node.asStr).getD []
  if kind ≠ Mp.utf8 "password".toList then
    .error (fromUtf8Lossy kind++" proofs are not supported by this database yet".toList)
  else .ok (fromUtf8Lossy (((getField node "password").bind Mp.Node.asStr).getD []))

def passwordOf (kind : Name) (node : Mp.Node) : Except Name Name :=
  if kind ≠ newPassword then .error (kind++" fields are not supported by this database yet".toList)
  else .ok (fromUtf8Lossy (node.asStr.getD []))

-- A series' key in the series table: its digest's 64 hex digits.
structure Digest where
  key : Bytes → Name
  hex : ∀ s, (key s).length = 64 ∧ ∀ c ∈ key s, c.val < 0x80

def headOf (digest : Digest) (items : List Mp.Node) : Bytes :=
  (match items with
    | .str s :: n :: _ => Mp.str (Mp.utf8 (digest.key s))++Mp.uint (n.asU64.getD 0)
    | _ => [0xc0,0xc0])++match items with
    | _ :: _ :: .bin id :: _ => Mp.bin id
    | _ => []

def expectOf (e : Mp.Node) : Bytes :=
  let m := e.entries.getD []
  Mp.map m.length++m.flatMap fun entry => Mp.str (entry.1.asStr.getD [])++Mp.uint (entry.2.asU64.getD 0)

-- A request as the check prepared it: the mutations that passed, in order; why each of the
-- request's was rejected, none for one that passed; each passing mutation's start in body, and
-- its proofs; and each hole, as the passing mutation it lies in and its place in body.
structure Prepared where
  body : Bytes := []
  reasons : List (Option Name) := []
  offsets : List Nat := []
  proofs : List (List Name) := []
  passwords : List Name := []
  holes : List (Nat × Nat) := []

namespace Prepared

def push (p : Prepared) : Except Name PreparedMutation → Prepared
  | .ok m => {
      body := p.body++m.buf
      reasons := p.reasons++[none]
      offsets := p.offsets++[p.body.length]
      proofs := p.proofs++[m.proofs]
      passwords := p.passwords++m.passwords
      holes := p.holes++m.holes.map fun h => (p.offsets.length,p.body.length+h) }
  | .error why => {p with reasons:=p.reasons++[some why]}

-- A hole's hash goes between what of the body stands before it and what after.
structure Filling where
  body : Bytes
  grew : List Nat
  at_ : Nat

def fillHole (old : Bytes) (s : Filling) (hole : (Nat × Nat) × Short) : Filling :=
  let ((m,pos),h) := hole
  let encoded := Mp.str h
  ⟨s.body++((old.drop s.at_).take (pos-s.at_))++encoded,s.grew.modify m (· + encoded.length),pos⟩

-- Each mutation starts later by the room every mutation before it took.
def shifted : Nat → List Nat → List Nat → List Nat
  | shift,o :: offsets,g :: grew => (o+shift) :: shifted (shift+g) offsets grew
  | _,offsets,_ => offsets

-- Each password's hash, written into its hole.
def fill (p : Prepared) (hashes : List Short) : Prepared :=
  if hashes = [] then p
  else
    let s := (p.holes.zip hashes).foldl (fillHole p.body) ⟨[],List.replicate p.offsets.length 0,0⟩
    {p with
      body:=s.body++p.body.drop s.at_
      offsets:=shifted 0 p.offsets s.grew
      holes:=[]}

end Prepared

inductive PrepareError where
  | malformed (why : Name)
  | tooMany

-- A request's mutations, at most max of them.
def requested (max : Nat) : Nat → Bytes → Nat → Except PrepareError (List (List Mp.Node))
  | _,[],_ => .ok []
  | 0,_,_ => .error (.malformed "malformed msgpack".toList)
  | fuel+1,body,count =>
    match Mp.parseLimited body (some mutationMaxNodes) with
    | .error .tooBig => .error (.malformed "a mutation holds more than 1048576 values".toList)
    | .error _ => .error (.malformed "malformed msgpack".toList)
    | .ok (n,rest) =>
      if isMutation n = false then .error (.malformed "mutation must be [S, n, id, data, expect?]".toList)
      else if count = max then .error .tooMany
      else do
        let others ← requested max fuel rest (count+1)
        return (n.items.getD []) :: others

end Submits
end PhaseLock
