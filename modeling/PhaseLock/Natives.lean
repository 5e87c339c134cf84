import PhaseLock.Scans
import PhaseLock.Writes

namespace PhaseLock
namespace Natives
open Scan
variable {τ ν : Type}

-- What a native throws.
inductive Thrown where
  | message (text : String)
  | noType (id : Bytes)
  | storedValue (key : Key) (reason : String)
deriving DecidableEq

-- The registry: a type by its id, and a stored value's decoding under a type.
structure Registry (τ ν : Type) where
  lookup : Bytes → Option τ
  decode : τ → Bytes → Except String ν

-- What a recorded call reads: the keys it gets, and the spans its scans walk.
structure ReadSet where
  keys : List Key := []
  spans : List Span := []
deriving DecidableEq

def decodeStored (reg : Registry τ ν) (key : Key) (type : τ) (value : Bytes) : Except Thrown ν :=
  match reg.decode type value with
  | .ok v => .ok v
  | .error reason => .error (.storedValue key reason)

-- The value at a key: the write buffer's answer, if the call has one and it has an answer,
-- and otherwise the store's.
def answer (wb : Option WriteBuffer) (kv : OrderedMap Key Bytes) (key : Key) : Option Bytes :=
  match wb with
  | some wb => wb.read kv.get key
  | none => kv.get key

-- No stored key holds U+0000, so a key that does is absent.
def nativeGet (reg : Registry τ ν) (wb : Option WriteBuffer) (kv : OrderedMap Key Bytes) (track : Option ReadSet) (key : Key)
    (type : Bytes) : Except Thrown (Option ν) × Option ReadSet :=
  if Char.ofNat 0 ∈ key then (.ok none,track)
  else match reg.lookup type with
    | none => (.error (.noType type),track)
    | some ty =>
      let track := track.map fun r => {r with keys:=if key ∈ r.keys then r.keys else r.keys++[key]}
      match answer wb kv key with
      | none => (.ok none,track)
      | some value => ((decodeStored reg key ty value).map some,track)

-- One scan batch as it is collected.
structure Batch (ν : Type) where
  entries : List (Key × Option ν) := []
  full : Bool := false
  thrown : Option Thrown := none

-- A row as a cursor hands it out: a key's bytes, and the key with its value.
abbrev Row := Bytes × (Key × Bytes)

def row (e : Key × Bytes) : Row := (Mp.utf8 e.1,e)

-- Takes a key into the batch with its value, stopping the walk once the batch is full.
def take (reg : Registry τ ν) (type : Option τ) (limit : Nat) (_ : Bytes) (e : Key × Bytes) (b : Batch ν) : Visit × Batch ν :=
  let enter (v : Option ν) : Visit × Batch ν :=
    let b := {b with entries:=b.entries++[(e.1,v)]}
    if b.entries.length < limit then (.next,b) else (.stop,{b with full:=true})
  match type with
  | none => enter none
  | some ty => match decodeStored reg e.1 ty e.2 with
    | .ok v => enter (some v)
    | .error thrown => (.fail,{b with thrown:=some thrown})

-- The buffer's entries a pattern picks, past a key and in walk order.
def pendingOf (wb : WriteBuffer) (p : Pattern) (reverse : Bool) (after : Option Bytes) : List Row :=
  (if reverse then wb.entries.scan.reverse else wb.entries.scan).filterMap fun e =>
    if beyond reverse after (Mp.utf8 e.1) && p.picks (Mp.utf8 e.1) then e.2.map fun v => row (e.1,v) else none

-- The pending entries ahead of the store's key in walk order go first.
def flush (visit : Bytes → Key × Bytes → Batch ν → Visit × Batch ν) (reverse : Bool) (key : Bytes) :
    List Row → Batch ν → Visit × List Row × Batch ν
  | [], b => (.next,[],b)
  | e :: more, b =>
    if before reverse e.1 key then match visit e.1 e.2 b with
      | (.next,b') => flush visit reverse key more b'
      | (other,b') => (other,more,b')
    else (.next,e :: more,b)

-- Then the store's key, unless the buffer answers for it.
def mergeVisit (visit : Bytes → Key × Bytes → Batch ν → Visit × Batch ν) (wb : WriteBuffer) (reverse : Bool) (key : Bytes)
    (e : Key × Bytes) (s : List Row × Batch ν) : Visit × List Row × Batch ν :=
  match flush visit reverse key s.1 s.2 with
  | (.next,pending,b) =>
    if (wb.entries.get e.1).isSome || wb.deleted e.1 then (.next,pending,b)
    else ((visit key e b).1,pending,(visit key e b).2)
  | other => other

-- The entries past the store's last.
def drain (visit : Bytes → Key × Bytes → Batch ν → Visit × Batch ν) : List Row → Batch ν → Except String Unit × Batch ν
  | [], b => (.ok (),b)
  | e :: more, b =>
    if b.full then (.ok (),b)
    else match visit e.1 e.2 b with
      | (.fail,b') => (.error "the walk's visit failed",b')
      | (_,b') => drain visit more b'

structure ScanRequest where
  pattern : KeyPattern Bytes
  -- the values' type, or keys only
  values : Option Bytes
  reverse : Bool
  after : Option Bytes
  limit : Nat

def storeRows (kv : OrderedMap Key Bytes) : List Row := kv.scan.map row

def walkBatch (visit : Bytes → Key × Bytes → Batch ν → Visit × Batch ν) (wb : Option WriteBuffer) (kv : OrderedMap Key Bytes)
    (p : Pattern) (reverse : Bool) (after : Option Bytes) (budget : Nat) : Option (Except String Unit × Batch ν) :=
  let rows := storeRows kv
  match wb.filter (!·.isEmpty) with
  | none => walk rows p reverse after budget visit (rows.length+1) {}
  | some wb => match walk rows p reverse after budget (mergeVisit visit wb reverse) (rows.length+1) (pendingOf wb p reverse after,{}) with
    | none => none
    | some (.error e,s) => some (.error e,s.2)
    | some (.ok (),s) => some (drain visit s.1 s.2)

-- One batch of a walk of the keys a pattern picks out, from just past a key, through the
-- write buffer when the call has one.  next is the last key of a full batch.
def nativeScan (reg : Registry τ ν) (wb : Option WriteBuffer) (kv : OrderedMap Key Bytes) (track : Option ReadSet) (budget : Nat)
    (req : ScanRequest) : Option (Except Thrown (List (Key × Option ν) × Option Key) × Option ReadSet) :=
  match fromJs req.pattern with
  | .error e => some (.error (.message e),track)
  | .ok p =>
    if req.values.isSome && !p.named then some (.error (.message "a scan of every local key reads keys only"),track)
    else match req.values.map fun id => (id,reg.lookup id) with
      | some (id,none) => some (.error (.noType id),track)
      | typed =>
        if req.limit = 0 then some (.error (.message "a scan's limit is at least 1"),track)
        else match walkBatch (take reg (typed.bind Prod.snd) req.limit) wb kv p req.reverse req.after budget with
          | none => none
          | some (.error e,b) => some (.error (b.thrown.getD (.message ("store scan: "++e))),track)
          | some (.ok (),b) =>
            let next := if b.full then b.entries.getLast?.map Prod.fst else none
            some (.ok (b.entries,next),
              track.map fun r => {r with spans:=pushSpan r.spans p req.reverse req.after (next.map Mp.utf8)})

end Natives
end PhaseLock
