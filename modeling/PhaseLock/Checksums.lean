import PhaseLock.Cursor
import Mathlib.Data.BitVec
import Mathlib.Tactic.Linarith

namespace PhaseLock
namespace Checksum

-- JavaScript's operators on a number: the bits are its low 32, signed but after >>>, and a
-- product and a sum are as a double holds them.
def int32 (x : Int) : BitVec 32 := BitVec.ofInt 32 x

def bitNot (a : Int) : Int := (~~~int32 a).toInt
def bitXor (a b : Int) : Int := (int32 a ^^^ int32 b).toInt
def bitAnd (a b : Int) : Int := (int32 a &&& int32 b).toInt
def bitOr (a b : Int) : Int := (int32 a ||| int32 b).toInt
def shl (a : Int) (n : Nat) : Int := (int32 a <<< n).toInt
def ushr (a : Int) (n : Nat) : Int := ((int32 a >>> n).toNat : Nat)
def times (a b : Int) : Int := Cursor.nearest (a*b)
def plus (a b : Int) : Int := Cursor.nearest (a+b)

def crcRounds : Nat → Int → Int
  | 0,c => c
  | k+1,c => crcRounds k (if bitAnd c 1 ≠ 0 then bitXor 0x82f63b78 (ushr c 1) else ushr c 1)

def crcTable : List Int := (List.range 256).map fun i : Nat => ushr (crcRounds 8 (i : Int)) 0

def crc32c (bytes : Bytes) (crc : Int) : Int :=
  let c := bytes.foldl (fun c b => bitXor (crcTable.getD (bitAnd (bitXor c b.toNat) 0xff).toNat 0) (ushr c 8)) (ushr (bitNot crc) 0)
  ushr (bitNot c) 0

-- FNV-1a 64 on four 16-bit limbs, low limb first.
structure Fnv64 where
  h0 : Int := 0x2325
  h1 : Int := 0x8422
  h2 : Int := 0x9ce4
  h3 : Int := 0xcbf2
deriving DecidableEq

namespace Fnv64

-- A byte, with the exact result of every product and sum on the way.
def byte (f : Fnv64) (b : UInt8) : Fnv64 × List Int :=
  let h0 := bitXor f.h0 b.toNat
  -- multiply by 0x100000001b3 = 0x1b3 + (1 << 40)
  let t0 := times h0 0x1b3
  let t1 := times f.h1 0x1b3
  let low := bitAnd (shl h0 8) 0xffff
  let t2 := plus (times f.h2 0x1b3) low
  let high := bitAnd (bitOr (ushr h0 8) (shl f.h1 8)) 0xffff
  let t3 := plus (times f.h3 0x1b3) high
  let s1 := plus t1 (ushr t0 16)
  let s2 := plus t2 (ushr s1 16)
  let s3 := plus t3 (ushr s2 16)
  (⟨bitAnd t0 0xffff,bitAnd s1 0xffff,bitAnd s2 0xffff,bitAnd s3 0xffff⟩,
    [h0*0x1b3,f.h1*0x1b3,f.h2*0x1b3,times f.h2 0x1b3+low,f.h3*0x1b3,times f.h3 0x1b3+high,t1+ushr t0 16,t2+ushr s1 16,t3+ushr s2 16])

def update (f : Fnv64) (bytes : Bytes) : Fnv64 := bytes.foldl (fun f b => (f.byte b).1) f

def operations (f : Fnv64) : Bytes → List Int
  | [] => []
  | b :: bytes => (f.byte b).2++(f.byte b).1.operations bytes

-- Big-endian.
def digest (f : Fnv64) : Bytes :=
  [ushr f.h3 8,bitAnd f.h3 0xff,ushr f.h2 8,bitAnd f.h2 0xff,ushr f.h1 8,bitAnd f.h1 0xff,ushr f.h0 8,bitAnd f.h0 0xff].map
    fun x => UInt8.ofNat (x%256).toNat

def padStart (n : Nat) (c : Char) (s : List Char) : List Char := List.replicate (n-s.length) c++s

-- The running state as 16 hex digits.
def state (f : Fnv64) : List Char := f.digest.flatMap fun b => padStart 2 '0' (Nat.toDigits 16 b.toNat)

def hexDigit (c : Char) : Option Nat :=
  if '0' ≤ c ∧ c ≤ '9' then some (c.toNat-0x30) else if 'a' ≤ c ∧ c ≤ 'f' then some (c.toNat-0x57) else none

-- A number of hex digits, none when a text has another character.
def parseInt (text : List Char) : Option Int :=
  (text.mapM hexDigit).map fun digits => ((digits.foldl (fun x d => x*16+d) 0 : Nat) : Int)

def slice (text : List Char) (i j : Nat) : List Char := (text.drop i).take (j-i)

-- A state that is not 16 hex digits throws.
def resume (state : List Char) : Option Fnv64 :=
  if state.length ≠ 16 ∨ (state.all fun c => (hexDigit c).isSome) = false then none
  else do
    let limb := fun i => parseInt (slice state (i*4) (i*4+4))
    return ⟨← limb 3,← limb 2,← limb 1,← limb 0⟩

-- Pieces, each with whether the state was saved and resumed before it.
def piece (f : Fnv64) (p : Bytes × Bool) : Option Fnv64 := (if p.2 then resume f.state else some f).map (·.update p.1)

def run (pieces : List (Bytes × Bool)) : Option Fnv64 := pieces.foldlM piece {}

-- The state's 64 bits.
def bits (f : Fnv64) : Int := f.h0+f.h1*2^16+f.h2*2^32+f.h3*2^48

end Fnv64

namespace Core

def crcShift (c : UInt32) : UInt32 := if c &&& 1 ≠ 0 then (0x82f63b78 : UInt32) ^^^ (c >>> 1) else c >>> 1

def crc32c (data : Bytes) : UInt32 :=
  data.foldl (fun c b => (List.range 8).foldl (fun c _ => crcShift c) (c ^^^ b.toUInt32)) 0xffffffff ^^^ 0xffffffff

def fnv1a (data : Bytes) : UInt64 := data.foldl (fun h b => (h ^^^ b.toUInt64)*1099511628211) 14695981039346656037

end Core
end Checksum
end PhaseLock
