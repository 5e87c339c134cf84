import PhaseLock.Cursor
import PhaseLock.EditLog

namespace PhaseLock
namespace Cursor
open Mp Skeleton JsTexts

-- A buffer with some bytes set from a place on.
def setAt (buf : Bytes) (place : Nat) (value : Bytes) : Bytes := buf.take place++value++buf.drop (place+value.length)

def zeros (n : Nat) : Bytes := List.replicate n 0

theorem length_setAt {buf value : Bytes} {place : Nat} (fits : place+value.length ≤ buf.length) :
    (setAt buf place value).length = buf.length := by
  unfold setAt
  simp only [List.length_append,List.length_take,List.length_drop]
  omega

-- A body's reader: its buffer, the bytes between pos and len unread, those before pos
-- discarded with the base, and the chunks the stream has still to bring.
structure ByteReader where
  buf : Bytes
  pos : Nat
  len : Nat
  base : Nat
  eof : Bool
  chunks : List Bytes
  within : pos ≤ len ∧ len ≤ buf.length

namespace ByteReader

def opens (chunks : List Bytes) (base : Nat) : ByteReader := ⟨zeros (64*1024),0,0,base,false,chunks,le_rfl,Nat.zero_le _⟩

def offset (br : ByteReader) : Nat := br.base+br.pos
def available (br : ByteReader) : Nat := br.len-br.pos
def unread (br : ByteReader) : Bytes := window br.buf br.len br.pos

theorem length_unread (br : ByteReader) : br.unread.length = br.len-br.pos := length_window br.within.2 br.pos

-- Bytes discarded or handed out.
def moves (br : ByteReader) (place : Nat) (ahead : place ≤ br.len) : ByteReader := {br with
  pos:=place
  within:=⟨ahead,br.within.2⟩}

-- Where the unread bytes move to for one more chunk: a larger buffer where they and the chunk
-- need one.
def roomFor (br : ByteReader) (size : Nat) : Bytes :=
  if br.buf.length < br.len-br.pos+size then zeros (max (br.buf.length*2) (br.len-br.pos+size)) else br.buf

theorem roomFor_fits (br : ByteReader) (size : Nat) : br.len-br.pos+size ≤ (br.roomFor size).length := by
  unfold roomFor
  split
  · rw [zeros,List.length_replicate]
    exact le_max_right _ _
  · omega

-- The unread bytes at the front, where the end has no room for one more chunk.
def makeRoom (br : ByteReader) (size : Nat) : ByteReader :=
  if br.len+size ≤ br.buf.length then br
  else ⟨setAt (br.roomFor size) 0 br.unread,0,br.len-br.pos,br.base+br.pos,br.eof,br.chunks,Nat.zero_le _,by
    have fits := br.roomFor_fits size
    rw [length_setAt (by rw [length_unread]; omega)]
    omega⟩

theorem makeRoom_fits (br : ByteReader) (size : Nat) : (br.makeRoom size).len+size ≤ (br.makeRoom size).buf.length := by
  unfold makeRoom
  split
  · assumption
  · have fits := br.roomFor_fits size
    show br.len-br.pos+size ≤ (setAt (br.roomFor size) 0 br.unread).length
    rw [length_setAt (by rw [length_unread]; omega)]
    exact fits

-- Appends one chunk; false at the body's end.
def more (br : ByteReader) : Bool × ByteReader :=
  if br.eof then (false,br)
  else match br.chunks with
    | [] => (false,{br with eof:=true})
    | value :: chunks =>
      let room := br.makeRoom value.length
      have fits := br.makeRoom_fits value.length
      (true,⟨setAt room.buf room.len value,room.pos,room.len+value.length,room.base,room.eof,chunks,
        room.within.1.trans (Nat.le_add_right _ _),by rw [length_setAt fits]; exact fits⟩)

inductive ReadError where
  | early
  | takePast
  | peekPast
  | invalid
deriving DecidableEq

theorem more_chunks {br after : ByteReader} (is : br.more = (true,after)) : after.chunks.length < br.chunks.length := by
  unfold more at is
  split at is
  · cases is
  · split at is
    · cases is
    · rename_i bring
      cases is
      rw [bring]
      exact Nat.lt_succ_self _

-- Reads until n bytes are available.
def fill (br : ByteReader) (n : Nat) : Except ReadError Unit × ByteReader :=
  if br.available < n then match _refilled : br.more with
    | (true,after) => after.fill n
    | (false,after) => (.error .early,after)
  else (.ok (),br)
termination_by br.chunks.length
decreasing_by exact more_chunks _refilled

def take (br : ByteReader) (n : Nat) : Except ReadError Bytes × ByteReader :=
  if ahead : br.pos+n ≤ br.len then (.ok (window br.buf (br.pos+n) br.pos),br.moves (br.pos+n) ahead)
  else (.error .takePast,br)

def skipBytes (br : ByteReader) (n : Nat) : Except ReadError Unit × ByteReader :=
  if n = 0 then (.ok (),br)
  else if ahead : br.pos+n ≤ br.len then (.ok (),br.moves (br.pos+n) ahead)
  else match _refilled : (br.moves br.len le_rfl).more with
    | (true,after) => after.skipBytes (n-(br.len-br.pos))
    | (false,after) => (.error .early,after)
termination_by br.chunks.length
decreasing_by
  have fewer := more_chunks _refilled
  exact fewer

def peek (br : ByteReader) : Except ReadError UInt8 :=
  if br.len ≤ br.pos then .error .peekPast else .ok (br.buf.getD br.pos 0)

-- The end of the next n values from a place, if they are all buffered.
def measures (buf : Bytes) (stop : Nat) : Nat → Nat → Measured
  | 0,place => .whole place
  | n+1,place => match measure buf place stop with
    | .whole e => measures buf stop n e
    | other => other

theorem measure_ahead {br : ByteReader} {place e : Nat} (is : measure br.buf place br.len = .whole e) : place < e ∧ e ≤ br.len := by
  have inside := br.within.2
  rw [measure_span inside] at is
  cases ends : span 1 (window br.buf br.len place) with
  | whole rest =>
    rw [ends] at is
    cases is
    have := span_pending ends
    rw [length_window inside] at this
    omega
  | short | invalid =>
    rw [ends] at is
    cases is

theorem measures_ahead {br : ByteReader} {n place e : Nat} (within : place ≤ br.len) (is : measures br.buf br.len n place = .whole e) :
    place ≤ e ∧ e ≤ br.len := by
  induction n generalizing place with
  | zero =>
    cases is
    exact ⟨le_rfl,within⟩
  | succ n ih =>
    rw [measures] at is
    split at is
    · rename_i middle measured
      obtain ⟨up,low⟩ := measure_ahead measured
      obtain ⟨further,last⟩ := ih low is
      exact ⟨up.le.trans further,last⟩
    · rename_i other
      exact absurd is (other e)

-- The next n whole values, if they are all buffered.
def tryValues (br : ByteReader) (n : Nat) : Except ReadError (Option Bytes) × ByteReader :=
  match measured : measures br.buf br.len n br.pos with
  | .whole e => (.ok (some (window br.buf e br.pos)),br.moves e (measures_ahead br.within.1 measured).2)
  | .short => (.ok none,br)
  | _ => (.error .invalid,br)

-- A copy of the next whole value, if it is buffered.
def tryValue (br : ByteReader) : Except ReadError (Option Bytes) × ByteReader :=
  match measured : measure br.buf br.pos br.len with
  | .whole e => (.ok (some (window br.buf e br.pos)),br.moves e (measure_ahead measured).2)
  | .short => (.ok none,br)
  | _ => (.error .invalid,br)

theorem tryValue_less {br after : ByteReader} {v : Bytes} (is : br.tryValue = (.ok (some v),after)) :
    after.len-after.pos < br.len-br.pos ∧ after.chunks = br.chunks := by
  unfold tryValue at is
  split at is
  · rename_i e measured
    cases is
    obtain ⟨up,low⟩ := measure_ahead measured
    exact ⟨by show br.len-e < br.len-br.pos; omega,rfl⟩
  · cases is
  · cases is

end ByteReader

inductive FrameError where
  | refused (why : Refusal)
  | unmeasured
  | idOf (size : Nat)
  | noEnvelope
  | shortEnvelope
  | lifecycle (life : Int)
  | emptyFrame
  | unknown (tag : Units)
  | short (tag : Units)
deriving DecidableEq

def FrameError.of {α : Type} : Except Refusal α → Except FrameError α
  | .ok x => .ok x
  | .error why => .error (.refused why)

-- A copy of the next value's bytes, undecoded.
def Reader.raw (r : Reader) : Except FrameError (Bytes × Reader) :=
  match measure r.data 0 r.left with
  | .whole e => .ok (r.data.take e,r.advance e)
  | .short => .error (.refused .truncated)
  | _ => .error .unmeasured

-- Some values of any type passed over.
def Reader.skips : Nat → Reader → Except FrameError Reader
  | 0,r => .ok r
  | n+1,r => do
    let (_,r) ← r.raw
    Reader.skips n r

def hexDigit (n : Nat) : Char := "0123456789abcdef".toList.getD n '0'

def uuidString (b : Bytes) : Except FrameError Name :=
  if b.length ≠ 16 then .error (.idOf b.length)
  else .ok (b.zipIdx.flatMap fun (c,i) =>
    (if i = 4 ∨ i = 6 ∨ i = 8 ∨ i = 10 then ['-'] else [])++[hexDigit (c.toNat/16),hexDigit (c.toNat%16)])

structure EditEnvelope where
  position : Int
  slice : Units
  seq : Int
  id : Name
  servertime : Option Int
  lifecycle : Lifecycle
deriving DecidableEq

def lifecycleOf (life : Int) : Except FrameError Lifecycle :=
  if life = 0 then .ok .normal else if life = 1 then .ok .birth else if life = 2 then .ok .death else .error (.lifecycle life)

-- The envelope of a raw edit; elements a later protocol appends to it are passed over.
def readEnvelope (r : Reader) : Except FrameError EditEnvelope := do
  let (n,r) ← FrameError.of r.arrayHeader
  if n < 1 then .error .noEnvelope
  else
    let (n,r) ← FrameError.of r.arrayHeader
    if n < 6 then .error .shortEnvelope
    else
      let (position,r) ← FrameError.of r.int
      let (slice,r) ← FrameError.of r.str
      let (seq,r) ← FrameError.of r.int
      let (b,r) ← FrameError.of r.bin
      let id ← uuidString b
      let (servertime,r) ← FrameError.of r.timestamp
      let (life,r) ← FrameError.of r.int
      let lifecycle ← lifecycleOf life
      let _ ← r.skips (n-6)
      return ⟨position,slice,seq,id,servertime,lifecycle⟩

inductive StreamFrame where
  | edits (edits : List (EditEnvelope × Bytes))
  | live (position : Int)
  | vouch (position : Int)
  | view (token : Units) (position : Int) (selectors : List Units)
  | ends (code : Int) (reason : Units)
deriving DecidableEq

-- A frame's edits, each sliced once, its envelope read from the slice.
def readEdits : Nat → Reader → Except FrameError (List (EditEnvelope × Bytes) × Reader)
  | 0,r => .ok ([],r)
  | m+1,r => do
    let (raw,r) ← r.raw
    let envelope ← readEnvelope ⟨raw,raw.length⟩
    let (edits,r) ← readEdits m r
    return ((envelope,raw) :: edits,r)

-- A frame after its tag, with the elements it used.
def readFrame (tag : Units) (r : Reader) : Except FrameError (StreamFrame × Nat × Reader) :=
  if tag = utf16 "edits".toList then do
    let (m,r) ← FrameError.of r.arrayHeader
    let (edits,r) ← readEdits m r
    return (.edits edits,2,r)
  else if tag = utf16 "live".toList then do
    let (position,r) ← FrameError.of r.int
    return (.live position,2,r)
  else if tag = utf16 "vouch".toList then do
    let (position,r) ← FrameError.of r.int
    return (.vouch position,2,r)
  else if tag = utf16 "view".toList then do
    let (token,r) ← FrameError.of r.str
    let (position,r) ← FrameError.of r.int
    let (n,r) ← FrameError.of r.arrayHeader
    let (selectors,r) ← FrameError.of (Reader.many Reader.str n r)
    return (.view token position selectors,4,r)
  else if tag = utf16 "end".toList then do
    let (code,r) ← FrameError.of r.int
    let (reason,r) ← FrameError.of r.str
    return (.ends code reason,3,r)
  else .error (.unknown tag)

-- One frame of /stream or /edits; elements a later protocol appends are passed over.
def parseFrame (bytes : Bytes) : Except FrameError StreamFrame := do
  let (n,r) ← FrameError.of (⟨bytes,bytes.length⟩ : Reader).arrayHeader
  if n < 1 then .error .emptyFrame
  else
    let (tag,r) ← FrameError.of r.str
    let (frame,used,r) ← readFrame tag r
    if n < used then .error (.short tag)
    else
      let _ ← r.skips (n-used)
      return frame

-- How the frame loop ends: its handler stopped it, at the body's end on a frame boundary, at
-- its end inside a frame, or at bytes that are none.
inductive Ending where
  | stopped
  | clean
  | midFrame
  | malformed
  | failed (why : FrameError)
deriving DecidableEq

-- A round over the buffered frames: it waits for a chunk, or the loop has ended.
inductive Drained where
  | waits (given : List StreamFrame) (br : ByteReader)
  | ends (given : List StreamFrame) (how : Ending)

-- Every buffered frame goes to the handler, which answers whether to go on, given every frame
-- so far.
def drain (fn : List StreamFrame → Bool) (given : List StreamFrame) (br : ByteReader) : Drained :=
  match _tried : br.tryValue with
  | (.ok (some v),after) => match parseFrame v with
    | .ok frame => if fn (given++[frame]) then drain fn (given++[frame]) after else .ends (given++[frame]) .stopped
    | .error why => .ends given (.failed why)
  | (.ok none,after) => .waits given after
  | (.error _,_) => .ends given .malformed
termination_by br.len-br.pos
decreasing_by exact (ByteReader.tryValue_less _tried).1

theorem drain_chunks {fn : List StreamFrame → Bool} {given more : List StreamFrame} {br after : ByteReader}
    (is : drain fn given br = .waits more after) : after.chunks = br.chunks := by
  fun_induction drain fn given br with
  | case1 given br v after tried frame parsed on_ ih => exact (ih is).trans (ByteReader.tryValue_less tried).2
  | case2 => cases is
  | case3 => cases is
  | case4 given br after tried =>
    cases is
    unfold ByteReader.tryValue at tried
    split at tried
    · cases tried
    · cases tried
      rfl
    · cases tried
  | case5 => cases is

-- The frame loop: every buffered frame, then one refill.
def frames (fn : List StreamFrame → Bool) (given : List StreamFrame) (br : ByteReader) : List StreamFrame × Ending :=
  match _drained : drain fn given br with
  | .ends given how => (given,how)
  | .waits given waiting => match _refilled : waiting.more with
    | (true,after) => frames fn given after
    | (false,after) => (given,if 0 < after.available then .midFrame else .clean)
termination_by br.chunks.length
decreasing_by
  rw [← drain_chunks _drained]
  exact ByteReader.more_chunks _refilled

end Cursor
end PhaseLock
