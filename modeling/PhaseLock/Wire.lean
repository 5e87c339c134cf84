import PhaseLock.EditLog

namespace PhaseLock

abbrev Bytes := List UInt8

instance bytesLawful : LawfulBEq Bytes := inferInstance

-- Msgpack's writer: the smallest encoding of every integer, text, bin, array header
-- and timestamp.
namespace Mp

def bigEndian (width n : Nat) : Bytes := (List.range width).map fun i => UInt8.ofNat (n/256^(width-1-i))

def utf8 (text : List Char) : Bytes := text.flatMap String.utf8EncodeChar

def uint (v : Nat) : Bytes :=
  if v ≤ 0x7f then [UInt8.ofNat v]
  else if v ≤ 0xff then [0xcc,UInt8.ofNat v]
  else if v ≤ 0xffff then 0xcd :: bigEndian 2 v
  else if v ≤ 0xffffffff then 0xce :: bigEndian 4 v
  else 0xcf :: bigEndian 8 v

def str (s : Bytes) : Bytes :=
  let n := s.length
  (if n ≤ 31 then [UInt8.ofNat (0xa0+n)]
    else if n ≤ 0xff then [0xd9,UInt8.ofNat n]
    else if n ≤ 0xffff then 0xda :: bigEndian 2 n
    else 0xdb :: bigEndian 4 n)++s

def bin (s : Bytes) : Bytes :=
  let n := s.length
  (if n ≤ 0xff then [0xc4,UInt8.ofNat n]
    else if n ≤ 0xffff then 0xc5 :: bigEndian 2 n
    else 0xc6 :: bigEndian 4 n)++s

def array (n : Nat) : Bytes :=
  if n ≤ 15 then [UInt8.ofNat (0x90+n)]
  else if n ≤ 0xffff then 0xdc :: bigEndian 2 n
  else 0xdd :: bigEndian 4 n

def timestamp (sec : Int) (nsec : Nat) : Bytes :=
  if sec < 0 ∨ 2^34 ≤ sec then [0xc7,12,0xff]++bigEndian 4 nsec++bigEndian 8 (sec%2^64).toNat
  else if 0xffffffff < sec ∨ 0 < nsec then [0xd7,0xff]++bigEndian 8 (nsec*2^34+sec.toNat)
  else [0xd6,0xff]++bigEndian 4 sec.toNat

end Mp

-- The items an edit is written in, a value's bytes inline as the buffer holds them.
inductive Token where
  | array (n : Nat)
  | uint (v : Nat)
  | str (s : List Char)
  | bin (id : Nat)
  | timestamp (sec : Int) (nsec : Nat)
  | raw (value : Bytes)
deriving DecidableEq

-- A mutation's id is 16 bytes.
def Token.bytes : Token → Bytes
  | .array n => Mp.array n
  | .uint v => Mp.uint v
  | .str s => Mp.str (Mp.utf8 s)
  | .bin id => Mp.bin (Mp.bigEndian 16 id)
  | .timestamp sec nsec => Mp.timestamp sec nsec
  | .raw value => value

def encodedLen (edit : List Token) : Nat := (edit.flatMap Token.bytes).length

def Lifecycle.code : Lifecycle → Nat
  | .normal => 0
  | .birth => 1
  | .death => 2

-- The payload's items: three a set, and two a deletion of a normal edit.
def itemsOf (life : Lifecycle) (row : Key × Option Bytes) : Nat :=
  if row.2.isSome then 3 else if life = .normal then 2 else 0

def nitems (life : Lifecycle) (entries : List (Key × Option Bytes)) : Nat :=
  if life = .death then 0 else entries.foldl (fun n row => n+itemsOf life row) 0

def operation (life : Lifecycle) : Key × Option Bytes → List Token
  | (key,some value) => [.uint 0,.str key,.raw value]
  | (key,none) => if life = .normal then [.uint 1,.str key] else []

-- An edit's wire encoding: the envelope, then its payload's items flat.
def encodeEdit (position : Nat) (slice : Name) (seq id : Nat) (servertime : Int) (life : Lifecycle)
    (entries : List (Key × Option Bytes)) : List Token :=
  [.array (1+nitems life entries),.array 6,.uint position,.str slice,.uint seq,.bin id,
    .timestamp (servertime.tdiv 1000) ((servertime.tmod 1000).toNat*1000000),.uint life.code]++
    if life = .death then [] else entries.flatMap (operation life)

-- A reader's side: each operation by its opcode, until the array's items are all read.
def editOps (left : Int) (items : List Token) : Option (List (Key × Option Bytes)) :=
  if left ≤ 0 then if left < 0 then none else some []
  else match items with
    | .uint 0 :: .str key :: .raw value :: rest => (editOps (left-3) rest).map ((key,some value) :: ·)
    | .uint 1 :: .str key :: rest => (editOps (left-2) rest).map ((key,none) :: ·)
    | _ => none

def lifecycleOf : Nat → Option Lifecycle
  | 0 => some .normal
  | 1 => some .birth
  | 2 => some .death
  | _ => none

def readEdit : List Token → Option (WireEdit Bytes)
  | .array n :: .array 6 :: .uint position :: .str slice :: .uint seq :: .bin id :: .timestamp _ _ :: .uint life :: items =>
    match lifecycleOf life,editOps (n-1) items with
    | some lifecycle,some ops => some ⟨position,slice,seq,id,lifecycle,ops⟩
    | _,_ => none
  | _ => none

-- The operations an edit carries of the buffer's entries: a birth its sets alone, and
-- a death none.
def carried (life : Lifecycle) (entries : List (Key × Option Bytes)) : List (Key × Option Bytes) :=
  match life with
  | .normal => entries
  | .birth => entries.filter (·.2.isSome)
  | .death => []

theorem nitems_cons (alive : life ≠ .death) (row : Key × Option Bytes) (rest : List (Key × Option Bytes)) :
    nitems life (row :: rest) = itemsOf life row+nitems life rest := by
  have shift : ∀ (rows : List (Key × Option Bytes)) n,
      rows.foldl (fun n row => n+itemsOf life row) n = n+rows.foldl (fun n row => n+itemsOf life row) 0 := by
    intro rows
    induction rows with
    | nil => exact fun _ => rfl
    | cons head tail ih =>
      intro n
      have far := ih (n+itemsOf life head)
      have near := ih (0+itemsOf life head)
      simp only [List.foldl_cons] at far near ⊢
      omega
  unfold nitems
  rw [if_neg alive,if_neg alive,List.foldl_cons,shift,Nat.zero_add]

theorem editOps_operations (alive : life ≠ .death) (entries : List (Key × Option Bytes)) :
    editOps (nitems life entries) (entries.flatMap (operation life)) = some (carried life entries) := by
  induction entries with
  | nil => cases life <;> rfl
  | cons row rest ih =>
    rw [nitems_cons alive,List.flatMap_cons]
    obtain ⟨key,value⟩ := row
    cases value with
    | some value =>
      have three : itemsOf life (key,some value) = 3 := rfl
      have more : ¬((itemsOf life (key,some value)+nitems life rest : Nat) : Int) ≤ 0 := by omega
      have left : ((itemsOf life (key,some value)+nitems life rest : Nat) : Int)-3 = nitems life rest := by omega
      show editOps _ (.uint 0 :: .str key :: .raw value :: rest.flatMap (operation life)) = _
      rw [editOps,if_neg more,left,ih]
      cases life <;> first | rfl | exact absurd rfl alive
    | none =>
      cases life with
      | death => exact absurd rfl alive
      | birth => simpa [itemsOf,operation,carried] using ih
      | normal =>
        have two : itemsOf .normal (key,(none : Option Bytes)) = 2 := rfl
        have more : ¬((itemsOf .normal (key,(none : Option Bytes))+nitems .normal rest : Nat) : Int) ≤ 0 := by omega
        have left : ((itemsOf .normal (key,(none : Option Bytes))+nitems .normal rest : Nat) : Int)-2 = nitems .normal rest := by omega
        show editOps _ (.uint 1 :: .str key :: rest.flatMap (operation .normal)) = _
        rw [editOps,if_neg more,left,ih]
        rfl

-- A reader reads back the edit the database encoded, its header's count among it.
theorem readEdit_encodeEdit (position : Nat) (slice : Name) (seq id : Nat) (servertime : Int) (life : Lifecycle)
    (entries : List (Key × Option Bytes)) : readEdit (encodeEdit position slice seq id servertime life entries) =
      some ⟨position,slice,seq,id,life,carried life entries⟩ := by
  have header : (((1+nitems life entries : Nat) : Int)-1) = nitems life entries := by omega
  have code : lifecycleOf life.code = some life := by cases life <;> rfl
  show (match lifecycleOf life.code,editOps (((1+nitems life entries : Nat) : Int)-1)
      (if life = .death then [] else entries.flatMap (operation life)) with
    | some lifecycle,some ops => some (⟨position,slice,seq,id,lifecycle,ops⟩ : WireEdit Bytes)
    | _,_ => none) = _
  rw [header,code]
  by_cases dead : life = .death
  · subst dead
    rfl
  · rw [if_neg dead,editOps_operations dead]

end PhaseLock
