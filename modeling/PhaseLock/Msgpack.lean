import PhaseLock.Wire

namespace PhaseLock
namespace Mp

-- One parsed value.  Integers keep the signedness of their encoding; floats are their bits.
inductive Node where
  | nil
  | bool (b : Bool)
  | int (i : Int)
  | uint (n : Nat)
  | f32 (bits : Nat)
  | f64 (bits : Nat)
  | str (s : Bytes)
  | bin (s : Bytes)
  | ext (type : Int) (s : Bytes)
  | array (items : List Node)
  | map (entries : List (Node × Node))

inductive ParseError where
  | truncated | invalid | tooDeep | tooBig
deriving DecidableEq

namespace Node

def asStr : Node → Option Bytes
  | .str s => some s
  | _ => none

-- The integer an int or uint node holds, when it is not negative.
def asU64 : Node → Option Nat
  | .int i => if 0 ≤ i then some i.toNat else none
  | .uint n => some n
  | _ => none

def items : Node → Option (List Node)
  | .array items => some items
  | _ => none

def entries : Node → Option (List (Node × Node))
  | .map entries => some entries
  | _ => none

end Node

-- What a value's first byte says: the value itself, the elements or bytes that follow, or the
-- width of the number that follows.
inductive Head where
  | nil
  | bool (b : Bool)
  | uint (n : Nat)
  | int (i : Int)
  | str (n : Nat)
  | array (n : Nat)
  | map (n : Nat)
  | f32
  | f64
  | uintOf (width : Nat)
  | intOf (width : Nat)
  | strOf (width : Nat)
  | binOf (width : Nat)
  | arrayOf (width : Nat)
  | mapOf (width : Nat)
  | extOf (width : Nat)
  | ext (n : Nat)
deriving DecidableEq

def headOf (c : Nat) : Option Head :=
  if c ≤ 0x7f then some (.uint c)
  else if 0xe0 ≤ c then some (.int (c-256))
  else if c ≤ 0x8f then some (.map (c-0x80))
  else if c ≤ 0x9f then some (.array (c-0x90))
  else if c ≤ 0xbf then some (.str (c-0xa0))
  else match c with
    | 0xc0 => some .nil
    | 0xc2 => some (.bool false)
    | 0xc3 => some (.bool true)
    | 0xc4 => some (.binOf 1)
    | 0xc5 => some (.binOf 2)
    | 0xc6 => some (.binOf 4)
    | 0xc7 => some (.extOf 1)
    | 0xc8 => some (.extOf 2)
    | 0xc9 => some (.extOf 4)
    | 0xca => some .f32
    | 0xcb => some .f64
    | 0xcc => some (.uintOf 1)
    | 0xcd => some (.uintOf 2)
    | 0xce => some (.uintOf 4)
    | 0xcf => some (.uintOf 8)
    | 0xd0 => some (.intOf 1)
    | 0xd1 => some (.intOf 2)
    | 0xd2 => some (.intOf 4)
    | 0xd3 => some (.intOf 8)
    | 0xd4 => some (.ext 1)
    | 0xd5 => some (.ext 2)
    | 0xd6 => some (.ext 4)
    | 0xd7 => some (.ext 8)
    | 0xd8 => some (.ext 16)
    | 0xd9 => some (.strOf 1)
    | 0xda => some (.strOf 2)
    | 0xdb => some (.strOf 4)
    | 0xdc => some (.arrayOf 2)
    | 0xdd => some (.arrayOf 4)
    | 0xde => some (.mapOf 2)
    | 0xdf => some (.mapOf 4)
    | _ => none

-- The bytes left to parse, and the values the parse may still take: none without a limit.
structure Parser where
  data : Bytes
  left : Option Nat
deriving DecidableEq

-- A parse nests no deeper than this.
def maxParseDepth : Nat := 2048

namespace Parser

def take (p : Parser) (n : Nat) : Except ParseError (Bytes × Parser) :=
  if p.data.length < n then .error .truncated else .ok (p.data.take n,{p with data:=p.data.drop n})

def be (p : Parser) (n : Nat) : Except ParseError (Nat × Parser) := do
  let (s,p) ← p.take n
  return (s.foldl (fun x b => x*256+b.toNat) 0,p)

-- An unsigned number of a width, read as signed.
def signed (width n : Nat) : Int := if n < 256^width/2 then n else n-256^width

-- Elements, or entries, one after another.
def many {α : Type} (read : Parser → Except ParseError (α × Parser)) : Nat → Parser → Except ParseError (List α × Parser)
  | 0,p => .ok ([],p)
  | n+1,p => do
    let (first,p) ← read p
    let (rest,p) ← many read n p
    return (first :: rest,p)

def arrayN (value : Parser → Except ParseError (Node × Parser)) (n : Nat) (p : Parser) : Except ParseError (Node × Parser) :=
  if p.data.length < n then .error .truncated
  else do
    let (items,p) ← many value n p
    return (.array items,p)

def mapN (value : Parser → Except ParseError (Node × Parser)) (n : Nat) (p : Parser) : Except ParseError (Node × Parser) :=
  if p.data.length/2 < n then .error .truncated
  else do
    let entry := fun p => do
      let (k,p) ← value p
      let (v,p) ← value p
      return ((k,v),p)
    let (entries,p) ← many entry n p
    return (.map entries,p)

def ext (n : Nat) (p : Parser) : Except ParseError (Node × Parser) := do
  let (t,p) ← p.be 1
  let (s,p) ← p.take n
  return (.ext (signed 1 t) s,p)

-- The value after its first byte; value parses what it holds.
def body (value : Parser → Except ParseError (Node × Parser)) (p : Parser) : Head → Except ParseError (Node × Parser)
  | .nil => .ok (.nil,p)
  | .bool b => .ok (.bool b,p)
  | .uint n => .ok (.uint n,p)
  | .int i => .ok (.int i,p)
  | .str n => do
    let (s,p) ← p.take n
    return (.str s,p)
  | .array n => arrayN value n p
  | .map n => mapN value n p
  | .f32 => do
    let (bits,p) ← p.be 4
    return (.f32 bits,p)
  | .f64 => do
    let (bits,p) ← p.be 8
    return (.f64 bits,p)
  | .uintOf width => do
    let (n,p) ← p.be width
    return (.uint n,p)
  | .intOf width => do
    let (n,p) ← p.be width
    return (.int (signed width n),p)
  | .strOf width => do
    let (n,p) ← p.be width
    let (s,p) ← p.take n
    return (.str s,p)
  | .binOf width => do
    let (n,p) ← p.be width
    let (s,p) ← p.take n
    return (.bin s,p)
  | .arrayOf width => do
    let (n,p) ← p.be width
    arrayN value n p
  | .mapOf width => do
    let (n,p) ← p.be width
    mapN value n p
  | .extOf width => do
    let (n,p) ← p.be width
    ext n p
  | .ext n => ext n p

-- The value the data starts with, when levels of nesting may still open.
def value : Nat → Parser → Except ParseError (Node × Parser)
  | 0,_ => .error .tooDeep
  | levels+1,p =>
    if p.left = some 0 then .error .tooBig
    else do
      let (c,p) ← {p with left:=p.left.map (· - 1)}.be 1
      match headOf c with
      | some head => body (value levels) p head
      | none => .error .invalid

end Parser

-- The value data starts with, of at most max values, and the bytes after it.
def parseLimited (data : Bytes) (max : Option Nat) : Except ParseError (Node × Bytes) := do
  let (node,p) ← Parser.value (maxParseDepth+1) ⟨data,max⟩
  return (node,p.data)

def parse (data : Bytes) : Except ParseError (Node × Bytes) := parseLimited data none

def map (n : Nat) : Bytes :=
  if n ≤ 15 then [UInt8.ofNat (0x80+n)]
  else if n ≤ 0xffff then 0xde :: bigEndian 2 n
  else 0xdf :: bigEndian 4 n

def int (v : Int) : Bytes :=
  if 0 ≤ v then uint v.toNat
  else if -32 ≤ v then [UInt8.ofNat (v+256).toNat]
  else if -128 ≤ v then [0xd0,UInt8.ofNat (v+256).toNat]
  else if -32768 ≤ v then 0xd1 :: bigEndian 2 (v+2^16).toNat
  else if -2147483648 ≤ v then 0xd2 :: bigEndian 4 (v+2^32).toNat
  else 0xd3 :: bigEndian 8 (v+2^64).toNat

def double (bits : Nat) : Bytes := 0xcb :: bigEndian 8 bits

-- A value as the writer is told it.
inductive Val where
  | nil
  | bool (b : Bool)
  | int (i : Int)
  | double (bits : Nat)
  | str (s : Bytes)
  | bin (s : Bytes)
  | timestamp (sec : Int) (nsec : Nat)
  | array (items : List Val)
  | map (entries : List (Val × Val))

mutual
def Val.write : Val → Bytes
  | .nil => [0xc0]
  | .bool b => [if b then 0xc3 else 0xc2]
  | .int i => Mp.int i
  | .double bits => Mp.double bits
  | .str s => Mp.str s
  | .bin s => Mp.bin s
  | .timestamp sec nsec => Mp.timestamp sec nsec
  | .array items => Mp.array items.length++Val.writes items
  | .map entries => Mp.map entries.length++Val.writeEntries entries
def Val.writes : List Val → Bytes
  | [] => []
  | v :: rest => v.write++Val.writes rest
def Val.writeEntries : List (Val × Val) → Bytes
  | [] => []
  | (k,v) :: rest => k.write++(v.write++Val.writeEntries rest)
end

-- A timestamp's extension: its payload holds the seconds alone, or both.
def stamp (sec : Int) (nsec : Nat) : Bytes :=
  if sec < 0 ∨ 2^34 ≤ sec then bigEndian 4 nsec++bigEndian 8 (sec%2^64).toNat
  else if 0xffffffff < sec ∨ 0 < nsec then bigEndian 8 (nsec*2^34+sec.toNat)
  else bigEndian 4 sec.toNat

mutual
def Val.node : Val → Node
  | .nil => .nil
  | .bool b => .bool b
  | .int i => if 0 ≤ i then .uint i.toNat else .int i
  | .double bits => .f64 bits
  | .str s => .str s
  | .bin s => .bin s
  | .timestamp sec nsec => .ext (-1) (stamp sec nsec)
  | .array items => .array (Val.nodes items)
  | .map entries => .map (Val.nodeEntries entries)
def Val.nodes : List Val → List Node
  | [] => []
  | v :: rest => v.node :: Val.nodes rest
def Val.nodeEntries : List (Val × Val) → List (Node × Node)
  | [] => []
  | (k,v) :: rest => (k.node,v.node) :: Val.nodeEntries rest
end

-- A value the format can hold, nested no deeper than the levels left.
def Val.Fits : Nat → Val → Prop
  | 0,_ => False
  | _+1,.nil | _+1,.bool _ | _+1,.timestamp _ _ => True
  | _+1,.int i => -2^63 ≤ i ∧ i < 2^64
  | _+1,.double bits => bits < 2^64
  | _+1,.str s | _+1,.bin s => s.length < 2^32
  | levels+1,.array items => items.length < 2^32 ∧ ∀ v ∈ items, v.Fits levels
  | levels+1,.map entries => entries.length < 2^32 ∧ ∀ entry ∈ entries, entry.1.Fits levels ∧ entry.2.Fits levels

theorem length_bigEndian (width n : Nat) : (bigEndian width n).length = width := by simp [bigEndian]

theorem bigEndian_succ (width n : Nat) : bigEndian (width+1) n = bigEndian width (n/256)++[UInt8.ofNat n] := by
  unfold bigEndian
  rw [List.range_succ,List.map_append,List.map_singleton]
  congr 1
  · refine List.map_congr_left fun i member => ?_
    have inside := List.mem_range.mp member
    have power : 256^(width+1-1-i) = 256*256^(width-1-i) := by
      rw [← Nat.pow_succ']
      congr 1
      omega
    rw [power,Nat.div_div_eq_div_mul]
  · simp

theorem foldl_bigEndian {width n : Nat} (small : n < 256^width) :
    (bigEndian width n).foldl (fun x b => x*256+b.toNat) 0 = n := by
  induction width generalizing n with
  | zero =>
    have none : n = 0 := by simpa using small
    simp [bigEndian,none]
  | succ width ih =>
    have less : n/256 < 256^width := by
      rw [Nat.pow_succ] at small
      omega
    rw [bigEndian_succ,List.foldl_append,ih less]
    simp only [List.foldl_cons,List.foldl_nil,UInt8.toNat_ofNat']
    omega

namespace Parser

theorem take_append (s rest : Bytes) (left : Option Nat) : (⟨s++rest,left⟩ : Parser).take s.length = .ok (s,⟨rest,left⟩) := by
  simp [take]

theorem be_append {width n : Nat} (small : n < 256^width) (rest : Bytes) (left : Option Nat) :
    (⟨bigEndian width n++rest,left⟩ : Parser).be width = .ok (n,⟨rest,left⟩) := by
  have taken := take_append (bigEndian width n) rest left
  rw [length_bigEndian] at taken
  rw [be,taken]
  show Except.ok _ = _
  rw [foldl_bigEndian small]

theorem be_one {n : Nat} (small : n < 256) (rest : Bytes) (left : Option Nat) :
    (⟨UInt8.ofNat n :: rest,left⟩ : Parser).be 1 = .ok (n,⟨rest,left⟩) := by
  have one : bigEndian 1 n = [UInt8.ofNat n] := by simp [bigEndian]
  have read := @be_append 1 n (by omega) rest left
  rwa [one] at read

theorem value_head {c : Nat} (small : c < 256) (is : headOf c = some head) (levels : Nat) (rest : Bytes) :
    value (levels+1) ⟨UInt8.ofNat c :: rest,none⟩ = body (value levels) ⟨rest,none⟩ head := by
  rw [value,if_neg (by simp)]
  show (be ⟨UInt8.ofNat c :: rest,none⟩ 1 >>= fun x => match headOf x.1 with
    | some head => body (value levels) x.2 head
    | none => .error .invalid) = _
  rw [be_one small]
  show (match headOf c with
    | some head => body (value levels) ⟨rest,none⟩ head
    | none => .error .invalid) = _
  rw [is]

end Parser

theorem headOf_map {n : Nat} (few : n ≤ 15) : headOf (0x80+n) = some (.map n) := by
  unfold headOf
  rw [if_neg (by omega),if_neg (by omega),if_pos (by omega)]
  simp

theorem headOf_array {n : Nat} (few : n ≤ 15) : headOf (0x90+n) = some (.array n) := by
  unfold headOf
  rw [if_neg (by omega),if_neg (by omega),if_neg (by omega),if_pos (by omega)]
  simp

theorem headOf_str {n : Nat} (few : n ≤ 31) : headOf (0xa0+n) = some (.str n) := by
  unfold headOf
  rw [if_neg (by omega),if_neg (by omega),if_neg (by omega),if_neg (by omega),if_pos (by omega)]
  simp

namespace Parser

variable (levels : Nat) (rest : Bytes)

-- A header of a count or a length: in its first byte, or after it, in the width it needs.
theorem value_uint {n : Nat} (fits : n < 2^64) : value (levels+1) ⟨uint n++rest,none⟩ = .ok (.uint n,⟨rest,none⟩) := by
  unfold uint
  split_ifs with b0 b1 b2 b4
  · rw [List.singleton_append,value_head (by omega) (by unfold headOf; rw [if_pos b0])]
    rfl
  · show value (levels+1) ⟨UInt8.ofNat 0xcc :: UInt8.ofNat n :: rest,none⟩ = _
    rw [value_head (by decide) rfl,body,be_one (by omega)]
    rfl
  · show value (levels+1) ⟨UInt8.ofNat 0xcd :: (bigEndian 2 n++rest),none⟩ = _
    rw [value_head (by decide) rfl,body,be_append (by omega)]
    rfl
  · show value (levels+1) ⟨UInt8.ofNat 0xce :: (bigEndian 4 n++rest),none⟩ = _
    rw [value_head (by decide) rfl,body,be_append (by omega)]
    rfl
  · show value (levels+1) ⟨UInt8.ofNat 0xcf :: (bigEndian 8 n++rest),none⟩ = _
    rw [value_head (by decide) rfl,body,be_append (by omega)]
    rfl

theorem value_str {s : Bytes} (fits : s.length < 2^32) : value (levels+1) ⟨str s++rest,none⟩ = .ok (.str s,⟨rest,none⟩) := by
  unfold str
  dsimp only
  rw [List.append_assoc]
  split_ifs with b0 b1 b2
  · rw [List.singleton_append,value_head (by omega) (headOf_str b0),body,take_append]
    rfl
  · show value (levels+1) ⟨UInt8.ofNat 0xd9 :: UInt8.ofNat s.length :: (s++rest),none⟩ = _
    rw [value_head (by decide) rfl,body,be_one (by omega)]
    show (take ⟨s++rest,none⟩ s.length >>= _) = _
    rw [take_append]
    rfl
  · show value (levels+1) ⟨UInt8.ofNat 0xda :: (bigEndian 2 s.length++(s++rest)),none⟩ = _
    rw [value_head (by decide) rfl,body,be_append (by omega)]
    show (take ⟨s++rest,none⟩ s.length >>= _) = _
    rw [take_append]
    rfl
  · show value (levels+1) ⟨UInt8.ofNat 0xdb :: (bigEndian 4 s.length++(s++rest)),none⟩ = _
    rw [value_head (by decide) rfl,body,be_append (by omega)]
    show (take ⟨s++rest,none⟩ s.length >>= _) = _
    rw [take_append]
    rfl

theorem value_bin {s : Bytes} (fits : s.length < 2^32) : value (levels+1) ⟨bin s++rest,none⟩ = .ok (.bin s,⟨rest,none⟩) := by
  unfold bin
  dsimp only
  rw [List.append_assoc]
  split_ifs with b1 b2
  · show value (levels+1) ⟨UInt8.ofNat 0xc4 :: UInt8.ofNat s.length :: (s++rest),none⟩ = _
    rw [value_head (by decide) rfl,body,be_one (by omega)]
    show (take ⟨s++rest,none⟩ s.length >>= _) = _
    rw [take_append]
    rfl
  · show value (levels+1) ⟨UInt8.ofNat 0xc5 :: (bigEndian 2 s.length++(s++rest)),none⟩ = _
    rw [value_head (by decide) rfl,body,be_append (by omega)]
    show (take ⟨s++rest,none⟩ s.length >>= _) = _
    rw [take_append]
    rfl
  · show value (levels+1) ⟨UInt8.ofNat 0xc6 :: (bigEndian 4 s.length++(s++rest)),none⟩ = _
    rw [value_head (by decide) rfl,body,be_append (by omega)]
    show (take ⟨s++rest,none⟩ s.length >>= _) = _
    rw [take_append]
    rfl

theorem value_array {n : Nat} (fits : n < 2^32) :
    value (levels+1) ⟨Mp.array n++rest,none⟩ = arrayN (value levels) n ⟨rest,none⟩ := by
  unfold Mp.array
  split_ifs with b0 b2
  · rw [List.singleton_append,value_head (by omega) (headOf_array b0),body]
  · show value (levels+1) ⟨UInt8.ofNat 0xdc :: (bigEndian 2 n++rest),none⟩ = _
    rw [value_head (by decide) rfl,body,be_append (by omega)]
    rfl
  · show value (levels+1) ⟨UInt8.ofNat 0xdd :: (bigEndian 4 n++rest),none⟩ = _
    rw [value_head (by decide) rfl,body,be_append (by omega)]
    rfl

theorem value_map {n : Nat} (fits : n < 2^32) :
    value (levels+1) ⟨Mp.map n++rest,none⟩ = mapN (value levels) n ⟨rest,none⟩ := by
  unfold Mp.map
  split_ifs with b0 b2
  · rw [List.singleton_append,value_head (by omega) (headOf_map b0),body]
  · show value (levels+1) ⟨UInt8.ofNat 0xde :: (bigEndian 2 n++rest),none⟩ = _
    rw [value_head (by decide) rfl,body,be_append (by omega)]
    rfl
  · show value (levels+1) ⟨UInt8.ofNat 0xdf :: (bigEndian 4 n++rest),none⟩ = _
    rw [value_head (by decide) rfl,body,be_append (by omega)]
    rfl

theorem value_int {i : Int} (low : -2^63 ≤ i) (high : i < 2^64) :
    value (levels+1) ⟨int i++rest,none⟩ = .ok (if 0 ≤ i then .uint i.toNat else .int i,⟨rest,none⟩) := by
  unfold int
  by_cases positive : 0 ≤ i
  · rw [if_pos positive,if_pos positive,value_uint _ _ (by omega)]
  · rw [if_neg positive,if_neg positive]
    split_ifs with b0 b1 b2 b4
    · have first : headOf (i+256).toNat = some (.int i) := by
        unfold headOf
        rw [if_neg (by omega),if_pos (by omega)]
        have back : ((i+256).toNat : Int)-256 = i := by omega
        rw [back]
      rw [List.singleton_append,value_head (by omega) first]
      rfl
    · show value (levels+1) ⟨UInt8.ofNat 0xd0 :: UInt8.ofNat (i+256).toNat :: rest,none⟩ = _
      have back : signed 1 (i+256).toNat = i := by unfold signed; rw [if_neg (by omega)]; omega
      rw [value_head (by decide) rfl,body,be_one (by omega)]
      show Except.ok (Node.int (signed 1 (i+256).toNat),_) = _
      rw [back]
    · show value (levels+1) ⟨UInt8.ofNat 0xd1 :: (bigEndian 2 (i+2^16).toNat++rest),none⟩ = _
      have back : signed 2 (i+2^16).toNat = i := by unfold signed; rw [if_neg (by omega)]; omega
      rw [value_head (by decide) rfl,body,be_append (by omega)]
      show Except.ok (Node.int (signed 2 (i+2^16).toNat),_) = _
      rw [back]
    · show value (levels+1) ⟨UInt8.ofNat 0xd2 :: (bigEndian 4 (i+2^32).toNat++rest),none⟩ = _
      have back : signed 4 (i+2^32).toNat = i := by unfold signed; rw [if_neg (by omega)]; omega
      rw [value_head (by decide) rfl,body,be_append (by omega)]
      show Except.ok (Node.int (signed 4 (i+2^32).toNat),_) = _
      rw [back]
    · show value (levels+1) ⟨UInt8.ofNat 0xd3 :: (bigEndian 8 (i+2^64).toNat++rest),none⟩ = _
      have back : signed 8 (i+2^64).toNat = i := by unfold signed; rw [if_neg (by omega)]; omega
      rw [value_head (by decide) rfl,body,be_append (by omega)]
      show Except.ok (Node.int (signed 8 (i+2^64).toNat),_) = _
      rw [back]

theorem ext_append (s : Bytes) : ext s.length ⟨0xff :: (s++rest),none⟩ = .ok (.ext (-1) s,⟨rest,none⟩) := by
  have first : (⟨0xff :: (s++rest),none⟩ : Parser).be 1 = .ok (255,⟨s++rest,none⟩) := be_one (n:=255) (by decide) _ _
  rw [ext,first]
  show (take ⟨s++rest,none⟩ s.length >>= _) = _
  rw [take_append]
  rfl

theorem value_timestamp (sec : Int) (nsec : Nat) :
    value (levels+1) ⟨timestamp sec nsec++rest,none⟩ = .ok (.ext (-1) (stamp sec nsec),⟨rest,none⟩) := by
  have whole := ext_append rest (stamp sec nsec)
  unfold timestamp
  unfold stamp at whole ⊢
  split_ifs at whole ⊢
  · rw [List.length_append,length_bigEndian,length_bigEndian] at whole
    show value (levels+1) ⟨UInt8.ofNat 0xc7 :: UInt8.ofNat 12 :: 0xff :: (bigEndian 4 nsec++bigEndian 8 (sec%2^64).toNat++rest),none⟩ = _
    rw [value_head (by decide) rfl,body,be_one (by omega)]
    exact whole
  · rw [length_bigEndian] at whole
    show value (levels+1) ⟨UInt8.ofNat 0xd7 :: 0xff :: (bigEndian 8 (nsec*2^34+sec.toNat)++rest),none⟩ = _
    rw [value_head (by decide) rfl,body]
    exact whole
  · rw [length_bigEndian] at whole
    show value (levels+1) ⟨UInt8.ofNat 0xd6 :: 0xff :: (bigEndian 4 sec.toNat++rest),none⟩ = _
    rw [value_head (by decide) rfl,body]
    exact whole

theorem many_writes {items : List Val} (each : ∀ v ∈ items, ∀ rest, value levels ⟨v.write++rest,none⟩ = .ok (v.node,⟨rest,none⟩))
    (rest : Bytes) : many (value levels) items.length ⟨Val.writes items++rest,none⟩ = .ok (Val.nodes items,⟨rest,none⟩) := by
  induction items with
  | nil => simp [many,Val.writes,Val.nodes]
  | cons v items ih =>
    rw [List.length_cons,many,Val.writes,List.append_assoc,each v List.mem_cons_self]
    show (many (value levels) items.length ⟨Val.writes items++rest,none⟩ >>= _) = _
    rw [ih fun v member => each v (List.mem_cons_of_mem _ member)]
    rfl

theorem many_entries {entries : List (Val × Val)}
    (each : ∀ entry ∈ entries, (∀ rest, value levels ⟨entry.1.write++rest,none⟩ = .ok (entry.1.node,⟨rest,none⟩)) ∧
      ∀ rest, value levels ⟨entry.2.write++rest,none⟩ = .ok (entry.2.node,⟨rest,none⟩)) (rest : Bytes) :
    many (fun p => do
      let (k,p) ← value levels p
      let (v,p) ← value levels p
      return ((k,v),p)) entries.length ⟨Val.writeEntries entries++rest,none⟩ = .ok (Val.nodeEntries entries,⟨rest,none⟩) := by
  induction entries with
  | nil => simp [many,Val.writeEntries,Val.nodeEntries]
  | cons entry entries ih =>
    obtain ⟨k,v⟩ := entry
    obtain ⟨key,held⟩ := each (k,v) List.mem_cons_self
    rw [List.length_cons,many,Val.writeEntries,List.append_assoc,List.append_assoc,key]
    show (do
      let (v,p) ← value levels ⟨v.write++(Val.writeEntries entries++rest),none⟩
      return ((k.node,v),p) : Except ParseError _) >>= _ = _
    rw [held]
    show (many _ entries.length ⟨Val.writeEntries entries++rest,none⟩ >>= _) = _
    rw [ih fun entry member => each entry (List.mem_cons_of_mem _ member)]
    rfl

end Parser

theorem uint_ne_nil (n : Nat) : uint n ≠ [] := by
  unfold uint
  split_ifs <;> simp

theorem Val.write_ne_nil (v : Val) : v.write ≠ [] := by
  cases v with
  | nil | bool _ => simp [Val.write]
  | double _ => simp [Val.write,Mp.double]
  | int i =>
    rw [Val.write,Mp.int]
    split_ifs
    · exact uint_ne_nil _
    all_goals simp
  | str s => rw [Val.write,Mp.str]; split_ifs <;> simp
  | bin s => rw [Val.write,Mp.bin]; split_ifs <;> simp
  | timestamp sec nsec => rw [Val.write,Mp.timestamp]; split_ifs <;> simp
  | array items => rw [Val.write,Mp.array]; split_ifs <;> simp
  | map entries => rw [Val.write,Mp.map]; split_ifs <;> simp

theorem Val.length_writes (items : List Val) : items.length ≤ (Val.writes items).length := by
  induction items with
  | nil => simp [Val.writes]
  | cons v items ih =>
    have some_ := List.length_pos_iff.mpr v.write_ne_nil
    rw [Val.writes,List.length_append,List.length_cons]
    omega

theorem Val.length_writeEntries (entries : List (Val × Val)) : 2*entries.length ≤ (Val.writeEntries entries).length := by
  induction entries with
  | nil => simp [Val.writeEntries]
  | cons entry entries ih =>
    obtain ⟨k,v⟩ := entry
    have key := List.length_pos_iff.mpr k.write_ne_nil
    have held := List.length_pos_iff.mpr v.write_ne_nil
    rw [Val.writeEntries,List.length_append,List.length_append,List.length_cons]
    omega

-- A value that fits parses back, whatever follows it.
theorem value_write {levels : Nat} {v : Val} (fits : v.Fits levels) (rest : Bytes) :
    Parser.value levels ⟨v.write++rest,none⟩ = .ok (v.node,⟨rest,none⟩) := by
  induction levels generalizing v rest with
  | zero => exact absurd fits (by simp [Val.Fits])
  | succ levels ih =>
    cases v with
    | nil =>
      show Parser.value (levels+1) ⟨UInt8.ofNat 0xc0 :: rest,none⟩ = _
      rw [Parser.value_head (by decide) rfl]
      rfl
    | bool b =>
      cases b
      · show Parser.value (levels+1) ⟨UInt8.ofNat 0xc2 :: rest,none⟩ = _
        rw [Parser.value_head (by decide) rfl]
        rfl
      · show Parser.value (levels+1) ⟨UInt8.ofNat 0xc3 :: rest,none⟩ = _
        rw [Parser.value_head (by decide) rfl]
        rfl
    | int i => exact Parser.value_int levels rest fits.1 fits.2
    | double bits =>
      have fits : bits < 2^64 := fits
      show Parser.value (levels+1) ⟨UInt8.ofNat 0xcb :: (bigEndian 8 bits++rest),none⟩ = _
      rw [Parser.value_head (by decide) rfl,Parser.body,Parser.be_append (by omega)]
      rfl
    | str s => exact Parser.value_str levels rest fits
    | bin s => exact Parser.value_bin levels rest fits
    | timestamp sec nsec => exact Parser.value_timestamp levels rest sec nsec
    | array items =>
      obtain ⟨few,each⟩ : items.length < 2^32 ∧ ∀ v ∈ items, v.Fits levels := fits
      have room := Val.length_writes items
      rw [Val.write,List.append_assoc,Parser.value_array levels _ few,Parser.arrayN,
        if_neg (by simp only [List.length_append]; omega),Parser.many_writes levels (fun v member => ih (each v member))]
      rfl
    | map entries =>
      obtain ⟨few,each⟩ : entries.length < 2^32 ∧ ∀ entry ∈ entries, entry.1.Fits levels ∧ entry.2.Fits levels := fits
      have room := Val.length_writeEntries entries
      rw [Val.write,List.append_assoc,Parser.value_map levels _ few,Parser.mapN,
        if_neg (by simp only [List.length_append]; omega)]
      dsimp only
      rw [Parser.many_entries levels (fun entry member => ⟨ih (each entry member).1,ih (each entry member).2⟩)]
      rfl

theorem parse_write {v : Val} (fits : v.Fits (maxParseDepth+1)) (rest : Bytes) : parse (v.write++rest) = .ok (v.node,rest) := by
  rw [parse,parseLimited,value_write fits]
  rfl

end Mp
end PhaseLock
