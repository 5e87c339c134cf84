import PhaseLock.Cursor

namespace PhaseLock
namespace Cursor
open Mp Skeleton JsTexts

theorem bigEndian_split (a b n : Nat) : bigEndian (a+b) n = bigEndian a (n/256^b)++bigEndian b n := by
  induction b generalizing n with
  | zero => simp [bigEndian]
  | succ b ih =>
    rw [← Nat.add_assoc,bigEndian_succ,ih,bigEndian_succ,List.append_assoc,Nat.div_div_eq_div_mul,Nat.pow_succ']

theorem bigEndian_mod (width n : Nat) : bigEndian width (n%256^width) = bigEndian width n := by
  induction width generalizing n with
  | zero => rfl
  | succ width ih =>
    have high : n%256^(width+1)/256 = n/256%256^width := by
      rw [Nat.pow_succ',Nat.mod_mul_right_div_self]
    have low : UInt8.ofNat (n%256^(width+1)) = UInt8.ofNat n := by
      rw [← UInt8.toNat_inj,UInt8.toNat_ofNat',UInt8.toNat_ofNat',Nat.pow_succ']
      exact Nat.mod_mul_right_mod n 256 _
    rw [bigEndian_succ,bigEndian_succ,high,low,ih]

theorem bigEndian_eight (n : Nat) : bigEndian 8 n = bigEndian 4 (n/2^32)++bigEndian 4 (n%2^32) := by
  have low := bigEndian_mod 4 n
  have split := bigEndian_split 4 4 n
  have size : (256 : Nat)^4 = 2^32 := by decide
  rw [size] at low split
  rw [split,low]

theorem arrayHeader_array (n : Nat) : Writer.arrayHeader n = Mp.array n := by
  unfold Writer.arrayHeader Writer.header Mp.array
  split_ifs <;> first | rfl | omega

theorem mapHeader_map (n : Nat) : Writer.mapHeader n = Mp.map n := by
  unfold Writer.mapHeader Writer.header Mp.map
  split_ifs <;> first | rfl | omega

theorem str_utf16 (text : Name) : Writer.str (utf16 text) = Mp.str (utf8 text) := by
  unfold Writer.str Mp.str
  dsimp only
  rw [utf8Count_utf16,utf8Encode_utf16]
  split_ifs <;> first | rfl | omega

theorem bin_bin (s : Bytes) : Writer.bin s = Mp.bin s := by
  unfold Writer.bin Mp.bin
  dsimp only
  split_ifs <;> first | rfl | omega

theorem setInt64_eight {v : Int} (low : -2^63 ≤ v) (high : v < 2^63) : Writer.setInt64 v = bigEndian 8 (v%2^64).toNat := by
  have top : (v/2^32%2^32).toNat = (v%2^64).toNat/2^32 := by omega
  have bottom : (v%2^32).toNat = (v%2^64).toNat%2^32 := by omega
  rw [Writer.setInt64,bigEndian_eight,top,bottom]

theorem int_int {i : Int} (low : -maxSafe ≤ i) (high : i ≤ maxSafe) : Writer.int i = Mp.int i := by
  unfold maxSafe at low high
  unfold Writer.int Mp.int uint
  by_cases positive : 0 ≤ i
  · rw [if_pos positive,if_pos positive]
    have wide := setInt64_eight (v:=i) (by omega) (by omega)
    have same : (i%2^64).toNat = i.toNat := by omega
    rw [same] at wide
    rw [wide]
    split_ifs <;> first | rfl | (exfalso; omega)
  · rw [if_neg positive,if_neg positive]
    have wide := setInt64_eight (v:=i) (by omega) (by omega)
    have b64 : (i%2^64).toNat = (i+2^64).toNat := by omega
    rw [wide,b64]
    by_cases small : -128 ≤ i
    · have b8 : (i%2^8).toNat = (i+256).toNat := by omega
      rw [b8]
      split_ifs <;> rfl
    · by_cases short : -32768 ≤ i
      · have b16 : (i%2^16).toNat = (i+2^16).toNat := by omega
        rw [b16]
        split_ifs <;> first | rfl | omega
      · by_cases word : -2147483648 ≤ i
        · have b32 : (i%2^32).toNat = (i+2^32).toNat := by omega
          rw [b32]
          split_ifs <;> first | rfl | omega
        · rw [if_neg (by omega),if_neg (by omega),if_neg (by omega),if_neg (by omega),if_neg (by omega),if_neg (by omega),
            if_neg (by omega),if_neg (by omega)]

theorem timestamp_timestamp {m : Int} (low : -dateMaxMs ≤ m) (high : m ≤ dateMaxMs) :
    Writer.timestamp (some m) = Mp.timestamp (m/1000) (m%1000*1000000).toNat := by
  unfold dateMaxMs at low high
  have rest : (m-m/1000*1000)*1000000 = m%1000*1000000 := by omega
  have none : m%1000*1000000/1000000000 = 0 := by omega
  have spec : Writer.encodeDateToTimeSpec m = (m/1000,m%1000*1000000) := by
    unfold Writer.encodeDateToTimeSpec
    dsimp only
    rw [rest,none,Int.add_zero,Int.zero_mul,Int.sub_zero]
  unfold Writer.timestamp Mp.timestamp
  dsimp only
  rw [spec]
  dsimp only
  unfold Writer.timestamp64MaxSec Writer.timestamp32MaxSec
  generalize nanos : m%1000*1000000 = nsec
  have nsecLow : 0 ≤ nsec := by omega
  have nsecHigh : nsec < 1000000000 := by omega
  by_cases inside : 0 ≤ m/1000 ∧ m/1000 ≤ 0x400000000-1
  · have near : ¬(m/1000 < 0 ∨ 2^34 ≤ m/1000) := by omega
    by_cases whole : nsec = 0 ∧ m/1000 ≤ 0x100000000-1
    · have short : ¬(0xffffffff < m/1000 ∨ 0 < nsec.toNat) := by omega
      rw [if_pos inside,if_pos whole,if_neg near,if_neg short]
    · have long : 0xffffffff < m/1000 ∨ 0 < nsec.toNat := by omega
      have wide := bigEndian_eight (nsec.toNat*2^34+(m/1000).toNat)
      have top : (nsec.toNat*2^34+(m/1000).toNat)/2^32 = (nsec*4+m/1000/2^32).toNat := by omega
      have bottom : (nsec.toNat*2^34+(m/1000).toNat)%2^32 = (m/1000%2^32).toNat := by omega
      rw [top,bottom] at wide
      rw [if_pos inside,if_neg whole,if_neg near,if_pos long,wide]
  · have far : m/1000 < 0 ∨ 2^34 ≤ m/1000 := by omega
    rw [if_neg inside,if_pos far,setInt64_eight (by omega) (by omega),List.append_assoc]

theorem length_vals (items : List (Value Name)) : (Value.vals items).length = items.length := by
  induction items with
  | nil => rfl
  | cons v rest ih => rw [Value.vals,List.length_cons,List.length_cons,ih]

theorem length_valEntries (entries : List (Value Name × Value Name)) : (Value.valEntries entries).length = entries.length := by
  induction entries with
  | nil => rfl
  | cons entry rest ih => rw [Value.valEntries,List.length_cons,List.length_cons,ih]

theorem length_mapTexts (f : Name → τ) (items : List (Value Name)) : (Value.mapTexts f items).length = items.length := by
  induction items with
  | nil => rfl
  | cons v rest ih => rw [Value.mapTexts,List.length_cons,List.length_cons,ih]

theorem length_mapEntries (f : Name → τ) (entries : List (Value Name × Value Name)) :
    (Value.mapEntries f entries).length = entries.length := by
  induction entries with
  | nil => rfl
  | cons entry rest ih => rw [Value.mapEntries,List.length_cons,List.length_cons,ih]

theorem writes_vals {items : List (Value Name)} (each : ∀ v ∈ items, (v.mapText utf16).write = v.val.write) :
    Value.writes (Value.mapTexts utf16 items) = Val.writes (Value.vals items) := by
  induction items with
  | nil => rfl
  | cons v rest ih =>
    rw [Value.mapTexts,Value.writes,Value.vals,Val.writes,each v List.mem_cons_self,
      ih fun v member => each v (List.mem_cons_of_mem _ member)]

theorem writes_valEntries {entries : List (Value Name × Value Name)}
    (each : ∀ entry ∈ entries, (entry.1.mapText utf16).write = entry.1.val.write ∧ (entry.2.mapText utf16).write = entry.2.val.write) :
    Value.writeEntries (Value.mapEntries utf16 entries) = Val.writeEntries (Value.valEntries entries) := by
  induction entries with
  | nil => rfl
  | cons entry rest ih =>
    obtain ⟨key,held⟩ := each entry List.mem_cons_self
    rw [Value.mapEntries,Value.writeEntries,Value.valEntries,Val.writeEntries,key,held,
      ih fun entry member => each entry (List.mem_cons_of_mem _ member)]

theorem write_val {levels : Nat} {v : Value Name} (admitted : v.Admitted levels) : (v.mapText utf16).write = v.val.write := by
  induction levels generalizing v with
  | zero => exact absurd admitted (by simp [Value.Admitted])
  | succ levels ih =>
    cases v with
    | nil | bool | float => rfl
    | int i => exact int_int admitted.1 admitted.2
    | str text => exact str_utf16 text
    | bin s => exact bin_bin s
    | date ms =>
      obtain ⟨m,rfl,low,high⟩ := admitted
      exact timestamp_timestamp low high
    | array items =>
      rw [Value.mapText,Value.write,Value.val,Val.write,length_mapTexts,length_vals,arrayHeader_array,
        writes_vals fun v member => ih (admitted.2 v member)]
    | map entries =>
      rw [Value.mapText,Value.write,Value.val,Val.write,length_mapEntries,length_valEntries,mapHeader_map,
        writes_valEntries fun entry member => ⟨ih (admitted.2 entry member).1,ih (admitted.2 entry member).2⟩]

theorem mem_vals {w : Val} {items : List (Value Name)} (member : w ∈ Value.vals items) : ∃ v ∈ items, w = v.val := by
  induction items with
  | nil => cases member
  | cons v rest ih =>
    rcases List.mem_cons.mp member with rfl | later
    · exact ⟨v,List.mem_cons_self,rfl⟩
    · obtain ⟨u,held,is⟩ := ih later
      exact ⟨u,List.mem_cons_of_mem _ held,is⟩

theorem mem_valEntries {w : Val × Val} {entries : List (Value Name × Value Name)} (member : w ∈ Value.valEntries entries) :
    ∃ entry ∈ entries, w = (entry.1.val,entry.2.val) := by
  induction entries with
  | nil => cases member
  | cons entry rest ih =>
    rcases List.mem_cons.mp member with rfl | later
    · exact ⟨entry,List.mem_cons_self,rfl⟩
    · obtain ⟨u,held,is⟩ := ih later
      exact ⟨u,List.mem_cons_of_mem _ held,is⟩

theorem val_fits {levels : Nat} {v : Value Name} (admitted : v.Admitted levels) : v.val.Fits levels := by
  induction levels generalizing v with
  | zero => exact absurd admitted (by simp [Value.Admitted])
  | succ levels ih =>
    cases v with
    | nil | bool | date => trivial
    | int i =>
      have low := admitted.1
      have high := admitted.2
      unfold maxSafe at low high
      exact ⟨by omega,by omega⟩
    | float bits => exact admitted
    | str text => exact admitted
    | bin s => exact admitted
    | array items =>
      refine ⟨by rw [length_vals]; exact admitted.1,fun w member => ?_⟩
      obtain ⟨v,held,rfl⟩ := mem_vals member
      exact ih (admitted.2 v held)
    | map entries =>
      refine ⟨by rw [length_valEntries]; exact admitted.1,fun w member => ?_⟩
      obtain ⟨entry,held,rfl⟩ := mem_valEntries member
      exact ⟨ih (admitted.2 entry held).1,ih (admitted.2 entry held).2⟩

theorem number_bigEndian {width n : Nat} (small : n < 256^width) : number (bigEndian width n) = n := foldl_bigEndian small

-- A Date's extension says its milliseconds.
theorem dateOf_four {n : Nat} (small : n < 2^32) : dateOf (bigEndian 4 n) = some ((n : Int)*1000) := by
  unfold dateOf
  rw [length_bigEndian,number_bigEndian (by omega)]
  show (if 999999999 < 0 then none else some ((n : Int)*1000+(0/1000000 : Nat))) = _
  rw [if_neg (by omega)]
  simp

theorem dateOf_eight {n : Nat} (small : n < 2^64) (nanos : n/2^34 ≤ 999999999) :
    dateOf (bigEndian 8 n) = some (((n%2^34 : Nat) : Int)*1000+(n/2^34/1000000 : Nat)) := by
  unfold dateOf
  rw [length_bigEndian,number_bigEndian (by omega)]
  show (if 999999999 < n/2^34 then none else some _) = _
  rw [if_neg (by omega)]

theorem dateOf_twelve {nsec sec : Nat} (nanos : nsec ≤ 999999999) (small : sec < 2^64) :
    dateOf (bigEndian 4 nsec++bigEndian 8 sec) = some (Parser.signed 8 sec*1000+(nsec/1000000 : Nat)) := by
  have size : (bigEndian 4 nsec++bigEndian 8 sec).length = 12 := by rw [List.length_append,length_bigEndian,length_bigEndian]
  have front : (bigEndian 4 nsec++bigEndian 8 sec).take 4 = bigEndian 4 nsec := List.take_left' (length_bigEndian 4 nsec)
  have back : (bigEndian 4 nsec++bigEndian 8 sec).drop 4 = bigEndian 8 sec := List.drop_left' (length_bigEndian 4 nsec)
  unfold dateOf
  rw [size,front,back,number_bigEndian (by omega),number_bigEndian (by omega)]
  show (if 999999999 < nsec then none else some _) = _
  rw [if_neg (by omega)]

theorem signed_eight {i : Int} (low : -2^63 ≤ i) (high : i < 2^63) : Parser.signed 8 (i%2^64).toNat = i := by
  unfold Parser.signed
  split_ifs <;> omega

theorem dateOf_stamp {m : Int} (low : -dateMaxMs ≤ m) (high : m ≤ dateMaxMs) :
    dateOf (stamp (m/1000) (m%1000*1000000).toNat) = some m := by
  unfold dateMaxMs at low high
  unfold stamp
  split_ifs with far near
  · rw [dateOf_twelve (by omega) (by omega),signed_eight (by omega) (by omega)]
    congr 1
    omega
  · rw [dateOf_eight (by omega) (by omega)]
    congr 1
    omega
  · rw [dateOf_four (by omega)]
    congr 1
    omega

theorem nodeValues_vals {items : List (Value Name)} (each : ∀ v ∈ items, nodeValue v.val.node = some v) :
    nodeValues (Val.nodes (Value.vals items)) = some items := by
  induction items with
  | nil => rfl
  | cons v rest ih =>
    rw [Value.vals,Val.nodes,nodeValues,each v List.mem_cons_self,ih fun v member => each v (List.mem_cons_of_mem _ member)]
    rfl

theorem nodeEntries_vals {entries : List (Value Name × Value Name)}
    (each : ∀ entry ∈ entries, nodeValue entry.1.val.node = some entry.1 ∧ nodeValue entry.2.val.node = some entry.2) :
    nodeEntries (Val.nodeEntries (Value.valEntries entries)) = some entries := by
  induction entries with
  | nil => rfl
  | cons entry rest ih =>
    obtain ⟨key,held⟩ := each entry List.mem_cons_self
    rw [Value.valEntries,Val.nodeEntries,nodeEntries,key,held,ih fun entry member => each entry (List.mem_cons_of_mem _ member)]
    rfl

theorem nodeValue_val {levels : Nat} {v : Value Name} (admitted : v.Admitted levels) : nodeValue v.val.node = some v := by
  induction levels generalizing v with
  | zero => exact absurd admitted (by simp [Value.Admitted])
  | succ levels ih =>
    cases v with
    | nil | bool | float | bin => rfl
    | int i =>
      have low := admitted.1
      have high := admitted.2
      unfold maxSafe at low high
      rw [Value.val,Val.node]
      split_ifs with positive
      · have back : ((i.toNat : Nat) : Int) = i := by omega
        rw [nodeValue,if_pos (by omega),back]
      · rw [nodeValue]
    | str text =>
      rw [Value.val,Val.node,nodeValue,fromUtf8_utf8]
      rfl
    | date ms =>
      obtain ⟨m,rfl,low,high⟩ := admitted
      rw [Value.val,Val.node,nodeValue,if_pos rfl,Option.getD_some,dateOf_stamp low high,Option.bind_some,Reader.newDate,
        if_pos ⟨low,high⟩]
      rfl
    | array items =>
      rw [Value.val,Val.node,nodeValue,nodeValues_vals fun v member => ih (admitted.2 v member)]
      rfl
    | map entries =>
      rw [Value.val,Val.node,nodeValue,nodeEntries_vals fun entry member => ⟨ih (admitted.2 entry member).1,ih (admitted.2 entry member).2⟩]
      rfl

-- What the client writes, the server parses as exactly that value.
theorem parse_written {v : Value Name} (admitted : v.Admitted (maxParseDepth+1)) (rest : Bytes) :
    ∃ node, parse ((v.mapText utf16).write++rest) = .ok (node,rest) ∧ nodeValue node = some v :=
  ⟨v.val.node,by rw [write_val admitted,parse_write (val_fits admitted)],nodeValue_val admitted⟩

namespace Reader

section Headers
variable (rest : Bytes) (k : Nat)

theorem first_ofNat {c : Nat} (small : c < 256) (data : Bytes) (left : Nat) :
    (⟨UInt8.ofNat c :: data,left+1⟩ : Reader).first = .ok c := by
  unfold first need byteAt
  rw [if_neg (show ¬left+1 < 1 by omega)]
  show Except.ok (UInt8.ofNat c).toNat = _
  rw [byte_toNat small]

theorem length_cons {width n : Nat} (small : n < 256^width) (b : UInt8) :
    (⟨b :: (bigEndian width n++rest),k+width+1⟩ : Reader).length width = .ok (n,⟨rest,k⟩) := by
  have size := length_bigEndian width n
  unfold length need uintAt advance
  have left : k+width+1-(width+1) = k := by omega
  rw [if_neg (show ¬k+width+1 < 1+width by omega),Nat.add_comm 1 width]
  show Except.ok (number ((bigEndian width n++rest).take width),(⟨(bigEndian width n++rest).drop width,k+width+1-(width+1)⟩ : Reader)) = _
  rw [List.take_left' size,List.drop_left' size,number_bigEndian small,left]

theorem arrayHeader_head {c : Nat} (small : c < 256) (data : Bytes) (left : Nat) :
    (⟨UInt8.ofNat c :: data,left+1⟩ : Reader).arrayHeader =
      if 0x90 ≤ c ∧ c ≤ 0x9f then .ok (c%16,⟨data,left⟩)
      else if c = 0xdc then (⟨UInt8.ofNat c :: data,left+1⟩ : Reader).length 2
      else if c = 0xdd then (⟨UInt8.ofNat c :: data,left+1⟩ : Reader).length 4
      else .error (.expected .array c) := by
  rw [arrayHeader,first_ofNat small]
  rfl

theorem mapHeader_head {c : Nat} (small : c < 256) (data : Bytes) (left : Nat) :
    (⟨UInt8.ofNat c :: data,left+1⟩ : Reader).mapHeader =
      if 0x80 ≤ c ∧ c ≤ 0x8f then .ok (c%16,⟨data,left⟩)
      else if c = 0xde then (⟨UInt8.ofNat c :: data,left+1⟩ : Reader).length 2
      else if c = 0xdf then (⟨UInt8.ofNat c :: data,left+1⟩ : Reader).length 4
      else .error (.expected .map c) := by
  rw [mapHeader,first_ofNat small]
  rfl

theorem arrayHeader_array {n : Nat} (fits : n < 2^32) :
    (⟨Mp.array n++rest,k+(Mp.array n).length⟩ : Reader).arrayHeader = .ok (n,⟨rest,k⟩) := by
  unfold Mp.array
  split_ifs with b0 b2
  · show (⟨UInt8.ofNat (0x90+n) :: rest,k+1⟩ : Reader).arrayHeader = _
    have back : (0x90+n)%16 = n := by omega
    rw [arrayHeader_head (by omega),if_pos (by omega),back]
  · show (⟨UInt8.ofNat 0xdc :: (bigEndian 2 n++rest),k+(bigEndian 2 n).length+1⟩ : Reader).arrayHeader = _
    rw [arrayHeader_head (by decide),if_neg (by decide),if_pos rfl,length_bigEndian,length_cons rest k (by omega)]
  · show (⟨UInt8.ofNat 0xdd :: (bigEndian 4 n++rest),k+(bigEndian 4 n).length+1⟩ : Reader).arrayHeader = _
    rw [arrayHeader_head (by decide),if_neg (by decide),if_neg (by decide),if_pos rfl,length_bigEndian,length_cons rest k (by omega)]

theorem mapHeader_map {n : Nat} (fits : n < 2^32) :
    (⟨Mp.map n++rest,k+(Mp.map n).length⟩ : Reader).mapHeader = .ok (n,⟨rest,k⟩) := by
  unfold Mp.map
  split_ifs with b0 b2
  · show (⟨UInt8.ofNat (0x80+n) :: rest,k+1⟩ : Reader).mapHeader = _
    have back : (0x80+n)%16 = n := by omega
    rw [mapHeader_head (by omega),if_pos (by omega),back]
  · show (⟨UInt8.ofNat 0xde :: (bigEndian 2 n++rest),k+(bigEndian 2 n).length+1⟩ : Reader).mapHeader = _
    rw [mapHeader_head (by decide),if_neg (by decide),if_pos rfl,length_bigEndian,length_cons rest k (by omega)]
  · show (⟨UInt8.ofNat 0xdf :: (bigEndian 4 n++rest),k+(bigEndian 4 n).length+1⟩ : Reader).mapHeader = _
    rw [mapHeader_head (by decide),if_neg (by decide),if_neg (by decide),if_pos rfl,length_bigEndian,length_cons rest k (by omega)]

theorem tryStrHeader_head {c : Nat} (small : c < 256) (data : Bytes) (left : Nat) :
    (⟨UInt8.ofNat c :: data,left+1⟩ : Reader).tryStrHeader =
      if 0xa0 ≤ c ∧ c ≤ 0xbf then .ok (some (c%32,⟨data,left⟩))
      else if c = 0xd9 then (⟨UInt8.ofNat c :: data,left+1⟩ : Reader).length 1 >>= fun read => .ok (some read)
      else if c = 0xda then (⟨UInt8.ofNat c :: data,left+1⟩ : Reader).length 2 >>= fun read => .ok (some read)
      else if c = 0xdb then (⟨UInt8.ofNat c :: data,left+1⟩ : Reader).length 4 >>= fun read => .ok (some read)
      else .ok none := by
  rw [tryStrHeader,first_ofNat small]
  rfl

-- A string's header, and then its bytes.
theorem tryStrHeader_str {s : Bytes} (fits : s.length < 2^32) :
    (⟨Mp.str s++rest,k+(Mp.str s).length⟩ : Reader).tryStrHeader = .ok (some (s.length,⟨s++rest,k+s.length⟩)) := by
  unfold Mp.str
  dsimp only
  rw [List.append_assoc,List.length_append]
  split_ifs with b0 b1 b2
  · show (⟨UInt8.ofNat (0xa0+s.length) :: (s++rest),k+(1+s.length)⟩ : Reader).tryStrHeader = _
    have back : (0xa0+s.length)%32 = s.length := by omega
    have place : k+(1+s.length) = k+s.length+1 := by omega
    rw [place,tryStrHeader_head (by omega),if_pos (by omega),back]
  · show (⟨UInt8.ofNat 0xd9 :: (UInt8.ofNat s.length :: (s++rest)),k+(2+s.length)⟩ : Reader).tryStrHeader = _
    have one : UInt8.ofNat s.length :: (s++rest) = bigEndian 1 s.length++(s++rest) := by simp [bigEndian]
    have place : k+(2+s.length) = k+s.length+1+1 := by omega
    rw [place,one,tryStrHeader_head (by decide),if_neg (by decide),if_pos rfl,length_cons _ (k+s.length) (by omega)]
    rfl
  · show (⟨UInt8.ofNat 0xda :: (bigEndian 2 s.length++(s++rest)),k+((bigEndian 2 s.length).length+1+s.length)⟩ : Reader).tryStrHeader = _
    have place : k+(2+1+s.length) = k+s.length+2+1 := by omega
    rw [length_bigEndian,place,tryStrHeader_head (by decide),if_neg (by decide),if_neg (by decide),if_pos rfl,
      length_cons _ (k+s.length) (by omega)]
    rfl
  · show (⟨UInt8.ofNat 0xdb :: (bigEndian 4 s.length++(s++rest)),k+((bigEndian 4 s.length).length+1+s.length)⟩ : Reader).tryStrHeader = _
    have place : k+(4+1+s.length) = k+s.length+4+1 := by omega
    rw [length_bigEndian,place,tryStrHeader_head (by decide),if_neg (by decide),if_neg (by decide),if_neg (by decide),if_pos rfl,
      length_cons _ (k+s.length) (by omega)]
    rfl

theorem tryStr_text {text : Name} (fits : (utf8 text).length < 2^32) :
    (⟨Mp.str (utf8 text)++rest,k+(Mp.str (utf8 text)).length⟩ : Reader).tryStr = .ok (some (utf16 (kept text),⟨rest,k⟩)) := by
  have left : k+(utf8 text).length-(utf8 text).length = k := by omega
  rw [tryStr,tryStrHeader_str rest k fits]
  show (need ⟨utf8 text++rest,k+(utf8 text).length⟩ (utf8 text).length >>= fun _ =>
    Except.ok (some (utf8Decode (utf8 text++rest) (utf8 text).length,
      (⟨(utf8 text++rest).drop (utf8 text).length,k+(utf8 text).length-(utf8 text).length⟩ : Reader)))) = _
  rw [need,if_neg (show ¬k+(utf8 text).length < (utf8 text).length by omega),utf8Decode_utf8,List.drop_left,left]
  rfl

theorem str_text {text : Name} (fits : (utf8 text).length < 2^32) :
    (⟨Mp.str (utf8 text)++rest,k+(Mp.str (utf8 text)).length⟩ : Reader).str = .ok (utf16 (kept text),⟨rest,k⟩) := by
  rw [str,tryStr_text rest k fits]
  rfl

theorem binHeader_head {c : Nat} (small : c < 256) (data : Bytes) (left : Nat) :
    (⟨UInt8.ofNat c :: data,left+1⟩ : Reader).binHeader =
      if c = 0xc4 then (⟨UInt8.ofNat c :: data,left+1⟩ : Reader).length 1
      else if c = 0xc5 then (⟨UInt8.ofNat c :: data,left+1⟩ : Reader).length 2
      else if c = 0xc6 then (⟨UInt8.ofNat c :: data,left+1⟩ : Reader).length 4
      else .error (.expected .bin c) := by
  rw [binHeader,first_ofNat small]
  rfl

theorem binHeader_bin {s : Bytes} (fits : s.length < 2^32) :
    (⟨Mp.bin s++rest,k+(Mp.bin s).length⟩ : Reader).binHeader = .ok (s.length,⟨s++rest,k+s.length⟩) := by
  unfold Mp.bin
  dsimp only
  rw [List.append_assoc,List.length_append]
  split_ifs with b1 b2
  · show (⟨UInt8.ofNat 0xc4 :: (UInt8.ofNat s.length :: (s++rest)),k+(2+s.length)⟩ : Reader).binHeader = _
    have one : UInt8.ofNat s.length :: (s++rest) = bigEndian 1 s.length++(s++rest) := by simp [bigEndian]
    have place : k+(2+s.length) = k+s.length+1+1 := by omega
    rw [place,one,binHeader_head (by decide),if_pos rfl,length_cons _ (k+s.length) (by omega)]
  · show (⟨UInt8.ofNat 0xc5 :: (bigEndian 2 s.length++(s++rest)),k+((bigEndian 2 s.length).length+1+s.length)⟩ : Reader).binHeader = _
    have place : k+(2+1+s.length) = k+s.length+2+1 := by omega
    rw [length_bigEndian,place,binHeader_head (by decide),if_neg (by decide),if_pos rfl,length_cons _ (k+s.length) (by omega)]
  · show (⟨UInt8.ofNat 0xc6 :: (bigEndian 4 s.length++(s++rest)),k+((bigEndian 4 s.length).length+1+s.length)⟩ : Reader).binHeader = _
    have place : k+(4+1+s.length) = k+s.length+4+1 := by omega
    rw [length_bigEndian,place,binHeader_head (by decide),if_neg (by decide),if_neg (by decide),if_pos rfl,
      length_cons _ (k+s.length) (by omega)]

theorem bin_bin {s : Bytes} (fits : s.length < 2^32) :
    (⟨Mp.bin s++rest,k+(Mp.bin s).length⟩ : Reader).bin = .ok (s,⟨rest,k⟩) := by
  have left : k+s.length-s.length = k := by omega
  rw [bin,binHeader_bin rest k fits]
  show (need ⟨s++rest,k+s.length⟩ s.length >>= fun _ =>
    Except.ok ((s++rest).take s.length,(⟨(s++rest).drop s.length,k+s.length-s.length⟩ : Reader))) = _
  rw [need,if_neg (show ¬k+s.length < s.length by omega),List.take_left,List.drop_left,left]
  rfl

theorem uintAt_skip {width n : Nat} (small : n < 256^width) (front : Bytes) (left : Nat) :
    (⟨front++(bigEndian width n++rest),left⟩ : Reader).uintAt front.length width = n := by
  show number (((front++(bigEndian width n++rest)).drop front.length).take width) = n
  rw [List.drop_left,List.take_left' (length_bigEndian width n),number_bigEndian small]

theorem advance_skip (front : Bytes) : (⟨front++rest,k+front.length⟩ : Reader).advance front.length = ⟨rest,k⟩ := by
  show (⟨(front++rest).drop front.length,k+front.length-front.length⟩ : Reader) = _
  rw [List.drop_left,Nat.add_sub_cancel]

theorem unsigned_cons {width n : Nat} (small : n < 256^width) (b : UInt8) :
    (⟨b :: (bigEndian width n++rest),k+width+1⟩ : Reader).unsigned width = .ok ((n : Int),⟨rest,k⟩) := by
  have value := uintAt_skip rest small [b] (k+width+1)
  have past := advance_skip rest k (b :: bigEndian width n)
  rw [List.length_cons,length_bigEndian] at past
  rw [unsigned,need,if_neg (show ¬k+width+1 < 1+width by omega),Nat.add_comm 1 width]
  show Except.ok ((((⟨[b]++(bigEndian width n++rest),k+width+1⟩ : Reader).uintAt [b].length width : Nat) : Int),
    (⟨b :: bigEndian width n++rest,k+(width+1)⟩ : Reader).advance (width+1)) = _
  rw [value,past]

theorem signed_cons {width n : Nat} (small : n < 256^width) (b : UInt8) :
    (⟨b :: (bigEndian width n++rest),k+width+1⟩ : Reader).signed width = .ok (Parser.signed width n,⟨rest,k⟩) := by
  have value := uintAt_skip rest small [b] (k+width+1)
  have past := advance_skip rest k (b :: bigEndian width n)
  rw [List.length_cons,length_bigEndian] at past
  rw [signed,need,if_neg (show ¬k+width+1 < 1+width by omega),Nat.add_comm 1 width]
  show Except.ok (Parser.signed width ((⟨[b]++(bigEndian width n++rest),k+width+1⟩ : Reader).uintAt [b].length width),
    (⟨b :: bigEndian width n++rest,k+(width+1)⟩ : Reader).advance (width+1)) = _
  rw [value,past]

theorem nearest_safe {i : Int} (low : -maxSafe ≤ i) (high : i ≤ maxSafe) : nearest i = i := by
  unfold maxSafe at low high
  have bits : Nat.log2 i.natAbs-52 = 0 := by
    by_cases zero : i.natAbs = 0
    · rw [zero]
      rfl
    · have less : Nat.log2 i.natAbs < 53 := (Nat.log2_lt zero).mpr (by omega)
      omega
  unfold nearest
  dsimp only
  rw [bits,Nat.pow_zero,Nat.mod_one,if_neg (by omega),Nat.div_one,Nat.mul_one]
  exact Int.sign_mul_natAbs i

theorem int_head {c : Nat} (small : c < 256) (data : Bytes) (left : Nat) :
    (⟨UInt8.ofNat c :: data,left+1⟩ : Reader).int =
      if c ≤ 0x7f then .ok ((c : Int),⟨data,left⟩)
      else if 0xe0 ≤ c then .ok ((c : Int)-256,⟨data,left⟩)
      else (⟨UInt8.ofNat c :: data,left+1⟩ : Reader).wideInt c := by
  rw [int,first_ofNat small]
  rfl

theorem int_uint {n : Nat} (safe : (n : Int) ≤ maxSafe) :
    (⟨Mp.uint n++rest,k+(Mp.uint n).length⟩ : Reader).int = .ok ((n : Int),⟨rest,k⟩) := by
  have same := nearest_safe (i:=(n : Int)) (by unfold maxSafe; omega) safe
  unfold maxSafe at safe
  unfold Mp.uint
  split_ifs with b0 b1 b2 b4
  · show (⟨UInt8.ofNat n :: rest,k+1⟩ : Reader).int = _
    rw [int_head (by omega),if_pos b0]
  · show (⟨UInt8.ofNat 0xcc :: (UInt8.ofNat n :: rest),k+1+1⟩ : Reader).int = _
    have one : UInt8.ofNat n :: rest = bigEndian 1 n++rest := by simp [bigEndian]
    rw [int_head (by decide),if_neg (by decide),if_neg (by decide),one]
    exact unsigned_cons rest k (by omega) _
  · show (⟨UInt8.ofNat 0xcd :: (bigEndian 2 n++rest),k+(bigEndian 2 n).length+1⟩ : Reader).int = _
    rw [length_bigEndian,int_head (by decide),if_neg (by decide),if_neg (by decide)]
    exact unsigned_cons rest k (by omega) _
  · show (⟨UInt8.ofNat 0xce :: (bigEndian 4 n++rest),k+(bigEndian 4 n).length+1⟩ : Reader).int = _
    rw [length_bigEndian,int_head (by decide),if_neg (by decide),if_neg (by decide)]
    exact unsigned_cons rest k (by omega) _
  · show (⟨UInt8.ofNat 0xcf :: (bigEndian 8 n++rest),k+(bigEndian 8 n).length+1⟩ : Reader).int = _
    rw [length_bigEndian,int_head (by decide),if_neg (by decide),if_neg (by decide)]
    rw [wideInt,unsigned_cons rest k (by omega),Except.map,same]

theorem int_safe {i : Int} (low : -maxSafe ≤ i) (high : i ≤ maxSafe) :
    (⟨Mp.int i++rest,k+(Mp.int i).length⟩ : Reader).int = .ok (i,⟨rest,k⟩) := by
  have same := nearest_safe low high
  by_cases positive : 0 ≤ i
  · have is : Mp.int i = Mp.uint i.toNat := by rw [Mp.int,if_pos positive]
    have back : ((i.toNat : Nat) : Int) = i := by omega
    rw [is,int_uint rest k (by omega),back]
  · unfold maxSafe at low high
    unfold Mp.int
    rw [if_neg positive]
    split_ifs with b0 b1 b2 b4
    · have back : (((i+256).toNat : Nat) : Int)-256 = i := by omega
      show (⟨UInt8.ofNat (i+256).toNat :: rest,k+1⟩ : Reader).int = _
      rw [int_head (by omega),if_neg (by omega),if_pos (by omega),back]
    · have back : Parser.signed 1 (i+256).toNat = i := by unfold Parser.signed; rw [if_neg (by omega)]; omega
      have small : (i+256).toNat < 256^1 := by omega
      generalize (i+256).toNat = n at back small ⊢
      have one : UInt8.ofNat n :: rest = bigEndian 1 n++rest := by simp [bigEndian]
      show (⟨UInt8.ofNat 0xd0 :: (UInt8.ofNat n :: rest),k+1+1⟩ : Reader).int = _
      rw [int_head (by decide),if_neg (by decide),if_neg (by decide),one,wideInt,signed_cons rest k small,back]
    · have back : Parser.signed 2 (i+2^16).toNat = i := by unfold Parser.signed; rw [if_neg (by omega)]; omega
      have small : (i+2^16).toNat < 256^2 := by omega
      generalize (i+2^16).toNat = n at back small ⊢
      show (⟨UInt8.ofNat 0xd1 :: (bigEndian 2 n++rest),k+(bigEndian 2 n).length+1⟩ : Reader).int = _
      rw [length_bigEndian,int_head (by decide),if_neg (by decide),if_neg (by decide),wideInt,signed_cons rest k small,back]
    · have back : Parser.signed 4 (i+2^32).toNat = i := by unfold Parser.signed; rw [if_neg (by omega)]; omega
      have small : (i+2^32).toNat < 256^4 := by omega
      generalize (i+2^32).toNat = n at back small ⊢
      show (⟨UInt8.ofNat 0xd2 :: (bigEndian 4 n++rest),k+(bigEndian 4 n).length+1⟩ : Reader).int = _
      rw [length_bigEndian,int_head (by decide),if_neg (by decide),if_neg (by decide),wideInt,signed_cons rest k small,back]
    · have back : Parser.signed 8 (i+2^64).toNat = i := by unfold Parser.signed; rw [if_neg (by omega)]; omega
      have small : (i+2^64).toNat < 256^8 := by omega
      generalize (i+2^64).toNat = n at back small ⊢
      show (⟨UInt8.ofNat 0xd3 :: (bigEndian 8 n++rest),k+(bigEndian 8 n).length+1⟩ : Reader).int = _
      rw [length_bigEndian,int_head (by decide),if_neg (by decide),if_neg (by decide),wideInt,signed_cons rest k small,back,
        Except.map,same]

theorem float_double {bits : Nat} (fits : bits < 2^64) :
    (⟨Mp.double bits++rest,k+(Mp.double bits).length⟩ : Reader).float = .ok (bits,⟨rest,k⟩) := by
  have small : bits < 256^8 := by omega
  have value := uintAt_skip rest small [UInt8.ofNat 0xcb] (k+8+1)
  have past := advance_skip rest k (UInt8.ofNat 0xcb :: bigEndian 8 bits)
  rw [List.length_cons,length_bigEndian] at past
  show (⟨UInt8.ofNat 0xcb :: (bigEndian 8 bits++rest),k+(bigEndian 8 bits).length+1⟩ : Reader).float = _
  rw [length_bigEndian,float,first_ofNat (by decide)]
  show (need ⟨UInt8.ofNat 0xcb :: (bigEndian 8 bits++rest),k+8+1⟩ 9 >>= fun _ =>
    Except.ok ((⟨[UInt8.ofNat 0xcb]++(bigEndian 8 bits++rest),k+8+1⟩ : Reader).uintAt [UInt8.ofNat 0xcb].length 8,
      (⟨UInt8.ofNat 0xcb :: bigEndian 8 bits++rest,k+(8+1)⟩ : Reader).advance (8+1))) = _
  rw [need,if_neg (show ¬k+8+1 < 9 by omega),value,past]
  rfl

theorem bool_write (b : Bool) : (⟨(if b then 0xc3 else 0xc2) :: rest,k+1⟩ : Reader).bool = .ok (b,⟨rest,k⟩) := by
  cases b
  · show (⟨UInt8.ofNat 0xc2 :: rest,k+1⟩ : Reader).bool = _
    rw [bool,first_ofNat (by decide)]
    rfl
  · show (⟨UInt8.ofNat 0xc3 :: rest,k+1⟩ : Reader).bool = _
    rw [bool,first_ofNat (by decide)]
    rfl

theorem nil_write : (⟨0xc0 :: rest,k+1⟩ : Reader).nil = .ok ⟨rest,k⟩ := by
  show (⟨UInt8.ofNat 0xc0 :: rest,k+1⟩ : Reader).nil = _
  rw [nil,first_ofNat (by decide)]
  rfl

-- An extension of type -1, its header and its payload inside the end.
theorem timestamp_read {r : Reader} {h size nsec : Nat} {sec : Int} (header : r.timestampHeader = .ok (h,size))
    (room : h+1+size ≤ r.left) (type : r.byteAt h = 255) (spec : r.timeSpec (h+1) size = .ok (sec,nsec))
    (nanos : nsec ≤ 999999999) : r.timestamp = .ok (newDate (sec*1000+(nsec/1000000 : Nat)),r.advance (h+1+size)) := by
  rw [timestamp,header]
  show (r.need (h+1+size) >>= fun _ => if Parser.signed 1 (r.byteAt h) ≠ -1 then Except.error (Refusal.extension (Parser.signed 1 (r.byteAt h)))
    else r.timeSpec (h+1) size >>= fun spec => if 999999999 < spec.2 then .error .timestamp
      else .ok (newDate (spec.1*1000+(spec.2/1000000 : Nat)),r.advance (h+1+size))) = _
  rw [need,if_neg (by omega)]
  show (if Parser.signed 1 (r.byteAt h) ≠ -1 then Except.error (Refusal.extension (Parser.signed 1 (r.byteAt h)))
    else r.timeSpec (h+1) size >>= fun spec => if 999999999 < spec.2 then .error .timestamp
      else .ok (newDate (spec.1*1000+(spec.2/1000000 : Nat)),r.advance (h+1+size))) = _
  rw [type,if_neg (by decide),spec]
  show (if 999999999 < nsec then Except.error Refusal.timestamp else _) = _
  rw [if_neg (by omega)]

theorem newDate_some {m : Int} (low : -dateMaxMs ≤ m) (high : m ≤ dateMaxMs) : newDate m = some m := by
  rw [newDate,if_pos ⟨low,high⟩]

theorem timestamp_four {n : Nat} (small : n < 2^32) :
    (⟨[0xd6,0xff]++(bigEndian 4 n++rest),k+6⟩ : Reader).timestamp = .ok (newDate (n*1000),⟨rest,k⟩) := by
  have secAt := uintAt_skip rest (show n < 256^4 by omega) [0xd6,0xff] (k+6)
  have past := advance_skip rest k ([0xd6,0xff]++bigEndian 4 n)
  have size : ([0xd6,0xff]++bigEndian 4 n : Bytes).length = 6 := by simp [length_bigEndian]
  rw [size,List.append_assoc] at past
  have header : (⟨[0xd6,0xff]++(bigEndian 4 n++rest),k+6⟩ : Reader).timestampHeader = .ok (1,4) := by
    show (⟨UInt8.ofNat 0xd6 :: (0xff :: (bigEndian 4 n++rest)),k+5+1⟩ : Reader).timestampHeader = _
    rw [timestampHeader,first_ofNat (by decide)]
    rfl
  have spec : (⟨[0xd6,0xff]++(bigEndian 4 n++rest),k+6⟩ : Reader).timeSpec (1+1) 4 = .ok ((n : Int),0) := by
    rw [timeSpec,if_pos rfl]
    exact congrArg (fun n : Nat => Except.ok ((n : Int),0)) secAt
  have whole : (n : Int)*1000+((0/1000000 : Nat) : Int) = n*1000 := by omega
  rw [timestamp_read header (show 1+1+4 ≤ k+6 by omega) rfl spec (by omega),whole]
  exact congrArg (fun r => Except.ok (newDate _,r)) past

theorem timestamp_eight {n : Nat} (small : n < 2^64) (nanos : n/2^34 ≤ 999999999) :
    (⟨[0xd7,0xff]++(bigEndian 8 n++rest),k+10⟩ : Reader).timestamp =
      .ok (newDate ((n%2^34 : Nat)*1000+(n/2^34/1000000 : Nat)),⟨rest,k⟩) := by
  have highAt := uintAt_skip (bigEndian 4 (n%2^32)++rest) (show n/2^32 < 256^4 by omega) [0xd7,0xff] (k+10)
  have lowAt := uintAt_skip rest (show n%2^32 < 256^4 by omega) ([0xd7,0xff]++bigEndian 4 (n/2^32)) (k+10)
  have past := advance_skip rest k ([0xd7,0xff]++(bigEndian 4 (n/2^32)++bigEndian 4 (n%2^32)))
  have size : ([0xd7,0xff]++(bigEndian 4 (n/2^32)++bigEndian 4 (n%2^32)) : Bytes).length = 10 := by simp [length_bigEndian]
  have half : ([0xd7,0xff]++bigEndian 4 (n/2^32) : Bytes).length = 6 := by simp [length_bigEndian]
  rw [size,List.append_assoc,List.append_assoc] at past
  rw [half,List.append_assoc] at lowAt
  rw [bigEndian_eight,List.append_assoc]
  generalize text : bigEndian 4 (n/2^32)++(bigEndian 4 (n%2^32)++rest) = data at *
  have header : (⟨[0xd7,0xff]++data,k+10⟩ : Reader).timestampHeader = .ok (1,8) := by
    show (⟨UInt8.ofNat 0xd7 :: (0xff :: data),k+9+1⟩ : Reader).timestampHeader = _
    rw [timestampHeader,first_ofNat (by decide)]
    rfl
  have spec : (⟨[0xd7,0xff]++data,k+10⟩ : Reader).timeSpec (1+1) 8 = .ok (((n%2^34 : Nat) : Int),n/2^34) := by
    have first : (⟨[0xd7,0xff]++data,k+10⟩ : Reader).uintAt (1+1) 4 = n/2^32 := highAt
    have second : (⟨[0xd7,0xff]++data,k+10⟩ : Reader).uintAt (1+1+4) 4 = n%2^32 := lowAt
    have secs : n/2^32%4*2^32+n%2^32 = n%2^34 := by omega
    have nanos : n/2^32/4 = n/2^34 := by omega
    rw [timeSpec,if_neg (by decide),if_pos rfl,first,second]
    dsimp only
    rw [secs,nanos]
  rw [timestamp_read header (show 1+1+8 ≤ k+10 by omega) rfl spec nanos]
  exact congrArg (fun r => Except.ok (newDate _,r)) past

theorem timestamp_twelve {nsec : Nat} {sec : Int} (nanos : nsec ≤ 999999999) (low : -maxSafe ≤ sec) (high : sec ≤ maxSafe) :
    (⟨[0xc7,12,0xff]++(bigEndian 4 nsec++(bigEndian 8 (sec%2^64).toNat++rest)),k+15⟩ : Reader).timestamp =
      .ok (newDate (sec*1000+(nsec/1000000 : Nat)),⟨rest,k⟩) := by
  have same := nearest_safe low high
  unfold maxSafe at low high
  have back := signed_eight (show -2^63 ≤ sec by omega) (show sec < 2^63 by omega)
  have fits : (sec%2^64).toNat < 256^8 := by omega
  generalize (sec%2^64).toNat = n at *
  have nanosAt := uintAt_skip (bigEndian 8 n++rest) (show nsec < 256^4 by omega) [0xc7,12,0xff] (k+15)
  have secAt := uintAt_skip rest fits ([0xc7,12,0xff]++bigEndian 4 nsec) (k+15)
  have past := advance_skip rest k ([0xc7,12,0xff]++(bigEndian 4 nsec++bigEndian 8 n))
  have size : ([0xc7,12,0xff]++(bigEndian 4 nsec++bigEndian 8 n) : Bytes).length = 15 := by simp [length_bigEndian]
  have half : ([0xc7,12,0xff]++bigEndian 4 nsec : Bytes).length = 7 := by simp [length_bigEndian]
  rw [size,List.append_assoc,List.append_assoc] at past
  rw [half,List.append_assoc] at secAt
  generalize text : bigEndian 4 nsec++(bigEndian 8 n++rest) = data at *
  have header : (⟨[0xc7,12,0xff]++data,k+15⟩ : Reader).timestampHeader = .ok (2,12) := by
    show (⟨UInt8.ofNat 0xc7 :: (12 :: 0xff :: data),k+14+1⟩ : Reader).timestampHeader = _
    rw [timestampHeader,first_ofNat (by decide)]
    show (need ⟨UInt8.ofNat 0xc7 :: (12 :: 0xff :: data),k+14+1⟩ 2 >>= fun _ => Except.ok (2,12)) = _
    rw [need,if_neg (show ¬k+14+1 < 2 by omega)]
    rfl
  have spec : (⟨[0xc7,12,0xff]++data,k+15⟩ : Reader).timeSpec (2+1) 12 = .ok (sec,nsec) := by
    have first : (⟨[0xc7,12,0xff]++data,k+15⟩ : Reader).uintAt (2+1) 4 = nsec := nanosAt
    have second : (⟨[0xc7,12,0xff]++data,k+15⟩ : Reader).uintAt (2+1+4) 8 = n := secAt
    rw [timeSpec,if_neg (by decide),if_neg (by decide),if_pos rfl,first,second,back,same]
  rw [timestamp_read header (show 2+1+12 ≤ k+15 by omega) rfl spec nanos]
  exact congrArg (fun r => Except.ok (newDate _,r)) past

theorem timestamp_date {m : Int} (low : -dateMaxMs ≤ m) (high : m ≤ dateMaxMs) :
    (⟨Mp.timestamp (m/1000) (m%1000*1000000).toNat++rest,k+(Mp.timestamp (m/1000) (m%1000*1000000).toNat).length⟩ : Reader).timestamp =
      .ok (some m,⟨rest,k⟩) := by
  have limits := newDate_some low high
  unfold dateMaxMs at low high
  generalize nanos : (m%1000*1000000).toNat = nsec
  generalize secs : m/1000 = sec
  have small : nsec ≤ 999999999 := by omega
  unfold Mp.timestamp
  split_ifs with far near
  · have size : ([0xc7,12,0xff]++bigEndian 4 nsec++bigEndian 8 (sec%2^64).toNat : Bytes).length = 15 := by simp [length_bigEndian]
    have whole : sec*1000+(nsec/1000000 : Nat) = m := by omega
    rw [size,List.append_assoc,List.append_assoc,timestamp_twelve rest k small (by unfold maxSafe; omega) (by unfold maxSafe; omega),
      whole,limits]
  · have size : ([0xd7,0xff]++bigEndian 8 (nsec*2^34+sec.toNat) : Bytes).length = 10 := by simp [length_bigEndian]
    have whole : (((nsec*2^34+sec.toNat)%2^34 : Nat) : Int)*1000+((nsec*2^34+sec.toNat)/2^34/1000000 : Nat) = m := by omega
    rw [size,List.append_assoc,timestamp_eight rest k (by omega) (by omega),whole,limits]
  · have size : ([0xd6,0xff]++bigEndian 4 sec.toNat : Bytes).length = 6 := by simp [length_bigEndian]
    have whole : (sec.toNat : Int)*1000 = m := by omega
    rw [size,List.append_assoc,timestamp_four rest k (by omega),whole,limits]

end Headers

end Reader

-- A value as the client holds it once read, a long text's mark aside.
def Value.read (v : Value Name) : Value Units := v.mapText fun text => utf16 (kept text)

theorem typeds_vals {items : List (Value Name)} (each : ∀ v ∈ items, ∀ (rest : Bytes) (k : Nat),
    Reader.typed v.shape ⟨v.val.write++rest,k+v.val.write.length⟩ = .ok (v.read,⟨rest,k⟩)) (rest : Bytes) (k : Nat) :
    Reader.typeds (Value.shapes items) ⟨Val.writes (Value.vals items)++rest,k+(Val.writes (Value.vals items)).length⟩ =
      .ok (Value.mapTexts (fun text => utf16 (kept text)) items,⟨rest,k⟩) := by
  induction items with
  | nil => rfl
  | cons v items ih =>
    have first := each v List.mem_cons_self (Val.writes (Value.vals items)++rest) (k+(Val.writes (Value.vals items)).length)
    have later := ih fun v member => each v (List.mem_cons_of_mem _ member)
    have place : k+(v.val.write++Val.writes (Value.vals items)).length =
        k+(Val.writes (Value.vals items)).length+v.val.write.length := by rw [List.length_append]; omega
    rw [Value.shapes,Value.vals,Val.writes,Reader.typeds,place,List.append_assoc,first]
    show (Reader.typeds (Value.shapes items) ⟨Val.writes (Value.vals items)++rest,k+(Val.writes (Value.vals items)).length⟩ >>= _) = _
    rw [later]
    rfl

theorem typedEntries_vals {entries : List (Value Name × Value Name)} (each : ∀ entry ∈ entries, ∀ (rest : Bytes) (k : Nat),
    Reader.typed entry.1.shape ⟨entry.1.val.write++rest,k+entry.1.val.write.length⟩ = .ok (entry.1.read,⟨rest,k⟩) ∧
    Reader.typed entry.2.shape ⟨entry.2.val.write++rest,k+entry.2.val.write.length⟩ = .ok (entry.2.read,⟨rest,k⟩)) (rest : Bytes) (k : Nat) :
    Reader.typedEntries (Value.shapeEntries entries)
        ⟨Val.writeEntries (Value.valEntries entries)++rest,k+(Val.writeEntries (Value.valEntries entries)).length⟩ =
      .ok (Value.mapEntries (fun text => utf16 (kept text)) entries,⟨rest,k⟩) := by
  induction entries with
  | nil => rfl
  | cons entry entries ih =>
    obtain ⟨key,v⟩ := entry
    generalize more : Val.writeEntries (Value.valEntries entries) = bytes at ih
    have first := (each (key,v) List.mem_cons_self (v.val.write++(bytes++rest)) (k+bytes.length+v.val.write.length)).1
    have second := (each (key,v) List.mem_cons_self (bytes++rest) (k+bytes.length)).2
    have later := ih fun entry member => each entry (List.mem_cons_of_mem _ member)
    have place : k+(key.val.write++(v.val.write++bytes)).length = k+bytes.length+v.val.write.length+key.val.write.length := by
      rw [List.length_append,List.length_append]
      omega
    rw [Value.shapeEntries,Value.valEntries,Val.writeEntries,Reader.typedEntries,more,place,List.append_assoc,List.append_assoc,first]
    show (Reader.typed v.shape ⟨v.val.write++(bytes++rest),k+bytes.length+v.val.write.length⟩ >>= _) = _
    rw [second]
    show (Reader.typedEntries (Value.shapeEntries entries) ⟨bytes++rest,k+bytes.length⟩ >>= _) = _
    rw [later]
    rfl

theorem length_shapes (items : List (Value Name)) : (Value.shapes items).length = items.length := by
  induction items with
  | nil => rfl
  | cons v rest ih => rw [Value.shapes,List.length_cons,List.length_cons,ih]

theorem length_shapeEntries (entries : List (Value Name × Value Name)) : (Value.shapeEntries entries).length = entries.length := by
  induction entries with
  | nil => rfl
  | cons entry rest ih => rw [Value.shapeEntries,List.length_cons,List.length_cons,ih]

-- What the server writes, the client reads by the calls for its parts.
theorem typed_written {levels : Nat} {v : Value Name} (admitted : v.Admitted levels) (rest : Bytes) (k : Nat) :
    Reader.typed v.shape ⟨v.val.write++rest,k+v.val.write.length⟩ = .ok (v.read,⟨rest,k⟩) := by
  induction levels generalizing v rest k with
  | zero => exact absurd admitted (by simp [Value.Admitted])
  | succ levels ih =>
    cases v with
    | nil =>
      show (Reader.nil ⟨0xc0 :: rest,k+1⟩ >>= fun r => Except.ok (Value.nil,r)) = _
      rw [Reader.nil_write]
      rfl
    | bool b =>
      show (Reader.bool ⟨(if b then 0xc3 else 0xc2) :: rest,k+1⟩ >>= _) = _
      rw [Reader.bool_write]
      rfl
    | int i =>
      show (Reader.int ⟨Mp.int i++rest,k+(Mp.int i).length⟩ >>= _) = _
      rw [Reader.int_safe rest k admitted.1 admitted.2]
      rfl
    | float bits =>
      show (Reader.float ⟨Mp.double bits++rest,k+(Mp.double bits).length⟩ >>= fun read => Except.ok (Value.float read.1,read.2)) = _
      rw [Reader.float_double rest k admitted]
      rfl
    | str text =>
      show (Reader.str ⟨Mp.str (utf8 text)++rest,k+(Mp.str (utf8 text)).length⟩ >>= _) = _
      rw [Reader.str_text rest k admitted]
      rfl
    | bin s =>
      show (Reader.bin ⟨Mp.bin s++rest,k+(Mp.bin s).length⟩ >>= _) = _
      rw [Reader.bin_bin rest k admitted]
      rfl
    | date ms =>
      obtain ⟨m,rfl,low,high⟩ := admitted
      rw [Value.shape,Value.val,Val.write,Option.getD_some,Reader.typed,Reader.timestamp_date rest k low high]
      rfl
    | array items =>
      obtain ⟨few,each⟩ := admitted
      have inner := typeds_vals (fun v member => ih (each v member)) rest k
      have header := Reader.arrayHeader_array (Val.writes (Value.vals items)++rest) (k+(Val.writes (Value.vals items)).length) few
      have place : k+(Mp.array items.length++Val.writes (Value.vals items)).length =
          k+(Val.writes (Value.vals items)).length+(Mp.array items.length).length := by rw [List.length_append]; omega
      rw [Value.shape,Value.val,Val.write,length_vals,Reader.typed,place,List.append_assoc,header]
      show (if items.length ≠ (Value.shapes items).length then Except.error (Refusal.count items.length)
        else Reader.typeds (Value.shapes items) _ >>= _) = _
      rw [if_neg (by rw [length_shapes]; exact fun differ => differ rfl),inner]
      rfl
    | map entries =>
      obtain ⟨few,each⟩ := admitted
      have inner := typedEntries_vals (fun entry member rest k =>
        ⟨ih (each entry member).1 rest k,ih (each entry member).2 rest k⟩) rest k
      have header := Reader.mapHeader_map (Val.writeEntries (Value.valEntries entries)++rest)
        (k+(Val.writeEntries (Value.valEntries entries)).length) few
      have place : k+(Mp.map entries.length++Val.writeEntries (Value.valEntries entries)).length =
          k+(Val.writeEntries (Value.valEntries entries)).length+(Mp.map entries.length).length := by rw [List.length_append]; omega
      rw [Value.shape,Value.val,Val.write,length_valEntries,Reader.typed,place,List.append_assoc,header]
      show (if entries.length ≠ (Value.shapeEntries entries).length then Except.error (Refusal.count entries.length)
        else Reader.typedEntries (Value.shapeEntries entries) _ >>= _) = _
      rw [if_neg (by rw [length_shapeEntries]; exact fun differ => differ rfl),inner]
      rfl

-- A value any takes: no bin, and maps of strings to such values, each key once.
def Value.Plain : Nat → Value Name → Prop
  | 0,_ | _+1,.bin _ => False
  | levels+1,.array items => ∀ v ∈ items, v.Plain levels
  | levels+1,.map entries => ∃ pairs : List (Name × Value Name), entries = pairs.map (fun pair => (.str pair.1,pair.2)) ∧
      (pairs.map Prod.fst).Nodup ∧ ∀ pair ∈ pairs, pair.2.Plain levels
  | _+1,_ => True

-- The texts of a value.
section Texts
variable {τ : Type}

mutual
def Value.texts : Value τ → List τ
  | .str text => [text]
  | .array items => Value.textsOf items
  | .map entries => Value.textsIn entries
  | _ => []
def Value.textsOf : List (Value τ) → List τ
  | [] => []
  | v :: rest => v.texts++Value.textsOf rest
def Value.textsIn : List (Value τ × Value τ) → List τ
  | [] => []
  | (k,v) :: rest => k.texts++(v.texts++Value.textsIn rest)
end

end Texts

-- No text over 200 bytes starts with a byte order mark.
def Value.Unmarked (v : Value Name) : Prop := ∀ text ∈ v.texts, ¬(200 < (utf8 text).length ∧ text.head? = some bom)

theorem mapTexts_eq {f g : Name → Units} {items : List (Value Name)}
    (each : ∀ v ∈ items, v.mapText f = v.mapText g ↔ ∀ text ∈ v.texts, f text = g text) :
    Value.mapTexts f items = Value.mapTexts g items ↔ ∀ text ∈ Value.textsOf items, f text = g text := by
  induction items with
  | nil => simp [Value.mapTexts,Value.textsOf]
  | cons v rest ih =>
    rw [Value.mapTexts,Value.mapTexts,Value.textsOf,List.cons_eq_cons,each v List.mem_cons_self,
      ih fun v member => each v (List.mem_cons_of_mem _ member)]
    simp only [List.mem_append,or_imp,forall_and]

theorem mapEntries_eq {f g : Name → Units} {entries : List (Value Name × Value Name)}
    (each : ∀ entry ∈ entries, (entry.1.mapText f = entry.1.mapText g ↔ ∀ text ∈ entry.1.texts, f text = g text) ∧
      (entry.2.mapText f = entry.2.mapText g ↔ ∀ text ∈ entry.2.texts, f text = g text)) :
    Value.mapEntries f entries = Value.mapEntries g entries ↔ ∀ text ∈ Value.textsIn entries, f text = g text := by
  induction entries with
  | nil => simp [Value.mapEntries,Value.textsIn]
  | cons entry rest ih =>
    obtain ⟨key,held⟩ := each entry List.mem_cons_self
    rw [Value.mapEntries,Value.mapEntries,Value.textsIn,List.cons_eq_cons,Prod.mk.injEq,key,held,
      ih fun entry member => each entry (List.mem_cons_of_mem _ member)]
    simp only [List.mem_append,or_imp,forall_and,and_assoc]

theorem mapText_eq {f g : Name → Units} {levels : Nat} {v : Value Name} (admitted : v.Admitted levels) :
    v.mapText f = v.mapText g ↔ ∀ text ∈ v.texts, f text = g text := by
  induction levels generalizing v with
  | zero => exact absurd admitted (by simp [Value.Admitted])
  | succ levels ih =>
    cases v with
    | nil | bool | int | float | bin | date => simp [Value.mapText,Value.texts]
    | str text => simp [Value.mapText,Value.texts]
    | array items =>
      rw [Value.mapText,Value.mapText,Value.texts,Value.array.injEq]
      exact mapTexts_eq fun v member => ih (admitted.2 v member)
    | map entries =>
      rw [Value.mapText,Value.mapText,Value.texts,Value.map.injEq]
      exact mapEntries_eq fun entry member => ⟨ih (admitted.2 entry member).1,ih (admitted.2 entry member).2⟩

-- A value is read as it is exactly when none of its texts loses its mark.
theorem read_iff {levels : Nat} {v : Value Name} (admitted : v.Admitted levels) : v.read = v.mapText utf16 ↔ v.Unmarked := by
  rw [Value.read,mapText_eq admitted]
  refine forall₂_congr fun text _ => ?_
  rw [utf16_inj,kept_iff]

theorem any_items {levels : Nat} {items : List (Value Name)}
    (each : ∀ v ∈ items, Writer.any levels (v.mapText utf16) = some (v.mapText utf16).write) :
    ∃ written, (Value.mapTexts utf16 items).mapM (Writer.any levels) = some written ∧
      written.flatten = Value.writes (Value.mapTexts utf16 items) := by
  induction items with
  | nil => exact ⟨[],rfl,rfl⟩
  | cons v rest ih =>
    obtain ⟨written,made,whole⟩ := ih fun v member => each v (List.mem_cons_of_mem _ member)
    refine ⟨(v.mapText utf16).write :: written,?_,?_⟩
    · rw [Value.mapTexts,List.mapM_cons,each v List.mem_cons_self,made]
      rfl
    · rw [List.flatten_cons,whole,Value.mapTexts,Value.writes]

theorem any_pairs {levels : Nat} {pairs : List (Name × Value Name)}
    (each : ∀ pair ∈ pairs, Writer.any levels (pair.2.mapText utf16) = some (pair.2.mapText utf16).write) :
    ∃ written, (Value.mapEntries utf16 (pairs.map fun pair => (Value.str pair.1,pair.2))).mapM (Writer.entry (Writer.any levels)) =
        some written ∧
      written.flatten = Value.writeEntries (Value.mapEntries utf16 (pairs.map fun pair => (Value.str pair.1,pair.2))) := by
  induction pairs with
  | nil => exact ⟨[],rfl,rfl⟩
  | cons pair rest ih =>
    obtain ⟨written,made,whole⟩ := ih fun pair member => each pair (List.mem_cons_of_mem _ member)
    refine ⟨(Writer.str (utf16 pair.1)++(pair.2.mapText utf16).write) :: written,?_,?_⟩
    · rw [List.map_cons,Value.mapEntries,List.mapM_cons,made,Writer.entry,Value.mapText]
      dsimp only
      rw [each pair List.mem_cons_self]
      rfl
    · rw [List.flatten_cons,whole,List.map_cons,Value.mapEntries,Value.writeEntries,Value.mapText,Value.write,List.append_assoc]

-- What any writes is what the calls for the value's parts do.
theorem any_write {levels : Nat} {v : Value Name} (plain : v.Plain levels) :
    Writer.any levels (v.mapText utf16) = some (v.mapText utf16).write := by
  induction levels generalizing v with
  | zero => exact absurd plain (by simp [Value.Plain])
  | succ levels ih =>
    cases v with
    | nil | bool | int | float | str | date => rfl
    | bin s => exact absurd plain (by simp [Value.Plain])
    | array items =>
      obtain ⟨written,made,whole⟩ := any_items fun v member => ih (plain v member)
      rw [Value.mapText,Writer.any,Value.write,made,Option.map_some,whole]
    | map entries =>
      obtain ⟨pairs,rfl,_,each⟩ := plain
      obtain ⟨written,made,whole⟩ := any_pairs fun pair member => ih (each pair member)
      rw [Value.mapText,Writer.any,Value.write,made,Option.map_some,whole]

theorem kind_cons {c : Nat} (small : c < 256) (is : kindOf c = some kind) (data : Bytes) (left : Nat) :
    (⟨UInt8.ofNat c :: data,left+1⟩ : Reader).kind = .ok kind := by
  rw [Reader.kind,Reader.first_ofNat small]
  simp only [is,bind,Except.bind]
  rfl

-- A text of bytes that starts with one of a kind.
def Starts (kind : Kind) (s : Bytes) : Prop := ∃ c data, s = UInt8.ofNat c :: data ∧ c < 256 ∧ kindOf c = some kind

theorem Starts.read (starts : Starts kind s) (rest : Bytes) (k : Nat) : (⟨s++rest,k+s.length⟩ : Reader).kind = .ok kind := by
  obtain ⟨c,data,rfl,small,is⟩ := starts
  exact kind_cons small is (data++rest) (k+data.length)

theorem starts_uint (n : Nat) : Starts .int (Mp.uint n) := by
  unfold Mp.uint
  split_ifs with b0
  · exact ⟨n,[],rfl,by omega,by unfold kindOf; rw [if_pos (.inl b0)]⟩
  · exact ⟨0xcc,_,rfl,by decide,rfl⟩
  · exact ⟨0xcd,_,rfl,by decide,rfl⟩
  · exact ⟨0xce,_,rfl,by decide,rfl⟩
  · exact ⟨0xcf,_,rfl,by decide,rfl⟩

theorem starts_int (i : Int) : Starts .int (Mp.int i) := by
  unfold Mp.int
  split_ifs with positive b0
  · exact starts_uint _
  · exact ⟨(i+256).toNat,[],rfl,by omega,by unfold kindOf; rw [if_pos (.inr (by omega))]⟩
  · exact ⟨0xd0,_,rfl,by decide,rfl⟩
  · exact ⟨0xd1,_,rfl,by decide,rfl⟩
  · exact ⟨0xd2,_,rfl,by decide,rfl⟩
  · exact ⟨0xd3,_,rfl,by decide,rfl⟩

theorem starts_str (s : Bytes) : Starts .str (Mp.str s) := by
  unfold Mp.str
  dsimp only
  split_ifs with b0
  · refine ⟨0xa0+s.length,s,rfl,by omega,?_⟩
    unfold kindOf
    rw [if_neg (by omega),if_neg (by omega),if_neg (by omega),if_pos (by omega)]
  · exact ⟨0xd9,_,rfl,by decide,rfl⟩
  · exact ⟨0xda,_,rfl,by decide,rfl⟩
  · exact ⟨0xdb,_,rfl,by decide,rfl⟩

theorem starts_array (n : Nat) (data : Bytes) : Starts .array (Mp.array n++data) := by
  unfold Mp.array
  split_ifs with b0
  · refine ⟨0x90+n,data,rfl,by omega,?_⟩
    unfold kindOf
    rw [if_neg (by omega),if_neg (by omega),if_pos (by omega)]
  · exact ⟨0xdc,_,rfl,by decide,rfl⟩
  · exact ⟨0xdd,_,rfl,by decide,rfl⟩

theorem starts_map (n : Nat) (data : Bytes) : Starts .map (Mp.map n++data) := by
  unfold Mp.map
  split_ifs with b0
  · refine ⟨0x80+n,data,rfl,by omega,?_⟩
    unfold kindOf
    rw [if_neg (by omega),if_pos (by omega)]
  · exact ⟨0xde,_,rfl,by decide,rfl⟩
  · exact ⟨0xdf,_,rfl,by decide,rfl⟩

theorem starts_timestamp (sec : Int) (nsec : Nat) : Starts .ext (Mp.timestamp sec nsec) := by
  unfold Mp.timestamp
  split_ifs
  · exact ⟨0xc7,_,rfl,by decide,rfl⟩
  · exact ⟨0xd7,_,rfl,by decide,rfl⟩
  · exact ⟨0xd6,_,rfl,by decide,rfl⟩

theorem setEntry_new {out : List (Units × Value Units)} {key : Units} (fresh : key ∉ out.map Prod.fst) (value : Value Units) :
    setEntry out key value = out++[(key,value)] := by
  unfold setEntry
  rw [if_neg]
  intro held
  obtain ⟨entry,member,same⟩ := List.any_eq_true.mp held
  exact fresh (List.mem_map.mpr ⟨entry,member,of_decide_eq_true same⟩)

-- An object of entries whose keys differ is those entries.
theorem object_entries {entries out : List (Units × Value Units)} (distinct : ((out++entries).map Prod.fst).Nodup) :
    entries.foldl (fun out entry => setEntry out entry.1 entry.2) out = out++entries := by
  induction entries generalizing out with
  | nil => simp
  | cons entry rest ih =>
    have fresh : entry.1 ∉ out.map Prod.fst := by
      intro member
      rw [List.map_append,List.map_cons] at distinct
      exact (List.nodup_append.mp distinct).2.2 _ member _ List.mem_cons_self rfl
    rw [List.foldl_cons,setEntry_new fresh,ih (by simpa using distinct)]
    simp

theorem many_items {levels : Nat} {items : List (Value Name)} (each : ∀ v ∈ items, ∀ (rest : Bytes) (k : Nat),
    Reader.any levels ⟨v.val.write++rest,k+v.val.write.length⟩ = .ok (v.mapText utf16,⟨rest,k⟩)) (rest : Bytes) (k : Nat) :
    Reader.many (Reader.any levels) items.length ⟨Val.writes (Value.vals items)++rest,k+(Val.writes (Value.vals items)).length⟩ =
      .ok (Value.mapTexts utf16 items,⟨rest,k⟩) := by
  induction items with
  | nil => rfl
  | cons v items ih =>
    have first := each v List.mem_cons_self (Val.writes (Value.vals items)++rest) (k+(Val.writes (Value.vals items)).length)
    have later := ih fun v member => each v (List.mem_cons_of_mem _ member)
    have place : k+(v.val.write++Val.writes (Value.vals items)).length =
        k+(Val.writes (Value.vals items)).length+v.val.write.length := by rw [List.length_append]; omega
    rw [List.length_cons,Value.vals,Val.writes,Reader.many,place,List.append_assoc,first]
    show (Reader.many (Reader.any levels) items.length ⟨Val.writes (Value.vals items)++rest,k+(Val.writes (Value.vals items)).length⟩ >>= _) = _
    rw [later]
    rfl

theorem many_pairs {levels : Nat} {pairs : List (Name × Value Name)} (each : ∀ pair ∈ pairs,
    (utf8 pair.1).length < 2^32 ∧ kept pair.1 = pair.1 ∧ ∀ (rest : Bytes) (k : Nat),
      Reader.any levels ⟨pair.2.val.write++rest,k+pair.2.val.write.length⟩ = .ok (pair.2.mapText utf16,⟨rest,k⟩)) (rest : Bytes) (k : Nat) :
    let bytes := Val.writeEntries (Value.valEntries (pairs.map fun pair => (Value.str pair.1,pair.2)))
    Reader.many (Reader.entry (Reader.any levels)) pairs.length ⟨bytes++rest,k+bytes.length⟩ =
      .ok (pairs.map fun pair => (utf16 pair.1,pair.2.mapText utf16),⟨rest,k⟩) := by
  induction pairs with
  | nil => rfl
  | cons pair pairs ih =>
    obtain ⟨key,v⟩ := pair
    obtain ⟨short,whole,held⟩ := each (key,v) List.mem_cons_self
    have later := ih fun pair member => each pair (List.mem_cons_of_mem _ member)
    dsimp only at later whole ⊢
    rw [List.map_cons,Value.valEntries,Val.writeEntries]
    generalize Val.writeEntries (Value.valEntries (pairs.map fun pair => (Value.str pair.1,pair.2))) = bytes at later ⊢
    have first := Reader.tryStr_text (v.val.write++(bytes++rest)) (k+bytes.length+v.val.write.length) short
    have second := held (bytes++rest) (k+bytes.length)
    rw [whole] at first
    have place : k+((Value.str key).val.write++(v.val.write++bytes)).length =
        k+bytes.length+v.val.write.length+(Mp.str (utf8 key)).length := by
      rw [List.length_append,List.length_append,Value.val,Val.write]
      omega
    rw [List.length_cons,Reader.many,Reader.entry,place,List.append_assoc,List.append_assoc,Value.val,Val.write,first]
    show ((Reader.any levels ⟨v.val.write++(bytes++rest),k+bytes.length+v.val.write.length⟩ >>= fun read =>
      Except.ok ((utf16 key,read.1),read.2)) >>= _) = _
    rw [second]
    show (Reader.many (Reader.entry (Reader.any levels)) pairs.length ⟨bytes++rest,k+bytes.length⟩ >>= _) = _
    rw [later]
    rfl

theorem mapEntries_pairs (pairs : List (Name × Value Name)) :
    Value.mapEntries utf16 (pairs.map fun pair => (Value.str pair.1,pair.2)) =
      (pairs.map fun pair => (utf16 pair.1,pair.2.mapText utf16)).map fun entry => (Value.str entry.1,entry.2) := by
  induction pairs with
  | nil => rfl
  | cons pair rest ih =>
    rw [List.map_cons,Value.mapEntries,ih,Value.mapText]
    rfl

theorem mem_textsOf {v : Value Name} {items : List (Value Name)} (member : v ∈ items) (among : text ∈ v.texts) :
    text ∈ Value.textsOf items := by
  induction items with
  | nil => cases member
  | cons u rest ih =>
    rw [Value.textsOf,List.mem_append]
    rcases List.mem_cons.mp member with rfl | later
    · exact .inl among
    · exact .inr (ih later)

theorem mem_textsIn {entry : Value Name × Value Name} {entries : List (Value Name × Value Name)} (member : entry ∈ entries)
    (among : text ∈ entry.1.texts ∨ text ∈ entry.2.texts) : text ∈ Value.textsIn entries := by
  induction entries with
  | nil => cases member
  | cons other rest ih =>
    rw [Value.textsIn,List.mem_append,List.mem_append]
    rcases List.mem_cons.mp member with rfl | later
    · exact among.imp id .inl
    · exact .inr (.inr (ih later))

-- What the server writes of a value with no bin, the client reads with no schema.
theorem any_written {levels : Nat} {v : Value Name} (admitted : v.Admitted levels) (plain : v.Plain levels) (unmarked : v.Unmarked)
    (rest : Bytes) (k : Nat) : Reader.any levels ⟨v.val.write++rest,k+v.val.write.length⟩ = .ok (v.mapText utf16,⟨rest,k⟩) := by
  induction levels generalizing v rest k with
  | zero => exact absurd admitted (by simp [Value.Admitted])
  | succ levels ih =>
    cases v with
    | nil =>
      show Reader.any (levels+1) ⟨0xc0 :: rest,k+1⟩ = _
      have kind : (⟨0xc0 :: rest,k+1⟩ : Reader).kind = .ok .nil := kind_cons (show 0xc0 < 256 by decide) rfl rest k
      rw [Reader.any,kind]
      show (Reader.nil ⟨0xc0 :: rest,k+1⟩ >>= fun r => Except.ok (Value.nil,r)) = _
      rw [Reader.nil_write]
      rfl
    | bool b =>
      show Reader.any (levels+1) ⟨(if b then 0xc3 else 0xc2) :: rest,k+1⟩ = _
      have kind : (⟨(if b then 0xc3 else 0xc2) :: rest,k+1⟩ : Reader).kind = .ok .bool := by
        cases b
        · exact kind_cons (show 0xc2 < 256 by decide) rfl rest k
        · exact kind_cons (show 0xc3 < 256 by decide) rfl rest k
      rw [Reader.any,kind]
      show (Reader.bool ⟨(if b then 0xc3 else 0xc2) :: rest,k+1⟩ >>= _) = _
      rw [Reader.bool_write]
      rfl
    | int i =>
      show Reader.any (levels+1) ⟨Mp.int i++rest,k+(Mp.int i).length⟩ = _
      rw [Reader.any,(starts_int i).read]
      show (Reader.int ⟨Mp.int i++rest,k+(Mp.int i).length⟩ >>= _) = _
      rw [Reader.int_safe rest k admitted.1 admitted.2]
      rfl
    | float bits =>
      show Reader.any (levels+1) ⟨Mp.double bits++rest,k+(Mp.double bits).length⟩ = _
      have kind : (⟨Mp.double bits++rest,k+(Mp.double bits).length⟩ : Reader).kind = .ok .float :=
        kind_cons (show 0xcb < 256 by decide) rfl _ _
      rw [Reader.any,kind]
      show (Reader.float ⟨Mp.double bits++rest,k+(Mp.double bits).length⟩ >>= fun read => Except.ok (Value.float read.1,read.2)) = _
      rw [Reader.float_double rest k admitted]
      rfl
    | str text =>
      have whole : kept text = text := (kept_iff text).mpr (unmarked text (by rw [Value.texts]; exact List.mem_singleton_self text))
      show Reader.any (levels+1) ⟨Mp.str (utf8 text)++rest,k+(Mp.str (utf8 text)).length⟩ = _
      rw [Reader.any,(starts_str (utf8 text)).read]
      show (Reader.str ⟨Mp.str (utf8 text)++rest,k+(Mp.str (utf8 text)).length⟩ >>= _) = _
      rw [Reader.str_text rest k admitted,whole]
      rfl
    | bin s => exact absurd plain (by simp [Value.Plain])
    | date ms =>
      obtain ⟨m,rfl,low,high⟩ := admitted
      rw [Value.val,Val.write,Option.getD_some,Reader.any,(starts_timestamp _ _).read]
      show (Reader.timestamp ⟨Mp.timestamp (m/1000) (m%1000*1000000).toNat++rest,_⟩ >>= _) = _
      rw [Reader.timestamp_date rest k low high]
      rfl
    | array items =>
      obtain ⟨few,each⟩ := admitted
      have inner := many_items (fun v member => ih (each v member) (plain v member) fun text among =>
        unmarked text (by rw [Value.texts]; exact mem_textsOf member among)) rest k
      have header := Reader.arrayHeader_array (Val.writes (Value.vals items)++rest) (k+(Val.writes (Value.vals items)).length) few
      have place : k+(Mp.array items.length++Val.writes (Value.vals items)).length =
          k+(Val.writes (Value.vals items)).length+(Mp.array items.length).length := by rw [List.length_append]; omega
      rw [Value.val,Val.write,length_vals,Reader.any,(starts_array _ _).read,place,List.append_assoc]
      show (Reader.arrayHeader ⟨Mp.array items.length++(Val.writes (Value.vals items)++rest),_⟩ >>= _) = _
      rw [header]
      show (Reader.many (Reader.any levels) items.length _ >>= _) = _
      rw [inner]
      rfl
    | map entries =>
      obtain ⟨few,each⟩ := admitted
      obtain ⟨pairs,rfl,distinct,plains⟩ := plain
      have reads : ∀ pair ∈ pairs, (utf8 pair.1).length < 2^32 ∧ kept pair.1 = pair.1 ∧ ∀ (rest : Bytes) (k : Nat),
          Reader.any levels ⟨pair.2.val.write++rest,k+pair.2.val.write.length⟩ = .ok (pair.2.mapText utf16,⟨rest,k⟩) := by
        intro pair member
        have among : (Value.str pair.1,pair.2) ∈ pairs.map fun pair => (Value.str pair.1,pair.2) :=
          List.mem_map.mpr ⟨pair,member,rfl⟩
        have entry := each _ among
        have bare : ∀ text, text ∈ (Value.str pair.1).texts ∨ text ∈ pair.2.texts →
            ¬(200 < (utf8 text).length ∧ text.head? = some bom) :=
          fun text held => unmarked text (by rw [Value.texts]; exact mem_textsIn among held)
        have short : (utf8 pair.1).length < 2^32 := by
          cases levels with
          | zero => exact absurd entry.1 (by simp [Value.Admitted])
          | succ levels => exact entry.1
        have whole : kept pair.1 = pair.1 :=
          (kept_iff pair.1).mpr (bare pair.1 (.inl (by rw [Value.texts]; exact List.mem_singleton_self pair.1)))
        exact ⟨short,whole,fun rest k => ih entry.2 (plains pair member) (fun text held => bare text (.inr held)) rest k⟩
      have inner := many_pairs reads rest k
      have keys : (([]++pairs.map fun pair : Name × Value Name => (utf16 pair.1,pair.2.mapText utf16)).map Prod.fst).Nodup := by
        rw [List.nil_append,List.map_map]
        have same : (Prod.fst ∘ fun pair : Name × Value Name => (utf16 pair.1,pair.2.mapText utf16)) = utf16 ∘ Prod.fst := rfl
        rw [same,← List.map_map]
        exact distinct.map fun a b => utf16_inj.mp
      have object := object_entries keys
      have pairing := mapEntries_pairs pairs
      rw [List.length_map] at few
      dsimp only at inner
      rw [Value.mapText,pairing,Value.val,Val.write,length_valEntries,List.length_map]
      generalize Val.writeEntries (Value.valEntries (pairs.map fun pair : Name × Value Name => (Value.str pair.1,pair.2))) = bytes at inner ⊢
      have header := Reader.mapHeader_map (bytes++rest) (k+bytes.length) few
      have place : k+(Mp.map pairs.length++bytes).length = k+bytes.length+(Mp.map pairs.length).length := by
        rw [List.length_append]
        omega
      rw [Reader.any,(starts_map _ _).read,place,List.append_assoc]
      show (Reader.mapHeader ⟨Mp.map pairs.length++(bytes++rest),_⟩ >>= _) = _
      rw [header]
      show (Reader.many (Reader.entry (Reader.any levels)) pairs.length ⟨bytes++rest,k+bytes.length⟩ >>= _) = _
      rw [inner]
      show Except.ok (Value.map (List.map _ (List.foldl _ [] _)),_) = _
      rw [object,List.nil_append]

end Cursor
end PhaseLock
