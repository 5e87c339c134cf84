import PhaseLock.Checksums
import PhaseLock.CursorSteps

namespace PhaseLock
namespace Checksum
open Mp

theorem int32_toInt (x : BitVec 32) : int32 x.toInt = x := BitVec.ofInt_toInt

theorem int32_toNat (x : BitVec 32) : int32 (x.toNat : Int) = x := by
  rw [int32,BitVec.ofInt_natCast,BitVec.ofNat_toNat,BitVec.setWidth_eq]

theorem int32_nat (n : Nat) : int32 (n : Int) = BitVec.ofNat 32 n := BitVec.ofInt_natCast 32 n

@[simp] theorem int32_bitNot (a : Int) : int32 (bitNot a) = ~~~int32 a := int32_toInt _
@[simp] theorem int32_bitXor (a b : Int) : int32 (bitXor a b) = int32 a ^^^ int32 b := int32_toInt _
@[simp] theorem int32_bitAnd (a b : Int) : int32 (bitAnd a b) = int32 a &&& int32 b := int32_toInt _
@[simp] theorem int32_ushr (a : Int) (n : Nat) : int32 (ushr a n) = int32 a >>> n := int32_toNat _

theorem toInt_nat {x : BitVec 32} (small : x.toNat < 2^31) : x.toInt = x.toNat := BitVec.toInt_eq_toNat_of_lt (by omega)

theorem toNat_nat {n : Nat} (small : n < 2^32) : (int32 (n : Int)).toNat = n := by
  rw [int32_nat,BitVec.toNat_ofNat,Nat.mod_eq_of_lt small]

theorem bitXor_nat {n m : Nat} (left : n < 2^31) (right : m < 2^31) : bitXor n m = (n ^^^ m : Nat) := by
  have bits : (int32 (n : Int) ^^^ int32 (m : Int)).toNat = n ^^^ m := by
    rw [BitVec.toNat_xor,toNat_nat (by omega),toNat_nat (by omega)]
  rw [bitXor,toInt_nat (by rw [bits]; exact Nat.xor_lt_two_pow left right),bits]

-- The low bits.
theorem bitAnd_mask {n k : Nat} (small : n < 2^32) (few : k < 32) : bitAnd n (2^k-1 : Nat) = (n%2^k : Nat) := by
  have power : 2^k ≤ 2^31 := Nat.pow_le_pow_right (by decide) (by omega)
  have positive : 0 < 2^k := Nat.two_pow_pos k
  have bits : (int32 (n : Int) &&& int32 ((2^k-1 : Nat) : Int)).toNat = n%2^k := by
    rw [BitVec.toNat_and,toNat_nat small,toNat_nat (by omega),Nat.and_two_pow_sub_one_eq_mod]
  have low := Nat.mod_lt n positive
  rw [bitAnd,toInt_nat (by omega),bits]

theorem ushr_nat {n : Nat} (small : n < 2^32) (k : Nat) : ushr n k = (n/2^k : Nat) := by
  rw [ushr,BitVec.toNat_ushiftRight,toNat_nat small,Nat.shiftRight_eq_div_pow]

theorem shl_nat {n k : Nat} (small : n*2^k < 2^31) : shl n k = (n*2^k : Nat) := by
  have one : n ≤ n*2^k := Nat.le_mul_of_pos_right n (Nat.two_pow_pos k)
  have bits : (int32 (n : Int) <<< k).toNat = n*2^k := by
    rw [BitVec.toNat_shiftLeft,toNat_nat (by omega),Nat.shiftLeft_eq,Nat.mod_eq_of_lt (by omega)]
  rw [shl,toInt_nat (by omega),bits]

-- Bits that stand apart.
theorem bitOr_nat {n m k : Nat} (low : n < 2^k) (small : m*2^k < 2^31) (few : k < 32) : bitOr n (m*2^k : Nat) = (n+m*2^k : Nat) := by
  have power : 2^k ≤ 2^31 := Nat.pow_le_pow_right (by decide) (by omega)
  have joined : n ||| m*2^k = n+m*2^k := by
    have apart := Nat.two_pow_add_eq_or_of_lt low m
    rw [Nat.mul_comm m,Nat.or_comm,← apart,Nat.add_comm]
  have bits : (int32 (n : Int) ||| int32 ((m*2^k : Nat) : Int)).toNat = n+m*2^k := by
    rw [BitVec.toNat_or,toNat_nat (by omega),toNat_nat (by omega),joined]
  have small' : n+m*2^k < 2^31 := by
    rw [← joined]
    exact Nat.or_lt_two_pow (by omega) small
  rw [bitOr,toInt_nat (by omega),bits]

theorem times_nat {n m : Nat} (safe : n*m < 2^53) : times n m = (n*m : Nat) := by
  rw [times,← Nat.cast_mul]
  exact Cursor.Reader.nearest_safe (by unfold Cursor.maxSafe; omega) (by unfold Cursor.maxSafe; omega)

theorem plus_nat {n m : Nat} (safe : n+m < 2^53) : plus n m = (n+m : Nat) := by
  rw [plus,← Nat.cast_add]
  exact Cursor.Reader.nearest_safe (by unfold Cursor.maxSafe; omega) (by unfold Cursor.maxSafe; omega)

def poly : BitVec 32 := 0x82f63b78

-- A shift of the remainder, and several.
def crcShift (c : BitVec 32) : BitVec 32 := if c.getLsbD 0 then poly ^^^ (c >>> 1) else c >>> 1

def crcShifts : Nat → BitVec 32 → BitVec 32
  | 0,c => c
  | k+1,c => crcShifts k (crcShift c)

theorem low_bit (c : BitVec 32) : c &&& 1 ≠ 0 ↔ c.getLsbD 0 = true := by
  rw [show (1 : BitVec 32) = 1#32 from rfl,BitVec.and_one_eq_setWidth_ofBool_getLsbD]
  cases c.getLsbD 0 <;> decide

theorem crcShift_xor (a b : BitVec 32) : crcShift (a ^^^ b) = crcShift a ^^^ crcShift b := by
  unfold crcShift
  rw [BitVec.getLsbD_xor,BitVec.ushiftRight_xor_distrib]
  generalize a >>> 1 = x
  generalize b >>> 1 = y
  cases a.getLsbD 0 <;> cases b.getLsbD 0
  · rfl
  · show poly ^^^ (x ^^^ y) = x ^^^ (poly ^^^ y)
    ac_rfl
  · show poly ^^^ (x ^^^ y) = (poly ^^^ x) ^^^ y
    ac_rfl
  · show x ^^^ y = (poly ^^^ x) ^^^ (poly ^^^ y)
    have same : (poly ^^^ x) ^^^ (poly ^^^ y) = (poly ^^^ poly) ^^^ (x ^^^ y) := by ac_rfl
    rw [same,BitVec.xor_self,BitVec.zero_xor]

theorem crcShifts_xor (k : Nat) (a b : BitVec 32) : crcShifts k (a ^^^ b) = crcShifts k a ^^^ crcShifts k b := by
  induction k generalizing a b with
  | zero => rfl
  | succ k ih => rw [crcShifts,crcShift_xor,ih,crcShifts,crcShifts]

-- While the low bits are clear the remainder only moves down.
theorem crcShifts_clear {k : Nat} {c : BitVec 32} (clear : ∀ i < k, c.getLsbD i = false) : crcShifts k c = c >>> k := by
  induction k generalizing c with
  | zero => rw [crcShifts,BitVec.ushiftRight_zero]
  | succ k ih =>
    have first : crcShift c = c >>> 1 := by rw [crcShift,clear 0 (Nat.zero_lt_succ k),if_neg Bool.false_ne_true]
    have rest : ∀ i < k, (c >>> 1).getLsbD i = false := by
      intro i low
      rw [BitVec.getLsbD_ushiftRight]
      exact clear (1+i) (by omega)
    rw [crcShifts,first,ih rest,← BitVec.shiftRight_add,Nat.add_comm]

theorem mask_bit (i : Nat) : (0xff#32).getLsbD i = decide (i < 8) := by
  rw [BitVec.getLsbD_ofNat,show (0xff : Nat) = 2^8-1 from rfl,Nat.testBit_two_pow_sub_one]
  by_cases low : i < 8
  · simp [low,show i < 32 by omega]
  · simp [low]

-- Eight shifts are those of the low byte over the rest moved down.
theorem crcShifts_byte (c : BitVec 32) : crcShifts 8 c = crcShifts 8 (c &&& 0xff#32) ^^^ (c >>> 8) := by
  have split : c = (c &&& 0xff#32) ^^^ (c &&& ~~~0xff#32) := by
    refine BitVec.eq_of_getLsbD_eq fun i inside => ?_
    simp only [BitVec.getLsbD_xor,BitVec.getLsbD_and,BitVec.getLsbD_not,mask_bit,inside,decide_true,Bool.true_and]
    cases c.getLsbD i <;> cases decide (i < 8) <;> rfl
  have clear : ∀ i < 8, (c &&& ~~~0xff#32).getLsbD i = false := by
    intro i low
    simp only [BitVec.getLsbD_and,BitVec.getLsbD_not,mask_bit,low,decide_true,Bool.not_true,Bool.and_false]
  have moved : (c &&& ~~~0xff#32) >>> 8 = c >>> 8 := by
    refine BitVec.eq_of_getLsbD_eq fun i inside => ?_
    simp only [BitVec.getLsbD_ushiftRight,BitVec.getLsbD_and,BitVec.getLsbD_not,mask_bit]
    by_cases low : 8+i < 32
    · simp [low]
    · simp [BitVec.getLsbD_of_ge c (8+i) (by omega)]
  conv_lhs => rw [split]
  rw [crcShifts_xor,crcShifts_clear clear,moved]

theorem int32_crcRounds (k : Nat) (c : Int) : int32 (crcRounds k c) = crcShifts k (int32 c) := by
  induction k generalizing c with
  | zero => rfl
  | succ k ih =>
    rw [crcRounds,ih,crcShifts]
    congr 1
    have zero : bitAnd c 1 ≠ 0 ↔ int32 c &&& 1 ≠ 0 := by
      unfold bitAnd
      rw [show int32 1 = (1 : BitVec 32) from rfl,not_iff_not]
      exact ⟨fun none => BitVec.toInt_inj.mp (none.trans BitVec.toInt_zero.symm),fun none => (congrArg BitVec.toInt none).trans BitVec.toInt_zero⟩
    unfold crcShift
    by_cases odd : (int32 c).getLsbD 0 = true
    · rw [if_pos (zero.mpr ((low_bit _).mpr odd)),if_pos odd,int32_bitXor,int32_ushr]
      rfl
    · rw [if_neg (fun one => odd ((low_bit _).mp (zero.mp one))),if_neg odd,int32_ushr]

theorem crcTable_get {x : BitVec 32} (low : x.toNat < 256) : int32 (crcTable.getD x.toInt.toNat 0) = crcShifts 8 x := by
  have small : x.toInt.toNat = x.toNat := by
    rw [BitVec.toInt_eq_toNat_of_lt (by omega)]
    rfl
  rw [small,crcTable,List.getD_eq_getElem?_getD,List.getElem?_eq_getElem (by simpa using low),Option.getD_some,List.getElem_map,List.getElem_range,int32_ushr,BitVec.ushiftRight_zero,
    int32_crcRounds,int32_toNat]

-- The server's shifts.
theorem toBitVec_crcShift (c : UInt32) : (Core.crcShift c).toBitVec = crcShift c.toBitVec := by
  have low : c &&& 1 ≠ 0 ↔ c.toBitVec.getLsbD 0 = true := by
    rw [← low_bit]
    exact not_iff_not.mpr UInt32.toBitVec_inj.symm
  unfold Core.crcShift crcShift
  by_cases odd : c.toBitVec.getLsbD 0 = true
  · rw [if_pos (low.mpr odd),if_pos odd]
    rfl
  · rw [if_neg (fun one => odd (low.mp one)),if_neg odd]
    rfl

theorem toBitVec_crcShifts (k : Nat) (c : UInt32) :
    ((List.range k).foldl (fun c _ => Core.crcShift c) c).toBitVec = crcShifts k c.toBitVec := by
  induction k generalizing c with
  | zero => rfl
  | succ k ih =>
    rw [List.range_succ_eq_map,List.foldl_cons,List.foldl_map,ih,toBitVec_crcShift,crcShifts]

theorem byte_bits (b : UInt8) : int32 (b.toNat : Int) = b.toUInt32.toBitVec := by
  rw [int32_nat]
  apply BitVec.eq_of_toNat_eq
  simp

-- A byte by the table, and by its bits.
theorem crc_byte {c : Int} {s : UInt32} (same : int32 c = s.toBitVec) (b : UInt8) :
    int32 (bitXor (crcTable.getD (bitAnd (bitXor c b.toNat) 0xff).toNat 0) (ushr c 8)) =
      ((List.range 8).foldl (fun c _ => Core.crcShift c) (s ^^^ b.toUInt32)).toBitVec := by
  have index : bitAnd (bitXor c b.toNat) 0xff = ((int32 c ^^^ int32 b.toNat) &&& 0xff#32).toInt := by
    rw [bitAnd,int32_bitXor]
    rfl
  have low : ((int32 c ^^^ int32 b.toNat) &&& 0xff#32).toNat < 256 := by
    rw [BitVec.toNat_and]
    exact Nat.lt_of_le_of_lt Nat.and_le_right (by decide)
  have byte : (b.toUInt32.toBitVec >>> 8 : BitVec 32) = 0 := by
    apply BitVec.eq_of_toNat_eq
    have bound := b.toNat_lt
    simp [Nat.shiftRight_eq_div_pow]
    omega
  rw [int32_bitXor,int32_ushr,index,crcTable_get low,toBitVec_crcShifts,UInt32.toBitVec_xor,← same,← byte_bits,
    crcShifts_byte (int32 c ^^^ int32 b.toNat),BitVec.ushiftRight_xor_distrib,byte_bits,byte]
  congr 1
  exact (BitVec.xor_zero).symm

theorem crc_bytes {c : Int} {s : UInt32} (same : int32 c = s.toBitVec) (bytes : Bytes) :
    int32 (bytes.foldl (fun c b => bitXor (crcTable.getD (bitAnd (bitXor c b.toNat) 0xff).toNat 0) (ushr c 8)) c) =
      (bytes.foldl (fun c b => (List.range 8).foldl (fun c _ => Core.crcShift c) (c ^^^ b.toUInt32)) s).toBitVec := by
  induction bytes generalizing c s with
  | nil => exact same
  | cons b bytes ih =>
    rw [List.foldl_cons,List.foldl_cons]
    exact ih (crc_byte same b)

-- A checksum begun with another's goes on from it.
theorem crc32c_after (front bytes : Bytes) : crc32c bytes (Core.crc32c front).toNat = (Core.crc32c (front++bytes)).toNat := by
  have start : int32 (ushr (bitNot (Core.crc32c front).toNat) 0) =
      (front.foldl (fun c b => (List.range 8).foldl (fun c _ => Core.crcShift c) (c ^^^ b.toUInt32)) 0xffffffff).toBitVec := by
    unfold Core.crc32c
    generalize front.foldl _ _ = s
    rw [int32_ushr,BitVec.ushiftRight_zero,int32_bitNot,← UInt32.toNat_toBitVec,int32_toNat,UInt32.toBitVec_xor]
    show ~~~(s.toBitVec ^^^ BitVec.allOnes 32) = _
    rw [BitVec.xor_allOnes,BitVec.not_not]
  unfold crc32c
  dsimp only
  rw [ushr,int32_bitNot,BitVec.ushiftRight_zero,crc_bytes start bytes,← List.foldl_append,Core.crc32c,← UInt32.toNat_toBitVec,
    UInt32.toBitVec_xor]
  show ((~~~_ : BitVec 32).toNat : Int) = ((_ ^^^ BitVec.allOnes 32 : BitVec 32).toNat : Int)
  rw [BitVec.xor_allOnes]

theorem crc32c_server (bytes : Bytes) : crc32c bytes 0 = (Core.crc32c bytes).toNat := crc32c_after [] bytes

namespace Fnv64

-- Four limbs that are the server's 64 bits.
structure Holds (f : Fnv64) (a0 a1 a2 a3 : Nat) (h : UInt64) : Prop where
  is : f = ⟨a0,a1,a2,a3⟩
  low0 : a0 < 2^16
  low1 : a1 < 2^16
  low2 : a2 < 2^16
  low3 : a3 < 2^16
  bits : h.toNat = a0+a1*2^16+a2*2^32+a3*2^48

-- The low byte of the lowest limb alone takes a byte's bits.
theorem toNat_xor {a0 a1 a2 a3 : Nat} {h : UInt64} (low0 : a0 < 2^16) (bits : h.toNat = a0+a1*2^16+a2*2^32+a3*2^48) (b : UInt8) :
    (h ^^^ b.toUInt64).toNat = (a0 ^^^ b.toNat)+a1*2^16+a2*2^32+a3*2^48 := by
  have byte := b.toNat_lt
  have whole : (h ^^^ b.toUInt64).toNat = h.toNat ^^^ b.toNat := by rw [UInt64.toNat_xor,UInt8.toNat_toUInt64]
  have low : (h.toNat ^^^ b.toNat)%2^16 = a0 ^^^ b.toNat := by
    rw [Nat.xor_mod_two_pow,bits,Nat.mod_eq_of_lt (show b.toNat < 2^16 by omega)]
    congr 1
    omega
  have high : (h.toNat ^^^ b.toNat)/2^16 = a1+a2*2^16+a3*2^32 := by
    rw [← Nat.shiftRight_eq_div_pow,Nat.shiftRight_xor_distrib,Nat.shiftRight_eq_div_pow,Nat.shiftRight_eq_div_pow,
      Nat.div_eq_of_lt (show b.toNat < 2^16 by omega),Nat.xor_zero,bits]
    omega
  rw [whole]
  omega

-- What a byte makes of the limbs: the product by the prime, carried from limb to limb.
theorem byte_limbs {a0 a1 a2 a3 x s1 s2 s3 : Nat} {b : UInt8} (low : x < 2^16) (low1 : a1 < 2^16) (low2 : a2 < 2^16) (low3 : a3 < 2^16)
    (mixed : bitXor a0 b.toNat = x) (first : s1 = a1*435+x*435/2^16) (second : s2 = a2*435+x*2^8%2^16+s1/2^16)
    (third : s3 = a3*435+(x/2^8+a1*2^8)%2^16+s2/2^16) :
    (⟨a0,a1,a2,a3⟩ : Fnv64).byte b = (⟨(x*435%2^16 : Nat),(s1%2^16 : Nat),(s2%2^16 : Nat),(s3%2^16 : Nat)⟩,
      [((x*435 : Nat) : Int),((a1*435 : Nat) : Int),((a2*435 : Nat) : Int),((a2*435+x*2^8%2^16 : Nat) : Int),((a3*435 : Nat) : Int),
        ((a3*435+(x/2^8+a1*2^8)%2^16 : Nat) : Int),(s1 : Int),(s2 : Int),(s3 : Int)]) := by
  have t0 : times x 0x1b3 = (x*435 : Nat) := times_nat (m:=435) (by omega)
  have t1 : times a1 0x1b3 = (a1*435 : Nat) := times_nat (m:=435) (by omega)
  have p2 : times a2 0x1b3 = (a2*435 : Nat) := times_nat (m:=435) (by omega)
  have p3 : times a3 0x1b3 = (a3*435 : Nat) := times_nat (m:=435) (by omega)
  have mask : ∀ {n : Nat}, n < 2^32 → bitAnd n 0xffff = (n%2^16 : Nat) := fun small => bitAnd_mask (k:=16) small (by decide)
  have part : bitAnd (shl x 8) 0xffff = (x*2^8%2^16 : Nat) := by rw [shl_nat (by omega),mask (by omega)]
  have cross : bitAnd (bitOr (ushr x 8) (shl a1 8)) 0xffff = ((x/2^8+a1*2^8)%2^16 : Nat) := by
    rw [ushr_nat (by omega),shl_nat (by omega),bitOr_nat (by omega) (by omega) (by decide),mask (by omega)]
  have t2 : plus (a2*435 : Nat) (x*2^8%2^16 : Nat) = (a2*435+x*2^8%2^16 : Nat) := plus_nat (by omega)
  have t3 : plus (a3*435 : Nat) ((x/2^8+a1*2^8)%2^16 : Nat) = (a3*435+(x/2^8+a1*2^8)%2^16 : Nat) := plus_nat (by omega)
  have c1 : plus (a1*435 : Nat) (ushr (x*435 : Nat) 16) = (s1 : Nat) := by
    rw [ushr_nat (by omega),plus_nat (by omega),first]
  have c2 : plus (a2*435+x*2^8%2^16 : Nat) (ushr (s1 : Nat) 16) = (s2 : Nat) := by
    rw [ushr_nat (by omega),plus_nat (by omega),second]
  have c3 : plus (a3*435+(x/2^8+a1*2^8)%2^16 : Nat) (ushr (s2 : Nat) 16) = (s3 : Nat) := by
    rw [ushr_nat (by omega),plus_nat (by omega),third]
  have q1 : ushr (x*435 : Nat) 16 = (x*435/2^16 : Nat) := ushr_nat (by omega) 16
  have q2 : ushr (s1 : Nat) 16 = (s1/2^16 : Nat) := ushr_nat (by omega) 16
  have q3 : ushr (s2 : Nat) 16 = (s2/2^16 : Nat) := ushr_nat (by omega) 16
  unfold byte
  dsimp only
  rw [mixed,t0,t1,p2,p3,part,cross,t2,t3,c1,c2,c3,mask (by omega),mask (by omega),mask (by omega),mask (by omega),q1,q2,q3]
  subst third second first
  push_cast
  rfl

-- The product from its limbs' quotients and remainders.
theorem carried {x a1 a2 a3 q0 r0 q1 r1 q2 r2 q3 r3 low high past top : Nat} (d0 : 2^16*q0+r0 = x*435)
    (d1 : 2^16*q1+r1 = a1*435+q0) (d2 : 2^16*q2+r2 = a2*435+low+q1) (d3 : 2^16*q3+r3 = a3*435+high+q2)
    (dx : 2^16*top+low = x*2^8) (dc : 2^16*past+high = top+a1*2^8) :
    (x+a1*2^16+a2*2^32+a3*2^48)*1099511628211 =
      (r0+r1*2^16+r2*2^32+r3*2^48)+2^64*(q3+past+a2*2^8+a3*2^24) := by
  linarith

-- The limbs' carries give the product's low 64 bits.
theorem product_limbs {x a1 a2 a3 s1 s2 s3 : Nat} (first : s1 = a1*435+x*435/2^16) (second : s2 = a2*435+x*2^8%2^16+s1/2^16)
    (third : s3 = a3*435+(x/2^8+a1*2^8)%2^16+s2/2^16) :
    (x+a1*2^16+a2*2^32+a3*2^48)*1099511628211%2^64 = x*435%2^16+s1%2^16*2^16+s2%2^16*2^32+s3%2^16*2^48 := by
  have split := carried (Nat.div_add_mod (x*435) (2^16)) ((Nat.div_add_mod s1 (2^16)).trans first)
    ((Nat.div_add_mod s2 (2^16)).trans second) ((Nat.div_add_mod s3 (2^16)).trans third)
    (show 2^16*(x/2^8)+x*2^8%2^16 = x*2^8 by omega) (Nat.div_add_mod (x/2^8+a1*2^8) (2^16))
  rw [split,Nat.add_mul_mod_self_left]
  exact Nat.mod_eq_of_lt (by omega)

-- A byte's product is exact at every step, and the server's.
theorem byte_holds {f : Fnv64} {a0 a1 a2 a3 : Nat} {h : UInt64} (holds : f.Holds a0 a1 a2 a3 h) (b : UInt8) :
    (∃ c0 c1 c2 c3, (f.byte b).1.Holds c0 c1 c2 c3 ((h ^^^ b.toUInt64)*1099511628211)) ∧
      ∀ x ∈ (f.byte b).2, 0 ≤ x ∧ x ≤ Cursor.maxSafe := by
  obtain ⟨rfl,low0,low1,low2,low3,bits⟩ := holds
  have byte := b.toNat_lt
  have mixed : a0 ^^^ b.toNat < 2^16 := Nat.xor_lt_two_pow low0 (by omega)
  have whole := toNat_xor low0 bits b
  rw [byte_limbs mixed low1 low2 low3 (bitXor_nat (by omega) (by omega)) rfl rfl rfl]
  generalize a0 ^^^ b.toNat = x at mixed whole
  constructor
  · refine ⟨_,_,_,_,rfl,Nat.mod_lt _ (by decide),Nat.mod_lt _ (by decide),Nat.mod_lt _ (by decide),Nat.mod_lt _ (by decide),?_⟩
    rw [UInt64.toNat_mul,whole]
    show (x+a1*2^16+a2*2^32+a3*2^48)*1099511628211%2^64 = _
    rw [product_limbs rfl rfl rfl]
  · intro y member
    unfold Cursor.maxSafe
    simp only [List.mem_cons,List.not_mem_nil,or_false] at member
    rcases member with rfl | rfl | rfl | rfl | rfl | rfl | rfl | rfl | rfl <;> omega

theorem update_holds {f : Fnv64} {a0 a1 a2 a3 : Nat} {h : UInt64} (holds : f.Holds a0 a1 a2 a3 h) (bytes : Bytes) :
    (∃ c0 c1 c2 c3, (f.update bytes).Holds c0 c1 c2 c3 (bytes.foldl (fun h b => (h ^^^ b.toUInt64)*1099511628211) h)) ∧
      ∀ x ∈ f.operations bytes, 0 ≤ x ∧ x ≤ Cursor.maxSafe := by
  induction bytes generalizing f a0 a1 a2 a3 h with
  | nil => exact ⟨⟨_,_,_,_,holds⟩,fun x member => absurd member List.not_mem_nil⟩
  | cons b bytes ih =>
    obtain ⟨⟨c0,c1,c2,c3,next⟩,exact_⟩ := byte_holds holds b
    obtain ⟨final,rest⟩ := ih next
    refine ⟨final,fun x member => ?_⟩
    rcases List.mem_append.mp member with here | later
    · exact exact_ x here
    · exact rest x later

-- The two hex digits of a byte.
def hexByte (n : Nat) : List Char := padStart 2 '0' (Nat.toDigits 16 n)

theorem parse_bytes : ∀ n : Fin 256, (hexByte n).mapM hexDigit = some [n.val/16,n.val%16] := by decide +kernel

theorem parseInt_limb {a : Nat} (low : a < 2^16) : parseInt (hexByte (a/2^8)++hexByte (a%2^8)) = some (a : Int) := by
  have high := parse_bytes ⟨a/2^8,by omega⟩
  have below := parse_bytes ⟨a%2^8,by omega⟩
  dsimp only at high below
  rw [parseInt,List.mapM_append,high,below]
  show some (((((0*16+a/2^8/16)*16+a/2^8%16)*16+a%2^8/16)*16+a%2^8%16 : Nat) : Int) = _
  congr 2
  omega

theorem length_hexByte {n : Nat} (low : n < 256) : (hexByte n).length = 2 := by
  have parsed := parse_bytes ⟨n,low⟩
  have size : ∀ {text : List Char} {digits : List Nat}, text.mapM hexDigit = some digits → text.length = digits.length := by
    intro text
    induction text with
    | nil => intro digits is; cases is; rfl
    | cons c text ih =>
      intro digits is
      rw [List.mapM_cons] at is
      cases first : hexDigit c with
      | none => rw [first] at is; cases is
      | some d =>
        cases rest : text.mapM hexDigit with
        | none => rw [first,rest] at is; cases is
        | some more =>
          rw [first,rest] at is
          cases is
          rw [List.length_cons,List.length_cons,ih rest]
  exact size parsed

theorem digest_limbs {a0 a1 a2 a3 : Nat} (low0 : a0 < 2^16) (low1 : a1 < 2^16) (low2 : a2 < 2^16) (low3 : a3 < 2^16) :
    (⟨a0,a1,a2,a3⟩ : Fnv64).digest = [a3/2^8,a3%2^8,a2/2^8,a2%2^8,a1/2^8,a1%2^8,a0/2^8,a0%2^8].map UInt8.ofNat := by
  have top : ∀ {a : Nat}, a < 2^16 → UInt8.ofNat (ushr a 8%256).toNat = UInt8.ofNat (a/2^8) := by
    intro a low
    rw [ushr_nat (by omega)]
    congr 1
    omega
  have bottom : ∀ {a : Nat}, a < 2^16 → UInt8.ofNat (bitAnd a 0xff%256).toNat = UInt8.ofNat (a%2^8) := by
    intro a low
    rw [show (0xff : Int) = ((2^8-1 : Nat) : Int) from rfl,bitAnd_mask (by omega) (by decide)]
    congr 1
    omega
  simp only [digest,List.map_cons,List.map_nil,top low0,top low1,top low2,top low3,bottom low0,bottom low1,bottom low2,bottom low3]

theorem state_limbs {a0 a1 a2 a3 : Nat} (low0 : a0 < 2^16) (low1 : a1 < 2^16) (low2 : a2 < 2^16) (low3 : a3 < 2^16) :
    (⟨a0,a1,a2,a3⟩ : Fnv64).state =
      (hexByte (a3/2^8)++hexByte (a3%2^8))++((hexByte (a2/2^8)++hexByte (a2%2^8))++((hexByte (a1/2^8)++hexByte (a1%2^8))++
        (hexByte (a0/2^8)++hexByte (a0%2^8)))) := by
  have byte : ∀ {n : Nat}, n < 256 → padStart 2 '0' (Nat.toDigits 16 (UInt8.ofNat n).toNat) = hexByte n := by
    intro n low
    rw [UInt8.toNat_ofNat_of_lt' low]
    rfl
  rw [state,digest_limbs low0 low1 low2 low3]
  simp only [List.map_cons,List.map_nil,List.flatMap_cons,List.flatMap_nil]
  rw [byte (by omega),byte (by omega),byte (by omega),byte (by omega),byte (by omega),byte (by omega),byte (by omega),byte (by omega)]
  simp only [List.append_assoc,List.append_nil]

theorem hex_limb {a : Nat} (low : a < 2^16) :
    (hexByte (a/2^8)++hexByte (a%2^8)).length = 4 ∧ (hexByte (a/2^8)++hexByte (a%2^8)).all fun c => (hexDigit c).isSome := by
  have each : ∀ n : Fin 256, ((hexByte n).all fun c => (hexDigit c).isSome) = true := by decide +kernel
  refine ⟨?_,?_⟩
  · rw [List.length_append,length_hexByte (by omega),length_hexByte (by omega)]
  · rw [List.all_append,each ⟨a/2^8,by omega⟩,each ⟨a%2^8,by omega⟩]
    rfl

-- A state that was saved resumes.
theorem resume_state {a0 a1 a2 a3 : Nat} (low0 : a0 < 2^16) (low1 : a1 < 2^16) (low2 : a2 < 2^16) (low3 : a3 < 2^16) :
    resume (⟨a0,a1,a2,a3⟩ : Fnv64).state = some ⟨a0,a1,a2,a3⟩ := by
  have whole := state_limbs low0 low1 low2 low3
  obtain ⟨l0,d0⟩ := hex_limb low0
  obtain ⟨l1,d1⟩ := hex_limb low1
  obtain ⟨l2,d2⟩ := hex_limb low2
  obtain ⟨l3,d3⟩ := hex_limb low3
  have p0 := parseInt_limb low0
  have p1 := parseInt_limb low1
  have p2 := parseInt_limb low2
  have p3 := parseInt_limb low3
  generalize hexByte (a0/2^8)++hexByte (a0%2^8) = t0 at *
  generalize hexByte (a1/2^8)++hexByte (a1%2^8) = t1 at *
  generalize hexByte (a2/2^8)++hexByte (a2%2^8) = t2 at *
  generalize hexByte (a3/2^8)++hexByte (a3%2^8) = t3 at *
  have s3 : slice (t3++(t2++(t1++t0))) 0 4 = t3 := by rw [slice,List.drop_zero,List.take_append_of_le_length (by omega),List.take_of_length_le (by omega)]
  have s2 : slice (t3++(t2++(t1++t0))) 4 8 = t2 := by
    rw [slice,← l3,List.drop_left,List.take_append_of_le_length (by omega),List.take_of_length_le (by omega)]
  have s1 : slice (t3++(t2++(t1++t0))) 8 12 = t1 := by
    rw [slice,show 8 = t3.length+t2.length by omega,← List.drop_drop,List.drop_left,List.drop_left,
      List.take_append_of_le_length (by omega),List.take_of_length_le (by omega)]
  have s0 : slice (t3++(t2++(t1++t0))) 12 16 = t0 := by
    rw [slice,show 12 = t3.length+t2.length+t1.length by omega,← List.drop_drop,← List.drop_drop,List.drop_left,List.drop_left,
      List.drop_left,List.take_of_length_le (by omega)]
  rw [whole,resume,if_neg]
  · show ((parseInt (slice (t3++(t2++(t1++t0))) 12 16)).bind fun h0 => (parseInt (slice (t3++(t2++(t1++t0))) 8 12)).bind fun h1 =>
      (parseInt (slice (t3++(t2++(t1++t0))) 4 8)).bind fun h2 => (parseInt (slice (t3++(t2++(t1++t0))) 0 4)).bind fun h3 =>
        some (⟨h0,h1,h2,h3⟩ : Fnv64)) = _
    rw [s0,s1,s2,s3,p0,p1,p2,p3]
    rfl
  · rintro (size | other)
    · exact size (by simp only [List.length_append]; omega)
    · rw [List.all_append,List.all_append,List.all_append,d0,d1,d2,d3] at other
      cases other

theorem Holds.resume {f : Fnv64} {a0 a1 a2 a3 : Nat} {h : UInt64} (holds : f.Holds a0 a1 a2 a3 h) : Fnv64.resume f.state = some f := by
  obtain ⟨rfl,low0,low1,low2,low3,_⟩ := holds
  exact resume_state low0 low1 low2 low3

theorem Holds.digest {f : Fnv64} {a0 a1 a2 a3 : Nat} {h : UInt64} (holds : f.Holds a0 a1 a2 a3 h) : f.digest = bigEndian 8 h.toNat := by
  obtain ⟨rfl,low0,low1,low2,low3,bits⟩ := holds
  rw [digest_limbs low0 low1 low2 low3,bits]
  show _ = [UInt8.ofNat (_/256^7),UInt8.ofNat (_/256^6),UInt8.ofNat (_/256^5),UInt8.ofNat (_/256^4),UInt8.ofNat (_/256^3),
    UInt8.ofNat (_/256^2),UInt8.ofNat (_/256^1),UInt8.ofNat (_/256^0)]
  have same : ∀ {n m : Nat}, n%256 = m%256 → UInt8.ofNat n = UInt8.ofNat m := by
    intro n m equal
    apply UInt8.toNat_inj.mp
    rw [UInt8.toNat_ofNat',UInt8.toNat_ofNat']
    exact equal
  simp only [List.map_cons,List.map_nil,List.cons.injEq,and_true]
  refine ⟨same ?_,same ?_,same ?_,same ?_,same ?_,same ?_,same ?_,same ?_⟩ <;> omega

theorem run_holds (pieces : List (Bytes × Bool)) : ∃ f a0 a1 a2 a3, run pieces = some f ∧
    f.Holds a0 a1 a2 a3 (Core.fnv1a (pieces.map Prod.fst).flatten) := by
  induction pieces using List.reverseRecOn with
  | nil => exact ⟨{},_,_,_,_,rfl,⟨rfl,by decide,by decide,by decide,by decide,by decide⟩⟩
  | append_singleton pieces p ih =>
    obtain ⟨f,a0,a1,a2,a3,ran,holds⟩ := ih
    obtain ⟨⟨c0,c1,c2,c3,next⟩,_⟩ := update_holds holds p.1
    refine ⟨f.update p.1,c0,c1,c2,c3,?_,?_⟩
    · unfold run at ran ⊢
      rw [List.foldlM_append,ran]
      have step : piece f p = some (f.update p.1) := by
        rw [piece,holds.resume,ite_self]
        rfl
      show (piece f p).bind some = _
      rw [step]
      rfl
    · rw [List.map_append,List.flatten_append,Core.fnv1a,List.foldl_append]
      simpa [Core.fnv1a] using next

end Fnv64

-- However a byte string is cut into pieces, and its state saved and resumed between them, the
-- client's limbs are the server's 64 bits, and no step on the way leaves the exact integers;
-- its CRC-32C by the table is the server's by the bit.
theorem checksums_agree (pieces : List (Bytes × Bool)) (bytes : Bytes) :
    (∃ f, Fnv64.run pieces = some f ∧ f.bits = (Core.fnv1a (pieces.map Prod.fst).flatten).toNat ∧
      f.digest = bigEndian 8 (Core.fnv1a (pieces.map Prod.fst).flatten).toNat ∧ Fnv64.resume f.state = some f ∧
      ∀ x ∈ f.operations bytes, 0 ≤ x ∧ x ≤ Cursor.maxSafe) ∧
    crc32c bytes 0 = (Core.crc32c bytes).toNat := by
  obtain ⟨f,a0,a1,a2,a3,ran,holds⟩ := Fnv64.run_holds pieces
  refine ⟨⟨f,ran,?_,holds.digest,holds.resume,(Fnv64.update_holds holds bytes).2⟩,crc32c_server bytes⟩
  rw [holds.is,holds.bits,Fnv64.bits]
  push_cast
  rfl

end Checksum
end PhaseLock
