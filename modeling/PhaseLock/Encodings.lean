import PhaseLock.Scan
import Mathlib.Data.Char

namespace PhaseLock
namespace Mp
open Texts

theorem byte_lt {n m : Nat} (n8 : n < 256) (m8 : m < 256) : UInt8.ofNat n < UInt8.ofNat m ↔ n < m := by
  rw [UInt8.lt_iff_toNat_lt,UInt8.toNat_ofNat_of_lt' n8,UInt8.toNat_ofNat_of_lt' m8]

theorem byte_eq {n m : Nat} (n8 : n < 256) (m8 : m < 256) : UInt8.ofNat n = UInt8.ofNat m ↔ n = m := by
  rw [← UInt8.toNat_inj,UInt8.toNat_ofNat_of_lt' n8,UInt8.toNat_ofNat_of_lt' m8]

theorem bytes_lt {n m : Nat} (n8 : n < 256) (m8 : m < 256) (x y : Bytes) :
    UInt8.ofNat n :: x < UInt8.ofNat m :: y ↔ n < m ∨ n = m ∧ x < y := by
  rw [List.cons_lt_cons_iff,byte_lt n8 m8,byte_eq n8 m8]

theorem digits_lt (n m : Nat) : n < m ↔ n/64 < m/64 ∨ n/64 = m/64 ∧ n%64 < m%64 := by omega

theorem encode_lt {c d : Char} (less : c < d) (x y : Bytes) : String.utf8EncodeChar c++x < String.utf8EncodeChar d++y := by
  have order : c.val.toNat < d.val.toNat := less
  have top : d.val.toNat < 0x110000 := by
    have := d.valid
    simp only [UInt32.isValidChar,Nat.isValidChar] at this
    omega
  unfold String.utf8EncodeChar
  dsimp only
  generalize c.val.toNat = n at *
  generalize d.val.toNat = m at *
  have n1 : n/4096 = n/64/64 := by rw [Nat.div_div_eq_div_mul]
  have n2 : n/262144 = n/64/64/64 := by rw [Nat.div_div_eq_div_mul,Nat.div_div_eq_div_mul]
  have m1 : m/4096 = m/64/64 := by rw [Nat.div_div_eq_div_mul]
  have m2 : m/262144 = m/64/64/64 := by rw [Nat.div_div_eq_div_mul,Nat.div_div_eq_div_mul]
  rw [n1,n2,m1,m2]
  -- the highest digit the two differ in is the first byte they differ in
  rcases (digits_lt n m).mp order with d1 | ⟨d1,l1⟩
  · rcases (digits_lt _ _).mp d1 with d2 | ⟨d2,l2⟩
    · rcases (digits_lt _ _).mp d2 with d3 | ⟨d3,l3⟩
      all_goals
        split_ifs <;> simp only [List.cons_append,List.nil_append] <;>
          (repeat rw [bytes_lt (by omega) (by omega)]) <;> omega
    · split_ifs <;> simp only [List.cons_append,List.nil_append] <;>
        (repeat rw [bytes_lt (by omega) (by omega)]) <;> omega
  · split_ifs <;> simp only [List.cons_append,List.nil_append] <;>
      (repeat rw [bytes_lt (by omega) (by omega)]) <;> omega

instance charsNontrivial : Nontrivial Char := ⟨'a','b',by decide⟩

theorem utf8_code : Code String.utf8EncodeChar := fun _ _ less => encode_lt less

-- Texts in UTF-8 stand in the order of their characters.
theorem utf8_lt (a b : List Char) : utf8 a < utf8 b ↔ a < b := utf8_code.lt_iff a b

theorem utf8_mono {a b : List Char} (less : a < b) : utf8 a < utf8 b := (utf8_lt a b).mpr less

theorem utf8_inj {a b : List Char} : utf8 a = utf8 b ↔ a = b := utf8_code.eq_iff a b

theorem utf8_starts (a b : List Char) : utf8 a <+: utf8 b ↔ a <+: b := utf8_code.prefix_iff a b

@[simp] theorem utf8_append (a b : List Char) : utf8 (a++b) = utf8 a++utf8 b := List.flatMap_append

-- A character below 0x80 is one byte, in no other character.
theorem utf8_sign {s : Char} (low : s.val.toNat < 0x80) : Sign String.utf8EncodeChar s s.val.toUInt8 := by
  constructor
  · unfold String.utf8EncodeChar
    dsimp only
    rw [if_pos (by omega)]
    rfl
  · intro c other member
    have apart : c.val.toNat ≠ s.val.toNat := fun same => other (Char.ext (UInt32.toNat_inj.mp same))
    have top : c.val.toNat < 0x110000 := by
      have := c.valid
      simp only [UInt32.isValidChar,Nat.isValidChar] at this
      omega
    have sign : s.val.toUInt8 = UInt8.ofNat s.val.toNat := rfl
    rw [sign] at member
    unfold String.utf8EncodeChar at member
    dsimp only at member
    generalize c.val.toNat = n at *
    generalize s.val.toNat = m at *
    split_ifs at member <;> simp only [List.mem_cons,List.not_mem_nil,or_false] at member <;>
      (repeat rw [byte_eq (by omega) (by omega)] at member) <;> omega

end Mp
end PhaseLock
