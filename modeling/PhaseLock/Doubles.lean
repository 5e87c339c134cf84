import Mathlib.Data.Int.Log
import Mathlib.Data.Rat.Floor
import Mathlib.Algebra.Order.Field.Power
import Mathlib.Tactic.Linarith
import Mathlib.Tactic.NormNum
import Mathlib.Tactic.Positivity
import Mathlib.Tactic.Ring

namespace PhaseLock

-- A double that is not negative.
inductive Double where
  | finite (q : ℚ)
  | infinite
deriving DecidableEq

namespace Double

-- The nearest whole number, the even one of two as near.
def halfEven (q : ℚ) : Nat :=
  let n := ⌊q⌋₊
  if q-n < 1/2 then n else if 1/2 < q-n then n+1 else if n%2 = 0 then n else n+1

-- The exponent of a number's last bit, of 53.
def exponent (q : ℚ) : Int := max (-1074) (Int.log 2 q-52)

def value (q : ℚ) : ℚ := (halfEven (q/2^exponent q) : ℚ)*2^exponent q

def round (q : ℚ) : Double := if 2^1024 ≤ value q then .infinite else .finite (value q)

def plus : Double → Double → Double
  | .finite a, .finite b => round (a+b)
  | _, _ => .infinite

-- The product with a positive number.
def times : Double → Double → Double
  | .finite a, .finite b => round (a*b)
  | _, _ => .infinite

def Below (d : Double) (x : ℚ) : Prop :=
  match d with
  | .finite q => q < x
  | .infinite => False

instance (d : Double) (x : ℚ) : Decidable (d.Below x) :=
  match d with
  | .finite q => inferInstanceAs (Decidable (q < x))
  | .infinite => inferInstanceAs (Decidable False)

theorem halfEven_le {q : ℚ} {n : Nat} (le : q ≤ n) : halfEven q ≤ n := by
  by_cases some : 0 ≤ q
  · have floor : ⌊q⌋₊ ≤ n := Nat.floor_le_of_le le
    have low := Nat.floor_le some
    unfold halfEven
    dsimp only
    rcases Nat.lt_or_eq_of_le floor with less | same
    · split
      · exact floor
      · split
        · exact less
        · split
          · exact floor
          · exact less
    · rw [same] at low ⊢
      rw [if_pos (by linarith)]
  · have zero : ⌊q⌋₊ = 0 := Nat.floor_of_nonpos (by linarith)
    unfold halfEven
    dsimp only
    rw [zero,if_pos (by push_cast; linarith)]
    exact Nat.zero_le _

theorem le_halfEven {q : ℚ} {n : Nat} (le : (n : ℚ) ≤ q) : n ≤ halfEven q := by
  have floor : n ≤ ⌊q⌋₊ := Nat.le_floor le
  unfold halfEven
  dsimp only
  split
  · exact floor
  · split
    · omega
    · split <;> omega

theorem grid {f e : Int} (le : e ≤ f) (k : Nat) : (k : ℚ)*2^f = ((k*2^(f-e).toNat : Nat) : ℚ)*2^e := by
  have split_ : (2 : ℚ)^f = 2^(f-e)*2^e := by rw [← zpow_add₀ (by norm_num)]; congr 1; omega
  have whole : (2 : ℚ)^(f-e) = 2^(f-e).toNat := by
    conv_lhs => rw [← Int.toNat_of_nonneg (show 0 ≤ f-e by omega)]
    rw [zpow_natCast]
  rw [split_,whole]
  push_cast
  ring

theorem exponent_le {q : ℚ} {f : Int} (low : -1074 ≤ f) (some : 0 < q) (less : q < 2^(f+53)) : exponent q ≤ f := by
  refine max_le low ?_
  have bound := Int.zpow_log_le_self (b:=2) (by norm_num) some
  have order : (2 : ℚ)^Int.log 2 q < 2^(f+53) := lt_of_le_of_lt (by exact_mod_cast bound) less
  have := (zpow_lt_zpow_iff_right₀ (by norm_num : (1 : ℚ) < 2)).mp order
  omega

-- Rounding passes no number a double holds.
theorem value_le {q : ℚ} {f : Int} {k : Nat} (low : -1074 ≤ f) (some : 0 < q) (less : q < 2^(f+53)) (le : q ≤ k*2^f) :
    value q ≤ k*2^f := by
  have inside := exponent_le low some less
  have unit : (0 : ℚ) < 2^exponent q := by positivity
  rw [grid inside k] at le ⊢
  refine mul_le_mul_of_nonneg_right ?_ unit.le
  exact_mod_cast halfEven_le ((div_le_iff₀ unit).mpr le)

theorem le_value {q : ℚ} {n : Int} (high : -1022 ≤ n) (le : 2^n ≤ q) : 2^n ≤ value q := by
  have some : 0 < q := lt_of_lt_of_le (by positivity) le
  have over_ := Int.lt_zpow_succ_log_self (b:=2) (by norm_num) q
  have order : (2 : ℚ)^n < 2^(Int.log 2 q+1) := lt_of_le_of_lt le (by exact_mod_cast over_)
  have up := (zpow_lt_zpow_iff_right₀ (by norm_num : (1 : ℚ) < 2)).mp order
  have is : exponent q = Int.log 2 q-52 := max_eq_right (by omega)
  have unit : (0 : ℚ) < 2^exponent q := by positivity
  have bound := Int.zpow_log_le_self (b:=2) (by norm_num) some
  have mantissa : ((2^52 : Nat) : ℚ) ≤ q/2^exponent q := by
    rw [le_div_iff₀ unit,is]
    have whole : ((2^52 : Nat) : ℚ)*2^(Int.log 2 q-52) = 2^Int.log 2 q := by
      rw [zpow_sub₀ (by norm_num)]
      norm_num
      ring
    rw [whole]
    exact_mod_cast bound
  have kept : ((2^52 : Nat) : ℚ) ≤ (halfEven (q/2^exponent q) : ℚ) := by exact_mod_cast le_halfEven mantissa
  have least : (2 : ℚ)^n ≤ ((2^52 : Nat) : ℚ)*2^exponent q := by
    have whole : ((2^52 : Nat) : ℚ)*2^exponent q = 2^(exponent q+52) := by
      rw [zpow_add₀ (by norm_num)]
      norm_num
      ring
    rw [whole]
    exact zpow_le_zpow_right₀ (by norm_num) (by omega)
  exact least.trans (mul_le_mul_of_nonneg_right kept unit.le)

theorem mantissa_le (q : ℚ) : q/2^exponent q ≤ ((2^53 : Nat) : ℚ) := by
  have unit : (0 : ℚ) < 2^exponent q := by positivity
  have over_ := Int.lt_zpow_succ_log_self (b:=2) (by norm_num) q
  rw [div_le_iff₀ unit]
  have order : (2 : ℚ)^(Int.log 2 q+1) ≤ 2^(exponent q+53) :=
    zpow_le_zpow_right₀ (by norm_num) (by have := le_max_right (-1074) (Int.log 2 q-52); unfold exponent; omega)
  have whole : (2 : ℚ)^(exponent q+53) = ((2^53 : Nat) : ℚ)*2^exponent q := by
    rw [zpow_add₀ (by norm_num)]
    norm_num
    ring
  rw [← whole]
  exact le_trans (le_of_lt (by exact_mod_cast over_)) order

-- Below a power of two a double is at most the last one before it.
theorem value_gap {q : ℚ} {f : Int} (less : value q < 2^(f+53)) : value q ≤ (2^53-1 : Nat)*2^f := by
  have unit : (0 : ℚ) < 2^exponent q := by positivity
  have top : (2 : ℚ)^(f+53) = ((2^53 : Nat) : ℚ)*2^f := by
    rw [zpow_add₀ (by norm_num)]
    norm_num
    ring
  by_cases fine : f ≤ exponent q
  · have is : value q = ((halfEven (q/2^exponent q)*2^(exponent q-f).toNat : Nat) : ℚ)*2^f := grid fine _
    have step : (0 : ℚ) < 2^f := by positivity
    rw [is,top] at less
    rw [is]
    have whole := lt_of_mul_lt_mul_right less step.le
    refine mul_le_mul_of_nonneg_right ?_ step.le
    exact_mod_cast Nat.le_sub_one_of_lt (by exact_mod_cast whole)
  · have mantissa := mantissa_le q
    have kept : (halfEven (q/2^exponent q) : ℚ) ≤ ((2^53 : Nat) : ℚ) := by exact_mod_cast halfEven_le mantissa
    have half : (2 : ℚ)^exponent q ≤ 2^(f-1) := zpow_le_zpow_right₀ (by norm_num) (by omega)
    have halved : (2 : ℚ)^(f-1) = 2^f/2 := by rw [zpow_sub_one₀ (by norm_num)]; ring
    have step : (0 : ℚ) < 2^f := by positivity
    calc value q ≤ ((2^53 : Nat) : ℚ)*2^exponent q := mul_le_mul_of_nonneg_right kept unit.le
      _ ≤ ((2^53 : Nat) : ℚ)*(2^f/2) := by rw [← halved]; exact mul_le_mul_of_nonneg_left half (by positivity)
      _ ≤ (2^53-1 : Nat)*2^f := by push_cast; linarith

-- From 2^53 on a double is whole.
theorem value_whole {q : ℚ} (large : 2^53 ≤ value q) : ∃ n : Nat, value q = n := by
  by_cases fine : 0 ≤ exponent q
  · exact ⟨_,(grid fine _).trans (by rw [zpow_zero,mul_one])⟩
  · have unit : (0 : ℚ) < 2^exponent q := by positivity
    have half : (2 : ℚ)^(exponent q) ≤ 2^(-1 : Int) := zpow_le_zpow_right₀ (by norm_num) (by omega)
    have mantissa := mantissa_le q
    have kept : (halfEven (q/2^exponent q) : ℚ) ≤ ((2^53 : Nat) : ℚ) := by exact_mod_cast halfEven_le mantissa
    have small : value q ≤ ((2^53 : Nat) : ℚ)*2^(-1 : Int) :=
      mul_le_mul kept half unit.le (Nat.cast_nonneg _)
    norm_num at small large
    linarith

theorem value_nonneg (q : ℚ) : 0 ≤ value q := mul_nonneg (Nat.cast_nonneg _) (by positivity)

end Double
end PhaseLock
