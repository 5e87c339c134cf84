import PhaseLock.ClientScan
import PhaseLock.Encodings

namespace PhaseLock
namespace Skeleton
open Texts

theorem unit_toNat {n : Nat} (small : n < 0x10000) : (UInt16.ofNat n).toNat = n := UInt16.toNat_ofNat_of_lt' small

-- A unit's place among the units in code-point order.
def rank (x : UInt16) : Nat :=
  if 0xe000 ≤ x.toNat then x.toNat-0x800 else if 0xd800 ≤ x.toNat then x.toNat+0x2000 else x.toNat

theorem rank_injective : Function.Injective rank := by
  intro x y same
  have hx := x.toNat_lt
  have hy := y.toNat_lt
  unfold rank at same
  apply UInt16.toNat_inj.mp
  split_ifs at same <;> omega

theorem unitDiff_neg (x y : UInt16) : unitDiff x y < 0 ↔ rank x < rank y := by
  have hx := x.toNat_lt
  have hy := y.toNat_lt
  unfold unitDiff rank
  simp only [UInt16.le_iff_toNat_le]
  change _ ↔ _
  split_ifs <;> simp_all <;> omega

theorem unitDiff_swap (x y : UInt16) : unitDiff y x = -unitDiff x y := by
  unfold unitDiff
  split_ifs <;> first | omega | (exfalso; tauto)

theorem compareKeys_neg (a b : Units) : compareKeys a b < 0 ↔ a.map rank < b.map rank := by
  induction a generalizing b with
  | nil =>
    cases b with
    | nil => simp [compareKeys]
    | cons y b =>
      have shorter : (([] : Units).length : Int)-(y :: b).length < 0 := by simp only [List.length_nil,List.length_cons]; omega
      exact iff_of_true shorter (List.nil_lt_cons _ _)
  | cons x a ih =>
    cases b with
    | nil =>
      have longer : ¬((x :: a).length : Int)-([] : Units).length < 0 := by simp only [List.length_nil,List.length_cons]; omega
      exact iff_of_false longer (List.not_lt_nil _)
    | cons y b =>
      rw [compareKeys,List.map_cons,List.map_cons,List.cons_lt_cons_iff]
      by_cases same : x = y
      · subst same
        simpa using ih b
      · rw [if_neg same,unitDiff_neg]
        simp [rank_injective.eq_iff,same]

theorem compareKeys_swap (a b : Units) : compareKeys b a = -compareKeys a b := by
  induction a generalizing b with
  | nil => cases b <;> simp [compareKeys]
  | cons x a ih =>
    cases b with
    | nil => simp [compareKeys]
    | cons y b =>
      rw [compareKeys,compareKeys]
      by_cases same : x = y
      · subst same
        simpa using ih b
      · rw [if_neg same,if_neg (Ne.symm same),unitDiff_swap]

-- Code-unit order is code-point order where one side holds no high unit.
theorem unitCompare_sign {a b : Units} (low : highUnit a = false ∨ highUnit b = false) :
    (unitCompare a b).sign = (compareKeys a b).sign := by
  induction a generalizing b with
  | nil =>
    cases b with
    | nil => rfl
    | cons y b =>
      have shorter : (([] : Units).length : Int)-(y :: b).length < 0 := by simp only [List.length_nil,List.length_cons]; omega
      rw [unitCompare,compareKeys,Int.sign_eq_neg_one_of_neg shorter]
      · rfl
      · intro _ _ _ _ none _; cases none
  | cons x a ih =>
    cases b with
    | nil =>
      have longer : 0 < ((x :: a).length : Int)-([] : Units).length := by simp only [List.length_nil,List.length_cons]; omega
      rw [unitCompare,compareKeys,Int.sign_eq_one_of_pos longer]
      · rfl
      · intro _ _ _ _ _ none; cases none
    | cons y b =>
      rw [unitCompare,compareKeys]
      by_cases same : x = y
      · subst same
        rw [if_neg (UInt16.lt_irrefl x),if_neg (UInt16.lt_irrefl x),if_pos rfl]
        refine ih ?_
        simp only [highUnit,List.any_cons,Bool.or_eq_false_iff] at low
        exact low.imp And.right And.right
      · have apart : x.toNat ≠ y.toNat := fun equal => same (UInt16.toNat_inj.mp equal)
        have one : ¬((0xd800 : UInt16) ≤ x ∧ (0xd800 : UInt16) ≤ y) := by
          simp only [highUnit,List.any_cons,Bool.or_eq_false_iff,decide_eq_false_iff_not] at low
          tauto
        rw [if_neg same,unitDiff,if_neg one]
        by_cases below : x < y
        · rw [UInt16.lt_iff_toNat_lt] at below
          have less : (x.toNat : Int)-y.toNat < 0 := by omega
          rw [if_pos (UInt16.lt_iff_toNat_lt.mpr below),Int.sign_eq_neg_one_of_neg less]
          rfl
        · rw [UInt16.lt_iff_toNat_lt] at below
          have more : 0 < (x.toNat : Int)-y.toNat := by omega
          have other : y < x := UInt16.lt_iff_toNat_lt.mpr (by omega)
          rw [if_neg (by rwa [UInt16.lt_iff_toNat_lt]),if_pos other,Int.sign_eq_one_of_pos more]
          rfl

theorem exactFor_sign {keys : List (Option Units)} {a b : Units} (one : some a ∈ keys ∨ some b ∈ keys) :
    (exactFor keys a b).sign = (compareKeys a b).sign := by
  unfold exactFor
  split
  · rfl
  · rename_i none
    simp only [List.any_eq_true,not_exists,not_and,Bool.not_eq_true] at none
    have low : ∀ k, some k ∈ keys → highUnit k = false := fun k member => by simpa using none _ member
    exact unitCompare_sign (one.imp (low a) (low b))

-- The places of a character's units.
def ranks (c : Char) : List Nat := (utf16Char c).map rank

theorem char_valid (c : Char) : c.val.toNat < 0xd800 ∨ 0xdfff < c.val.toNat ∧ c.val.toNat < 0x110000 := c.valid

theorem rank_ofNat {n : Nat} (small : n < 0x10000) : rank (UInt16.ofNat n) =
    if 0xe000 ≤ n then n-0x800 else if 0xd800 ≤ n then n+0x2000 else n := by
  rw [rank,unit_toNat small]

theorem ranks_eq (c : Char) : ranks c =
    if c.val.toNat < 0xd800 then [c.val.toNat] else if c.val.toNat < 0x10000 then [c.val.toNat-0x800]
    else [0xf800+(c.val.toNat-0x10000)/0x400,0xfc00+(c.val.toNat-0x10000)%0x400] := by
  have valid := char_valid c
  unfold ranks utf16Char
  generalize c.val.toNat = n at *
  dsimp only
  split_ifs with wide low low
  · rw [List.map_singleton,rank_ofNat wide,if_neg (by omega),if_neg (by omega)]
  · rw [List.map_singleton,rank_ofNat wide,if_pos (by omega)]
  · omega
  · have high : 0xd800+(n-0x10000)/0x400 < 0x10000 := by omega
    have trail : 0xdc00+(n-0x10000)%0x400 < 0x10000 := by omega
    have first : rank (UInt16.ofNat (0xd800+(n-0x10000)/0x400)) = 0xf800+(n-0x10000)/0x400 := by
      rw [rank_ofNat high,if_neg (by omega),if_pos (by omega)]
      omega
    have second : rank (UInt16.ofNat (0xdc00+(n-0x10000)%0x400)) = 0xfc00+(n-0x10000)%0x400 := by
      rw [rank_ofNat trail,if_neg (by omega),if_pos (by omega)]
      omega
    rw [List.map_cons,List.map_singleton,first,second]

theorem ranks_code : Code ranks := by
  intro c d less x y
  have order : c.val.toNat < d.val.toNat := less
  have validC := char_valid c
  have validD := char_valid d
  rw [ranks_eq,ranks_eq]
  generalize c.val.toNat = n at *
  generalize d.val.toNat = m at *
  split_ifs <;> simp only [List.cons_append,List.nil_append,List.cons_lt_cons_iff] <;> omega

theorem utf16_ranks (t : List Char) : (utf16 t).map rank = t.flatMap ranks := by
  rw [utf16,List.map_flatMap]
  rfl

@[simp] theorem utf16_append (a b : List Char) : utf16 (a++b) = utf16 a++utf16 b := List.flatMap_append

theorem utf16_inj {a b : List Char} : utf16 a = utf16 b ↔ a = b := by
  rw [← ranks_code.eq_iff,← utf16_ranks,← utf16_ranks]
  exact rank_injective.list_map.eq_iff.symm

theorem utf16_starts (a b : List Char) : utf16 a <+: utf16 b ↔ a <+: b := by
  rw [← ranks_code.prefix_iff,← utf16_ranks,← utf16_ranks]
  exact (List.prefix_map_iff_of_injective rank_injective).symm

-- The client's order of keys is the order of their characters.
theorem compareKeys_lt (a b : List Char) : compareKeys (utf16 a) (utf16 b) < 0 ↔ a < b := by
  rw [compareKeys_neg,utf16_ranks,utf16_ranks,ranks_code.lt_iff]

theorem compareKeys_gt (a b : List Char) : 0 < compareKeys (utf16 a) (utf16 b) ↔ b < a := by
  rw [← compareKeys_lt,compareKeys_swap (utf16 a) (utf16 b)]
  omega

theorem compareKeys_eq (a b : List Char) : compareKeys (utf16 a) (utf16 b) = 0 ↔ a = b := by
  have low := compareKeys_lt a b
  have high := compareKeys_gt a b
  rcases lt_trichotomy a b with less | same | more
  · exact iff_of_false (by have := low.mpr less; omega) (ne_of_lt less)
  · subst same
    have neither := mt low.mp (lt_irrefl a)
    have nor := mt high.mp (lt_irrefl a)
    exact iff_of_true (by omega) rfl
  · exact iff_of_false (by have := high.mpr more; omega) (ne_of_gt more)

section Exact
variable {keys : List (Option Units)} {a b : List Char}

theorem exact_lt (one : some (utf16 a) ∈ keys ∨ some (utf16 b) ∈ keys) : exactFor keys (utf16 a) (utf16 b) < 0 ↔ a < b := by
  rw [← compareKeys_lt,← Int.sign_neg_iff,exactFor_sign one,Int.sign_neg_iff]

theorem exact_gt (one : some (utf16 a) ∈ keys ∨ some (utf16 b) ∈ keys) : 0 < exactFor keys (utf16 a) (utf16 b) ↔ b < a := by
  rw [← compareKeys_gt,← Int.sign_pos_iff,exactFor_sign one,Int.sign_pos_iff]

theorem exact_eq (one : some (utf16 a) ∈ keys ∨ some (utf16 b) ∈ keys) : exactFor keys (utf16 a) (utf16 b) = 0 ↔ a = b := by
  rw [← compareKeys_eq,← Int.sign_eq_zero_iff_zero,exactFor_sign one,Int.sign_eq_zero_iff_zero]

end Exact

-- A character below the surrogates is one unit, in no other character.
theorem utf16_sign {s : Char} (low : s.val.toNat < 0xd800) : Sign utf16Char s s.val.toUInt16 := by
  have sign : s.val.toUInt16 = UInt16.ofNat s.val.toNat := rfl
  rw [sign]
  constructor
  · unfold utf16Char
    dsimp only
    rw [if_pos (by omega)]
  · intro c other member
    have apart : c.val.toNat ≠ s.val.toNat := fun same => other (Char.ext (UInt32.toNat_inj.mp same))
    have valid := char_valid c
    unfold utf16Char at member
    dsimp only at member
    generalize c.val.toNat = n at *
    generalize s.val.toNat = m at *
    have place : (UInt16.ofNat m).toNat = m := unit_toNat (by omega)
    split_ifs at member <;> simp only [List.mem_cons,List.not_mem_nil,or_false,← UInt16.toNat_inj,place] at member
    · rw [unit_toNat (by omega)] at member
      omega
    · rw [unit_toNat (by omega),unit_toNat (by omega)] at member
      omega

def topChar : Char := Char.ofNat 0x10ffff

-- The character above another, stepping over the surrogates.
def upChar (c : Char) : Char := Char.ofNat (if c.val.toNat = 0xd7ff then 0xe000 else c.val.toNat+1)

def textEnd : List Char → Option (List Char) := bound topChar upChar

theorem ofNat_val {n : Nat} (valid : n.isValidChar) : (Char.ofNat n).val.toNat = n := by
  rw [Char.ofNat,dif_pos valid]
  rfl

theorem topChar_val : topChar.val.toNat = 0x10ffff := ofNat_val (.inr ⟨by omega,by omega⟩)

theorem char_eq {c d : Char} : c = d ↔ c.val.toNat = d.val.toNat := by
  rw [UInt32.toNat_inj]
  exact Char.ext_iff

theorem char_lt {c d : Char} : c < d ↔ c.val.toNat < d.val.toNat := Iff.rfl

theorem char_le_top (c : Char) : c ≤ topChar := by
  have valid := char_valid c
  rw [← not_lt,char_lt,topChar_val]
  omega

theorem upChar_val (low : c ≠ topChar) : (upChar c).val.toNat = if c.val.toNat = 0xd7ff then 0xe000 else c.val.toNat+1 := by
  have valid := char_valid c
  rw [Ne,char_eq,topChar_val] at low
  refine ofNat_val ?_
  unfold Nat.isValidChar
  split_ifs <;> omega

theorem next_char (c : Char) (low : c ≠ topChar) : Next c (upChar c) := by
  intro d
  have valid := char_valid d
  rw [char_lt,upChar_val low,← not_lt,char_lt]
  split_ifs <;> omega

theorem textEnd_bounds {t end_ : List Char} (made : textEnd t = some end_) : Bounds t end_ :=
  bound_bounds char_le_top next_char made

theorem utf16_single (t : List Char) (c : Char) : utf16 (t++[c]) = utf16 t++utf16Char c := by simp [utf16]

theorem utf16Char_top : utf16Char topChar = topPair := by
  unfold utf16Char
  rw [topChar_val]
  rfl

theorem ends_apart (other : c ≠ topChar) (t : Units) : ¬topPair <:+ t++utf16Char c := by
  have valid := char_valid c
  rw [Ne,char_eq,topChar_val] at other
  rintro ⟨front,whole⟩
  unfold utf16Char at whole
  dsimp only at whole
  generalize c.val.toNat = n at *
  split_ifs at whole with wide
  · have last := congrArg List.getLast? whole
    simp only [topPair,List.getLast?_append,List.getLast?_cons_cons,List.getLast?_singleton,Option.some_or,Option.some.injEq,
      ← UInt16.toNat_inj,unit_toNat wide] at last
    change 0xdfff = n at last
    omega
  · obtain ⟨_,pair⟩ := List.append_inj' whole (by simp [topPair])
    have high : 0xd800+(n-0x10000)/0x400 < 0x10000 := by omega
    have trail : 0xdc00+(n-0x10000)%0x400 < 0x10000 := by omega
    simp only [topPair,List.cons.injEq,← UInt16.toNat_inj,unit_toNat high,unit_toNat trail,and_true] at pair
    obtain ⟨first,second⟩ := pair
    change 0xdbff = _ at first
    change 0xdfff = _ at second
    omega

theorem trimTop_top (t : List Char) : trimTop (utf16 (t++[topChar])) = trimTop (utf16 t) := by
  rw [utf16_single,utf16Char_top,trimTop,if_pos (List.suffix_append _ _)]
  congr 1
  simp [topPair]

theorem trimTop_other (other : c ≠ topChar) (t : List Char) : trimTop (utf16 (t++[c])) = utf16 (t++[c]) := by
  rw [utf16_single,trimTop,if_neg (ends_apart other _)]

theorem isHigh_iff (x : UInt16) : isHigh x = true ↔ 0xd800 ≤ x.toNat ∧ x.toNat ≤ 0xdbff := by
  simp [isHigh,UInt16.le_iff_toNat_le]

theorem isLow_iff (x : UInt16) : isLow x = true ↔ 0xdc00 ≤ x.toNat ∧ x.toNat ≤ 0xdfff := by
  simp [isLow,UInt16.le_iff_toNat_le]

theorem codePointAt_last (a : Units) (x : UInt16) : codePointAt (a++[x]) a.length = some x.toNat := by
  simp [codePointAt]

theorem codePointAt_pair (a : Units) (x y : UInt16) : codePointAt (a++[x,y]) a.length =
    if isHigh x && isLow y then some (0x10000+(x.toNat-0xd800)*0x400+(y.toNat-0xdc00)) else some x.toNat := by
  simp [codePointAt]

theorem prefixEnd_other (other : c ≠ topChar) (t : List Char) : prefixEnd (utf16 (t++[c])) = some (utf16 (t++[upChar c])) := by
  have valid := char_valid c
  have up := upChar_val other
  have made : utf16Char (upChar c) = fromCodePoint (if c.val.toNat = 0xd7ff then 0xe000 else c.val.toNat+1) := by
    rw [← up]
    rfl
  rw [prefixEnd,trimTop_other other,utf16_single,utf16_single,made]
  dsimp only
  by_cases wide : c.val.toNat < 0x10000
  · have unit : utf16Char c = [UInt16.ofNat c.val.toNat] := by rw [utf16Char]; exact if_pos wide
    have single : isLow (UInt16.ofNat c.val.toNat) = false := by
      rw [Bool.eq_false_iff,Ne,isLow_iff,unit_toNat wide]
      omega
    rw [unit,if_neg (by simp)]
    -- the unit before it starts no pair with it
    have apart : (2 ≤ (utf16 t++[UInt16.ofNat c.val.toNat]).length &&
        (codePointAt (utf16 t++[UInt16.ofNat c.val.toNat]) ((utf16 t++[UInt16.ofNat c.val.toNat]).length-2)).any (0xffff < ·)) =
        false := by
      rcases List.eq_nil_or_concat (utf16 t) with none | ⟨front,x,is⟩
      · simp [none]
      · have before : utf16 t++[UInt16.ofNat c.val.toNat] = front++[x,UInt16.ofNat c.val.toNat] := by simp [is]
        have size := x.toNat_lt
        rw [before,List.length_append]
        change (_ && (codePointAt _ (front.length+2-2)).any _) = false
        rw [Nat.add_sub_cancel,codePointAt_pair,single,Bool.and_false,if_neg (by simp),Option.any_some,Bool.and_eq_false_iff,
          decide_eq_false_iff_not,decide_eq_false_iff_not]
        omega
    rw [apart,if_neg (by simp),List.length_append,List.length_singleton,Nat.add_sub_cancel,codePointAt_last,unit_toNat wide,
      Option.map_some,List.take_left]
  · have high : 0xd800+(c.val.toNat-0x10000)/0x400 < 0x10000 := by omega
    have trail : 0xdc00+(c.val.toNat-0x10000)%0x400 < 0x10000 := by omega
    have units : utf16Char c = [UInt16.ofNat (0xd800+(c.val.toNat-0x10000)/0x400),
        UInt16.ofNat (0xdc00+(c.val.toNat-0x10000)%0x400)] := by rw [utf16Char]; exact if_neg wide
    have point : codePointAt (utf16 t++utf16Char c) (utf16 t).length = some c.val.toNat := by
      have pair : (isHigh (UInt16.ofNat (0xd800+(c.val.toNat-0x10000)/0x400)) &&
          isLow (UInt16.ofNat (0xdc00+(c.val.toNat-0x10000)%0x400))) = true := by
        rw [Bool.and_eq_true,isHigh_iff,isLow_iff,unit_toNat high,unit_toNat trail]
        omega
      rw [units,codePointAt_pair,if_pos pair,unit_toNat high,unit_toNat trail]
      exact congrArg some (by omega)
    have length : (utf16 t++utf16Char c).length-2 = (utf16 t).length := by rw [units]; simp
    have whole : (2 ≤ (utf16 t++utf16Char c).length && (codePointAt (utf16 t++utf16Char c)
        ((utf16 t++utf16Char c).length-2)).any (0xffff < ·)) = true := by
      rw [length,point,units,Bool.and_eq_true,decide_eq_true_eq,Option.any_some,decide_eq_true_eq]
      refine ⟨by simp,?_⟩
      omega
    have some_ : utf16 t++utf16Char c ≠ [] := by simp [units]
    rw [if_neg some_,whole,if_pos rfl,length,point,Option.map_some,List.take_left]

-- The client's bound of a text is the bound of its characters.
theorem prefixEnd_utf16 (t : List Char) : prefixEnd (utf16 t) = (textEnd t).map utf16 := by
  induction t using List.reverseRecOn with
  | nil => simp [prefixEnd,utf16,trimTop,topPair,textEnd,bound]
  | append_singleton t c ih =>
    by_cases top : c = topChar
    · subst top
      rw [textEnd,bound_concat_top,prefixEnd,trimTop_top]
      exact ih
    · rw [textEnd,bound_concat top,prefixEnd_other top]
      rfl

end Skeleton
end PhaseLock
