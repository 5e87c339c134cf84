import PhaseLock.Cron
import Mathlib.Data.Nat.Digits.Defs

namespace PhaseLock
namespace Cron

-- A number of 32 bits, in decimal, with or without a plus.
def Number (text : Text) (n : Nat) : Prop :=
  ∃ digits, (text = digits ∨ text = '+' :: digits) ∧ digits ≠ [] ∧ (∀ c ∈ digits, c.isDigit = true) ∧
    n = Nat.ofDigits 10 (digits.reverse.map fun c => c.toNat-48) ∧ n < 2^32

-- A value is a number, or one of the field's names, in any case, which stands for its place.
def Value (min : Nat) (names : List Text) (text : Text) (n : Nat) : Prop :=
  Number text n ∨ ∃ i, names[i]? = some (text.map Char.toLower) ∧ n = i+min

-- A star is all the field's values, a-b those from one to the other, and a value itself alone,
-- or with a step all from it on.
inductive Spans (min max : Nat) (names : List Text) (stepped : Bool) : Text → Nat → Nat → Prop
  | star : Spans min max names stepped ['*'] min max
  | any : Spans min max names stepped ['?'] min max
  | range : Value min names a lo → Value min names b hi → Spans min max names stepped (a++ '-' :: b) lo hi
  | one : Value min names a v → Spans min max names stepped a v (if stepped then max else v)

-- A part is a range in steps of one, or of the number after its slash.
inductive Reads (min max : Nat) (names : List Text) : Text → Nat → Nat → Nat → Prop
  | plain : Spans min max names false range lo hi → Reads min max names range lo hi 1
  | stepped : Spans min max names true range lo hi → Number step n → Reads min max names (range++ '/' :: step) lo hi n

-- What a part denotes, in its field's bounds.
structure Means (min max : Nat) (names : List Text) (part : Text) (lo hi step : Nat) : Prop where
  reads : Reads min max names part lo hi step
  low : min ≤ lo
  ordered : lo ≤ hi
  high : hi ≤ max
  positive : 0 < step

-- Names of small letters, no two the same.
structure Lettered (names : List Text) : Prop where
  distinct : names.Nodup
  letters : ∀ name ∈ names, name ≠ [] ∧ ∀ c ∈ name, c.isLower = true

theorem lettered_none : Lettered [] := ⟨List.nodup_nil,fun _ none => by cases none⟩

theorem lettered_of {names : List Text} (distinct : names.Nodup)
    (each : (names.all fun name => !name.isEmpty && name.all Char.isLower) = true) : Lettered names := by
  refine ⟨distinct,fun name member => ?_⟩
  obtain ⟨some_,lower⟩ := Bool.and_eq_true_iff.mp (List.all_eq_true.mp each name member)
  exact ⟨by simpa using some_,List.all_eq_true.mp lower⟩

theorem lettered_months : Lettered months := lettered_of (by decide) (by decide)

theorem lettered_days : Lettered days := lettered_of (by decide) (by decide)

theorem digitsValue_digits (digits : Text) : digitsValue digits = Nat.ofDigits 10 (digits.reverse.map fun c => c.toNat-48) := by
  unfold digitsValue
  induction digits using List.reverseRecOn with
  | nil => rfl
  | append_singleton front c ih =>
    rw [List.foldl_concat,ih,List.reverse_concat,List.map_cons,Nat.ofDigits_cons]
    exact Nat.add_comm _ _ |>.trans (congrArg _ (Nat.mul_comm _ _))

theorem digit_apart {c : Char} (digit : c.isDigit = true) : c ≠ '+' ∧ c ≠ '-' ∧ c ≠ '/' ∧ c ≠ '*' ∧ c ≠ '?' ∧ c.toLower.isLower = false := by
  refine ⟨?_,?_,?_,?_,?_,?_⟩
  · rintro rfl
    cases digit
  · rintro rfl
    cases digit
  · rintro rfl
    cases digit
  · rintro rfl
    cases digit
  · rintro rfl
    cases digit
  · have low : c.val.toNat ≤ 57 := by
      unfold Char.isDigit at digit
      simp only [ge_iff_le,Bool.and_eq_true,decide_eq_true_eq,UInt32.le_iff_toNat_le] at digit
      exact digit.2
    have same : c.toLower = c := by
      unfold Char.toLower
      rw [dif_neg]
      simp only [ge_iff_le,UInt32.le_iff_toNat_le,not_and]
      intro upper
      have : 65 ≤ c.val.toNat := upper
      omega
    rw [same]
    unfold Char.isLower
    simp only [ge_iff_le,Bool.and_eq_false_imp,decide_eq_true_eq,UInt32.le_iff_toNat_le]
    intro lower
    have : 97 ≤ c.val.toNat := lower
    omega

theorem parseU32_number {text : Text} {n : Nat} : parseU32 text = some n ↔ Number text n := by
  have reads : ∀ digits : Text, (if digits ≠ [] ∧ digits.all Char.isDigit = true ∧ digitsValue digits < 2^32 then some (digitsValue digits)
      else none) = some n ↔ digits ≠ [] ∧ (∀ c ∈ digits, c.isDigit = true) ∧
        n = Nat.ofDigits 10 (digits.reverse.map fun c => c.toNat-48) ∧ n < 2^32 := by
    intro digits
    rw [← digitsValue_digits,← List.all_eq_true]
    split
    · rename_i all
      rw [Option.some.injEq]
      constructor
      · rintro rfl
        exact ⟨all.1,all.2.1,rfl,all.2.2⟩
      · exact fun both => both.2.2.1.symm
    · rename_i some
      refine ⟨fun none => (by cases none),fun both => absurd ⟨both.1,both.2.1,?_⟩ some⟩
      rw [← both.2.2.1]
      exact both.2.2.2
  unfold Number
  by_cases plus : ∃ rest, text = '+' :: rest
  · obtain ⟨rest,rfl⟩ := plus
    refine (reads rest).trans ⟨fun whole => ⟨rest,.inr rfl,whole⟩,?_⟩
    rintro ⟨digits,same | same,some,all,value⟩
    · exact absurd rfl (digit_apart (all '+' (same ▸ List.mem_cons_self))).1
    · cases same
      exact ⟨some,all,value⟩
  · have plain : parseU32 text = if text ≠ [] ∧ text.all Char.isDigit = true ∧ digitsValue text < 2^32 then some (digitsValue text) else none := by
      unfold parseU32
      dsimp only
      split
      · exact absurd ⟨_,rfl⟩ plus
      · rfl
    rw [plain]
    refine (reads text).trans ⟨fun whole => ⟨text,.inl rfl,whole⟩,?_⟩
    rintro ⟨digits,same | same,whole⟩
    · exact same ▸ whole
    · exact absurd ⟨digits,same⟩ plus

-- What holds none of the signs a part is split at.
def Unsplit (text : Text) : Prop := ∀ c ∈ text, c ≠ '-' ∧ c ≠ '/' ∧ c ≠ '*' ∧ c ≠ '?'

theorem Number.unsplit {text : Text} {n : Nat} (number : Number text n) : Unsplit text := by
  obtain ⟨digits,is,_,all,_⟩ := number
  intro c member
  have apart : c = '+' ∨ c.isDigit = true := by
    rcases is with rfl | rfl
    · exact .inr (all c member)
    · exact (List.mem_cons.mp member).imp_right (all c)
  rcases apart with rfl | digit
  · decide
  · have := digit_apart digit
    exact ⟨this.2.1,this.2.2.1,this.2.2.2.1,this.2.2.2.2.1⟩

theorem ok_bind {α β : Type} {x : Except Trouble α} {g : α → Except Trouble β} {b : β} (ran : (x >>= g) = .ok b) :
    ∃ a, x = .ok a ∧ g a = .ok b := by
  cases x with
  | error t => cases ran
  | ok a => exact ⟨a,rfl,ran⟩

theorem splitOnce_some {sign : Char} {text a b : Text} : splitOnce sign text = some (a,b) ↔ sign ∉ a ∧ text = a++sign :: b := by
  unfold splitOnce
  constructor
  · intro cut
    cases rest : text.dropWhile (· ≠ sign) with
    | nil => 
      rw [rest] at cut
      cases cut
    | cons head tail =>
      rw [rest] at cut
      cases cut
      have first : head = sign := by
        have starts := List.head?_dropWhile_not (fun c : Char => decide (c ≠ sign)) text
        rw [rest] at starts
        simpa using starts
      refine ⟨fun member => ?_,?_⟩
      · have := List.mem_takeWhile_imp member
        simp at this
      · conv_lhs => rw [← List.takeWhile_append_dropWhile (p := (· ≠ sign)) (l := text),rest,first]
  · rintro ⟨clear,rfl⟩
    have kept : ∀ c ∈ a, decide (c ≠ sign) = true := fun c member => by
      simp only [decide_eq_true_eq]
      rintro rfl
      exact clear member
    rw [List.dropWhile_append_of_pos kept,List.takeWhile_append_of_pos kept]
    simp

theorem splitOnce_none {sign : Char} {text : Text} : splitOnce sign text = none ↔ sign ∉ text := by
  unfold splitOnce
  cases rest : text.dropWhile (· ≠ sign) with
  | nil =>
    refine iff_of_true rfl fun member => ?_
    have := List.dropWhile_eq_nil_iff.mp rest sign member
    simp at this
  | cons head tail =>
    refine iff_of_false (by simp) (not_not.mpr ?_)
    have starts := List.head?_dropWhile_not (fun c : Char => decide (c ≠ sign)) text
    rw [rest] at starts
    have first : head = sign := by simpa using starts
    exact first ▸ (List.dropWhile_sublist _).subset (rest ▸ List.mem_cons_self)

section Fields
variable {min max : Nat} {names : List Text} (lettered : Lettered names)
include lettered

theorem Value.unsplit {text : Text} {n : Nat} (value : Value min names text n) : Unsplit text := by
  rcases value with number | ⟨i,named,_⟩
  · exact number.unsplit
  · intro c member
    have small := (lettered.letters _ (List.mem_of_getElem? named)).2 c.toLower (List.mem_map_of_mem member)
    refine ⟨?_,?_,?_,?_⟩ <;>
    · rintro rfl
      cases small

theorem name_lower {name : Text} (member : name ∈ names) : name.map Char.toLower = name := by
  refine List.map_congr_left (g := id) (fun c inside => ?_) |>.trans (List.map_id name)
  have small := (lettered.letters name member).2 c inside
  unfold Char.isLower at small
  simp only [ge_iff_le,Bool.and_eq_true,decide_eq_true_eq,UInt32.le_iff_toNat_le] at small
  unfold Char.toLower
  rw [dif_neg]
  · rfl
  · simp only [ge_iff_le,UInt32.le_iff_toNat_le,not_and,not_le]
    intro _
    exact lt_of_lt_of_le (by decide) small.1

theorem readValue_value {text : Text} {n : Nat} : readValue min names text = .ok n ↔ Value min names text n := by
  have found : ∀ i, names.findIdx? (fun name => name.map Char.toLower = text.map Char.toLower) = some i ↔
      names[i]? = some (text.map Char.toLower) := by
    intro i
    rw [List.findIdx?_eq_some_iff_getElem]
    constructor
    · rintro ⟨inside,same,_⟩
      rw [List.getElem?_eq_getElem inside,← name_lower lettered (List.getElem_mem inside)]
      exact congrArg some (of_decide_eq_true same)
    · intro named
      obtain ⟨inside,is⟩ := List.getElem?_eq_some_iff.mp named
      refine ⟨inside,?_,fun j before => ?_⟩
      · rw [decide_eq_true_eq,name_lower lettered (List.getElem_mem inside),is]
      · rw [decide_eq_true_eq,name_lower lettered (List.getElem_mem _),← is]
        intro same
        have := (lettered.distinct.getElem_inj_iff).mp same
        omega
  unfold readValue
  cases place : names.findIdx? (fun name => name.map Char.toLower = text.map Char.toLower) with
  | some i =>
    have named := (found i).mp place
    dsimp only
    rw [Except.ok.injEq]
    constructor
    · rintro rfl
      exact .inr ⟨i,named,rfl⟩
    · rintro (number | ⟨j,other,rfl⟩)
      · -- a name is of letters, a number holds a digit
        exfalso
        obtain ⟨digits,is,some,all,_⟩ := number
        obtain ⟨d,member⟩ := List.exists_mem_of_ne_nil digits some
        have inside : d ∈ text := by
          rcases is with rfl | rfl
          · exact member
          · exact List.mem_cons_of_mem _ member
        have small := (lettered.letters _ (List.mem_of_getElem? named)).2 d.toLower (List.mem_map_of_mem inside)
        rw [(digit_apart (all d member)).2.2.2.2.2] at small
        cases small
      · have same := (found j).mpr other
        rw [place] at same
        rw [Option.some.inj same]
  | none =>
    dsimp only
    have unnamed : ¬∃ i, names[i]? = some (text.map Char.toLower) ∧ n = i+min := by
      rintro ⟨i,named,_⟩
      rw [(found i).mpr named] at place
      cases place
    unfold Value
    rw [or_iff_left unnamed,← parseU32_number]
    cases parseU32 text with
    | some m => simp
    | none => simp

theorem readRange_spans {range : Text} {stepped : Bool} {lo hi : Nat} :
    (∃ star, readRange min max names range stepped = .ok (lo,hi,star)) ↔ Spans min max names stepped range lo hi := by
  constructor
  · rintro ⟨star,read⟩
    unfold readRange at read
    split at read
    · rename_i all
      cases read
      rcases all with rfl | rfl
      · exact .star
      · exact .any
    · split at read
      · rename_i a b cut
        obtain ⟨_,rfl⟩ := splitOnce_some.mp cut
        obtain ⟨low,one,read⟩ := ok_bind read
        obtain ⟨high,other,read⟩ := ok_bind read
        cases read
        exact .range ((readValue_value lettered).mp one) ((readValue_value lettered).mp other)
      · obtain ⟨v,one,read⟩ := ok_bind read
        cases read
        exact .one ((readValue_value lettered).mp one)
  · intro spans
    unfold readRange
    cases spans with
    | star => exact ⟨true,rfl⟩
    | any => exact ⟨true,rfl⟩
    | @range a _ b _ one other =>
      have dashed : '-' ∈ a++ '-' :: b := by simp
      have signs : ¬(a++ '-' :: b = ['*'] ∨ a++ '-' :: b = ['?']) := by
        rintro (is | is) <;>
        · rw [is] at dashed
          cases List.mem_singleton.mp dashed
      refine ⟨false,?_⟩
      rw [if_neg signs,splitOnce_some.mpr ⟨fun member => (one.unsplit lettered '-' member).1 rfl,rfl⟩]
      dsimp only
      rw [(readValue_value lettered).mpr one,(readValue_value lettered).mpr other]
      rfl
    | one value =>
      have apart := value.unsplit lettered
      have signs : ¬(range = ['*'] ∨ range = ['?']) := by
        rintro (rfl | rfl)
        · exact (apart '*' List.mem_cons_self).2.2.1 rfl
        · exact (apart '?' List.mem_cons_self).2.2.2 rfl
      refine ⟨false,?_⟩
      rw [if_neg signs,splitOnce_none.mpr fun member => (apart '-' member).1 rfl]
      dsimp only
      rw [(readValue_value lettered).mpr value]
      rfl

theorem Spans.unslashed {range : Text} {stepped : Bool} {lo hi : Nat} (spans : Spans min max names stepped range lo hi) : '/' ∉ range := by
  intro member
  cases spans with
  | star | any => cases List.mem_singleton.mp member
  | range one other =>
    rcases List.mem_append.mp member with before | after
    · exact (one.unsplit lettered _ before).2.1 rfl
    · rcases List.mem_cons.mp after with same | after
      · cases same
      · exact (other.unsplit lettered _ after).2.1 rfl
  | one value => exact (value.unsplit lettered _ member).2.1 rfl

-- What readPart reads of a part is what the part means.
theorem readPart_means {part : Text} {lo hi step : Nat} :
    (∃ p, readPart min max names part = .ok p ∧ p.lo = lo ∧ p.hi = hi ∧ p.step = step) ↔ Means min max names part lo hi step := by
  constructor
  · rintro ⟨p,read,rfl,rfl,rfl⟩
    unfold readPart at read
    obtain ⟨⟨range,st⟩,cut,read⟩ := ok_bind read
    obtain ⟨⟨low,high,star⟩,ranged,read⟩ := ok_bind read
    have spans := (readRange_spans lettered).mp ⟨star,ranged⟩
    have reads : Reads min max names part low high (st.getD 1) := by
      unfold readStep at cut
      split at cut
      · rename_i r text apart
        obtain ⟨_,rfl⟩ := splitOnce_some.mp apart
        split at cut
        · rename_i n number
          cases cut
          exact .stepped spans (parseU32_number.mp number)
        · cases cut
      · cases cut
        exact .plain spans
    dsimp only at read
    split at read
    · cases read
    · split at read
      · rename_i inside positive
        cases read
        exact ⟨reads,by dsimp only; omega,by dsimp only; omega,by dsimp only; omega,positive⟩
      · cases read
  · rintro ⟨reads,low,ordered,high,positive⟩
    have inside : ¬(lo < min ∨ max < hi ∨ hi < lo) := by omega
    -- past its range and its step, a part in bounds is read
    have whole : ∀ range st, readStep part = .ok (range,st) → Spans min max names st.isSome range lo hi → st.getD 1 = step →
        ∃ p, readPart min max names part = .ok p ∧ p.lo = lo ∧ p.hi = hi ∧ p.step = step := by
      rintro range st cut spans rfl
      obtain ⟨star,ranged⟩ := (readRange_spans lettered).mpr spans
      refine ⟨⟨lo,hi,st.getD 1,star,positive⟩,?_,rfl,rfl,rfl⟩
      unfold readPart
      rw [cut]
      show (readRange min max names range st.isSome >>= _) = _
      rw [ranged]
      show (if lo < min ∨ max < hi ∨ hi < lo then _ else _) = _
      rw [if_neg inside,dif_pos positive]
    cases reads with
    | plain spans =>
      refine whole part none ?_ spans rfl
      unfold readStep
      rw [splitOnce_none.mpr (spans.unslashed lettered)]
    | stepped spans number =>
      refine whole _ (some step) ?_ spans rfl
      unfold readStep
      rw [splitOnce_some.mpr ⟨spans.unslashed lettered,rfl⟩]
      dsimp only
      rw [parseU32_number.mpr number]

end Fields

end Cron
end PhaseLock
