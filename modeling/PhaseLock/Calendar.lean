import Mathlib.Algebra.Order.Ring.Int
import Mathlib.Tactic.NormNum
import Mathlib.Tactic.SplitIfs

namespace PhaseLock
namespace Calendar

-- Days are counted from 1970-01-01, a Thursday, in the Gregorian calendar of every year.

def leap (y : Int) : Bool := y%4 = 0 && (y%100 ≠ 0 || y%400 = 0)

def daysBefore (y : Int) : Int := 365*(y-1)+(y-1)/4-(y-1)/100+(y-1)/400-719162

-- Whole cycles of 400 years, then centuries, then cycles of four years, then years.
def yearOf (n : Int) : Int :=
  let z := n+719162
  let r := z%146097
  let c := min 3 (r/36524)
  let r' := r-36524*c
  400*(z/146097)+100*c+4*(r'/1461)+min 3 (r'%1461/365)+1

def leapDay (y : Int) : Int := if leap y then 1 else 0

-- The days of a year before one of its months, the thirteenth the next year's first: a
-- month has 367/12 days but for what February lacks.
def daysBeforeMonth (y : Int) (m : Nat) : Int := (367*m-362)/12-if m ≤ 2 then 0 else 2-leapDay y

def firstOf (y : Int) (m : Nat) : Int := daysBefore y+daysBeforeMonth y m

def monthOf (n : Int) : Nat :=
  let y := yearOf n
  let d := n-daysBefore y
  ((12*(d+if d < 59+leapDay y then 0 else 2-leapDay y)+373)/367).toNat

def dayOf (n : Int) : Nat := (n-firstOf (yearOf n) (monthOf n)+1).toNat

-- The day of the week, from Sunday.
def weekdayOf (n : Int) : Nat := ((n+4)%7).toNat

theorem daysBefore_next (y : Int) : daysBefore (y+1) = daysBefore y+365+leapDay y := by
  unfold daysBefore leapDay leap
  by_cases four : y%4 = 0
  · by_cases hundred : y%100 = 0
    · by_cases cycle : y%400 = 0
      · simp only [four,hundred,cycle]
        norm_num
        omega
      · simp only [four,hundred,cycle]
        norm_num
        omega
    · simp only [four]
      norm_num [hundred]
      omega
  · simp only [four]
    norm_num [four]
    omega

theorem leapDay_small (y : Int) : 0 ≤ leapDay y ∧ leapDay y ≤ 1 := by
  unfold leapDay
  split <;> omega

-- The days before a year told by its cycles.
theorem daysBefore_cycles {e c q k : Int} (cs : 0 ≤ c ∧ c ≤ 3) (qs : 0 ≤ q ∧ q ≤ 24) (ks : 0 ≤ k ∧ k ≤ 3) :
    daysBefore (400*e+100*c+4*q+k+1) = 146097*e+36524*c+1461*q+365*k-719162 := by
  have four : (400*e+100*c+4*q+k+1-1)/4 = 100*e+25*c+q := by omega
  have hundred : (400*e+100*c+4*q+k+1-1)/100 = 4*e+c := by omega
  have cycle : (400*e+100*c+4*q+k+1-1)/400 = e := by omega
  unfold daysBefore
  rw [four,hundred,cycle]
  omega

theorem year_bounds (n : Int) : daysBefore (yearOf n) ≤ n ∧ n < daysBefore (yearOf n+1) := by
  unfold yearOf
  dsimp only
  obtain ⟨e,isE⟩ : ∃ e, e = (n+719162)/146097 := ⟨_,rfl⟩
  obtain ⟨c,isC⟩ : ∃ c, c = min 3 ((n+719162)%146097/36524) := ⟨_,rfl⟩
  rw [← isE,← isC]
  obtain ⟨q,isQ⟩ : ∃ q, q = ((n+719162)%146097-36524*c)/1461 := ⟨_,rfl⟩
  obtain ⟨k,isK⟩ : ∃ k, k = min 3 (((n+719162)%146097-36524*c)%1461/365) := ⟨_,rfl⟩
  rw [← isQ,← isK]
  have cs : 0 ≤ c ∧ c ≤ 3 := by omega
  have qs : 0 ≤ q ∧ q ≤ 24 := by omega
  have ks : 0 ≤ k ∧ k ≤ 3 := by omega
  have before_ := daysBefore_cycles (e:=e) cs qs ks
  refine ⟨by omega,?_⟩
  -- the year after is the next of its four, of its century, of its cycle, or of the next one
  rcases (show k ≤ 2 ∨ k = 3 by omega) with inner | rfl
  · have after := daysBefore_cycles (e:=e) (k:=k+1) cs qs (by omega)
    rw [show 400*e+100*c+4*q+k+1+1 = 400*e+100*c+4*q+(k+1)+1 by omega]
    omega
  · rcases (show q ≤ 23 ∨ q = 24 by omega) with inner | rfl
    · have after := daysBefore_cycles (e:=e) (q:=q+1) (k:=0) cs (by omega) (by omega)
      rw [show 400*e+100*c+4*q+3+1+1 = 400*e+100*c+4*(q+1)+0+1 by omega]
      omega
    · rcases (show c ≤ 2 ∨ c = 3 by omega) with inner | rfl
      · have after := daysBefore_cycles (e:=e) (c:=c+1) (q:=0) (k:=0) (by omega) (by omega) (by omega)
        rw [show 400*e+100*c+4*24+3+1+1 = 400*e+100*(c+1)+4*0+0+1 by omega]
        omega
      · have after := daysBefore_cycles (e:=e+1) (c:=0) (q:=0) (k:=0) (by omega) (by omega) (by omega)
        rw [show 400*e+100*3+4*24+3+1+1 = 400*(e+1)+100*0+4*0+0+1 by omega]
        omega

theorem daysBefore_mono {y z : Int} (le : y ≤ z) : daysBefore y ≤ daysBefore z := by
  unfold daysBefore
  omega

theorem yearOf_eq {n y : Int} (low : daysBefore y ≤ n) (high : n < daysBefore (y+1)) : yearOf n = y := by
  obtain ⟨low',high'⟩ := year_bounds n
  by_contra other
  rcases lt_or_gt_of_ne other with less | more
  · have := daysBefore_mono (show yearOf n+1 ≤ y by omega)
    omega
  · have := daysBefore_mono (show y+1 ≤ yearOf n by omega)
    omega

theorem yearOf_mono {m n : Int} (le : m ≤ n) : yearOf m ≤ yearOf n := by
  by_contra more
  have := daysBefore_mono (show yearOf n+1 ≤ yearOf m by omega)
  have := (year_bounds m).1
  have := (year_bounds n).2
  omega

-- A day of a year is in one month of it.
theorem month_bounds (n : Int) : (1 ≤ monthOf n ∧ monthOf n ≤ 12) ∧
    firstOf (yearOf n) (monthOf n) ≤ n ∧ n < firstOf (yearOf n) (monthOf n+1) := by
  obtain ⟨low,high⟩ := year_bounds n
  rw [daysBefore_next] at high
  obtain ⟨none,one⟩ := leapDay_small (yearOf n)
  obtain ⟨d,isD⟩ : ∃ d, d = n-daysBefore (yearOf n) := ⟨_,rfl⟩
  unfold firstOf monthOf
  dsimp only
  rw [← isD]
  by_cases early : d < 59+leapDay (yearOf n)
  · rw [if_pos early]
    unfold daysBeforeMonth
    generalize leapDay (yearOf n) = l at *
    obtain ⟨m,isM⟩ : ∃ m : Nat, m = ((12*(d+0)+373)/367).toNat := ⟨_,rfl⟩
    rw [← isM]
    have range : 1 ≤ m ∧ m ≤ 2 := by omega
    refine ⟨by omega,?_⟩
    split_ifs <;> omega
  · rw [if_neg early]
    unfold daysBeforeMonth
    generalize leapDay (yearOf n) = l at *
    obtain ⟨m,isM⟩ : ∃ m : Nat, m = ((12*(d+(2-l))+373)/367).toNat := ⟨_,rfl⟩
    rw [← isM]
    have range : 3 ≤ m ∧ m ≤ 12 := by omega
    refine ⟨by omega,?_⟩
    rw [if_neg (by omega),if_neg (by omega)]
    omega

theorem month_range (n : Int) : 1 ≤ monthOf n ∧ monthOf n ≤ 12 := (month_bounds n).1

theorem firstOf_one (y : Int) : firstOf y 1 = daysBefore y := by
  unfold firstOf daysBeforeMonth
  norm_num

theorem firstOf_thirteen (y : Int) : firstOf y 13 = firstOf (y+1) 1 := by
  rw [firstOf_one,daysBefore_next]
  unfold firstOf daysBeforeMonth
  norm_num
  omega

theorem daysBeforeMonth_mono {y : Int} {a b : Nat} (le : a ≤ b) : daysBeforeMonth y a ≤ daysBeforeMonth y b := by
  obtain ⟨none,one⟩ := leapDay_small y
  unfold daysBeforeMonth
  split_ifs <;> omega

-- A day between a month's first and the next one's is of that month.
theorem date_eq {n y : Int} {m : Nat} (first : 1 ≤ m) (last : m ≤ 12) (low : firstOf y m ≤ n) (high : n < firstOf y (m+1)) :
    yearOf n = y ∧ monthOf n = m := by
  have start_ : 0 ≤ daysBeforeMonth y m := by
    have := daysBeforeMonth_mono (y:=y) (a:=1) first
    unfold daysBeforeMonth at this ⊢
    omega
  have stop : daysBeforeMonth y (m+1) ≤ 365+leapDay y := by
    have := daysBeforeMonth_mono (y:=y) (show m+1 ≤ 13 by omega)
    unfold daysBeforeMonth at this ⊢
    omega
  have year : yearOf n = y := by
    refine yearOf_eq ?_ ?_
    · unfold firstOf at low
      omega
    · rw [daysBefore_next]
      unfold firstOf at high
      omega
  obtain ⟨⟨first',last'⟩,low',high'⟩ := month_bounds n
  rw [year] at low' high'
  refine ⟨year,?_⟩
  unfold firstOf at *
  by_contra other
  rcases lt_or_gt_of_ne other with less | more
  · have := daysBeforeMonth_mono (y:=y) (show monthOf n+1 ≤ m by omega)
    omega
  · have := daysBeforeMonth_mono (y:=y) (show m+1 ≤ monthOf n by omega)
    omega

-- The first of the month after a day's.
def nextMonth (n : Int) : Int := if monthOf n = 12 then firstOf (yearOf n+1) 1 else firstOf (yearOf n) (monthOf n+1)

theorem nextMonth_first (n : Int) : nextMonth n = firstOf (yearOf n) (monthOf n+1) := by
  unfold nextMonth
  split
  · rename_i last
    rw [last,firstOf_thirteen]
  · rfl

theorem monthOf_first {y : Int} {m : Nat} (first : 1 ≤ m) (last : m ≤ 12) : yearOf (firstOf y m) = y ∧ monthOf (firstOf y m) = m := by
  refine date_eq first last le_rfl ?_
  obtain ⟨none,one⟩ := leapDay_small y
  unfold firstOf daysBeforeMonth
  split_ifs <;> omega

theorem month_until {n k : Int} (low : n ≤ k) (high : k < nextMonth n) : yearOf k = yearOf n ∧ monthOf k = monthOf n := by
  obtain ⟨first,last⟩ := month_range n
  rw [nextMonth_first] at high
  exact date_eq first last ((month_bounds n).2.1.trans low) high

theorem nextMonth_after (n : Int) : n < nextMonth n := by
  rw [nextMonth_first]
  exact (month_bounds n).2.2

theorem nextMonth_date (n : Int) : (monthOf n = 12 → yearOf (nextMonth n) = yearOf n+1 ∧ monthOf (nextMonth n) = 1) ∧
    (monthOf n ≠ 12 → yearOf (nextMonth n) = yearOf n ∧ monthOf (nextMonth n) = monthOf n+1) := by
  obtain ⟨first,last⟩ := month_range n
  unfold nextMonth
  constructor
  · intro is
    rw [if_pos is]
    exact monthOf_first le_rfl (by norm_num)
  · intro other
    rw [if_neg other]
    exact monthOf_first (by omega) (by omega)

theorem dayOf_first {y : Int} {m : Nat} (first : 1 ≤ m) (last : m ≤ 12) : dayOf (firstOf y m) = 1 := by
  obtain ⟨year,month⟩ := monthOf_first (y:=y) first last
  unfold dayOf
  rw [year,month]
  omega

-- The next day is the next month's first, or one more of the same month.
theorem next_day (n : Int) : (n+1 = nextMonth n ∧ dayOf (n+1) = 1) ∨
    (n+1 < nextMonth n ∧ yearOf (n+1) = yearOf n ∧ monthOf (n+1) = monthOf n ∧ dayOf (n+1) = dayOf n+1 ∧ dayOf (n+1) ≠ 1) := by
  have after := nextMonth_after n
  obtain ⟨first,last⟩ := month_range n
  rcases (show n+1 ≤ nextMonth n by omega).eq_or_lt with is | less
  · refine .inl ⟨is,?_⟩
    rw [is]
    unfold nextMonth
    split
    · exact dayOf_first le_rfl (by norm_num)
    · exact dayOf_first (by omega) (by omega)
  · obtain ⟨year,month⟩ := month_until (show n ≤ n+1 by omega) less
    have low := (month_bounds n).2.1
    refine .inr ⟨less,year,month,?_⟩
    unfold dayOf
    rw [year,month]
    omega

end Calendar
end PhaseLock
