import PhaseLock.Cron
import PhaseLock.Calendar

namespace PhaseLock
namespace Cron
open Calendar

-- The next slot of a spec in UTC, where a local time is the time.  Times between the loops
-- are whole minutes since 1970-01-01; slots, marks and clocks are Unix seconds.

variable {ζ : Type}

def dayAt (t : Int) : Int := t/1440
def hourAt (t : Int) : Nat := (t%1440/60).toNat
def minuteAt (t : Int) : Nat := (t%60).toNat

def localTime (d : Int) (h m : Nat) : Int := 1440*d+60*h+m

@[simp] theorem day_localTime (d : Int) : dayAt (localTime d 0 0) = d := by
  unfold dayAt localTime
  omega

-- The calendar's days: January 1, 262144 BCE to December 31, 262142 CE.
def firstDay : Int := firstOf (-262143) 1
def lastDay : Int := firstOf 262143 1-1

def held (d : Int) : Option Int := if firstDay ≤ d ∧ d ≤ lastDay then some d else none

theorem held_some {d e : Int} (is : held d = some e) : e = d ∧ firstDay ≤ d ∧ d ≤ lastDay := by
  unfold held at is
  split at is
  · rename_i within
    exact ⟨(Option.some.inj is).symm,within⟩
  · cases is

-- A time some minutes later, which the calendar may not hold.
def later (t n : Int) : Option Int := (held (dayAt (t+n))).map fun _ => t+n

theorem later_some {t n u : Int} (is : later t n = some u) : u = t+n := by
  obtain ⟨_,_,rfl⟩ := Option.map_eq_some_iff.mp is
  rfl

def Spec.dayMatches (s : Spec ζ) (t : Int) : Bool :=
  let dom := s.dom.testBit (dayOf (dayAt t))
  let dow := s.dow.testBit (weekdayOf (dayAt t))
  if s.domStar || s.dowStar then dom && dow else dom || dow

-- How one of the search's loops ends: past it, at a carry that starts the search over (added
-- is set by then), with no answer, or in a panic.
inductive Loop where
  | out (t : Int) (added : Bool)
  | wrap (t : Int)
  | stop
  | overflow
deriving DecidableEq

def Loop.then : Loop → (Int → Bool → Loop) → Loop
  | .out t added,next => next t added
  | other,_ => other

def resetMonth (t : Int) (added : Bool) : Option Int :=
  if added then some t else (held (firstOf (yearOf (dayAt t)) (monthOf (dayAt t)))).map (localTime · 0 0)

theorem resetMonth_month {t u : Int} {added : Bool} (is : resetMonth t added = some u) :
    yearOf (dayAt u) = yearOf (dayAt t) ∧ monthOf (dayAt u) = monthOf (dayAt t) := by
  unfold resetMonth at is
  split at is
  · cases is
    exact ⟨rfl,rfl⟩
  · obtain ⟨d,in_,rfl⟩ := Option.map_eq_some_iff.mp is
    obtain ⟨rfl,_⟩ := held_some in_
    obtain ⟨first,last⟩ := month_range (dayAt t)
    rw [day_localTime]
    exact monthOf_first first last

theorem resetMonth_next {t u : Int} {added : Bool} (is : resetMonth t added = some u) : nextMonth (dayAt u) = nextMonth (dayAt t) := by
  obtain ⟨year,month⟩ := resetMonth_month is
  rw [nextMonth_first,nextMonth_first,year,month]

def monthLoop (s : Spec ζ) (t : Int) (added : Bool) : Loop :=
  if s.month.testBit (monthOf (dayAt t)) then .out t added
  else match _reset : resetMonth t added with
    | none => .stop
    | some u => match _turn : held (nextMonth (dayAt u)) with
      | none => .stop
      | some d => if monthOf d = 1 then .wrap (localTime d 0 0) else monthLoop s (localTime d 0 0) true
termination_by 12-monthOf (dayAt t)
decreasing_by
  rename_i other
  obtain ⟨rfl,_⟩ := held_some _turn
  rw [day_localTime,resetMonth_next _reset] at *
  obtain ⟨last,more⟩ := nextMonth_date (dayAt t)
  obtain ⟨_,range⟩ := month_range (dayAt t)
  by_cases december : monthOf (dayAt t) = 12
  · exact absurd (last december).2 other
  · have := (more december).2
    omega

def resetDay (t : Int) (added : Bool) : Int := if added then t else localTime (dayAt t) 0 0

@[simp] theorem day_resetDay (t : Int) (added : Bool) : dayAt (resetDay t added) = dayAt t := by
  unfold resetDay
  split
  · rfl
  · exact day_localTime _

def dayLoop (s : Spec ζ) (t : Int) (added : Bool) : Loop :=
  if s.dayMatches t then .out t added
  else match _turn : held (dayAt (resetDay t added)+1) with
    | none => .stop
    | some d => if dayOf d = 1 then .wrap (localTime d 0 0) else dayLoop s (localTime d 0 0) true
termination_by (nextMonth (dayAt t)-dayAt t).toNat
decreasing_by
  rename_i other
  obtain ⟨rfl,_⟩ := held_some _turn
  rw [day_localTime,day_resetDay] at *
  rcases next_day (dayAt t) with ⟨_,first⟩ | ⟨before_,year,month,_⟩
  · exact absurd first other
  · have same : nextMonth (dayAt t+1) = nextMonth (dayAt t) := by rw [nextMonth_first,nextMonth_first,year,month]
    omega

def resetHour (t : Int) (added : Bool) : Int := if added then t else localTime (dayAt t) (hourAt t) 0

theorem hour_next {t : Int} {added : Bool} (other : hourAt (resetHour t added+60) ≠ 0) :
    hourAt (resetHour t added+60) = hourAt t+1 := by
  unfold resetHour localTime dayAt hourAt at *
  split at other <;> split <;> omega

def hourLoop (s : Spec ζ) (t : Int) (added : Bool) : Loop :=
  if s.hour.testBit (hourAt t) then .out t added
  else match _turn : later (resetHour t added) 60 with
    | none => .overflow
    | some u => if hourAt u = 0 then .wrap u else hourLoop s u true
termination_by 24-hourAt t
decreasing_by
  rename_i other
  rw [later_some _turn] at *
  have next := hour_next other
  have : hourAt t < 24 := by
    unfold hourAt
    omega
  omega

def minuteLoop (s : Spec ζ) (t : Int) (added : Bool) : Loop :=
  if s.minute.testBit (minuteAt t) then .out t added
  else match _turn : later t 1 with
    | none => .overflow
    | some u => if minuteAt u = 0 then .wrap u else minuteLoop s u true
termination_by 60-minuteAt t
decreasing_by
  rename_i other
  rw [later_some _turn] at *
  unfold minuteAt at *
  omega

-- One round of the search from a time in its years.
def Spec.round (s : Spec ζ) (t : Int) (added : Bool) : Loop :=
  (((monthLoop s t added).then (dayLoop s)).then (hourLoop s)).then (minuteLoop s)

-- A loop goes no way but up, and a carry goes up.
def Loop.From (t : Int) : Loop → Prop
  | .out u _ => t ≤ u
  | .wrap u => t < u
  | _ => True

theorem from_le {t u : Int} (le : t ≤ u) {l : Loop} (up : l.From u) : l.From t := by
  cases l with
  | out => exact le_trans le up
  | wrap => exact lt_of_le_of_lt le up
  | stop => trivial
  | overflow => trivial

theorem from_then {t : Int} {l : Loop} (up : l.From t) {next : Int → Bool → Loop} (all : ∀ u added, (next u added).From u) :
    (l.then next).From t := by
  cases l with
  | out u added => exact from_le up (all u added)
  | wrap => exact up
  | stop => trivial
  | overflow => trivial

theorem before_day {t d : Int} (less : dayAt t < d) : t < localTime d 0 0 := by
  unfold dayAt at less
  unfold localTime
  omega

theorem monthLoop_from (s : Spec ζ) (t : Int) (added : Bool) : (monthLoop s t added).From t := by
  fun_induction monthLoop s t added with
  | case1 => exact le_rfl
  | case2 => trivial
  | case3 => trivial
  | case4 t added none_ u reset d turn first =>
    obtain ⟨rfl,_⟩ := held_some turn
    rw [resetMonth_next reset]
    exact before_day (nextMonth_after _)
  | case5 t added none_ u reset d turn first ih =>
    obtain ⟨rfl,_⟩ := held_some turn
    refine from_le (le_of_lt ?_) ih
    rw [resetMonth_next reset]
    exact before_day (nextMonth_after _)

theorem dayLoop_from (s : Spec ζ) (t : Int) (added : Bool) : (dayLoop s t added).From t := by
  fun_induction dayLoop s t added with
  | case1 => exact le_rfl
  | case2 => trivial
  | case3 t added none_ d turn first =>
    obtain ⟨rfl,_⟩ := held_some turn
    exact before_day (by rw [day_resetDay]; omega)
  | case4 t added none_ d turn first ih =>
    obtain ⟨rfl,_⟩ := held_some turn
    exact from_le (le_of_lt (before_day (by rw [day_resetDay]; omega))) ih

theorem resetHour_hour (t : Int) (added : Bool) : t < resetHour t added+60 := by
  unfold resetHour localTime dayAt hourAt
  split <;> omega

theorem hourLoop_from (s : Spec ζ) (t : Int) (added : Bool) : (hourLoop s t added).From t := by
  fun_induction hourLoop s t added with
  | case1 => exact le_rfl
  | case2 => trivial
  | case3 t added none_ u turn first =>
    rw [later_some turn]
    exact resetHour_hour t added
  | case4 t added none_ u turn first ih =>
    refine from_le (le_of_lt ?_) ih
    rw [later_some turn]
    exact resetHour_hour t added

theorem minuteLoop_from (s : Spec ζ) (t : Int) (added : Bool) : (minuteLoop s t added).From t := by
  fun_induction minuteLoop s t added with
  | case1 => exact le_rfl
  | case2 => trivial
  | case3 t added none_ u turn first =>
    rw [later_some turn]
    exact lt_add_one t
  | case4 t added none_ u turn first ih =>
    refine from_le (le_of_lt ?_) ih
    rw [later_some turn]
    exact lt_add_one t

theorem round_from (s : Spec ζ) (t : Int) (added : Bool) : (s.round t added).From t :=
  from_then (from_then (from_then (monthLoop_from s t added) (dayLoop_from s)) (hourLoop_from s)) (minuteLoop_from s)

theorem before_limit {t limit : Int} (in_ : ¬limit < yearOf (dayAt t)) : t < 1440*daysBefore (limit+1) := by
  have := (year_bounds (dayAt t)).2
  have := daysBefore_mono (show yearOf (dayAt t)+1 ≤ limit+1 by omega)
  have := before_day (show dayAt t < daysBefore (limit+1) by omega)
  unfold localTime at this
  omega

-- What a search comes to: a slot, none in its years, or a panic.
inductive Search where
  | slot (t : Int)
  | none
  | overflow
deriving DecidableEq

def Spec.search (s : Spec ζ) (limit t : Int) (added : Bool) : Search :=
  if limit < yearOf (dayAt t) then .none
  else match _ended : s.round t added with
    | .out u _ => .slot (60*u)
    | .wrap u => s.search limit u true
    | .stop => .none
    | .overflow => .overflow
termination_by (1440*daysBefore (limit+1)-t).toNat
decreasing_by
  rename_i within
  have up := round_from s t added
  rw [_ended] at up
  have := before_limit within
  have : t < u := up
  omega

-- The first whole minute after a time.
def startAfter (after : Int) : Int := (after+1+59)/60

-- The first slot after a time.
def Spec.next (s : Spec ζ) (after : Int) : Search :=
  if 2^63 ≤ after+1+59 then .overflow
  else
    let t := startAfter after
    match held (dayAt t) with
    | none => .none
    | some _ => s.search (yearOf (dayAt t)+5) t false

theorem search_from {s : Spec ζ} {limit t x : Int} {added : Bool} (is : s.search limit t added = .slot x) : 60*t ≤ x := by
  fun_induction Spec.search s limit t added with
  | case1 => cases is
  | case2 t added in_ u added' ended =>
    have up := round_from s t added
    rw [ended] at up
    cases is
    exact mul_le_mul_of_nonneg_left up (by norm_num)
  | case3 t added in_ u ended ih =>
    have up := round_from s t added
    rw [ended] at up
    have : t < u := up
    have := ih is
    omega
  | case4 => cases is
  | case5 => cases is

theorem next_above {s : Spec ζ} {after x : Int} (is : s.next after = .slot x) : after < x := by
  unfold Spec.next at is
  split at is
  · cases is
  · dsimp only at is
    split at is
    · cases is
    · have := search_from is
      unfold startAfter at this
      omega

-- A sum of two machine words.
def word (x : Int) : Search := if -2^63 ≤ x ∧ x < 2^63 then .slot x else .overflow

def Schedule.next : Schedule ζ → Int → Search
  | .every d,after => word (after+d)
  | .spec s,after => s.next after

-- The slots of a spec after one, while they are due.
def Spec.latestFrom (s : Spec ζ) (now mark : Int) (slot : Search) : Search :=
  match _asked : s.next mark with
  | .slot t => if t ≤ now then s.latestFrom now t (.slot t) else slot
  | .none => slot
  | .overflow => .overflow
termination_by (now-mark).toNat
decreasing_by
  have := next_above _asked
  omega

-- The last of the schedule's slots after a mark and at or before now.
def Schedule.latest : Schedule ζ → Int → Int → Search
  | .every d,mark,now => match word (now-mark) with
    | .slot left => if 0 < left/d then .slot (mark+left/d*d) else .none
    | _ => .overflow
  | .spec s,mark,now => s.latestFrom now mark .none

end Cron
end PhaseLock
