import PhaseLock.CronParses
import PhaseLock.SlotSearch

namespace PhaseLock
namespace Cron
open Calendar

variable {ζ : Type}

-- A parsed field is not empty.
theorem field_some {min max : Nat} {names : List Text} {text : Text} {out : Nat × Bool} (lettered : Lettered names)
    (ran : field min max names text = .ok out) : ∃ m, m ≤ max ∧ out.1.testBit m = true := by
  obtain ⟨readable,bits⟩ := field_ok lettered ran
  obtain ⟨part,more,parts⟩ := List.exists_cons_of_ne_nil (List.splitOnP_ne_nil (· == ',') text)
  have member : part ∈ text.splitOn ',' := by
    rw [List.splitOn,parts]
    exact List.mem_cons_self
  obtain ⟨lo,hi,step,means⟩ := readable part member
  exact ⟨lo,means.ordered.trans means.high,(bits lo).mpr ⟨part,member,lo,hi,step,means,0,by omega,means.ordered⟩⟩

theorem parse_slotted {zone : Text → Option ζ} {utc : ζ} {text : Text} {s : Spec ζ} {notice : Option Notice}
    (read : parse zone utc text = .ok (.spec s,notice)) : s.Slotted := by
  obtain ⟨f,_,ran⟩ := ok_bind read
  cases f with
  | every spec d =>
    obtain ⟨d,_,ran⟩ := ok_bind ran
    obtain ⟨minutes,_,ran⟩ := ok_bind ran
    cases ran
  | fields minute hour dom month dow tz =>
    obtain ⟨m,ranM,ran⟩ := ok_bind ran
    obtain ⟨h,ranH,ran⟩ := ok_bind ran
    obtain ⟨d,_,ran⟩ := ok_bind ran
    obtain ⟨mo,_,ran⟩ := ok_bind ran
    obtain ⟨w,_,ran⟩ := ok_bind ran
    cases ran
    obtain ⟨x,inHours,isHour⟩ := field_some lettered_none ranH
    obtain ⟨y,inMinutes,isMinute⟩ := field_some lettered_none ranM
    exact ⟨⟨x,by omega,isHour⟩,y,by omega,isMinute⟩

-- A whole minute of the calendar that a spec matches.
structure Spec.Slot (s : Spec ζ) (x : Int) : Prop where
  whole : x%60 = 0
  last : x/86400 ≤ lastDay
  at_ : s.At (x/60)

def yearAt (x : Int) : Int := yearOf (x/86400)

-- A slot after a time and no later than the fifth year following its first whole minute.
structure Spec.Near (s : Spec ζ) (after x : Int) : Prop where
  slot : s.Slot x
  above : after < x
  year : yearAt x ≤ yearAt (60*startAfter after)+5

def Spec.NextLeast (s : Spec ζ) (after : Int) : Prop :=
  (∃ x, s.next after = .slot x ∧ IsLeast {x | s.Slot x ∧ after < x} x) ∨
  (s.next after = .none ∧ ∀ x, s.Slot x → after < x → ¬yearAt x ≤ yearAt after+5)

-- The slots reached from a mark, each within the five years of the one before.
inductive Spec.Reached (s : Spec ζ) (mark : Int) : Int → Prop where
  | mark : s.Reached mark mark
  | slot {t x : Int} : s.Reached mark t → s.Near t x → s.Reached mark x

def Spec.LatestGreatest (s : Spec ζ) (mark now : Int) : Prop :=
  (∃ x, (Schedule.spec s).latest mark now = .slot x ∧ IsGreatest {x | s.Reached mark x ∧ mark < x ∧ x ≤ now} x) ∨
  ((Schedule.spec s).latest mark now = .none ∧ ∀ x, s.Reached mark x → mark < x → ¬x ≤ now)

-- The times the search is made for: the first whole minute is not before the calendar, and
-- its last day is still to come.
structure Searchable (after : Int) : Prop where
  first : firstDay ≤ dayAt (startAfter after)
  last : after < 86400*lastDay

theorem dayAt_seconds (x : Int) : dayAt (x/60) = x/86400 := by
  unfold dayAt
  omega

theorem yearAt_minute (t : Int) : yearAt (60*t) = yearOf (dayAt t) := by
  unfold yearAt dayAt
  congr 1
  omega

theorem yearAt_mono {x y : Int} (le : x ≤ y) : yearAt x ≤ yearAt y := by
  refine yearOf_mono ?_
  omega

theorem start_above (after : Int) : after < 60*startAfter after ∧ 60*startAfter after ≤ after+60 := by
  unfold startAfter
  omega

theorem next_cases {s : Spec ζ} (slotted : s.Slotted) {after : Int} (searchable : Searchable after) :
    (∃ x, s.next after = .slot x ∧ s.Near after x ∧ ∀ y, s.Slot y → after < y → x ≤ y) ∨
    (s.next after = .none ∧ ∀ x, ¬s.Near after x) := by
  obtain ⟨first,last⟩ := searchable
  obtain ⟨above,below⟩ := start_above after
  have soon : startAfter after ≤ localTime lastDay 0 0 := by
    unfold localTime
    omega
  have room : s.Room (startAfter after) := by
    rcases soon.eq_or_lt with is | less
    · rw [is]
      rw [is,day_localTime] at first
      exact room_midnight slotted first le_rfl
    · have := day_below less
      exact ⟨first,this.le,fun is => absurd is this.ne⟩
  have isHeld : held (dayAt (startAfter after)) = some (dayAt (startAfter after)) := if_pos ⟨first,room.last⟩
  have small : ¬2^63 ≤ after+1+59 := by
    have : lastDay = 95026236 := by decide +kernel
    omega
  have answers := @search_answers _ _ slotted (yearOf (dayAt (startAfter after))+5) _ false room nofun
  have asked : s.next after = s.search (yearOf (dayAt (startAfter after))+5) (startAfter after) false := by
    rw [Spec.next,if_neg small]
    simp only [isHeld]
  have from_ : ∀ {y : Int}, s.Slot y → after < y → startAfter after ≤ y/60 := fun slot more => by
    have := slot.whole
    omega
  rw [asked]
  generalize s.search (yearOf (dayAt (startAfter after))+5) (startAfter after) false = found at answers
  cases found with
  | slot x =>
    obtain ⟨u,rfl,low,at_,gone,year,inside⟩ := answers
    have slot : s.Slot (60*u) := by
      refine ⟨by omega,?_,?_⟩
      · rw [← dayAt_seconds,Int.mul_ediv_cancel_left u (by norm_num)]
        exact inside
      · rwa [Int.mul_ediv_cancel_left u (by norm_num)]
    refine .inl ⟨_,rfl,⟨slot,by omega,?_⟩,fun y other more => ?_⟩
    · rw [yearAt_minute,yearAt_minute]
      exact year
    · by_contra less
      have := other.whole
      exact gone (y/60) (from_ other more) (by omega) other.at_
  | none =>
    refine .inr ⟨rfl,fun x near => answers (x/60) (from_ near.slot near.above) ?_ ?_ near.slot.at_⟩
    · rw [dayAt_seconds,← yearAt_minute]
      exact near.year
    · rw [dayAt_seconds]
      exact near.slot.last
  | overflow => exact answers.elim

theorem reached_low {s : Spec ζ} {mark x : Int} (reached : s.Reached mark x) : mark ≤ x := by
  induction reached with
  | mark => exact le_rfl
  | slot _ near ih => exact ih.trans near.above.le

theorem reached_trans {s : Spec ζ} {mark t x : Int} (before_ : s.Reached mark t) (reached : s.Reached t x) : s.Reached mark x := by
  induction reached with
  | mark => exact before_
  | slot _ near ih => exact .slot ih near

-- Whatever is reached past a mark is reached through the next slot.
theorem reached_next {s : Spec ζ} (slotted : s.Slotted) {mark x : Int} (searchable : Searchable mark) (reached : s.Reached mark x)
    (more : mark < x) : ∃ y, s.next mark = .slot y ∧ s.Near mark y ∧ y ≤ x ∧ s.Reached y x := by
  induction reached with
  | mark => exact absurd more (lt_irrefl mark)
  | @slot t x reached near ih =>
    rcases (reached_low reached).eq_or_lt with rfl | past
    · rcases next_cases slotted searchable with ⟨y,asked,first,least⟩ | ⟨_,none_⟩
      · refine ⟨y,asked,first,least x near.slot near.above,?_⟩
        rcases (least x near.slot near.above).eq_or_lt with rfl | less
        · exact .mark
        · refine .slot .mark ⟨near.slot,less,near.year.trans ?_⟩
          have above := first.above
          have later_ : startAfter mark ≤ startAfter y := by
            unfold startAfter
            omega
          have := yearAt_mono (show 60*startAfter mark ≤ 60*startAfter y by omega)
          omega
      · exact absurd near (none_ x)
    · obtain ⟨y,asked,first,low,reached'⟩ := ih past
      exact ⟨y,asked,first,low.trans near.above.le,.slot reached' near⟩

theorem latestFrom_cases {s : Spec ζ} (slotted : s.Slotted) {now mark : Int} {found : Search} (searchable : Searchable mark)
    (before_ : now < 86400*lastDay) :
    (∃ x, s.latestFrom now mark found = .slot x ∧ IsGreatest {x | s.Reached mark x ∧ mark < x ∧ x ≤ now} x) ∨
    (s.latestFrom now mark found = found ∧ ∀ x, s.Reached mark x → mark < x → ¬x ≤ now) := by
  fun_induction Spec.latestFrom s now mark found with
  | case1 mark found t asked due ih =>
    rcases next_cases slotted searchable with ⟨y,asked',near,_⟩ | ⟨none_,_⟩
    · cases asked.symm.trans asked'
      have first : s.Reached mark t := .slot .mark near
      have searchable' : Searchable t := by
        refine ⟨searchable.first.trans (day_mono ?_),by omega⟩
        have := near.above
        unfold startAfter
        omega
      refine .inl ?_
      rcases ih searchable' with ⟨x,is,⟨reached,more,low⟩,greatest⟩ | ⟨is,none_⟩
      · refine ⟨x,is,⟨reached_trans first reached,near.above.trans more,low⟩,fun z in_ => ?_⟩
        obtain ⟨y,asked',_,least,reached'⟩ := reached_next slotted searchable in_.1 in_.2.1
        cases asked.symm.trans asked'
        rcases least.eq_or_lt with rfl | past
        · exact more.le
        · exact greatest ⟨reached',past,in_.2.2⟩
      · refine ⟨t,is,⟨first,near.above,due⟩,fun z in_ => ?_⟩
        obtain ⟨y,asked',_,least,reached'⟩ := reached_next slotted searchable in_.1 in_.2.1
        cases asked.symm.trans asked'
        rcases least.eq_or_lt with rfl | past
        · exact le_rfl
        · exact absurd in_.2.2 (none_ z reached' past)
    · cases asked.symm.trans none_
  | case2 mark found t asked early =>
    refine .inr ⟨rfl,fun x reached more due => ?_⟩
    obtain ⟨y,asked',_,least,_⟩ := reached_next slotted searchable reached more
    cases asked.symm.trans asked'
    exact early (least.trans due)
  | case3 mark found asked =>
    refine .inr ⟨rfl,fun x reached more _ => ?_⟩
    obtain ⟨y,asked',_⟩ := reached_next slotted searchable reached more
    cases asked.symm.trans asked'
  | case4 mark found asked =>
    rcases next_cases slotted searchable with ⟨y,asked',_⟩ | ⟨asked',_⟩ <;> cases asked.symm.trans asked'

theorem next_slot_is_least {zone : Text → Option ζ} {utc : ζ} {text : Text} {s : Spec ζ} {notice : Option Notice}
    (read : parse zone utc text = .ok (.spec s,notice)) (_inUtc : s.tz = utc) {after : Int} (searchable : Searchable after) :
    s.NextLeast after ∧ ∀ now, now < 86400*lastDay → s.LatestGreatest after now := by
  have slotted := parse_slotted read
  refine ⟨?_,fun now before_ => latestFrom_cases slotted searchable before_⟩
  rcases next_cases slotted searchable with ⟨x,asked,near,least⟩ | ⟨asked,none_⟩
  · exact .inl ⟨x,asked,⟨near.slot,near.above⟩,fun y in_ => least y in_.1 in_.2⟩
  · refine .inr ⟨asked,fun x slot more year => none_ x ⟨slot,more,year.trans ?_⟩⟩
    have := yearAt_mono (start_above after).1.le
    omega

theorem next_slot_is_least_sample : (Spec.NextLeast (⟨1,1,2^29,4,255,false,true,()⟩ : Spec Unit) 1700000000) ∧
    ∀ now, now < 86400*lastDay → (⟨1,1,2^29,4,255,false,true,()⟩ : Spec Unit).LatestGreatest 1700000000 now :=
  @next_slot_is_least Unit (fun _ => none) () "0 0 29 2 *".toList _ none (by decide +kernel) rfl 1700000000
    ⟨by decide +kernel,by decide +kernel⟩

-- 05:00 on December 31.
def yearEnd : Spec Unit := ⟨1,32,2^31,4096,255,false,true,()⟩

-- On the calendar's last day the search past a slot runs off the calendar, and before its
-- first day it does not start.
theorem calendar_ends : parse (fun _ => none) () "0 5 31 12 *".toList = .ok (.spec yearEnd,none) ∧
    yearEnd.next (86400*lastDay+82800) = .overflow ∧ ¬yearEnd.NextLeast (86400*lastDay+82800) ∧
    yearEnd.next (86400*firstDay-120) = .none ∧ ¬yearEnd.NextLeast (86400*firstDay-120) := by
  have last : yearEnd.next (86400*lastDay+82800) = .overflow := by
    have day_ : dayAt (startAfter (86400*lastDay+82800)) = lastDay := by decide +kernel
    have isHeld : held lastDay = some lastDay := by decide +kernel
    have year : ¬yearOf lastDay+5 < yearOf lastDay := by omega
    have months_ : monthLoop yearEnd (startAfter (86400*lastDay+82800)) false = .out (startAfter (86400*lastDay+82800)) false := by
      rw [monthLoop,if_pos (by decide +kernel)]
    have days_ : dayLoop yearEnd (startAfter (86400*lastDay+82800)) false = .out (startAfter (86400*lastDay+82800)) false := by
      rw [dayLoop,if_pos (by decide +kernel)]
    have beyond : later (resetHour (startAfter (86400*lastDay+82800)) false) 60 = none := by decide +kernel
    have hours_ : hourLoop yearEnd (startAfter (86400*lastDay+82800)) false = .overflow := by
      rw [hourLoop,if_neg (by decide +kernel)]
      split
      · rfl
      · rename_i is
        cases beyond.symm.trans is
    have round_ : yearEnd.round (startAfter (86400*lastDay+82800)) false = .overflow := by
      rw [Spec.round,months_,Loop.then,days_,Loop.then,hours_]
      rfl
    rw [Spec.next,if_neg (by decide +kernel)]
    simp only [day_,isHeld]
    rw [Spec.search,day_,if_neg year]
    split
    all_goals rename_i is
    all_goals cases round_.symm.trans is
    rfl
  have first : yearEnd.next (86400*firstDay-120) = .none := by
    have isHeld : held (dayAt (startAfter (86400*firstDay-120))) = none := by decide +kernel
    rw [Spec.next,if_neg (by decide +kernel)]
    simp only [isHeld]
  refine ⟨by decide +kernel,last,?_,first,?_⟩
  · rintro (⟨x,asked,_⟩ | ⟨asked,_⟩) <;> cases last.symm.trans asked
  · rintro (⟨x,asked,_⟩ | ⟨_,none_⟩)
    · cases first.symm.trans asked
    · refine none_ (86400*firstDay+364*86400+18000) ⟨by decide +kernel,by decide +kernel,?_⟩ (by decide +kernel) (by decide +kernel)
      exact ⟨by decide +kernel,by decide +kernel,by decide +kernel,by decide +kernel⟩

end Cron
end PhaseLock
