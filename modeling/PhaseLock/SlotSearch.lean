import PhaseLock.Slots

namespace PhaseLock
namespace Cron
open Calendar

variable {ζ : Type}

-- A minute a spec matches: the day by both day fields when either is a star, and by either
-- otherwise.
structure Spec.At (s : Spec ζ) (t : Int) : Prop where
  minute : s.minute.testBit (minuteAt t) = true
  hour : s.hour.testBit (hourAt t) = true
  month : s.month.testBit (monthOf (dayAt t)) = true
  day : if s.domStar = true ∨ s.dowStar = true
    then s.dom.testBit (dayOf (dayAt t)) = true ∧ s.dow.testBit (weekdayOf (dayAt t)) = true
    else s.dom.testBit (dayOf (dayAt t)) = true ∨ s.dow.testBit (weekdayOf (dayAt t)) = true

theorem dayMatches_iff (s : Spec ζ) (t : Int) : s.dayMatches t = true ↔ if s.domStar = true ∨ s.dowStar = true
    then s.dom.testBit (dayOf (dayAt t)) = true ∧ s.dow.testBit (weekdayOf (dayAt t)) = true
    else s.dom.testBit (dayOf (dayAt t)) = true ∨ s.dow.testBit (weekdayOf (dayAt t)) = true := by
  unfold Spec.dayMatches
  by_cases star : s.domStar = true ∨ s.dowStar = true
  · simp only [star,Bool.or_eq_true,if_true,Bool.and_eq_true]
  · simp only [star,Bool.or_eq_true,if_false]

theorem dayMatches_day {s : Spec ζ} {t u : Int} (same : dayAt u = dayAt t) : s.dayMatches u = s.dayMatches t := by
  unfold Spec.dayMatches
  rw [same]

-- A spec whose hours and minutes are not empty, as every parsed one's.
structure Spec.Slotted (s : Spec ζ) : Prop where
  hours : ∃ h, h < 24 ∧ s.hour.testBit h = true
  minutes : ∃ m, m < 60 ∧ s.minute.testBit m = true

-- The calendar holds a time, and its last day still has an hour and minute of the spec from
-- there on.
structure Spec.Room (s : Spec ζ) (t : Int) : Prop where
  first : firstDay ≤ dayAt t
  last : dayAt t ≤ lastDay
  left : dayAt t = lastDay → ∃ u, t ≤ u ∧ dayAt u = dayAt t ∧ s.hour.testBit (hourAt u) = true ∧ s.minute.testBit (minuteAt u) = true

def Spec.Gone (s : Spec ζ) (t u : Int) : Prop := ∀ v, t ≤ v → v < u → ¬s.At v

-- Once the lower units are reset a time is on the hour, but in the loop over minutes.
def Aligned (t : Int) (added : Bool) : Prop := added = true → t%60 = 0

structure Spec.Landed (s : Spec ζ) (P : Int → Bool → Prop) (t u : Int) (added : Bool) : Prop where
  gone : s.Gone t u
  room : s.Room u
  year : yearOf (dayAt u) = yearOf (dayAt t)
  here : P u added

-- What a loop may end with when it is past the times that fail its own field.
def Loop.Ends (s : Spec ζ) (P : Int → Bool → Prop) (t : Int) : Loop → Prop
  | .out u added => s.Landed P t u added
  | .wrap u => s.Gone t u ∧ s.Room u ∧ u%60 = 0
  | .stop => ∀ v, t ≤ v → dayAt v ≤ lastDay → ¬s.At v
  | .overflow => False

theorem ends_after {s : Spec ζ} {P : Int → Bool → Prop} {t u : Int} {l : Loop} (gone : s.Gone t u)
    (year : yearOf (dayAt u) = yearOf (dayAt t)) (ends : l.Ends s P u) : l.Ends s P t := by
  have both : ∀ {w}, s.Gone u w → s.Gone t w := fun more v low high => by
    by_cases early : v < u
    · exact gone v low early
    · exact more v (not_lt.mp early) high
  cases l with
  | out w added => exact ⟨both ends.gone,ends.room,ends.year.trans year,ends.here⟩
  | wrap w => exact ⟨both ends.1,ends.2⟩
  | stop =>
    intro v low within
    by_cases early : v < u
    · exact gone v low early
    · exact ends v (not_lt.mp early) within
  | overflow => exact ends

theorem ends_then {s : Spec ζ} {P Q : Int → Bool → Prop} {t : Int} {l : Loop} {next : Int → Bool → Loop} (ends : l.Ends s P t)
    (all : ∀ u added, s.Room u → P u added → (next u added).Ends s Q u) : (l.then next).Ends s Q t := by
  cases l with
  | out u added => exact ends_after ends.gone ends.year (all u added ends.room ends.here)
  | wrap => exact ends
  | stop => exact ends
  | overflow => exact ends

theorem day_mono {t u : Int} (le : t ≤ u) : dayAt t ≤ dayAt u := by
  unfold dayAt
  omega

theorem day_below {t d : Int} (less : t < localTime d 0 0) : dayAt t < d := by
  unfold localTime at less
  unfold dayAt
  omega

theorem aligned_localTime (d : Int) : localTime d 0 0%60 = 0 := by
  unfold localTime
  omega

theorem room_midnight {s : Spec ζ} (slotted : s.Slotted) {d : Int} (first : firstDay ≤ d) (last : d ≤ lastDay) :
    s.Room (localTime d 0 0) := by
  obtain ⟨⟨h,hours,hour_⟩,m,minutes,minute_⟩ := slotted
  refine ⟨by rwa [day_localTime],by rwa [day_localTime],fun _ => ⟨localTime d h m,?_,?_,?_,?_⟩⟩
  · unfold localTime
    omega
  · rw [day_localTime]
    unfold dayAt localTime
    omega
  · rw [show hourAt (localTime d h m) = h by unfold hourAt localTime; omega]
    exact hour_
  · rw [show minuteAt (localTime d h m) = m by unfold minuteAt localTime; omega]
    exact minute_

theorem held_none {d : Int} (first : firstDay ≤ d) (is : held d = none) : lastDay < d := by
  unfold held at is
  split at is
  · cases is
  · rename_i outside
    by_contra within
    exact outside ⟨first,not_lt.mp within⟩

theorem resetMonth_held {s : Spec ζ} {t : Int} (room : s.Room t) (added : Bool) : ∃ u, resetMonth t added = some u := by
  obtain ⟨firstMonth,lastMonth⟩ := month_range (dayAt t)
  have low := (month_bounds (dayAt t)).2.1
  have above : firstDay ≤ firstOf (yearOf (dayAt t)) (monthOf (dayAt t)) := by
    have year : -262143 ≤ yearOf (dayAt t) := by
      have := yearOf_mono room.first
      rwa [firstDay,(monthOf_first le_rfl (by norm_num)).1] at this
    have := daysBefore_mono year
    have := daysBeforeMonth_mono (y:=yearOf (dayAt t)) firstMonth
    have := firstOf_one (yearOf (dayAt t))
    rw [firstDay,firstOf_one]
    unfold firstOf at *
    omega
  unfold resetMonth held
  cases added
  · rw [if_neg (by decide),if_pos ⟨above,low.trans room.last⟩]
    exact ⟨_,rfl⟩
  · exact ⟨t,rfl⟩

theorem month_gone {s : Spec ζ} {t v : Int} (fails : ¬s.month.testBit (monthOf (dayAt t)) = true) (low : t ≤ v)
    (high : dayAt v < nextMonth (dayAt t)) : ¬s.At v := by
  intro at_
  have month := (month_until (day_mono low) high).2
  exact fails (month ▸ at_.month)

theorem monthLoop_ends {s : Spec ζ} (slotted : s.Slotted) {t : Int} {added : Bool} (room : s.Room t)
    (aligned : Aligned t added) :
    (monthLoop s t added).Ends s (fun u added => Aligned u added ∧ s.month.testBit (monthOf (dayAt u)) = true) t := by
  have below : ∀ {n : Int}, firstDay ≤ n → firstDay ≤ nextMonth n := fun first => first.trans (nextMonth_after _).le
  fun_induction monthLoop s t added with
  | case1 t added matches_ => exact ⟨fun v low high => absurd high (not_lt.mpr low),room,rfl,aligned,matches_⟩
  | case2 t added fails reset =>
    obtain ⟨u,is⟩ := resetMonth_held room added
    rw [reset] at is
    cases is
  | case3 t added fails u reset turn =>
    rw [resetMonth_next reset] at turn
    have past := held_none (below room.first) turn
    exact fun v low within => month_gone fails low (lt_of_le_of_lt within past)
  | case4 t added fails u reset d turn first =>
    obtain ⟨rfl,low,high⟩ := held_some turn
    rw [resetMonth_next reset] at *
    exact ⟨fun v low less => month_gone fails low (day_below less),room_midnight slotted low high,aligned_localTime _⟩
  | case5 t added fails u reset d turn first ih =>
    obtain ⟨rfl,low,high⟩ := held_some turn
    rw [resetMonth_next reset] at *
    obtain ⟨last,more⟩ := nextMonth_date (dayAt t)
    have year : yearOf (nextMonth (dayAt t)) = yearOf (dayAt t) := by
      by_cases december : monthOf (dayAt t) = 12
      · exact absurd (last december).2 first
      · exact (more december).1
    refine ends_after (fun v low less => month_gone fails low (day_below less)) ?_
      (ih (room_midnight slotted low high) fun _ => aligned_localTime _)
    rw [day_localTime,year]

def Spec.OnDay (s : Spec ζ) (t : Int) : Prop := s.month.testBit (monthOf (dayAt t)) = true ∧ s.dayMatches t = true

theorem day_gone {s : Spec ζ} {t v : Int} (fails : ¬s.dayMatches t = true) (same : dayAt v = dayAt t) : ¬s.At v := by
  intro at_
  rw [← dayMatches_day same,dayMatches_iff] at fails
  exact fails at_.day

theorem dayLoop_ends {s : Spec ζ} (slotted : s.Slotted) {t : Int} {added : Bool} (room : s.Room t)
    (aligned : Aligned t added) (month : s.month.testBit (monthOf (dayAt t)) = true) :
    (dayLoop s t added).Ends s (fun u added => Aligned u added ∧ s.OnDay u) t := by
  fun_induction dayLoop s t added with
  | case1 t added matches_ => exact ⟨fun v low high => absurd high (not_lt.mpr low),room,rfl,aligned,month,matches_⟩
  | case2 t added fails turn =>
    rw [day_resetDay] at turn
    have past := held_none (by have := room.first; omega) turn
    intro v low within
    have := day_mono low
    exact day_gone fails (by omega)
  | case3 t added fails d turn first =>
    obtain ⟨rfl,low,high⟩ := held_some turn
    rw [day_resetDay] at *
    refine ⟨fun v low less => day_gone fails ?_,room_midnight slotted low high,aligned_localTime _⟩
    have := day_mono low
    have := day_below less
    omega
  | case4 t added fails d turn first ih =>
    obtain ⟨rfl,low,high⟩ := held_some turn
    rw [day_resetDay] at *
    rcases next_day (dayAt t) with ⟨_,is⟩ | ⟨_,year,month_,_⟩
    · exact absurd is first
    · refine ends_after (fun v low less => day_gone fails ?_) ?_
        (ih (room_midnight slotted low high) (fun _ => aligned_localTime _) (by rwa [day_localTime,month_]))
      · have := day_mono low
        have := day_below less
        omega
      · rw [day_localTime,year]

-- The minutes of the hourAt a search starts in.
theorem hour_until {t v : Int} {added : Bool} (aligned : Aligned t added) (low : t ≤ v)
    (high : v < resetHour t added+60) : dayAt v = dayAt t ∧ hourAt v = hourAt t := by
  unfold resetHour localTime at high
  unfold dayAt hourAt at *
  split at high
  · have := aligned ‹_›
    omega
  · omega

theorem hour_turn {t : Int} {added : Bool} (aligned : Aligned t added) : (resetHour t added+60)%60 = 0 ∧
    (dayAt (resetHour t added+60) = dayAt t ∨ (dayAt (resetHour t added+60) = dayAt t+1 ∧ hourAt (resetHour t added+60) = 0)) := by
  unfold resetHour localTime dayAt hourAt
  split
  · have := aligned ‹_›
    omega
  · omega

theorem hour_gone {s : Spec ζ} {t v : Int} {added : Bool} (fails : ¬s.hour.testBit (hourAt t) = true)
    (aligned : Aligned t added) (low : t ≤ v) (high : v < resetHour t added+60) : ¬s.At v := by
  intro at_
  exact fails ((hour_until aligned low high).2 ▸ at_.hour)

-- An hour and minute left in the last day stay left past an hour the spec has not.
theorem hour_left {s : Spec ζ} {t : Int} {added : Bool} (room : s.Room t) (fails : ¬s.hour.testBit (hourAt t) = true)
    (aligned : Aligned t added) (last : dayAt t = lastDay) : ∃ u, resetHour t added+60 ≤ u ∧ dayAt u = dayAt t ∧
      s.hour.testBit (hourAt u) = true ∧ s.minute.testBit (minuteAt u) = true := by
  obtain ⟨u,low,same,hour_,minute_⟩ := room.left last
  refine ⟨u,?_,same,hour_,minute_⟩
  by_contra early
  exact fails ((hour_until aligned low (not_le.mp early)).2 ▸ hour_)

theorem later_none {t n : Int} (first : firstDay ≤ dayAt (t+n)) (is : later t n = none) : lastDay < dayAt (t+n) :=
  held_none first (Option.map_eq_none_iff.mp is)

theorem later_held {t n u : Int} (is : later t n = some u) : u = t+n ∧ dayAt u ≤ lastDay := by
  obtain ⟨d,in_,rfl⟩ := Option.map_eq_some_iff.mp is
  exact ⟨rfl,(held_some in_).2.2⟩

theorem onDay_day {s : Spec ζ} {t u : Int} (same : dayAt u = dayAt t) (on : s.OnDay t) : s.OnDay u :=
  ⟨by rw [same]; exact on.1,(dayMatches_day same).trans on.2⟩

theorem hourLoop_ends {s : Spec ζ} (slotted : s.Slotted) {t : Int} {added : Bool} (room : s.Room t)
    (aligned : Aligned t added) (on : s.OnDay t) :
    (hourLoop s t added).Ends s (fun u added => Aligned u added ∧ s.OnDay u ∧ s.hour.testBit (hourAt u) = true) t := by
  fun_induction hourLoop s t added with
  | case1 t added matches_ => exact ⟨fun v low high => absurd high (not_lt.mpr low),room,rfl,aligned,on,matches_⟩
  | case2 t added fails turn =>
    have up := resetHour_hour t added
    have past := later_none (room.first.trans (day_mono up.le)) turn
    have last : dayAt t = lastDay := by
      have := room.last
      have := (hour_turn aligned).2
      omega
    obtain ⟨u,low,same,_⟩ := hour_left room fails aligned last
    have := day_mono low
    exact absurd past (by omega)
  | case3 t added fails u turn first =>
    obtain ⟨rfl,last⟩ := later_held turn
    have up := resetHour_hour t added
    have midnight : resetHour t added+60 = localTime (dayAt (resetHour t added+60)) 0 0 := by
      have := (hour_turn aligned).1
      unfold hourAt at first
      unfold localTime dayAt
      omega
    refine ⟨fun v low high => hour_gone fails aligned low high,?_,(hour_turn aligned).1⟩
    rw [midnight]
    exact room_midnight slotted (room.first.trans (day_mono up.le)) last
  | case4 t added fails u turn first ih =>
    obtain ⟨rfl,last⟩ := later_held turn
    have up := resetHour_hour t added
    have same : dayAt (resetHour t added+60) = dayAt t := (hour_turn aligned).2.resolve_right fun carried => first carried.2
    have room' : s.Room (resetHour t added+60) := by
      refine ⟨room.first.trans (day_mono up.le),last,fun is => ?_⟩
      rw [same] at is ⊢
      exact hour_left room fails aligned is
    refine ends_after (fun v low high => hour_gone fails aligned low high) (by rw [same])
      (ih room' (fun _ => (hour_turn aligned).1) (onDay_day same on))

theorem minute_gone {s : Spec ζ} {t v : Int} (fails : ¬s.minute.testBit (minuteAt t) = true) (low : t ≤ v) (high : v < t+1) :
    ¬s.At v := by
  intro at_
  cases (show v = t by omega)
  exact fails at_.minute

theorem minute_left {s : Spec ζ} {t : Int} (room : s.Room t) (fails : ¬s.minute.testBit (minuteAt t) = true)
    (last : dayAt t = lastDay) : ∃ u, t+1 ≤ u ∧ dayAt u = dayAt t ∧ s.hour.testBit (hourAt u) = true ∧ s.minute.testBit (minuteAt u) = true := by
  obtain ⟨u,low,same,hour_,minute_⟩ := room.left last
  refine ⟨u,?_,same,hour_,minute_⟩
  by_contra early
  cases (show u = t by omega)
  exact fails minute_

theorem minute_turn (t : Int) : (minuteAt (t+1) ≠ 0 → dayAt (t+1) = dayAt t ∧ hourAt (t+1) = hourAt t) ∧ (minuteAt (t+1) = 0 → (t+1)%60 = 0) ∧
    (dayAt (t+1) = dayAt t ∨ (dayAt (t+1) = dayAt t+1 ∧ t+1 = localTime (dayAt (t+1)) 0 0)) := by
  unfold minuteAt dayAt hourAt localTime
  omega

theorem minuteLoop_ends {s : Spec ζ} (slotted : s.Slotted) {t : Int} {added : Bool} (room : s.Room t) (on : s.OnDay t)
    (hour_ : s.hour.testBit (hourAt t) = true) : (minuteLoop s t added).Ends s (fun u _ => s.At u) t := by
  fun_induction minuteLoop s t added with
  | case1 t added matches_ =>
    exact ⟨fun v low high => absurd high (not_lt.mpr low),room,rfl,matches_,hour_,on.1,(dayMatches_iff s t).mp on.2⟩
  | case2 t added fails turn =>
    have past := later_none (room.first.trans (day_mono (lt_add_one t).le)) turn
    have last : dayAt t = lastDay := by
      have := room.last
      have := (minute_turn t).2.2
      omega
    obtain ⟨u,low,same,_⟩ := minute_left room fails last
    have := day_mono low
    exact absurd past (by omega)
  | case3 t added fails u turn first =>
    obtain ⟨rfl,last⟩ := later_held turn
    obtain ⟨_,onHour,carried⟩ := minute_turn t
    have above := room.first.trans (day_mono (lt_add_one t).le)
    refine ⟨fun v low high => minute_gone fails low high,?_,onHour first⟩
    rcases carried with same | ⟨_,midnight⟩
    · refine ⟨above,last,fun is => ?_⟩
      rw [same] at is ⊢
      exact minute_left room fails is
    · rw [midnight]
      exact room_midnight slotted above last
  | case4 t added fails u turn first ih =>
    obtain ⟨rfl,last⟩ := later_held turn
    obtain ⟨same,sameHour⟩ := (minute_turn t).1 first
    have room' : s.Room (t+1) := by
      refine ⟨room.first.trans (day_mono (lt_add_one t).le),last,fun is => ?_⟩
      rw [same] at is ⊢
      exact minute_left room fails is
    exact ends_after (fun v low high => minute_gone fails low high) (by rw [same])
      (ih room' (onDay_day same on) (by rw [sameHour]; exact hour_))

theorem round_ends {s : Spec ζ} (slotted : s.Slotted) {t : Int} {added : Bool} (room : s.Room t) (aligned : Aligned t added) :
    (s.round t added).Ends s (fun u _ => s.At u) t :=
  ends_then (ends_then (ends_then (monthLoop_ends slotted room aligned)
    fun _ _ room here => dayLoop_ends slotted room here.1 here.2)
    fun _ _ room here => hourLoop_ends slotted room here.1 here.2)
    fun _ _ room here => minuteLoop_ends slotted room here.2.1 here.2.2

-- What a search from a time through the end of a year comes to.
def Spec.Answers (s : Spec ζ) (limit t : Int) : Search → Prop
  | .slot x => ∃ u, x = 60*u ∧ t ≤ u ∧ s.At u ∧ s.Gone t u ∧ yearOf (dayAt u) ≤ limit ∧ dayAt u ≤ lastDay
  | .none => ∀ v, t ≤ v → yearOf (dayAt v) ≤ limit → dayAt v ≤ lastDay → ¬s.At v
  | .overflow => False

theorem answers_after {s : Spec ζ} {limit t u : Int} {found : Search} (le : t ≤ u) (gone : s.Gone t u)
    (answers : s.Answers limit u found) : s.Answers limit t found := by
  cases found with
  | slot x =>
    obtain ⟨w,is,low,at_,more,year,last⟩ := answers
    refine ⟨w,is,le.trans low,at_,fun v from_ high => ?_,year,last⟩
    by_cases early : v < u
    · exact gone v from_ early
    · exact more v (not_lt.mp early) high
  | none =>
    intro v low
    by_cases early : v < u
    · exact fun _ _ => gone v low early
    · exact answers v (not_lt.mp early)
  | overflow => exact answers

theorem search_answers {s : Spec ζ} (slotted : s.Slotted) {limit t : Int} {added : Bool} (room : s.Room t)
    (aligned : Aligned t added) : s.Answers limit t (s.search limit t added) := by
  fun_induction Spec.search s limit t added with
  | case1 t added past =>
    intro v low within
    have := yearOf_mono (day_mono low)
    omega
  | case2 t added in_ u added' ended =>
    have ends := round_ends slotted room aligned
    have up := round_from s t added
    rw [ended] at ends up
    exact ⟨u,rfl,up,ends.here,ends.gone,ends.year ▸ not_lt.mp in_,ends.room.last⟩
  | case3 t added in_ u ended ih =>
    have ends := round_ends slotted room aligned
    have up := round_from s t added
    rw [ended] at ends up
    exact answers_after (le_of_lt up) ends.1 (ih ends.2.1 fun _ => ends.2.2)
  | case4 t added in_ ended =>
    have ends := round_ends slotted room aligned
    rw [ended] at ends
    exact fun v low _ within => ends v low within
  | case5 t added in_ ended =>
    have ends := round_ends slotted room aligned
    rw [ended] at ends
    exact ends

end Cron
end PhaseLock
