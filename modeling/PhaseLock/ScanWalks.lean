import PhaseLock.ScanPlaces

namespace PhaseLock
namespace Scan
open SkipScan Texts

-- An upper bound holding only characters above the separator after its value, as the values
-- of a template's parameters do.
def Field.plainAbove : Field → Bool
  | .literal .. => true
  | .value f => f.sep = 0 || f.hi.all fun hi => hi.all fun c => decide (f.sep < c)

-- A value is all of its text, or its separator follows it.
theorem value_cases (sep : UInt8) (r : Bytes) : r = valueText sep r ∨ sep ≠ 0 ∧ r = valueText sep r++sep :: afterText sep r := by
  by_cases last : sep = 0
  · exact .inl (by rw [last]; rfl)
  · cases whole : cutShort sep r with
    | false => exact .inr ⟨last,valueText_split last whole⟩
    | true => exact .inl (valueText_short whole).symm

-- A value below a plain bound stays below it with what follows it.
theorem below_plain {f : ValueField} (plain : (Field.value f).plainAbove = true) (is : f.hi = some hi)
    (below : valueText f.sep r < hi) : r < hi := by
  rcases value_cases f.sep r with whole | ⟨some,whole⟩
  · rwa [whole]
  · rw [whole]
    rcases lt_cases below with ⟨c,x,longer⟩ | apart
    · have above : f.sep < c := by
        have each : ∀ c ∈ hi, f.sep < c := by simpa [Field.plainAbove,some,is] using plain
        exact each c (by rw [longer]; simp)
      conv_rhs => rw [longer]
      rw [append_lt_iff]
      exact List.cons_lt_cons_iff.mpr (.inl above)
    · simpa using apart (f.sep :: afterText f.sep r) []

-- A value above a bound its text is not clear of goes on from the bound below the separator.
theorem above_tight {f : ValueField} (formed : f.Formed) (some : f.sep ≠ 0) (above : lo < valueText f.sep m)
    (tight : valueText f.sep m < lo++[f.sep+1]) : m < lo++[f.sep+1] := by
  obtain ⟨c,x,longer,low⟩ := between_next (formed.next some) above tight
  have other : c ≠ f.sep := fun same => valueText_plain some m (by rw [longer,same]; simp)
  have less : c < f.sep+1 := lt_trans (lt_of_le_of_ne low other) ((formed.next some f.sep).mpr le_rfl)
  obtain ⟨y,whole⟩ := valueText_starts f.sep m
  rw [← whole,longer,List.append_assoc,append_lt_iff]
  exact List.cons_lt_cons_iff.mpr (.inl less)

theorem under_of {f : ValueField} (is : f.lo = some lo) (short : v < lo ∨ v = lo ∧ f.loOpen = true) : f.under v = some lo :=
  Option.filter_eq_some_iff.mpr ⟨is,by simpa using short⟩

-- What fits one field stands between its bounds in order, whatever is past it above and
-- whatever is short of it below.
theorem fit_le_past {f : ValueField} (high : f.beyond w = none) (far : f.beyond v = some hi) : w ≤ v := by
  obtain ⟨is,far⟩ := beyond_some far
  rcases beyond_none high is with below | ⟨rfl,_⟩
  · rcases far with above | ⟨rfl,_⟩
    · exact le_of_lt (lt_trans below above)
    · exact le_of_lt below
  · rcases far with above | ⟨rfl,_⟩
    · exact le_of_lt above
    · exact le_rfl

theorem short_lt_fit {f : ValueField} (low : f.under w = none) (short : f.under v = some lo) : v < w := by
  obtain ⟨is,short⟩ := under_some short
  rcases under_none low is with above | ⟨rfl,closed⟩
  · rcases short with below | ⟨rfl,_⟩
    · exact lt_trans below above
    · exact above
  · rcases short with below | ⟨_,opened⟩
    · exact below
    · rw [closed] at opened; cases opened

theorem fit_le_hi {f : ValueField} (high : f.beyond w = none) (is : f.hi = some hi) : w ≤ hi := by
  rcases beyond_none high is with below | ⟨rfl,_⟩
  · exact le_of_lt below
  · exact le_rfl

-- Forward, a seek to where a value begins that passes over a key passes over every fitting
-- one that key passes over.
theorem under_nested {f : ValueField} (formed : f.Formed) (fitting : Fitting f more rm)
    (low : f.under (valueText f.sep r0) = some lo) (b : Bytes) (back : Option (Nat × UInt8))
    (passes : (placeFields false (b++r0) (.value f :: more) b.length back).Passes false (b++r0) (b++rk))
    (crossing : crossed false (.value f :: more) rk rm = true) : crossed false (.value f :: more) r0 rm = true := by
  have is := (under_some low).1
  have starts := prefix_le (valueText_starts f.sep rk)
  rw [place_under low,if_neg (by simp)] at passes
  have closed : rk ≤ lo → (rk = lo → f.loOpen = true) → f.under (valueText f.sep rk) = some lo := by
    intro below ends
    refine under_of is ?_
    rcases lt_or_eq_of_le (le_trans starts below) with less | same
    · exact .inl less
    · exact .inr ⟨same,ends (le_antisymm below (same ▸ starts))⟩
  by_cases open_ : f.loOpen = true
  · rw [if_neg (by simp [open_])] at passes
    by_cases last : f.sep = 0
    · rw [if_pos last,passes_forward,append_lt_iff,append_lt_iff] at passes
      have short : f.under (valueText f.sep rk) = some lo := by
        refine closed ?_ fun _ => open_
        rcases passes.2 with less | ⟨_,same⟩
        · exact le_of_lt less
        · exact le_of_eq (List.append_cancel_left same).symm
      simp only [crossed,short] at crossing
      simp [last] at crossing
    · rw [if_neg last,passes_forward,List.append_assoc,append_lt_iff,append_lt_iff] at passes
      have under : rk < lo++[f.sep+1] := by simpa using passes.2
      suffices tight : rm < lo++[f.sep+1] by simp [crossed,low,open_,last,tight]
      cases low' : f.under (valueText f.sep rk) with
      | some lo' =>
        cases (under_some low').1.symm.trans is
        simp only [crossed,low'] at crossing
        simpa [open_,last] using crossing
      | none =>
        have above : lo < valueText f.sep rm := by
          rcases under_none fitting.low is with above | ⟨_,shut⟩
          · exact above
          · rw [open_] at shut; cases shut
        refine above_tight formed last above (lt_of_le_of_lt ?_ under)
        cases far : f.beyond (valueText f.sep rk) with
        | some hi => exact le_trans (fit_le_past fitting.high far) starts
        | none =>
          simp only [crossed,low',far,Bool.and_eq_true,decide_eq_true_eq] at crossing
          rw [← crossing.1.2]
          exact starts
  · rw [if_pos (by simp [open_]),passes_forward,append_lt_iff,append_lt_iff] at passes
    have less : rk < lo := by simpa using passes.2
    have short := closed (le_of_lt less) fun same => absurd less (by rw [same]; exact lt_irrefl lo)
    simp [crossed,short,open_] at crossing

-- In reverse, the same holds of a seek to a plain upper bound.
theorem beyond_nested {f : ValueField} (plain : (Field.value f).plainAbove = true) (fitting : Fitting f more rm)
    (low : f.under (valueText f.sep r0) = none) (far : f.beyond (valueText f.sep r0) = some hi) (b : Bytes)
    (back : Option (Nat × UInt8)) (formed : f.Formed)
    (passes : (placeFields true (b++r0) (.value f :: more) b.length back).Passes true (b++r0) (b++rk))
    (crossing : crossed true (.value f :: more) rk rm = true) : crossed true (.value f :: more) r0 rm = true := by
  have is := (beyond_some far).1
  rw [place_beyond low far,if_neg (by simp)] at passes
  -- the key is at or past the bound, so its value is past the match too
  have above : hi ≤ rk := by
    split at passes
    · rw [passes_reverse,append_lt_iff,append_lt_iff] at passes
      rcases passes.2 with less | ⟨_,same⟩
      · exact le_of_lt less
      · exact le_of_eq (List.append_cancel_left same)
    · split at passes
      · rw [passes_reverse,append_lt_iff,append_lt_iff] at passes
        exact le_of_lt (by simpa using passes.2)
      · rw [passes_reverse,List.append_assoc,append_lt_iff,append_lt_iff] at passes
        rcases passes.2 with less | ⟨_,same⟩
        · exact le_of_lt (lt_trans (lt_extend hi _ _) less)
        · rw [← List.append_cancel_left same]
          exact prefix_le (List.prefix_append hi _)
  have notBelow : ¬valueText f.sep rk < hi := fun below => absurd (below_plain plain is below) (not_lt.mpr above)
  cases low' : f.under (valueText f.sep rk) with
  | some lo =>
    exact absurd (lt_of_lt_of_le (short_lt_fit fitting.low low') (fit_le_hi fitting.high is)) notBelow
  | none =>
    cases far' : f.beyond (valueText f.sep rk) with
    | some hi' =>
      cases (beyond_some far').1.symm.trans is
      simp only [crossed,low',far'] at crossing
      simpa only [crossed,low,far] using crossing
    | none =>
      rcases beyond_none far' is with below | ⟨same,shut⟩
      · exact absurd below notBelow
      · -- the key holds the bound itself, which a closed match admits
        rw [if_neg (by simp [shut])] at passes
        rcases value_cases f.sep rk with whole | ⟨some,whole⟩
        · rw [same] at whole
          subst whole
          split at passes
          · rw [passes_reverse] at passes
            simp at passes
          · rw [passes_reverse,List.append_assoc,append_lt_iff,append_lt_iff] at passes
            rcases passes.2 with less | ⟨_,equal⟩
            · exact absurd less (lt_asymm (lt_extend _ _ _))
            · have equal := congrArg List.length (List.append_cancel_left equal)
              simp at equal
        · rw [if_neg some,passes_reverse,List.append_assoc,append_lt_iff,append_lt_iff] at passes
          have less : rk < hi++[f.sep+1] := by
            rw [whole,same,append_lt_iff]
            exact lt_next (formed.next some) _
          rcases passes.2 with more | ⟨_,equal⟩
          · exact absurd less (lt_asymm more)
          · exact absurd less (by rw [List.append_cancel_left equal]; exact lt_irrefl _)

theorem before_value (v : Bytes) (sep : UInt8) (x y : Bytes) : before reverse (v++sep :: x) (v++sep :: y) = before reverse x y := by
  rw [before_append,← List.singleton_append,← List.singleton_append (l:=y),before_append]

theorem crossed_nested {fields : List Field} (formed : Formed fields)
    (plain : reverse = true → ∀ field ∈ fields, field.plainAbove = true) (held : Held b h)
    (o1 : before reverse r0 rk = true) (o2 : before reverse rk rm = true) (fit : fits fields rm = true)
    (passes : (placeFields reverse (b++r0) fields b.length (heldAt h)).Passes reverse (b++r0) (b++rk))
    (crossing : crossed reverse fields rk rm = true) : crossed reverse fields r0 rm = true := by
  induction fields generalizing b r0 rk rm h with
  | nil => cases crossing
  | cons field more ih =>
    have plainMore : reverse = true → ∀ field ∈ more, field.plainAbove = true :=
      fun is field member => plain is field (List.mem_cons_of_mem _ member)
    cases field with
    | literal lit litBound whole =>
      simp only [crossed,Bool.and_eq_true,decide_eq_true_eq] at crossing
      obtain ⟨hasK,crossing⟩ := crossing
      obtain ⟨⟨tk,rfl⟩,endsK⟩ := hasK
      obtain ⟨tm,rfl,_,fit⟩ := fits_literal fit
      by_cases has : lit <+: r0 ∧ (whole = true → r0.length = lit.length)
      · have ends := has
        obtain ⟨⟨t0,rfl⟩,_⟩ := has
        rw [place_literal,if_pos ends,← List.append_assoc,← List.append_assoc,← List.length_append] at passes
        rw [before_append] at o1 o2
        rw [List.drop_left,List.drop_left] at crossing
        rw [crossed,decide_eq_true ends,Bool.true_and,List.drop_left,List.drop_left]
        exact ih formed.2 plainMore (held.longer lit) o1 o2 fit passes crossing
      · exact absurd passes (literal_passes formed o1 (fun is => by simpa using endsK is) has b _)
    | value f =>
      have fitting := fits_value fit
      cases low : f.under (valueText f.sep r0) with
      | some lo =>
        cases reverse
        · exact under_nested formed.1 fitting low b _ passes crossing
        · simp [crossed,low]
      | none =>
        cases far : f.beyond (valueText f.sep r0) with
        | some hi =>
          cases reverse
          · simp [crossed,low,far]
          · exact beyond_nested (plain rfl _ List.mem_cons_self) fitting low far b _ formed.1 passes crossing
        | none =>
          by_cases short : cutShort f.sep r0 = true
          · rw [place_inside low far,if_pos short] at passes
            exact absurd passes id
          · have whole : cutShort f.sep r0 = false := by simpa using short
            by_cases last : f.sep = 0
            · rw [place_inside low far,if_neg short,formed.2.1 last] at passes
              exact absurd passes id
            · have j0 := (place_on last whole b).1
              rw [place_value_on low far last whole] at passes
              by_cases same : b++valueText f.sep r0++[f.sep] <+: b++rk
              · -- the key passed over shares the value, so all three do
                obtain ⟨x,equal⟩ := same
                rw [List.append_assoc,List.append_assoc] at equal
                have equal := List.append_cancel_left equal
                obtain ⟨value,wholeK,afterK⟩ := valueText_append last (valueText_plain last r0) x
                rw [List.singleton_append] at equal
                rw [equal] at value wholeK afterK
                simp only [crossed,value,low,far,wholeK,afterK,Bool.and_eq_true,decide_eq_true_eq] at crossing
                obtain ⟨⟨_,shared⟩,crossing⟩ := crossing
                have step : crossed reverse (.value f :: more) r0 rm =
                    crossed reverse more (afterText f.sep r0) (afterText f.sep rm) := by
                  simp only [crossed,low,far,whole]
                  simp [shared]
                have first : before reverse (afterText f.sep r0) x = true := by
                  rw [← before_value (valueText f.sep r0) f.sep,← valueText_split last whole,equal]
                  exact o1
                have second : before reverse x (afterText f.sep rm) = true := by
                  rw [← before_value (valueText f.sep r0) f.sep,equal,shared,← valueText_split last fitting.whole]
                  exact o2
                rw [step]
                refine ih formed.2.2 plainMore (held.on formed.1 last (valueText f.sep r0)) first second fitting.rest ?_ crossing
                rw [j0,← equal] at passes
                simpa using passes
              · exfalso
                rw [← j0] at passes
                have o1' : before reverse (b++r0) (b++rk) = true := by rw [before_append]; exact o1
                by_cases single : f.single = true
                · -- one value only, which the fitting key holds, and so everything between does
                  have only := formed.1.only single low far fitting.low fitting.high
                  have jm := (place_on last fitting.whole b).1
                  have o2' : before reverse (b++rk) (b++rm) = true := by rw [before_append]; exact o2
                  have starts0 : b++valueText f.sep r0++[f.sep] <+: b++r0 := ⟨_,j0.symm⟩
                  have startsM : b++valueText f.sep r0++[f.sep] <+: b++rm := by rw [only]; exact ⟨_,jm.symm⟩
                  cases reverse
                  · exact same (prefix_between starts0 startsM (le_of_lt (of_decide_eq_true o1')) (le_of_lt (of_decide_eq_true o2')))
                  · exact same (prefix_between startsM starts0 (le_of_lt (of_decide_eq_true o2')) (le_of_lt (of_decide_eq_true o1')))
                · have inside : Inside (b++valueText f.sep r0) f.sep (b++valueText f.sep r0++[f.sep])
                      (holdOn f b (valueText f.sep r0) h) := by
                    refine ⟨held.on formed.1 last _,formed.1.next last,List.prefix_rfl,?_⟩
                    exact ⟨_,_,by rw [holdOn,if_neg single],.inl ⟨rfl,rfl⟩⟩
                  rw [j0] at passes o1'
                  exact placed_inside formed.2.2 inside o1' same passes

end Scan
end PhaseLock
