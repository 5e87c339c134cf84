import PhaseLock.Scan

namespace PhaseLock
namespace Scan
open SkipScan Texts

theorem next_byte {sep : UInt8} (low : sep.toNat < 255) : Next sep (sep+1) := by
  intro c
  have up : (sep+1).toNat = sep.toNat+1 := by
    rw [UInt8.toNat_add,Nat.mod_eq_of_lt (by simp; omega)]
    simp
  rw [UInt8.lt_iff_toNat_lt,UInt8.le_iff_toNat_le,up]
  omega

theorem below_top {last : UInt8} (low : last ≠ 0xff) : last.toNat < 255 := by
  have other : last.toNat ≠ 255 := fun same => low (UInt8.toNat_inj.mp (by rw [same]; rfl))
  have := last.toNat_lt
  omega

theorem byte_le_top (c : UInt8) : c ≤ 0xff := by
  rw [UInt8.le_iff_toNat_le]
  exact Nat.lt_succ_iff.mp c.toNat_lt

theorem prefixBound_bound (text : Bytes) : prefixBound text = bound 0xff (·+1) text := by
  unfold prefixBound bound
  have same : text.reverse.dropWhile (fun c => decide (c = 0xff)) =
      text.reverse.dropWhile (fun c => @decide (c = 0xff) (LinearOrder.toDecidableEq c 0xff)) := rfl
  rw [← same]
  cases text.reverse.dropWhile (fun c => decide (c = 0xff)) <;> rfl

theorem prefixBound_concat {last : UInt8} (low : last ≠ 0xff) (text : Bytes) :
    prefixBound (text++[last]) = some (text++[last+1]) :=
  (prefixBound_bound _).trans (bound_concat low text)

theorem prefixBound_bounds {text bound : Bytes} (made : prefixBound text = some bound) : Bounds text bound :=
  bound_bounds byte_le_top (fun _ low => next_byte (below_top low)) ((prefixBound_bound text).symm.trans made)

-- Where a text has no bound, nothing is above the texts it starts.
theorem prefixBound_none {text : Bytes} (made : prefixBound text = none) (t : Bytes) : t < text ∨ text <+: t :=
  bound_none byte_le_top ((prefixBound_bound text).symm.trans made) t

structure ValueField.Formed (f : ValueField) : Prop where
  next : f.sep ≠ 0 → Next f.sep (f.sep+1)
  single : f.single = true → ∃ v, f.lo = some v ∧ f.hi = some v ∧ f.loOpen = false ∧ f.hiOpen = false

-- What compiling makes sure of: only a key's last value has no separator after it.
def Formed : List Field → Prop
  | [] => True
  | .literal lit litBound whole :: more => (whole = false → Bounds lit litBound) ∧ Formed more
  | .value f :: more => f.Formed ∧ (f.sep = 0 → more = []) ∧ Formed more

theorem valueField_formed (m : ParamMatch Bytes) {sep : UInt8} (next : sep ≠ 0 → Next sep (sep+1)) :
    (valueField m sep).Formed ∧ (valueField m sep).sep = sep := by
  have kept : (valueField m sep).sep = sep := by
    cases m with
    | starts text => by_cases empty : text = [] <;> simp [valueField,empty]
    | _ => rfl
  refine ⟨⟨by rw [kept]; exact next,?_⟩,kept⟩
  intro single
  cases m with
  | eq value => exact ⟨value,rfl,rfl,rfl,rfl⟩
  | any => cases single
  | starts text => by_cases empty : text = [] <;> simp [valueField,empty] at single
  | range gte gt lte lt => simp [valueField] at single

theorem valueFields_formed {sep last : UInt8} (sepNext : Next sep (sep+1)) (sepSome : sep ≠ 0)
    (lastNext : last ≠ 0 → Next last (last+1)) (more : List Field) (moreFormed : Formed more) (ends : last = 0 → more = [])
    (ms : List (ParamMatch Bytes)) : Formed (valueFields sep last ms++more) := by
  induction ms with
  | nil => exact moreFormed
  | cons m ms ih =>
    cases ms with
    | nil =>
      obtain ⟨formed,kept⟩ := valueField_formed m lastNext
      exact ⟨formed,by rw [kept]; exact ends,moreFormed⟩
    | cons m' ms =>
      obtain ⟨formed,kept⟩ := valueField_formed m (fun _ => sepNext)
      exact ⟨formed,by rw [kept]; exact fun none => absurd none sepSome,ih⟩

theorem fromJs_formed {kp : KeyPattern Bytes} {p : Pattern} (made : fromJs kp = .ok p) : Formed p.fields := by
  have commaNext : Next comma (comma+1) := next_byte (by decide)
  have bangNext : Next bang (bang+1) := next_byte (by decide)
  have slices : ∀ slice more, Formed more → Formed ((sliceFields slice).2++more) := by
    intro slice more formed
    cases slice with
    | named slice => exact formed
    | family family params =>
      exact valueFields_formed commaNext (by decide) (fun _ => bangNext) more formed (fun none => absurd none (by decide)) params
  have locals : Formed (valueFields comma 0 kp.locals) := by
    have := valueFields_formed commaNext (by decide) (fun some => absurd rfl some) [] trivial (fun _ => rfl) kp.locals
    rwa [List.append_nil] at this
  unfold fromJs at made
  split at made
  · split at made
    · cases made
    · cases made; trivial
  · rename_i slice _
    dsimp only at made
    split at made
    · split at made
      · cases made
        have := slices slice [] trivial
        rwa [List.append_nil] at this
      · cases made
    · rename_i name _
      cases made
      refine slices slice _ ⟨?_,locals⟩
      intro params
      have params : (!kp.locals.isEmpty) = true := by simpa using params
      rw [params,if_pos rfl]
      have low : colon ≠ 0xff := by decide
      rw [prefixBound_concat low,Option.getD_some]
      exact bounds_next (next_byte (below_top low)) _

-- Where a value stands against its field's bounds.
theorem under_some {f : ValueField} (short : f.under v = some lo) : f.lo = some lo ∧ (v < lo ∨ v = lo ∧ f.loOpen = true) := by
  obtain ⟨is,short⟩ := Option.filter_eq_some_iff.mp short
  exact ⟨is,by simpa using short⟩

theorem under_none {f : ValueField} (inside : f.under v = none) (is : f.lo = some lo) :
    lo < v ∨ v = lo ∧ f.loOpen = false := by
  have inside := Option.filter_eq_none_iff.mp inside lo is
  simp only [Bool.or_eq_true,decide_eq_true_eq,Bool.and_eq_true,not_or,not_lt] at inside
  obtain ⟨above,other⟩ := inside
  rcases lt_or_eq_of_le above with more | same
  · exact .inl more
  · exact .inr ⟨same.symm,by simpa [same.symm] using other⟩

theorem beyond_some {f : ValueField} (far : f.beyond v = some hi) : f.hi = some hi ∧ (hi < v ∨ v = hi ∧ f.hiOpen = true) := by
  obtain ⟨is,far⟩ := Option.filter_eq_some_iff.mp far
  exact ⟨is,by simpa using far⟩

theorem beyond_none {f : ValueField} (inside : f.beyond v = none) (is : f.hi = some hi) :
    v < hi ∨ v = hi ∧ f.hiOpen = false := by
  have inside := Option.filter_eq_none_iff.mp inside hi is
  simp only [Bool.or_eq_true,decide_eq_true_eq,Bool.and_eq_true,not_or,not_lt] at inside
  obtain ⟨below,other⟩ := inside
  rcases lt_or_eq_of_le below with less | same
  · exact .inl less
  · exact .inr ⟨same,by simpa [same] using other⟩

-- A field that admits one value admits no other.
theorem ValueField.Formed.only {f : ValueField} (formed : f.Formed) (single : f.single = true) (low : f.under v = none)
    (high : f.beyond v = none) (low' : f.under w = none) (high' : f.beyond w = none) : v = w := by
  obtain ⟨x,lo,hi,_,_⟩ := formed.single single
  have between : ∀ y, f.under y = none → f.beyond y = none → y = x := by
    intro y low high
    rcases under_none low lo with above | ⟨same,_⟩
    · rcases beyond_none high hi with below | ⟨same,_⟩
      · exact absurd (lt_trans above below) (lt_irrefl x)
      · exact same
    · exact same
  rw [between v low high,between w low' high']

-- A key's text after a value and its separator.
def afterText (sep : UInt8) (rest : Bytes) : Bytes := rest.drop ((valueText sep rest).length+if sep = 0 then 0 else 1)

theorem valueText_plain {sep : UInt8} (some : sep ≠ 0) (rest : Bytes) : sep ∉ valueText sep rest := by
  intro member
  rw [valueText,if_neg some] at member
  simpa using List.mem_takeWhile_imp member

theorem valueText_append {sep : UInt8} (some : sep ≠ 0) (plain : sep ∉ v) (rest : Bytes) :
    valueText sep (v++sep :: rest) = v ∧ cutShort sep (v++sep :: rest) = false ∧ afterText sep (v++sep :: rest) = rest := by
  have value : valueText sep (v++sep :: rest) = v := by
    rw [valueText,if_neg some,List.takeWhile_append_of_pos]
    · simp
    · intro c member
      have other : c ≠ sep := fun same => plain (same ▸ member)
      simpa using other
  refine ⟨value,by simp [cutShort,some],?_⟩
  rw [afterText,value,if_neg some]
  simp

theorem valueText_split {sep : UInt8} (some : sep ≠ 0) (whole : cutShort sep rest = false) :
    rest = valueText sep rest++sep :: afterText sep rest := by
  have member : sep ∈ rest := by simpa [cutShort,some] using whole
  obtain ⟨v,tail,rfl,plain⟩ := List.eq_append_cons_of_mem member
  obtain ⟨value,_,after⟩ := valueText_append some plain tail
  rw [value,after]

theorem valueText_short {sep : UInt8} (short : cutShort sep rest = true) : valueText sep rest = rest := by
  obtain ⟨some,out⟩ : sep ≠ 0 ∧ sep ∉ rest := by simpa [cutShort] using short
  rw [valueText,if_neg some]
  refine List.takeWhile_eq_self_iff.mpr fun c member => ?_
  have other : c ≠ sep := fun same => out (same ▸ member)
  simpa using other

theorem valueText_starts (sep : UInt8) (rest : Bytes) : valueText sep rest <+: rest := by
  unfold valueText
  split
  · exact List.prefix_rfl
  · exact List.takeWhile_prefix _

end Scan
end PhaseLock
