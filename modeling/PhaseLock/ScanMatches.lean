import PhaseLock.Scans

namespace PhaseLock
open Texts

-- The values a match on a parameter takes.
def ParamMatch.Takes : ParamMatch Bytes → Bytes → Prop
  | .any, _ => True
  | .eq value, v => v = value
  | .starts text, v => text <+: v
  | .range gte gt lte lt, v => (∀ b ∈ gte, b ≤ v) ∧ (∀ b ∈ gt, b < v) ∧ (∀ b ∈ lte, v ≤ b) ∧ ∀ b ∈ lt, v < b

namespace Scan

-- The values of parameters, each up to the comma after it, the last one up to a sign of its
-- own, or to the key's end where that is 0, and what of the key is left after them.
inductive Values (last : UInt8) : List (ParamMatch Bytes) → Bytes → Bytes → Prop where
  | none : Values last [] rest rest
  | ends : last = 0 → m.Takes v → Values last [m] v []
  | sign : last ≠ 0 → m.Takes v → last ∉ v → Values last [m] (v++last :: rest) rest
  | more : m.Takes v → comma ∉ v → Values last (next :: ms) text rest → Values last (m :: next :: ms) (v++comma :: text) rest

-- A key's slice, up to its exclamation mark, and what of the key is left after it.
inductive Slices : SliceMatch Bytes → Bytes → Bytes → Prop where
  | named : Slices (.named slice) (slice++bang :: rest) rest
  | plain : Slices (.family family []) (family++bang :: rest) rest
  | family : params ≠ [] → Values bang params text rest → Slices (.family family params) (family++colon :: text) rest

end Scan
open Scan

-- The keys a pattern is for.
inductive KeyPattern.Matches : KeyPattern Bytes → Bytes → Prop where
  | every : Matches ⟨none,none,[]⟩ key
  | slice : Slices s key rest → Matches ⟨some s,none,[]⟩ key
  | template : Slices s key called → Matches ⟨some s,some called,[]⟩ key
  | params : ms ≠ [] → Slices s key (called++colon :: text) → Values 0 ms text [] → Matches ⟨some s,some called,ms⟩ key

namespace Scan

theorem inside_bounds {f : ValueField} : (f.under v = none ∧ f.beyond v = none) ↔
    (∀ lo ∈ f.lo, if f.loOpen then lo < v else lo ≤ v) ∧ ∀ hi ∈ f.hi, if f.hiOpen then v < hi else v ≤ hi := by
  unfold ValueField.under ValueField.beyond
  rw [Option.filter_eq_none_iff,Option.filter_eq_none_iff]
  refine and_congr (forall₂_congr fun lo _ => ?_) (forall₂_congr fun hi _ => ?_)
  · cases f.loOpen
    · simp
    · simp only [Bool.and_true,Bool.or_eq_true,decide_eq_true_eq,not_or,not_lt,if_true]
      exact ⟨fun both => lt_of_le_of_ne both.1 (Ne.symm both.2),fun less => ⟨le_of_lt less,ne_of_gt less⟩⟩
  · cases f.hiOpen
    · simp
    · simp only [Bool.and_true,Bool.or_eq_true,decide_eq_true_eq,not_or,not_lt,if_true]
      exact ⟨fun both => lt_of_le_of_ne both.1 both.2,fun less => ⟨le_of_lt less,ne_of_lt less⟩⟩

-- A value is inside its field's bounds exactly where its match takes it.
theorem field_takes (m : ParamMatch Bytes) (sep : UInt8) :
    ((valueField m sep).under v = none ∧ (valueField m sep).beyond v = none) ↔ m.Takes v := by
  rw [inside_bounds]
  cases m with
  | any => simp [valueField,ParamMatch.Takes]
  | eq value => simpa [valueField,ParamMatch.Takes] using le_antisymm_iff.symm.trans eq_comm
  | starts text =>
    by_cases empty : text = []
    · simp [valueField,ParamMatch.Takes,empty]
    · simp only [valueField,if_neg empty,ParamMatch.Takes,Option.mem_some_iff,forall_eq',if_true]
      cases made : prefixBound text with
      | none => 
        have all := prefixBound_none made v
        simp only [Option.mem_def,reduceCtorEq,false_imp_iff,implies_true,and_true]
        exact ⟨fun low => all.resolve_left (not_lt.mpr low),prefix_le⟩
      | some bound =>
        have bounds := prefixBound_bounds made v
        simp only [Option.mem_some_iff,forall_eq']
        exact ⟨fun both => (bounds.mp both.2).resolve_left (not_lt.mpr both.1),fun starts => ⟨prefix_le starts,bounds.mpr (.inr starts)⟩⟩
  | range gte gt lte lt =>
    have low : (∀ lo ∈ (valueField (.range gte gt lte lt) sep).lo, if (valueField (.range gte gt lte lt) sep).loOpen then lo < v
        else lo ≤ v) ↔ (∀ b ∈ gte, b ≤ v) ∧ ∀ b ∈ gt, b < v := by
      cases gt with
      | none => simp [valueField]
      | some g => cases gte with
        | none => simp [valueField]
        | some e =>
          by_cases tighter : e ≤ g
          · simpa [valueField,tighter] using fun less => le_of_lt (lt_of_le_of_lt tighter less)
          · simpa [valueField,tighter] using fun low => lt_of_lt_of_le (not_le.mp tighter) low
    have high : (∀ hi ∈ (valueField (.range gte gt lte lt) sep).hi, if (valueField (.range gte gt lte lt) sep).hiOpen then v < hi
        else v ≤ hi) ↔ (∀ b ∈ lte, v ≤ b) ∧ ∀ b ∈ lt, v < b := by
      cases lt with
      | none => simp [valueField]
      | some l => cases lte with
        | none => simp [valueField]
        | some e =>
          by_cases tighter : l ≤ e
          · simpa [valueField,tighter] using fun less => le_of_lt (lt_of_lt_of_le less tighter)
          · simpa [valueField,tighter] using fun low => lt_of_le_of_lt low (not_le.mp tighter)
    rw [low,high,and_assoc]
    rfl

theorem fits_field (m : ParamMatch Bytes) (sep : UInt8) (more : List Field) :
    fits (.value (valueField m sep) :: more) rest = true ↔
      m.Takes (valueText sep rest) ∧ cutShort sep rest = false ∧ fits more (afterText sep rest) = true := by
  have kept : (valueField m sep).sep = sep := by
    cases m with
    | starts text => by_cases empty : text = [] <;> simp [valueField,empty]
    | _ => rfl
  rw [← field_takes m sep]
  simp only [fits,kept,Bool.and_eq_true,Option.isNone_iff_eq_none,Bool.not_eq_true',and_assoc]

-- One value, and the separator after it.
theorem fits_one {m : ParamMatch Bytes} {sep : UInt8} (some : sep ≠ 0) {more : List Field} :
    fits (.value (valueField m sep) :: more) text = true ↔
      ∃ v rest, text = v++sep :: rest ∧ m.Takes v ∧ sep ∉ v ∧ fits more rest = true := by
  rw [fits_field]
  constructor
  · rintro ⟨takes,whole,fit⟩
    exact ⟨_,_,valueText_split some whole,takes,valueText_plain some text,fit⟩
  · rintro ⟨v,rest,rfl,takes,plain,fit⟩
    obtain ⟨value,whole,after⟩ := valueText_append some plain rest
    rw [value,after]
    exact ⟨takes,whole,fit⟩

theorem fits_values {last : UInt8} {more : List Field} (ends : last = 0 → more = []) (ms : List (ParamMatch Bytes)) :
    fits (valueFields comma last ms++more) text = true ↔ ∃ rest, Values last ms text rest ∧ fits more rest = true := by
  induction ms generalizing text with
  | nil =>
    refine ⟨fun fit => ⟨text,.none,fit⟩,?_⟩
    rintro ⟨rest,values,fit⟩
    cases values
    exact fit
  | cons m ms ih =>
    cases ms with
    | nil =>
      rw [valueFields,List.singleton_append]
      by_cases none : last = 0
      · rw [fits_field,none,ends none]
        constructor
        · rintro ⟨takes,_⟩
          exact ⟨[],.ends rfl takes,rfl⟩
        · rintro ⟨rest,values,_⟩
          cases values with
          | ends _ takes => exact ⟨takes,rfl,rfl⟩
          | sign some => exact absurd rfl some
      · rw [fits_one none]
        constructor
        · rintro ⟨v,rest,rfl,takes,plain,fit⟩
          exact ⟨rest,.sign none takes plain,fit⟩
        · rintro ⟨rest,values,fit⟩
          cases values with
          | ends zero => exact absurd zero none
          | sign _ takes plain => exact ⟨_,rest,rfl,takes,plain,fit⟩
    | cons next ms =>
      have first : valueFields comma last (m :: next :: ms) = .value (valueField m comma) :: valueFields comma last (next :: ms) := rfl
      rw [first,List.cons_append,fits_one (by decide)]
      constructor
      · rintro ⟨v,after,rfl,takes,plain,fit⟩
        obtain ⟨rest,values,fit⟩ := ih.mp fit
        exact ⟨rest,.more takes plain values,fit⟩
      · rintro ⟨rest,values,fit⟩
        cases values with
        | more takes plain values => exact ⟨_,_,rfl,takes,plain,ih.mpr ⟨rest,values,fit⟩⟩

theorem fits_slice (key : Bytes) (s : SliceMatch Bytes) (more : List Field) :
    ((sliceFields s).1 <+: key ∧ fits ((sliceFields s).2++more) (key.drop (sliceFields s).1.length) = true) ↔
      ∃ rest, Slices s key rest ∧ fits more rest = true := by
  cases s with
  | named slice =>
    constructor
    · rintro ⟨⟨rest,rfl⟩,fit⟩
      rw [List.drop_left] at fit
      exact ⟨rest,by simpa [sliceFields] using Slices.named,fit⟩
    · rintro ⟨rest,is,fit⟩
      cases is
      refine ⟨⟨rest,by simp [sliceFields]⟩,?_⟩
      simpa [sliceFields] using fit
  | family family params => cases params with
    | nil =>
      constructor
      · rintro ⟨⟨rest,rfl⟩,fit⟩
        rw [List.drop_left] at fit
        exact ⟨rest,by simpa [sliceFields] using Slices.plain,fit⟩
      · rintro ⟨rest,is,fit⟩
        cases is with
        | plain =>
          refine ⟨⟨rest,by simp [sliceFields]⟩,?_⟩
          simpa [sliceFields,valueFields] using fit
        | family some => exact absurd rfl some
    | cons m ms =>
      constructor
      · rintro ⟨⟨text,rfl⟩,fit⟩
        rw [List.drop_left] at fit
        obtain ⟨rest,values,fit⟩ := (fits_values (fun none : bang = 0 => absurd none (by decide)) (m :: ms)).mp fit
        exact ⟨rest,by simpa [sliceFields] using Slices.family (List.cons_ne_nil m ms) values,fit⟩
      · rintro ⟨rest,is,fit⟩
        cases is with
        | @family _ text _ _ _ values =>
          refine ⟨⟨text,by simp [sliceFields]⟩,?_⟩
          have inside := (fits_values (fun none : bang = 0 => absurd none (by decide)) (m :: ms)).mpr ⟨rest,values,fit⟩
          simpa [sliceFields] using inside

-- Values that run to the key's end leave nothing of it.
theorem Values.ended (values : Values 0 ms text rest) (some : ms ≠ []) : rest = [] := by
  induction values with
  | none => exact absurd rfl some
  | ends => rfl
  | sign zero => exact absurd rfl zero
  | more _ _ _ ih => exact ih (List.cons_ne_nil _ _)

theorem fits_whole (called : Bytes) : fits [nameField called false] rest = true ↔ rest = called := by
  simp only [nameField,Bool.false_eq_true,if_false,fits,Bool.not_false,forall_true_left,Bool.and_true,decide_eq_true_eq]
  constructor
  · rintro ⟨⟨tail,rfl⟩,length⟩
    have none : tail.length = 0 := by simpa using length
    rw [List.length_eq_zero_iff.mp none,List.append_nil]
  · rintro rfl
    exact ⟨List.prefix_rfl,rfl⟩

theorem fits_params (called : Bytes) {ms : List (ParamMatch Bytes)} (some : ms ≠ []) :
    fits (nameField called true :: valueFields comma 0 ms) rest = true ↔
      ∃ text, rest = called++colon :: text ∧ Values 0 ms text [] := by
  have values : ∀ text, fits (valueFields comma 0 ms) text = true ↔ Values 0 ms text [] := by
    intro text
    rw [← List.append_nil (valueFields comma 0 ms),fits_values (fun _ => rfl)]
    constructor
    · rintro ⟨left,values,_⟩
      exact values.ended some ▸ values
    · exact fun values => ⟨[],values,rfl⟩
  constructor
  · intro fit
    obtain ⟨text,rfl,_,fit⟩ := fits_literal fit
    exact ⟨text,by simp,(values text).mp fit⟩
  · rintro ⟨text,rfl,held⟩
    have starts : called++[colon] <+: called++colon :: text := ⟨text,by simp⟩
    have after : (called++colon :: text).drop (called++[colon]).length = text := by
      rw [List.length_append,← List.drop_drop,List.drop_left]
      rfl
    simp only [nameField,if_true,fits,Bool.not_true,Bool.false_eq_true,false_imp_iff,and_true,after,Bool.and_eq_true,decide_eq_true_eq]
    exact ⟨starts,(values text).mpr held⟩

-- A pattern picks exactly the keys it is for.
theorem picks_matches {kp : KeyPattern Bytes} {p : Pattern} (made : fromJs kp = .ok p) (key : Bytes) :
    p.picks key = true ↔ kp.Matches key := by
  rw [Pattern.picks,decide_eq_true_eq,place_found (fromJs_formed made)]
  obtain ⟨slice,name,ms⟩ := kp
  unfold fromJs at made
  cases slice with
  | none =>
    cases name with
    | some n => simp at made
    | none => cases ms with
      | cons m ms => simp at made
      | nil =>
        cases made
        exact ⟨fun _ => .every,fun _ => ⟨List.nil_prefix,rfl⟩⟩
  | some s =>
    cases name with
    | none => cases ms with
      | cons m ms => simp at made
      | nil =>
        cases made
        have same := fits_slice key s []
        rw [List.append_nil] at same
        refine same.trans ?_
        constructor
        · rintro ⟨rest,is,_⟩
          exact .slice is
        · intro is
          cases is with
          | slice is => exact ⟨_,is,rfl⟩
    | some called =>
      cases made
      refine (fits_slice key s _).trans ?_
      cases ms with
      | nil =>
        constructor
        · rintro ⟨rest,is,fit⟩
          exact .template ((fits_whole called).mp fit ▸ is)
        · intro is
          cases is with
          | template is => exact ⟨called,is,(fits_whole called).mpr rfl⟩
          | params some => exact absurd rfl some
      | cons m ms =>
        constructor
        · rintro ⟨rest,is,fit⟩
          obtain ⟨text,rfl,values⟩ := (fits_params called (List.cons_ne_nil m ms)).mp fit
          exact .params (List.cons_ne_nil m ms) is values
        · intro is
          cases is with
          | params some is values => exact ⟨_,is,(fits_params called some).mpr ⟨_,rfl,values⟩⟩

end Scan
end PhaseLock
