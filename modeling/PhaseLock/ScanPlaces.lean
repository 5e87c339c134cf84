import PhaseLock.ScanSteps

namespace PhaseLock
namespace Scan
open SkipScan Texts

-- Whether a key's text from a field on is in the match of every field.
def fits : List Field → Bytes → Bool
  | [], _ => true
  | .literal lit _ whole :: more, rest =>
    decide (lit <+: rest ∧ (whole = true → rest.length = lit.length)) && fits more (rest.drop lit.length)
  | .value f :: more, rest => (f.under (valueText f.sep rest)).isNone && (f.beyond (valueText f.sep rest)).isNone &&
      !cutShort f.sep rest && fits more (afterText f.sep rest)

-- One text comes before another in a walk one way.
def before (reverse : Bool) (a b : Bytes) : Bool := if reverse then b < a else a < b

def Place.stand (reverse : Bool) : Place → Stand Bytes
  | .found => .found
  | .step => .step
  | .done => .done
  | .seek target strict => .seek (fun key => past target strict key reverse)

def Place.Passes (reverse : Bool) (place : Place) (k m : Bytes) : Prop := (place.stand reverse).Passes k m

@[simp] theorem passes_found : Place.Passes reverse .found k m ↔ False := Iff.rfl
@[simp] theorem passes_step : Place.Passes reverse .step k m ↔ False := Iff.rfl
@[simp] theorem passes_done : Place.Passes reverse .done k m ↔ True := Iff.rfl

theorem passes_seek : Place.Passes reverse (.seek t strict) k m ↔
    past t strict k reverse = false ∧ past t strict m reverse = false := Iff.rfl

theorem past_false : past t strict key reverse = false ↔
    (if reverse then t < key else key < t) ∨ strict = true ∧ t = key := by
  unfold past
  cases reverse
  · rcases lt_trichotomy key t with below | rfl | above
    · simp [below,not_lt.mpr (le_of_lt below),ne_of_lt below]
    · cases strict <;> simp
    · simp [above,not_lt.mpr (le_of_lt above),ne_of_lt above]
  · rcases lt_trichotomy t key with below | rfl | above
    · simp [below,not_lt.mpr (le_of_lt below),ne_of_lt below]
    · cases strict <;> simp
    · simp [above,not_lt.mpr (le_of_lt above),ne_of_gt above]

theorem passes_forward : Place.Passes false (.seek t strict) k m ↔
    (k < t ∨ strict = true ∧ t = k) ∧ (m < t ∨ strict = true ∧ t = m) := by
  simp [passes_seek,past_false]

theorem passes_reverse : Place.Passes true (.seek t strict) k m ↔
    (t < k ∨ strict = true ∧ t = k) ∧ (t < m ∨ strict = true ∧ t = m) := by
  simp [passes_seek,past_false]

-- The placing of a key whose text up to a field is b.
theorem place_literal (reverse : Bool) (b r lit litBound : Bytes) (whole : Bool) (more : List Field) (back : Option (Nat × UInt8)) :
    placeFields reverse (b++r) (.literal lit litBound whole :: more) b.length back =
      if lit <+: r ∧ (whole = true → r.length = lit.length) then
        placeFields reverse (b++r) more (b.length+lit.length) back
      else if r < lit then if reverse then skipBack (b++r) reverse back else .seek (b++lit) false
      else if !reverse then skipBack (b++r) reverse back
      else if whole then .seek (b++lit) false
      else .seek (b++litBound) true := by
  simp [placeFields,seekTo]

theorem place_under {f : ValueField} (short : f.under (valueText f.sep r) = some lo) (reverse : Bool) (b : Bytes)
    (more : List Field) (back : Option (Nat × UInt8)) :
    placeFields reverse (b++r) (.value f :: more) b.length back =
      if reverse then skipBack (b++r) reverse back
      else if !f.loOpen then .seek (b++lo) false
      else if f.sep = 0 then .seek (b++lo) true
      else .seek (b++lo++[f.sep+1]) false := by
  simp [placeFields,seekTo,short]

theorem place_beyond {f : ValueField} (low : f.under (valueText f.sep r) = none)
    (far : f.beyond (valueText f.sep r) = some hi) (reverse : Bool) (b : Bytes) (more : List Field)
    (back : Option (Nat × UInt8)) :
    placeFields reverse (b++r) (.value f :: more) b.length back =
      if !reverse then skipBack (b++r) reverse back
      else if f.hiOpen then .seek (b++hi) true
      else if f.sep = 0 then .seek (b++hi) false
      else .seek (b++hi++[f.sep+1]) true := by
  simp [placeFields,seekTo,low,far]

theorem place_inside {f : ValueField} (low : f.under (valueText f.sep r) = none)
    (high : f.beyond (valueText f.sep r) = none) (reverse : Bool) (b : Bytes) (more : List Field)
    (back : Option (Nat × UInt8)) :
    placeFields reverse (b++r) (.value f :: more) b.length back =
      if cutShort f.sep r then .step
      else placeFields reverse (b++r) more (b.length+(valueText f.sep r).length+if f.sep = 0 then 0 else 1)
        (if f.single then back else some (b.length+(valueText f.sep r).length,f.sep)) := by
  simp [placeFields,low,high]

-- The value a key holds and its separator join the text placed.
theorem place_on (some : sep ≠ 0) (whole : cutShort sep r = false) (b : Bytes) :
    b++r = (b++valueText sep r++[sep])++afterText sep r ∧
      b.length+(valueText sep r).length+(if sep = 0 then 0 else 1) = (b++valueText sep r++[sep]).length := by
  refine ⟨?_,by simp [some,Nat.add_assoc]⟩
  conv_lhs => rw [valueText_split some whole]
  simp

-- The nearest varying value before a place, as text the placed text starts with.
def Held (b : Bytes) : Option (Bytes × UInt8) → Prop
  | none => True
  | some (value,sep) => value++[sep] <+: b ∧ Next sep (sep+1)

def heldAt (held : Option (Bytes × UInt8)) : Option (Nat × UInt8) := held.map fun h => (h.1.length,h.2)

theorem Held.longer (held : Held b h) (x : Bytes) : Held (b++x) h := by
  cases h with
  | none => trivial
  | some h => exact ⟨held.1.trans (List.prefix_append b x),held.2⟩

theorem skipBack_held (held : Held b (some (value,sep))) (r : Bytes) (reverse : Bool) :
    skipBack (b++r) reverse (heldAt (some (value,sep))) =
      if reverse then .seek (value++[sep]) true else .seek (value++[sep+1]) false := by
  obtain ⟨⟨tail,rfl⟩,_⟩ := held
  have whole : value.take (value.length+1) = value := List.take_of_length_le (by omega)
  simp [skipBack,seekTo,heldAt,List.take_append,List.append_assoc,whole]

-- The nearest varying value after a field inside its match.
def holdOn (f : ValueField) (b v : Bytes) (h : Option (Bytes × UInt8)) : Option (Bytes × UInt8) :=
  if f.single then h else some (b++v,f.sep)

theorem Held.on {f : ValueField} (held : Held b h) (formed : f.Formed) (some : f.sep ≠ 0) (v : Bytes) :
    Held (b++v++[f.sep]) (holdOn f b v h) := by
  by_cases single : f.single = true
  · rw [holdOn,if_pos single,List.append_assoc]; exact held.longer _
  · rw [holdOn,if_neg single]; exact ⟨List.prefix_rfl,formed.next some⟩

theorem place_value_on {f : ValueField} (low : f.under (valueText f.sep r) = none)
    (high : f.beyond (valueText f.sep r) = none) (some : f.sep ≠ 0) (whole : cutShort f.sep r = false) (reverse : Bool)
    (b : Bytes) (more : List Field) (h : Option (Bytes × UInt8)) :
    placeFields reverse (b++r) (.value f :: more) b.length (heldAt h) =
      placeFields reverse ((b++valueText f.sep r++[f.sep])++afterText f.sep r) more (b++valueText f.sep r++[f.sep]).length
        (heldAt (holdOn f b (valueText f.sep r) h)) := by
  obtain ⟨joined,long⟩ := place_on some whole b
  rw [place_inside low high,if_neg (by simp [whole]),long,← joined]
  congr 1
  by_cases single : f.single = true
  · simp [holdOn,single]
  · simp [holdOn,single,heldAt]

-- Skipping back from one key passes over every key further on that shares the text placed.
theorem skipBack_passes (held : Held b h) (reverse : Bool) (rk rm : Bytes) :
    (skipBack (b++rk) reverse (heldAt h)).Passes reverse (b++rk) (b++rm) := by
  cases h with
  | none => trivial
  | some h =>
    obtain ⟨value,sep⟩ := h
    rw [skipBack_held held]
    obtain ⟨⟨tail,rfl⟩,next⟩ := held
    cases reverse
    · rw [if_neg (by simp),passes_forward]
      have under : ∀ r, value++[sep]++tail++r < value++[sep+1] := fun r =>
        below_next next ⟨tail++r,by simp⟩
      exact ⟨.inl (under rk),.inl (under rm)⟩
    · rw [if_pos rfl,passes_reverse]
      have above : ∀ r, value++[sep] < value++[sep]++tail++r ∨ true = true ∧ value++[sep] = value++[sep]++tail++r := by
        intro r
        rcases lt_or_eq_of_le (prefix_le (⟨tail++r,by simp⟩ : value++[sep] <+: value++[sep]++tail++r)) with less | same
        · exact .inl less
        · exact .inr ⟨rfl,same⟩
      exact ⟨above rk,above rm⟩

-- A seek inside the texts one text starts does not pass over a key outside them.
theorem seek_inside (starts : p <+: k) (order : before reverse k m = true) (outside : ¬p <+: m) (target : p <+: t) :
    ¬(Place.seek t strict).Passes reverse k m := by
  cases reverse
  · rw [passes_forward]
    have far := past_all starts (of_decide_eq_true order) outside target
    rintro ⟨_,less | ⟨_,same⟩⟩
    · exact lt_asymm less far
    · exact ne_of_lt far same
  · rw [passes_reverse]
    have far := before_all starts (of_decide_eq_true order) outside target
    rintro ⟨_,less | ⟨_,same⟩⟩
    · exact lt_asymm less far
    · exact ne_of_gt far same

-- The nearest varying value is one the placed text starts with, or one found after it.
structure Inside (value : Bytes) (sep : UInt8) (b : Bytes) (h : Option (Bytes × UInt8)) : Prop where
  held : Held b h
  next : Next sep (sep+1)
  starts : value++[sep] <+: b
  near : ∃ v s, h = some (v,s) ∧ (v = value ∧ s = sep ∨ value++[sep] <+: v)

theorem skipBack_inside (inside : Inside value sep b h) (order : before reverse (b++rk) m = true)
    (outside : ¬value++[sep] <+: m) : ¬(skipBack (b++rk) reverse (heldAt h)).Passes reverse (b++rk) m := by
  obtain ⟨v,s,rfl,near⟩ := inside.near
  have starts := inside.starts.trans (List.prefix_append b rk)
  rw [skipBack_held inside.held]
  cases reverse
  · rw [if_neg (by simp)]
    rcases near with ⟨rfl,rfl⟩ | deeper
    · have far := next_le inside.next starts (of_decide_eq_true order) outside
      rw [passes_forward]
      rintro ⟨_,less | ⟨none,_⟩⟩
      · exact absurd less (not_lt.mpr far)
      · cases none
    · exact seek_inside starts order outside (deeper.trans (List.prefix_append v _))
  · rw [if_pos rfl]
    rcases near with ⟨rfl,rfl⟩ | deeper
    · exact seek_inside starts order outside List.prefix_rfl
    · exact seek_inside starts order outside (deeper.trans (List.prefix_append v _))

-- However a key's later fields place it, the walk passes over no key that does not share
-- the value held.
theorem placed_inside {fields : List Field} (formed : Formed fields) (inside : Inside value sep b h)
    (order : before reverse (b++rk) m = true) (outside : ¬value++[sep] <+: m) :
    ¬(placeFields reverse (b++rk) fields b.length (heldAt h)).Passes reverse (b++rk) m := by
  have starts := inside.starts.trans (List.prefix_append b rk)
  have target : ∀ x strict, ¬(Place.seek (b++x) strict).Passes reverse (b++rk) m := fun x strict =>
    seek_inside starts order outside (inside.starts.trans (List.prefix_append b x))
  induction fields generalizing b rk h with
  | nil => exact id
  | cons field more ih =>
    cases field with
    | literal lit litBound whole =>
      rw [place_literal]
      split
      · rename_i has
        obtain ⟨⟨r,rfl⟩,_⟩ := has
        rw [← List.append_assoc] at starts target order ⊢
        rw [← List.length_append]
        have deeper : Inside value sep (b++lit) h :=
          ⟨inside.held.longer lit,inside.next,inside.starts.trans (List.prefix_append b lit),inside.near⟩
        refine ih formed.2 deeper order starts fun x strict => ?_
        rw [List.append_assoc]
        exact target (lit++x) strict
      · split
        · split
          · exact skipBack_inside inside order outside
          · exact target _ _
        · split
          · exact skipBack_inside inside order outside
          · split
            · exact target _ _
            · exact target _ _
    | value f =>
      cases low : f.under (valueText f.sep rk) with
      | some lo =>
        rw [place_under low]
        split
        · exact skipBack_inside inside order outside
        · split
          · exact target _ _
          · split
            · exact target _ _
            · rw [List.append_assoc]; exact target _ _
      | none =>
        cases high : f.beyond (valueText f.sep rk) with
        | some hi =>
          rw [place_beyond low high]
          split
          · exact skipBack_inside inside order outside
          · split
            · exact target _ _
            · split
              · exact target _ _
              · rw [List.append_assoc]; exact target _ _
        | none =>
          rw [place_inside low high]
          split
          · exact id
          · rename_i whole
            by_cases last : f.sep = 0
            · rw [formed.2.1 last]; exact id
            · have whole : cutShort f.sep rk = false := by simpa using whole
              have joined := (place_on last whole b).1
              have moved := place_value_on low high last whole reverse b more h
              rw [place_inside low high,if_neg (by simp [whole])] at moved
              rw [moved]
              rw [joined] at starts order target ⊢
              have on : b <+: b++valueText f.sep rk++[f.sep] := by
                rw [List.append_assoc]; exact List.prefix_append b _
              have deeper : Inside value sep (b++valueText f.sep rk++[f.sep]) (holdOn f b (valueText f.sep rk) h) := by
                refine ⟨inside.held.on formed.1 last _,inside.next,inside.starts.trans on,?_⟩
                by_cases single : f.single = true
                · rw [holdOn,if_pos single]; exact inside.near
                · rw [holdOn,if_neg single]
                  exact ⟨_,_,rfl,.inr (inside.starts.trans (List.prefix_append b _))⟩
              refine ih formed.2.2 deeper order starts fun x strict => ?_
              rw [List.append_assoc,List.append_assoc]
              exact target _ _

-- Whether a key is placed so that its walk passes over one that fits the fields, the two
-- sharing their text so far: where a value outside its match stands on the wrong side of it.
def crossed (reverse : Bool) : List Field → Bytes → Bytes → Bool
  | [], _, _ => false
  | .literal lit _ whole :: more, k, m => decide (lit <+: k ∧ (whole = true → k.length = lit.length)) &&
      crossed reverse more (k.drop lit.length) (m.drop lit.length)
  | .value f :: more, k, m =>
    match f.under (valueText f.sep k),f.beyond (valueText f.sep k) with
    | some lo,_ => reverse || f.loOpen && f.sep ≠ 0 && m < lo++[f.sep+1]
    | none,some hi => !reverse || if f.hiOpen then decide (hi ≤ m) else f.sep ≠ 0 && hi++[f.sep+1] ≤ m
    | none,none => !cutShort f.sep k && valueText f.sep k = valueText f.sep m &&
        crossed reverse more (afterText f.sep k) (afterText f.sep m)

-- What a key that fits the fields from a value on holds.
structure Fitting (f : ValueField) (more : List Field) (m : Bytes) : Prop where
  low : f.under (valueText f.sep m) = none
  high : f.beyond (valueText f.sep m) = none
  whole : cutShort f.sep m = false
  rest : fits more (afterText f.sep m) = true

theorem fits_value (fit : fits (.value f :: more) m = true) : Fitting f more m := by
  simp only [fits,Bool.and_eq_true,Option.isNone_iff_eq_none,Bool.not_eq_true'] at fit
  exact ⟨fit.1.1.1,fit.1.1.2,fit.1.2,fit.2⟩

theorem fits_literal (fit : fits (.literal lit litBound whole :: more) m = true) :
    ∃ tail, m = lit++tail ∧ (whole = true → tail = []) ∧ fits more tail = true := by
  simp only [fits,Bool.and_eq_true,decide_eq_true_eq] at fit
  obtain ⟨⟨⟨tail,rfl⟩,ends⟩,fit⟩ := fit
  rw [List.drop_left] at fit
  exact ⟨tail,rfl,fun is => by simpa using ends is,fit⟩

-- A key without the literal is below one with it exactly when it is below the literal.
theorem literal_side {lit tail : Bytes} {whole : Bool} (ends : whole = true → tail = [])
    (other : ¬(lit <+: k ∧ (whole = true → k.length = lit.length))) : k < lit++tail ↔ k < lit := by
  constructor
  · intro order
    by_contra back
    have inside := prefix_between List.prefix_rfl (List.prefix_append lit tail) (not_lt.mp back) (le_of_lt order)
    refine other ⟨inside,fun is => ?_⟩
    rw [ends is,List.append_nil] at order
    exact absurd order (not_lt.mpr (prefix_le inside))
  · intro below
    exact lt_of_lt_of_le below (prefix_le (List.prefix_append lit tail))

theorem before_append (b rk rm : Bytes) : before reverse (b++rk) (b++rm) = before reverse rk rm := by
  simp [before]

theorem literal_passes {more : List Field} (formed : Formed (.literal lit litBound whole :: more))
    (order : before reverse rk (lit++tail) = true) (ends : whole = true → tail = [])
    (other : ¬(lit <+: rk ∧ (whole = true → rk.length = lit.length))) (b : Bytes) (back : Option (Nat × UInt8)) :
    ¬(placeFields reverse (b++rk) (.literal lit litBound whole :: more) b.length back).Passes reverse (b++rk)
      (b++(lit++tail)) := by
  have side := literal_side ends other
  rw [place_literal,if_neg other]
  cases reverse
  · have below := side.mp (of_decide_eq_true order)
    rw [if_pos below,if_neg (by simp),passes_forward,append_lt_iff,append_lt_iff]
    rintro ⟨_,less | ⟨none,_⟩⟩
    · exact absurd less (not_lt.mpr (prefix_le (List.prefix_append lit tail)))
    · cases none
  · have above : ¬rk < lit := fun below => lt_asymm (side.mpr below) (of_decide_eq_true order)
    rw [if_neg above,if_neg (by simp)]
    by_cases is : whole = true
    · rw [if_pos is,ends is,List.append_nil,passes_reverse]
      rintro ⟨_,less | ⟨none,_⟩⟩
      · exact lt_irrefl _ less
      · cases none
    · rw [if_neg is,passes_reverse,append_lt_iff,append_lt_iff]
      have short := (formed.1 (by simpa using is) (lit++tail)).mpr (.inr (List.prefix_append lit tail))
      rintro ⟨_,less | ⟨_,same⟩⟩
      · exact lt_asymm less short
      · exact ne_of_gt short (List.append_cancel_left same)

theorem under_passes {f : ValueField} (held : Held b h) (order : before reverse rk rm = true) (fitting : Fitting f more rm)
    (low : f.under (valueText f.sep rk) = some lo) :
    (placeFields reverse (b++rk) (.value f :: more) b.length (heldAt h)).Passes reverse (b++rk) (b++rm) ↔
      crossed reverse (.value f :: more) rk rm = true := by
  have least := under_none fitting.low (under_some low).1
  have starts := prefix_le (valueText_starts f.sep rm)
  rw [place_under low]
  simp only [crossed,low]
  cases reverse
  · have order : rk < rm := of_decide_eq_true order
    rw [if_neg (by simp)]
    by_cases open_ : f.loOpen = true
    · have above : lo < valueText f.sep rm := by
        rcases least with above | ⟨_,closed⟩
        · exact above
        · rw [open_] at closed; cases closed
      rw [if_neg (by simp [open_])]
      by_cases last : f.sep = 0
      · rw [if_pos last,passes_forward,append_lt_iff,append_lt_iff]
        have all : valueText f.sep rm = rm := by rw [last]; rfl
        rw [all] at above
        refine iff_of_false ?_ (by simp [last])
        rintro ⟨_,less | ⟨_,same⟩⟩
        · exact lt_asymm less above
        · exact ne_of_lt above (List.append_cancel_left same)
      · rw [if_neg last,passes_forward,List.append_assoc,append_lt_iff,append_lt_iff]
        constructor
        · rintro ⟨_,less | ⟨none,_⟩⟩
          · simpa [open_,last] using less
          · cases none
        · intro less
          have less : rm < lo++[f.sep+1] := by simpa [open_,last] using less
          exact ⟨.inl (lt_trans order less),.inl less⟩
    · rw [if_pos (by simp [open_]),passes_forward,append_lt_iff,append_lt_iff]
      have above : lo ≤ rm := by
        rcases least with above | ⟨same,_⟩
        · exact le_trans (le_of_lt above) starts
        · exact same ▸ starts
      have none : ¬rm < lo := not_lt.mpr above
      simp [none,open_]
  · rw [if_pos rfl]
    simp [skipBack_passes held true rk rm]

theorem beyond_passes {f : ValueField} (held : Held b h) (order : before reverse rk rm = true) (fitting : Fitting f more rm)
    (low : f.under (valueText f.sep rk) = none) (far : f.beyond (valueText f.sep rk) = some hi) :
    (placeFields reverse (b++rk) (.value f :: more) b.length (heldAt h)).Passes reverse (b++rk) (b++rm) ↔
      crossed reverse (.value f :: more) rk rm = true := by
  have most := beyond_none fitting.high (beyond_some far).1
  rw [place_beyond low far]
  simp only [crossed,low,far]
  cases reverse
  · rw [if_pos (by simp)]
    simp [skipBack_passes held false rk rm]
  · have order : rm < rk := of_decide_eq_true order
    rw [if_neg (by simp)]
    by_cases open_ : f.hiOpen = true
    · rw [if_pos open_,passes_reverse,append_lt_iff,append_lt_iff]
      simp only [open_]
      constructor
      · rintro ⟨_,less | ⟨_,same⟩⟩
        · simpa using le_of_lt less
        · simpa using le_of_eq (List.append_cancel_left same)
      · intro le
        have le : hi ≤ rm := by simpa using le
        refine ⟨.inl (lt_of_le_of_lt le order),?_⟩
        rcases lt_or_eq_of_le le with less | same
        · exact .inl less
        · exact .inr ⟨trivial,by rw [same]⟩
    · rw [if_neg open_]
      by_cases last : f.sep = 0
      · rw [if_pos last,passes_reverse,append_lt_iff,append_lt_iff]
        have all : valueText f.sep rm = rm := by rw [last]; rfl
        rw [all] at most
        have none : ¬hi < rm := by
          rcases most with below | ⟨same,_⟩
          · exact lt_asymm below
          · rw [same]; exact lt_irrefl hi
        simp [none,open_,last]
      · rw [if_neg last,passes_reverse,List.append_assoc,append_lt_iff,append_lt_iff]
        constructor
        · rintro ⟨_,less | ⟨_,same⟩⟩
          · simpa [open_,last] using le_of_lt less
          · simpa [open_,last] using le_of_eq (List.append_cancel_left same)
        · intro le
          have le : hi++[f.sep+1] ≤ rm := by simpa [open_,last] using le
          refine ⟨.inl (lt_of_le_of_lt le order),?_⟩
          rcases lt_or_eq_of_le le with less | same
          · exact .inl less
          · exact .inr ⟨rfl,by rw [same]⟩

-- A walk at a key passes over a fitting one that shares its text exactly where they cross.
theorem placed_passes {fields : List Field} (formed : Formed fields) (held : Held b h)
    (order : before reverse rk rm = true) (fit : fits fields rm = true) :
    (placeFields reverse (b++rk) fields b.length (heldAt h)).Passes reverse (b++rk) (b++rm) ↔
      crossed reverse fields rk rm = true := by
  induction fields generalizing b rk rm h with
  | nil => simp [placeFields,crossed]
  | cons field more ih =>
    cases field with
    | literal lit litBound whole =>
      by_cases has : lit <+: rk ∧ (whole = true → rk.length = lit.length)
      · rw [place_literal,if_pos has]
        have ends := has
        obtain ⟨⟨r,rfl⟩,_⟩ := has
        obtain ⟨tail,rfl,_,fit⟩ := fits_literal fit
        have on := ih formed.2 (held.longer lit) (before_append lit r tail ▸ order) fit
        rw [List.append_assoc,List.append_assoc,List.length_append] at on
        rw [on,crossed,List.drop_left,List.drop_left,decide_eq_true ends,Bool.true_and]
      · obtain ⟨tail,rfl,ends,_⟩ := fits_literal fit
        refine iff_of_false (literal_passes formed order ends has b _) ?_
        simp [crossed,has]
    | value f =>
      have fitting := fits_value fit
      cases low : f.under (valueText f.sep rk) with
      | some lo => exact under_passes held order fitting low
      | none =>
        cases far : f.beyond (valueText f.sep rk) with
        | some hi => exact beyond_passes held order fitting low far
        | none =>
          by_cases short : cutShort f.sep rk = true
          · rw [place_inside low far,if_pos short]
            simp [crossed,low,far,short]
          · have whole : cutShort f.sep rk = false := by simpa using short
            by_cases last : f.sep = 0
            · rw [place_inside low far,if_neg short,formed.2.1 last]
              simp [placeFields,crossed,low,far]
            · rw [place_value_on low far last whole]
              simp only [crossed,low,far,whole]
              by_cases same : valueText f.sep rk = valueText f.sep rm
              · obtain ⟨jk,_⟩ := place_on last whole b
                obtain ⟨jm,_⟩ := place_on last fitting.whole b
                have later : before reverse (afterText f.sep rk) (afterText f.sep rm) = true := by
                  rw [valueText_split last whole,valueText_split last fitting.whole,same,before_append] at order
                  rw [← before_append [f.sep]]
                  exact order
                have on := ih formed.2.2 (held.on formed.1 last (valueText f.sep rk)) later fitting.rest
                rw [← jk] at on ⊢
                rw [same,← jm] at on
                rw [← same] at on
                simpa [same] using on
              · refine iff_of_false ?_ (by simp [same])
                -- the values differ, so every later field keeps to the value the key holds
                have varies : ¬f.single = true := fun single =>
                  same (formed.1.only single low far fitting.low fitting.high)
                have inside : Inside (b++valueText f.sep rk) f.sep (b++valueText f.sep rk++[f.sep])
                    (holdOn f b (valueText f.sep rk) h) := by
                  refine ⟨held.on formed.1 last _,formed.1.next last,List.prefix_rfl,?_⟩
                  exact ⟨_,_,by rw [holdOn,if_neg varies],.inl ⟨rfl,rfl⟩⟩
                have outside : ¬b++valueText f.sep rk++[f.sep] <+: b++rm := by
                  rintro ⟨x,equal⟩
                  rw [List.append_assoc,List.append_assoc] at equal
                  have equal := List.append_cancel_left equal
                  rw [← equal] at same
                  exact same (valueText_append last (valueText_plain last rk) x).1.symm
                rw [(place_on last whole b).1]
                refine placed_inside formed.2.2 inside ?_ outside
                rw [← (place_on last whole b).1,before_append]
                exact order

theorem skipBack_other (key : Bytes) (reverse : Bool) (back : Option (Nat × UInt8)) : skipBack key reverse back ≠ .found := by
  cases back with
  | none => simp [skipBack]
  | some held => cases reverse <;> simp [skipBack,seekTo]

theorem placed_found {fields : List Field} (formed : Formed fields) (reverse : Bool) (b r : Bytes)
    (h : Option (Bytes × UInt8)) :
    placeFields reverse (b++r) fields b.length (heldAt h) = .found ↔ fits fields r = true := by
  induction fields generalizing b r h with
  | nil => simp [placeFields,fits]
  | cons field more ih =>
    cases field with
    | literal lit litBound whole =>
      rw [place_literal]
      by_cases has : lit <+: r ∧ (whole = true → r.length = lit.length)
      · rw [if_pos has,fits,decide_eq_true has,Bool.true_and]
        obtain ⟨⟨tail,rfl⟩,_⟩ := has
        rw [List.drop_left,← List.append_assoc,← List.length_append]
        exact ih formed.2 (b++lit) tail h
      · rw [if_neg has]
        refine iff_of_false ?_ (by simp [fits,has])
        split
        · split
          · exact skipBack_other _ _ _
          · simp
        · split
          · exact skipBack_other _ _ _
          · split <;> simp
    | value f =>
      cases low : f.under (valueText f.sep r) with
      | some lo =>
        rw [place_under low]
        refine iff_of_false ?_ (by simp [fits,low])
        split
        · exact skipBack_other _ _ _
        · split
          · simp
          · split <;> simp
      | none =>
        cases high : f.beyond (valueText f.sep r) with
        | some hi =>
          rw [place_beyond low high]
          refine iff_of_false ?_ (by simp [fits,low,high])
          split
          · exact skipBack_other _ _ _
          · split
            · simp
            · split <;> simp
        | none =>
          by_cases short : cutShort f.sep r = true
          · rw [place_inside low high,if_pos short]
            simp [fits,short]
          · have whole : cutShort f.sep r = false := by simpa using short
            by_cases last : f.sep = 0
            · rw [place_inside low high,if_neg short,formed.2.1 last]
              simp [placeFields,fits,low,high,whole]
            · rw [place_value_on low high last whole]
              rw [ih formed.2.2]
              simp [fits,low,high,whole]

end Scan
end PhaseLock
