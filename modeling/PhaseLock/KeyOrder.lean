import PhaseLock.ScansAgree

namespace PhaseLock
namespace Skeleton
open Texts Mp

-- Sorted by code units, and where some key holds a high unit by code points after that.
def sortKeys (keys : List Units) : List Units :=
  let sorted := keys.insertionSort fun a b => unitCompare a b ≤ 0
  if sorted.any highUnit then sorted.insertionSort fun a b => compareKeys a b ≤ 0 else sorted

-- Code-unit order is the order of the units' numbers.
theorem unitCompare_le (a b : Units) : unitCompare a b ≤ 0 ↔ a.map UInt16.toNat ≤ b.map UInt16.toNat := by
  induction a generalizing b with
  | nil => cases b with
    | nil => simp [unitCompare]
    | cons y b =>
      have low : ([] : List Nat) ≤ (y :: b).map UInt16.toNat := prefix_le List.nil_prefix
      simpa [unitCompare] using low
  | cons x a ih => cases b with
    | nil => simp [unitCompare]
    | cons y b =>
      rw [unitCompare,List.map_cons,List.map_cons,cons_le_iff]
      simp only [UInt16.lt_iff_toNat_lt]
      rcases lt_trichotomy x.toNat y.toNat with less | same | more
      · rw [if_pos less]
        exact iff_of_true (by decide) (.inl less)
      · rw [if_neg (by omega),if_neg (by omega),ih]
        exact ⟨fun le => .inr ⟨same,le⟩,fun either => either.elim (fun less => by omega) And.right⟩
      · rw [if_neg (by omega),if_pos more]
        refine iff_of_false (by decide) ?_
        rintro (less | ⟨same,_⟩) <;> omega

theorem compareKeys_le (a b : Units) : compareKeys a b ≤ 0 ↔ rk a ≤ rk b := by
  rw [← not_lt,compareKeys_pos,not_lt]

instance : Std.Total fun a b : Units => unitCompare a b ≤ 0 where
  total a b := by simpa only [unitCompare_le] using le_total (a.map UInt16.toNat) (b.map UInt16.toNat)

instance : IsTrans Units fun a b => unitCompare a b ≤ 0 where
  trans a b c := by simpa only [unitCompare_le] using le_trans

instance : Std.Total fun a b : Units => compareKeys a b ≤ 0 where
  total a b := by simpa only [compareKeys_le] using le_total (rk a) (rk b)

instance : IsTrans Units fun a b => compareKeys a b ≤ 0 where
  trans a b c := by simpa only [compareKeys_le] using le_trans

theorem sortKeys_perm (keys : List Units) : (sortKeys keys).Perm keys := by
  have first := List.perm_insertionSort (fun a b => unitCompare a b ≤ 0) keys
  unfold sortKeys
  dsimp only
  split
  · exact (List.perm_insertionSort _ _).trans first
  · exact first

-- Keys without a high unit are in code-point order once they are in code-unit order.
theorem sortKeys_ordered (keys : List Units) : (sortKeys keys).Pairwise fun a b => compareKeys a b ≤ 0 := by
  unfold sortKeys
  dsimp only
  split
  · exact List.pairwise_insertionSort _ _
  · rename_i low
    have units := List.pairwise_insertionSort (fun a b => unitCompare a b ≤ 0) keys
    refine units.imp_of_mem fun {a b} member _ le => ?_
    have none : highUnit a = false := by
      by_contra high
      exact low (List.any_eq_true.mpr ⟨a,member,by simpa using high⟩)
    have same := unitCompare_sign (a:=a) (b:=b) (.inl none)
    rw [← Int.sign_nonpos_iff] at le ⊢
    rwa [same] at le

-- A value field compares exactly against its own bounds.
theorem valueField_exact (m : ParamMatch Units) (sep : Option UInt16) {bound : Units}
    (own : (valueField m sep).lo = some bound ∨ (valueField m sep).hi = some bound) (v : Units) :
    ((valueField m sep).cmp v bound).sign = (compareKeys v bound).sign := by
  have against : ∀ low high : Option Units, low = some bound ∨ high = some bound →
      (exactFor [low,high] v bound).sign = (compareKeys v bound).sign := by
    intro low high either
    refine exactFor_sign (.inr ?_)
    rcases either with rfl | rfl <;> simp
  cases m with
  | any => rcases own with none | none <;> cases none
  | eq value => exact against _ _ own
  | starts text =>
    rw [valueField] at own ⊢
    split at own
    · rcases own with none | none <;> cases none
    · rename_i some
      rw [if_neg some]
      exact against _ _ own
  | range gte gt lte lt => exact against _ _ own

-- The keys a text starts are those from it on and below its end.
theorem prefixEnd_tight (p k : List Char) : utf16 p <+: utf16 k ↔
    compareKeys (utf16 p) (utf16 k) ≤ 0 ∧ ∀ end_, prefixEnd (utf16 p) = some end_ → compareKeys (utf16 k) end_ < 0 := by
  have low : compareKeys (utf16 p) (utf16 k) ≤ 0 ↔ p ≤ k := by rw [← not_lt,compareKeys_gt,not_lt]
  rw [utf16_starts,low,prefixEnd_utf16]
  cases made : textEnd p with
  | none =>
    refine ⟨fun starts => ⟨prefix_le starts,fun end_ none => by cases none⟩,fun within => ?_⟩
    exact (bound_none char_le_top made k).resolve_left (not_lt.mpr within.1)
  | some end_ =>
    have bounds := textEnd_bounds made
    simp only [Option.map_some,Option.some.injEq,forall_eq',compareKeys_lt]
    rw [bounds k]
    exact ⟨fun starts => ⟨prefix_le starts,.inr starts⟩,fun within => within.2.resolve_left (not_lt.mpr within.1)⟩

theorem prefixBound_tight (p k : Bytes) : p <+: k ↔ p ≤ k ∧ ∀ end_, prefixBound p = some end_ → k < end_ := by
  cases made : prefixBound p with
  | none =>
    refine ⟨fun starts => ⟨prefix_le starts,fun end_ none => by cases none⟩,fun within => ?_⟩
    exact (Scan.prefixBound_none made k).resolve_left (not_lt.mpr within.1)
  | some end_ =>
    simp only [Option.some.injEq,forall_eq']
    rw [Scan.prefixBound_bounds made k]
    exact ⟨fun starts => ⟨prefix_le starts,.inr starts⟩,fun within => within.2.resolve_left (not_lt.mpr within.1)⟩

-- Keys compare as their UTF-8 bytes do and sort so, a comparison exact for either side is
-- the same one, and a text's end bounds the keys it starts, of units and of bytes.
theorem key_order_is_byte_order (a b : List Char) (keys : List Units) :
    ((compareKeys (utf16 a) (utf16 b) < 0 ↔ utf8 a < utf8 b) ∧ (compareKeys (utf16 a) (utf16 b) = 0 ↔ utf8 a = utf8 b) ∧
      (0 < compareKeys (utf16 a) (utf16 b) ↔ utf8 b < utf8 a)) ∧
    ((sortKeys keys).Perm keys ∧ (sortKeys keys).Pairwise fun x y => compareKeys x y ≤ 0) ∧
    (∀ (exact_ : List (Option Units)) (x y : Units), some x ∈ exact_ ∨ some y ∈ exact_ →
      (exactFor exact_ x y).sign = (compareKeys x y).sign) ∧
    (∀ (m : ParamMatch Units) (sep : Option UInt16) (bound v : Units),
      (valueField m sep).lo = some bound ∨ (valueField m sep).hi = some bound →
        ((valueField m sep).cmp v bound).sign = (compareKeys v bound).sign) ∧
    (utf16 a <+: utf16 b ↔
      compareKeys (utf16 a) (utf16 b) ≤ 0 ∧ ∀ end_, prefixEnd (utf16 a) = some end_ → compareKeys (utf16 b) end_ < 0) ∧
    ∀ p k : Bytes, p <+: k ↔ p ≤ k ∧ ∀ end_, prefixBound p = some end_ → k < end_ := by
  refine ⟨⟨?_,?_,?_⟩,⟨sortKeys_perm keys,sortKeys_ordered keys⟩,fun _ _ _ one => exactFor_sign one,
    fun m sep _ v own => valueField_exact m sep own v,prefixEnd_tight a b,prefixBound_tight⟩
  · rw [compareKeys_lt,utf8_lt]
  · rw [compareKeys_eq,utf8_inj]
  · rw [compareKeys_gt,utf8_lt]

theorem key_order_is_byte_order_sample :
    (exactFor [some (utf16 ['\uff5e'])] (utf16 ['\uff5e']) (utf16 [Char.ofNat 0x1f600])).sign =
      (compareKeys (utf16 ['\uff5e']) (utf16 [Char.ofNat 0x1f600])).sign :=
  (key_order_is_byte_order [] [] []).2.2.1 _ _ _ (.inl List.mem_cons_self)

end Skeleton
end PhaseLock
