import Mathlib.Algebra.Order.Ring.Int
import Mathlib.Data.List.Infix
import Mathlib.Data.List.TakeWhile
import Mathlib.Tactic.Tauto

namespace PhaseLock

-- Slice names, selectors and store keys are texts.
abbrev Name := List Char
abbrev Key := List Char

instance nameLawful : LawfulBEq Name := inferInstance

-- The slice a key is under: everything before its first `!`.  A key without one
-- is an error in the source.
def sliceOf (key : Key) : Option Name :=
  if '!' ∈ key then some (key.takeWhile (· ≠ '!')) else none

-- The keys of a slice start with its name and a `!`.
def slicePrefix (slice : Name) : Key := slice++['!']

def selectorCovers (selector name : Name) : Bool :=
  if selector.getLast? = some '*' then selector.dropLast.isPrefixOf name else name == selector

def selectorPrefix (selector : Name) : Key :=
  if selector.getLast? = some '*' then selector.dropLast else slicePrefix selector

def covered (selectors : List Name) (name : Name) : Bool := selectors.any (selectorCovers · name)

-- A slice's name holds neither of the characters keys and selectors set apart.
def PlainName (name : Name) : Prop := '!' ∉ name ∧ '*' ∉ name

-- A selector's star, if any, is its last character.
def WellFormed (selector : Name) : Prop := '*' ∉ selector.dropLast

instance (name : Name) : Decidable (PlainName name) := inferInstanceAs (Decidable (_ ∧ _))
instance (selector : Name) : Decidable (WellFormed selector) := inferInstanceAs (Decidable (_ ∉ _))

theorem star_split (star : selector.getLast? = some '*') : selector = selector.dropLast++['*'] := by
  have nonempty : selector ≠ [] := by rintro rfl; simp at star
  have last : selector.getLast nonempty = '*' := by
    rw [List.getLast?_eq_some_getLast nonempty] at star
    exact Option.some.inj star
  rw [← last,List.dropLast_append_getLast]

theorem covers_star (star : selector.getLast? = some '*') :
    selectorCovers selector name = true ↔ selector.dropLast <+: name := by
  simp [selectorCovers,star]

theorem covers_exact (exact : selector.getLast? ≠ some '*') :
    selectorCovers selector name = true ↔ name = selector := by
  simp [selectorCovers,exact]

theorem plain_exact (plain : PlainName name) : name.getLast? ≠ some '*' :=
  fun star => plain.2 (List.mem_of_getLast? star)

@[simp] theorem covers_refl (selector : Name) : selectorCovers selector selector = true := by
  by_cases star : selector.getLast? = some '*'
  · rw [covers_star star]; exact List.dropLast_prefix selector
  · rw [covers_exact star]

theorem covers_plain (plain : PlainName slice) : selectorCovers slice name = true ↔ name = slice :=
  covers_exact (plain_exact plain)

-- A well-formed selector covers whatever a selector it covers does.
theorem covers_trans {outer inner name : Name} (formed : WellFormed outer) (left : selectorCovers outer inner = true)
    (right : selectorCovers inner name = true) : selectorCovers outer name = true := by
  by_cases innerStar : inner.getLast? = some '*'
  · by_cases outerStar : outer.getLast? = some '*'
    · rw [covers_star outerStar] at left ⊢
      rw [covers_star innerStar] at right
      -- the outer text has no star, so it is a prefix of the inner text without its star
      have text : outer.dropLast <+: inner.dropLast := by
        rw [star_split innerStar] at left
        rcases List.prefix_concat_iff.mp left with whole | part
        · exact absurd (by rw [whole]; simp) formed
        · exact part
      exact text.trans right
    · rw [covers_exact outerStar] at left
      subst left
      exact right
  · rw [covers_exact innerStar] at right
    subst right
    exact left

-- Two selectors that cover one name are nested.
theorem covers_nested (left : selectorCovers a name = true) (right : selectorCovers b name = true) :
    selectorCovers a b = true ∨ selectorCovers b a = true := by
  by_cases starA : a.getLast? = some '*'
  · by_cases starB : b.getLast? = some '*'
    · have ha := (covers_star starA).mp left
      have hb := (covers_star starB).mp right
      rcases List.prefix_or_prefix_of_prefix ha hb with shorter | longer
      · exact .inl ((covers_star starA).mpr (shorter.trans (List.dropLast_prefix b)))
      · exact .inr ((covers_star starB).mpr (longer.trans (List.dropLast_prefix a)))
    · rw [covers_exact starB] at right
      subst right
      exact .inl left
  · rw [covers_exact starA] at left
    subst left
    exact .inr right

theorem covered_iff (selectors : List Name) (name : Name) :
    covered selectors name = true ↔ ∃ r ∈ selectors, selectorCovers r name = true := by
  simp [covered]

@[simp] theorem covered_nil (name : Name) : covered [] name = false := rfl

theorem before_bang {key : Key} (bang : '!' ∈ key) : slicePrefix (key.takeWhile (· ≠ '!')) <+: key := by
  induction key with
  | nil => cases bang
  | cons c rest ih =>
    by_cases first : c = '!'
    · subst first; simp [slicePrefix]
    · have later : '!' ∈ rest := (List.mem_cons.mp bang).resolve_left (Ne.symm first)
      simpa [slicePrefix,first] using ih later

-- The keys under a slice are those whose slice it is.
theorem slicePrefix_iff (plain : '!' ∉ slice) (key : Key) :
    slicePrefix slice <+: key ↔ sliceOf key = some slice := by
  constructor
  · rintro ⟨rest,rfl⟩
    have stop : (slicePrefix slice++rest).takeWhile (· ≠ '!') = slice := by
      rw [slicePrefix,List.append_assoc,List.takeWhile_append_of_pos]
      · simp
      · intro c member
        have other : c ≠ '!' := fun equal => plain (equal ▸ member)
        simpa using other
    rw [sliceOf,stop]
    simp [slicePrefix]
  · intro under
    unfold sliceOf at under
    split at under
    · rename_i bang
      cases Option.some.inj under
      exact before_bang bang
    · cases under

theorem sliceOf_plain (under : sliceOf key = some slice) : '!' ∉ slice := by
  unfold sliceOf at under
  split at under
  · cases Option.some.inj under
    intro member
    have kept := List.mem_takeWhile_imp member
    simp at kept
  · cases under

-- A key under a slice starts with a selector's text when the selector covers the slice.
theorem selectorPrefix_covers (plain : '!' ∉ selector) (under : sliceOf key = some slice) :
    selectorPrefix selector <+: key ↔ selectorCovers selector slice = true := by
  have own := (slicePrefix_iff (sliceOf_plain under) key).mpr under
  unfold selectorPrefix
  by_cases star : selector.getLast? = some '*'
  · rw [if_pos star,covers_star star]
    have free : '!' ∉ selector.dropLast := fun member => plain (List.mem_of_mem_dropLast member)
    refine ⟨fun starts => ?_,fun starts => (starts.trans (List.prefix_append slice ['!'])).trans own⟩
    rcases List.prefix_or_prefix_of_prefix starts own with inside | past
    · rcases List.prefix_concat_iff.mp inside with whole | inside
      · exact absurd (whole ▸ List.mem_append_right _ List.mem_cons_self) free
      · exact inside
    · exact absurd (past.subset (List.mem_append_right _ List.mem_cons_self)) free
  · rw [if_neg star,slicePrefix_iff plain,under,covers_exact star,Option.some.injEq]

-- The selector of a whole slice type: its one slice's name, or its family and a star.
def SliceType (want : Name) : Prop :=
  ∃ family : Name, ':' ∉ family ∧ '*' ∉ family ∧ (want = family ∨ want = family++[':','*'])

instance (want : Name) : Decidable (SliceType want) :=
  decidable_of_iff ((':' ∉ want ∧ '*' ∉ want) ∨
      (':' ∉ want.dropLast.dropLast ∧ '*' ∉ want.dropLast.dropLast ∧ want = want.dropLast.dropLast++[':','*'])) (by
    constructor
    · rintro (⟨colon,star⟩ | ⟨colon,star,whole⟩)
      · exact ⟨want,colon,star,.inl rfl⟩
      · exact ⟨_,colon,star,.inr whole⟩
    · rintro ⟨family,colon,star,rfl | rfl⟩
      · exact .inl ⟨colon,star⟩
      · have cut : (family++[':','*']).dropLast.dropLast = family := by
          rw [show family++[':','*'] = (family++[':'])++['*'] by simp,List.dropLast_concat,List.dropLast_concat]
        rw [cut]
        exact .inr ⟨colon,star,rfl⟩)

theorem SliceType.wellFormed (type : SliceType want) : WellFormed want := by
  obtain ⟨family,_,star,rfl | rfl⟩ := type
  · exact fun member => star (List.mem_of_mem_dropLast member)
  · have whole : (family++[':','*']).dropLast = family++[':'] := by
      rw [List.dropLast_append_of_ne_nil (by simp)]; rfl
    rw [WellFormed,whole]
    simp [star]

theorem family_covers (family : Name) :
    selectorCovers (family++[':','*']) name = true ↔ family++[':'] <+: name := by
  have last : (family++[':','*']).getLast? = some '*' := by simp [List.getLast?_append]
  rw [covers_star last,List.dropLast_append_of_ne_nil (by simp)]
  rfl

-- A slice type wants a selector of another type exactly when it wants the
-- slices the selector covers, so dropping whole types drops nothing by halves.
theorem SliceType.whole (type : SliceType want) (outer : SliceType other) (inside : selectorCovers other r = true)
    (below : selectorCovers r name = true) : selectorCovers want r = selectorCovers want name := by
  rw [Bool.eq_iff_iff]
  obtain ⟨family,colon,star,equal⟩ := outer
  rcases equal with rfl | rfl
  · have exact : other.getLast? ≠ some '*' := fun last => star (List.mem_of_getLast? last)
    rw [covers_exact exact] at inside
    subst inside
    rw [covers_exact exact] at below
    subst below
    rfl
  · rw [family_covers family] at inside
    have down : family++[':'] <+: name := by
      by_cases last : r.getLast? = some '*'
      · rw [covers_star last] at below
        rw [star_split last] at inside
        rcases List.prefix_concat_iff.mp inside with whole | part
        · have stars : '*' ∈ family++[':'] := by rw [whole]; simp
          simp [star] at stars
        · exact part.trans below
      · rw [covers_exact last] at below
        subst below
        exact inside
    obtain ⟨wanted,wantColon,wantStar,equal⟩ := type
    rcases equal with rfl | rfl
    · have exact : want.getLast? ≠ some '*' := fun last => wantStar (List.mem_of_getLast? last)
      rw [covers_exact exact,covers_exact exact]
      constructor
      · rintro rfl
        exact absurd (inside.subset (by simp)) wantColon
      · rintro rfl
        exact absurd (down.subset (by simp)) wantColon
    · rw [family_covers wanted,family_covers wanted]
      -- both start with one family, so either starts with the wanted one only if they are equal
      have same : ∀ text : Name, family++[':'] <+: text → (wanted++[':'] <+: text ↔ wanted = family) := by
        intro text starts
        constructor
        · intro also
          obtain ⟨x,hx⟩ := starts
          obtain ⟨y,hy⟩ := also
          have cut : ∀ (f rest : Name), ':' ∉ f → (f++[':']++rest).takeWhile (· ≠ ':') = f := by
            intro f rest none
            rw [List.append_assoc,List.takeWhile_append_of_pos]
            · simp
            · intro c member
              have other : c ≠ ':' := fun equal => none (equal ▸ member)
              simpa using other
          rw [← cut wanted y wantColon,← cut family x colon,hx,hy]
        · rintro rfl
          exact starts
      rw [same r inside,same name down]

end PhaseLock
