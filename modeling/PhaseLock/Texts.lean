import Mathlib.Algebra.Order.Ring.Int
import Mathlib.Data.List.Lex
import Mathlib.Data.List.Infix

namespace PhaseLock
namespace Texts

-- Texts over any ordered alphabet, in dictionary order.
variable {α : Type} [LinearOrder α] {a b c k m p t x y : List α}

theorem cons_le_iff {x y : α} {a b : List α} : x :: a ≤ y :: b ↔ x < y ∨ x = y ∧ a ≤ b := by
  rw [← not_lt,List.cons_lt_cons_iff,← not_lt]
  constructor
  · intro neither
    rw [not_or,not_lt] at neither
    rcases lt_or_eq_of_le neither.1 with less | same
    · exact .inl less
    · exact .inr ⟨same,fun less => neither.2 ⟨same.symm,less⟩⟩
  · intro either
    rw [not_or,not_lt]
    rcases either with less | ⟨rfl,le⟩
    · exact ⟨le_of_lt less,fun same => absurd less (same.1 ▸ lt_irrefl _)⟩
    · exact ⟨le_rfl,fun less => le less.2⟩

@[simp] theorem append_lt_iff (p a b : List α) : p++a < p++b ↔ a < b := by
  induction p with
  | nil => rfl
  | cons head tail ih => simp [ih]

@[simp] theorem append_le_iff (p a b : List α) : p++a ≤ p++b ↔ a ≤ b := by
  rw [← not_lt,append_lt_iff,not_lt]

theorem prefix_le (starts : a <+: b) : a ≤ b := by
  obtain ⟨x,rfl⟩ := starts
  induction a with
  | nil => exact not_lt.mp (List.not_lt_nil x)
  | cons c rest ih => exact cons_le_iff.mpr (.inr ⟨rfl,ih⟩)

theorem lt_extend (a : List α) (c : α) (x : List α) : a < a++c :: x := by
  induction a with
  | nil => exact List.nil_lt_cons c x
  | cons head tail ih => exact List.cons_lt_cons_iff.mpr (.inr ⟨rfl,ih⟩)

-- A text between two that one text starts is started by it too.
theorem prefix_between (first : p <+: a) (last : p <+: c) (left : a ≤ b) (right : b ≤ c) : p <+: b := by
  induction p generalizing a b c with
  | nil => exact List.nil_prefix
  | cons x rest ih =>
    obtain ⟨a',rfl⟩ := first
    obtain ⟨c',rfl⟩ := last
    cases b with
    | nil => exact absurd left (by simp)
    | cons y b' =>
      rw [List.cons_append,cons_le_iff] at left right
      rcases left with less | ⟨rfl,left⟩
      · rcases right with more | ⟨rfl,_⟩
        · exact absurd (lt_trans less more) (lt_irrefl x)
        · exact absurd less (lt_irrefl y)
      · rcases right with more | ⟨_,right⟩
        · exact absurd more (lt_irrefl x)
        · exact List.cons_prefix_cons.mpr ⟨rfl,ih (List.prefix_append ..) (List.prefix_append ..) left right⟩

-- A text past one that starts with p, and not started by it, is past them all.
theorem past_all (starts : p <+: k) (beyond : k < m) (outside : ¬p <+: m) (also : p <+: t) : t < m := by
  by_contra back
  exact outside (prefix_between starts also (le_of_lt beyond) (not_lt.mp back))

theorem before_all (starts : p <+: k) (beyond : m < k) (outside : ¬p <+: m) (also : p <+: t) : m < t := by
  by_contra back
  exact outside (prefix_between also starts (not_lt.mp back) (le_of_lt beyond))

-- Where one text is below another and does not start it, so is everything it starts.
theorem lt_of_apart (below : a < b) (apart : ¬a <+: b) (x : List α) : a++x < b :=
  past_all List.prefix_rfl below apart (List.prefix_append a x)

theorem lt_start (below : a < b) (apart : ¬a <+: b) (x y : List α) : a++x < b++y :=
  lt_of_lt_of_le (lt_of_apart below apart x) (prefix_le (List.prefix_append b y))

-- The character above a separator, with none between.
def Next (sep up : α) : Prop := ∀ c, c < up ↔ c ≤ sep

theorem lt_next {sep up : α} (next : Next sep up) (x : List α) : sep :: x < [up] :=
  List.cons_lt_cons_iff.mpr (.inl ((next sep).mpr le_rfl))

theorem below_next {sep up : α} (next : Next sep up) (starts : p++[sep] <+: k) : k < p++[up] := by
  obtain ⟨rest,rfl⟩ := starts
  rw [List.append_assoc,append_lt_iff]
  exact lt_next next rest

-- Past the texts that go on from p with the separator, the next start is p and the
-- character above it.
theorem next_le {sep up : α} (next : Next sep up) (starts : p++[sep] <+: k) (beyond : k < m)
    (outside : ¬p++[sep] <+: m) : p++[up] ≤ m := by
  by_contra short
  have short := not_le.mp short
  have inside : p <+: m := prefix_between ((List.prefix_append p [sep]).trans starts) (List.prefix_append p [up])
    (le_of_lt beyond) (le_of_lt short)
  obtain ⟨rest,rfl⟩ := inside
  rw [append_lt_iff] at short
  have low : p++[sep] < p++rest := lt_of_le_of_lt (prefix_le starts) beyond
  rw [append_lt_iff] at low
  cases rest with
  | nil => exact absurd low (List.not_lt_nil _)
  | cons c rest =>
    have under : c ≤ sep := by
      rcases List.cons_lt_cons_iff.mp short with less | ⟨_,less⟩
      · exact (next c).mp less
      · exact absurd less (List.not_lt_nil _)
    have above : sep ≤ c := by
      rcases List.cons_lt_cons_iff.mp low with less | ⟨same,_⟩
      · exact le_of_lt less
      · exact le_of_eq same
    cases le_antisymm under above
    exact outside ⟨rest,by simp⟩

-- A text between p and p with the character above the separator goes on from p with one
-- at or below the separator.
theorem between_next {sep up : α} (next : Next sep up) (low : p < m) (high : m < p++[up]) :
    ∃ c rest, m = p++c :: rest ∧ c ≤ sep := by
  obtain ⟨rest,rfl⟩ := prefix_between List.prefix_rfl (List.prefix_append p [up]) (le_of_lt low) (le_of_lt high)
  rw [append_lt_iff] at high
  cases rest with
  | nil => exact absurd low (by simp)
  | cons c rest =>
    refine ⟨c,rest,rfl,?_⟩
    rcases List.cons_lt_cons_iff.mp high with less | ⟨_,less⟩
    · exact (next c).mp less
    · exact absurd less (List.not_lt_nil _)

-- Two different texts of which the lower one starts the other, or not.
theorem lt_cases (below : a < b) : (∃ c rest, b = a++c :: rest) ∨ ∀ x y, a++x < b++y := by
  by_cases starts : a <+: b
  · obtain ⟨rest,rfl⟩ := starts
    cases rest with
    | nil => exact absurd below (by simp)
    | cons c rest => exact .inl ⟨c,rest,rfl⟩
  · exact .inr fun x y => lt_start below starts x y

-- The bound of the texts a text starts: its last character that is not the highest one,
-- moved up by one.
def bound (top : α) (up : α → α) (text : List α) : Option (List α) :=
  match text.reverse.dropWhile (· = top) with
  | [] => none
  | last :: before => some (before.reverse++[up last])

-- What a bound is: everything below the text or starting with it is below the bound.
def Bounds (text end_ : List α) : Prop := ∀ t, t < end_ ↔ t < text ∨ text <+: t

theorem bounds_next {last up : α} (next : Next last up) (text : List α) : Bounds (text++[last]) (text++[up]) := by
  intro t
  constructor
  · intro below
    by_cases starts : text++[last] <+: t
    · exact .inr starts
    · refine .inl (lt_of_not_ge fun above => ?_)
      have far := lt_of_le_of_ne above fun same => starts (same ▸ List.prefix_rfl)
      exact absurd below (not_lt.mpr (next_le next List.prefix_rfl far starts))
  · rintro (below | starts)
    · exact lt_trans below (below_next next List.prefix_rfl)
    · exact below_next next starts

section Top
variable {top : α} {up : α → α}

theorem bound_concat_top (text : List α) : bound top up (text++[top]) = bound top up text := by
  simp [bound]

theorem bound_concat {last : α} (low : last ≠ top) (text : List α) : bound top up (text++[last]) = some (text++[up last]) := by
  simp [bound,low]

-- Nothing is above the highest character.
theorem top_cases (highest : ∀ c, c ≤ top) (starts : p <+: t) : t < p++[top] ∨ p++[top] <+: t := by
  obtain ⟨rest,rfl⟩ := starts
  cases rest with
  | nil => exact .inl (by rw [List.append_nil]; exact lt_extend p _ _)
  | cons c rest =>
    by_cases is : c = top
    · subst is; exact .inr ⟨rest,by simp⟩
    · refine .inl ?_
      rw [append_lt_iff]
      exact List.cons_lt_cons_iff.mpr (.inl (lt_of_le_of_ne (highest c) is))

theorem bound_bounds (highest : ∀ c, c ≤ top) (next : ∀ c, c ≠ top → Next c (up c)) {text end_ : List α}
    (made : bound top up text = some end_) : Bounds text end_ := by
  induction text using List.reverseRecOn with
  | nil => simp [bound] at made
  | append_singleton text last ih =>
    by_cases is : last = top
    · -- a text's bound is that of the text without a highest character at its end
      subst is
      rw [bound_concat_top] at made
      intro t
      rw [ih made t]
      constructor
      · rintro (below | starts)
        · exact .inl (lt_of_lt_of_le below (prefix_le (List.prefix_append ..)))
        · exact top_cases highest starts
      · rintro (below | starts)
        · by_cases inside : text <+: t
          · exact .inr inside
          · refine .inl (lt_of_not_ge fun back => ?_)
            have far := lt_of_le_of_ne back fun same => inside (same ▸ List.prefix_rfl)
            exact absurd below (not_lt.mpr (le_of_lt (past_all List.prefix_rfl far inside (List.prefix_append ..))))
        · exact .inr ((List.prefix_append ..).trans starts)
    · rw [bound_concat is] at made
      cases made
      exact bounds_next (next last is) text

-- Where a text has no bound, nothing is above the texts it starts.
theorem bound_none (highest : ∀ c, c ≤ top) {text : List α} (made : bound top up text = none) (t : List α) :
    t < text ∨ text <+: t := by
  induction text using List.reverseRecOn with
  | nil => exact .inr List.nil_prefix
  | append_singleton text last ih =>
    by_cases is : last = top
    · subst is
      rw [bound_concat_top] at made
      rcases ih made with below | starts
      · exact .inl (lt_of_lt_of_le below (prefix_le (List.prefix_append ..)))
      · exact top_cases highest starts
    · rw [bound_concat is] at made
      cases made

-- A bound keeps what comes before the text.
theorem bound_append {text end_ : List α} (made : bound top up text = some end_) (p : List α) :
    bound top up (p++text) = some (p++end_) := by
  induction text using List.reverseRecOn with
  | nil => simp [bound] at made
  | append_singleton text last ih =>
    rw [← List.append_assoc]
    by_cases is : last = top
    · subst is
      rw [bound_concat_top] at made ⊢
      exact ih made
    · rw [bound_concat is] at made ⊢
      cases made
      rw [List.append_assoc]

end Top

-- A code writes each character in a way of its own, in order.
def Code {γ : Type} [LinearOrder γ] (e : γ → List α) : Prop := ∀ c d, c < d → ∀ x y, e c++x < e d++y

section Code
variable {γ : Type} [LinearOrder γ] {e : γ → List α} {c d : γ} {v w : List γ}

theorem Code.inj (code : Code e) (same : e c++x = e d++y) : c = d := by
  rcases lt_trichotomy c d with less | is | more
  · exact absurd same (ne_of_lt (code c d less x y))
  · exact is
  · exact absurd same (ne_of_gt (code d c more y x))

-- A code of more than one character writes something for each.
theorem Code.ne_nil [Nontrivial γ] (code : Code e) (c : γ) : e c ≠ [] := by
  intro none
  obtain ⟨d,other⟩ := exists_ne c
  exact other (code.inj (show e d++[] = e c++e d by simp [none]))

theorem Code.mono [Nontrivial γ] (code : Code e) (less : v < w) : v.flatMap e < w.flatMap e := by
  induction v generalizing w with
  | nil =>
    cases w with
    | nil => exact absurd less (List.not_lt_nil _)
    | cons d w =>
      obtain ⟨head,rest,is⟩ := List.exists_cons_of_ne_nil (code.ne_nil d)
      rw [List.flatMap_cons,is]
      exact List.nil_lt_cons _ _
  | cons c v ih =>
    cases w with
    | nil => exact absurd less (List.not_lt_nil _)
    | cons d w =>
      rw [List.flatMap_cons,List.flatMap_cons]
      rcases List.cons_lt_cons_iff.mp less with below | ⟨rfl,below⟩
      · exact code c d below _ _
      · rw [append_lt_iff]
        exact ih below

-- Coded texts stand in the order of their characters.
theorem Code.lt_iff [Nontrivial γ] (code : Code e) (v w : List γ) : v.flatMap e < w.flatMap e ↔ v < w := by
  constructor
  · intro less
    rcases lt_trichotomy v w with below | rfl | above
    · exact below
    · exact absurd less (lt_irrefl _)
    · exact absurd less (lt_asymm (code.mono above))
  · exact code.mono

theorem Code.eq_iff [Nontrivial γ] (code : Code e) (v w : List γ) : v.flatMap e = w.flatMap e ↔ v = w := by
  constructor
  · intro same
    rcases lt_trichotomy v w with below | is | above
    · exact absurd same (ne_of_lt (code.mono below))
    · exact is
    · exact absurd same (ne_of_gt (code.mono above))
  · rintro rfl
    rfl

theorem Code.prefix_iff [Nontrivial γ] (code : Code e) (v w : List γ) : v.flatMap e <+: w.flatMap e ↔ v <+: w := by
  constructor
  · rintro ⟨rest,whole⟩
    induction v generalizing w with
    | nil => exact List.nil_prefix
    | cons c v ih =>
      cases w with
      | nil =>
        rw [List.flatMap_cons,List.append_assoc] at whole
        exact absurd (List.append_eq_nil_iff.mp whole).1 (code.ne_nil c)
      | cons d w =>
        rw [List.flatMap_cons,List.flatMap_cons,List.append_assoc] at whole
        cases code.inj whole
        exact List.cons_prefix_cons.mpr ⟨rfl,ih w (List.append_cancel_left whole)⟩
  · rintro ⟨rest,rfl⟩
    rw [List.flatMap_append]
    exact List.prefix_append _ _

end Code

-- A character a code writes as one sign, in no other character.
structure Sign {γ β : Type} (e : γ → List β) (s : γ) (sign : β) : Prop where
  here : e s = [sign]
  only : ∀ c, c ≠ s → sign ∉ e c

section Sign
variable {γ β : Type} {e : γ → List β} {s : γ} {sign : β}

theorem Sign.mem_iff (is : Sign e s sign) (v : List γ) : sign ∈ v.flatMap e ↔ s ∈ v := by
  rw [List.mem_flatMap]
  constructor
  · rintro ⟨c,member,inside⟩
    by_cases same : c = s
    · exact same ▸ member
    · exact absurd inside (is.only c same)
  · exact fun member => ⟨s,member,by simp [is.here]⟩

-- What comes before a sign of a coded text is the code of what comes before its character.
theorem Sign.takeWhile [DecidableEq γ] [DecidableEq β] (is : Sign e s sign) (v : List γ) :
    (v.flatMap e).takeWhile (· ≠ sign) = (v.takeWhile (· ≠ s)).flatMap e := by
  induction v with
  | nil => rfl
  | cons c v ih =>
    rw [List.flatMap_cons]
    by_cases same : c = s
    · subst same
      simp [is.here]
    · rw [List.takeWhile_append_of_pos,ih,List.takeWhile_cons_of_pos (by simpa using same),List.flatMap_cons]
      intro x member
      have other : x ≠ sign := fun equal => is.only c same (equal ▸ member)
      simpa using other

end Sign

end Texts
end PhaseLock
