import PhaseLock.Prepare
import PhaseLock.Utf16
import PhaseLock.Names
import Mathlib.Data.List.Destutter

namespace PhaseLock
namespace Selectors
open Mp

-- Selectors in wire form, as the server keeps them; of their bytes '*' is 42, ',' 44, ':' 58.
def stripSuffix (last : Char) (text : Name) : Option Name :=
  if text.getLast? = some last then some text.dropLast else none

-- "*", or a text that ends in ":*" or ",*".
def isPrefixSelector (selector : Name) : Bool :=
  let b := utf8 selector
  if b.length = 1 then b.head? = some 42
  else 2 < b.length && b.getLast? = some 42 && (b.dropLast.getLast? = some 58 || b.dropLast.getLast? = some 44)

-- A prefix selector's text before its star: a family and ':', then whole leading values,
-- each followed by ','.
def selectorPrefixOk (text : Bytes) : Bool :=
  text.length < Submits.sliceMax && match text.dropWhile (· ≠ 58) with
    | [] => false
    | _ :: rest => Submits.segment (text.takeWhile (· ≠ 58)) && (rest = [] ||
        rest.getLast? = some 44 && (rest.dropLast.splitOn 44).all Submits.segment)

def validSelector (selector : Name) : Bool :=
  selector = ['*'] || match stripSuffix '*' selector with
    | some text => selectorPrefixOk (utf8 text)
    | none => Submits.sliceNameOk (utf8 selector)

-- Whether a selector covers a slice name or a narrower selector.
def matchesSelector (name selector : Name) : Bool :=
  match stripSuffix '*' selector with
  | some text => text.isPrefixOf name
  | none => name = selector

def covers (selectors : List Name) (selector : Name) : Bool := selectors.any (matchesSelector selector)

-- A grantor's selector in wire form: an exact one it ends in '!'.
def normalizeBundleSelector (selector : Name) : Option Name :=
  if selector = ['*'] then some selector
  else match (if 1 < (utf8 selector).length then stripSuffix '!' selector else none) with
    | some name => if Submits.sliceNameOk (utf8 name) then some name else none
    | none =>
      if isPrefixSelector selector = false then none
      else if selectorPrefixOk ((utf8 selector).dropLast) then some selector else none

def viewCovers (view : List Name) (slice : Bytes) : Bool :=
  view.any fun selector =>
    if isPrefixSelector selector then (utf8 selector).dropLast.isPrefixOf slice else utf8 selector = slice

-- Texts sort by their bytes.
def byteLe (a b : Name) : Prop := utf8 a ≤ utf8 b

instance : DecidableRel byteLe := fun a b => inferInstanceAs (Decidable (utf8 a ≤ utf8 b))

def sortDedup (set : List Name) : List Name := (set.insertionSort byteLe).destutter (· ≠ ·)

-- Every selector granted that a want covers and every want a granted one covers.
def intersect (granted wants : List Name) : List Name :=
  let wants := if wants = [] then [['*']] else wants
  sortDedup (granted.flatMap fun m => wants.flatMap fun w =>
    if matchesSelector m w then [m] else if matchesSelector w m then [w] else [])

-- FNV-1a 64 over a view's selectors in order, each with a zero byte after it.
def viewHash (view : List Name) : UInt64 :=
  view.foldl (fun h s => (utf8 s++[0]).foldl (fun h (c : UInt8) => (h ^^^ c.toUInt64)*1099511628211) h) 14695981039346656037

def viewToken (view : List Name) : Name :=
  (List.range 16).map fun i => Nat.digitChar ((viewHash view).toNat/16^(15-i)%16)

end Selectors

-- The client's test, over a string's code units.
def Skeleton.selectorCovers (selector name : Skeleton.Units) : Bool :=
  if selector.getLast? = some 42 then selector.dropLast.isPrefixOf name else name = selector

namespace Selectors
open Mp Skeleton

theorem last_encoded {β : Type} {e : Char → List β} {sign : β} {c : Char} (is : Texts.Sign e c sign)
    (none : ∀ d, e d ≠ []) (text : Name) : (text.flatMap e).getLast? = some sign ↔ text.getLast? = some c := by
  rcases List.eq_nil_or_concat text with rfl | ⟨front,d,rfl⟩
  · simp
  · have parts : (front++[d]).flatMap e = front.flatMap e++e d := by simp
    rw [List.concat_eq_append,parts,List.getLast?_append_of_ne_nil _ (none d),List.getLast?_concat]
    by_cases same : d = c
    · rw [same,is.here]
      simp
    · constructor
      · intro final
        exact absurd (List.mem_of_getLast? final) (is.only d same)
      · intro final
        exact absurd (Option.some.inj final) same

theorem dropLast_encoded {β : Type} {e : Char → List β} {sign : β} {c : Char} (is : Texts.Sign e c sign) {text : Name}
    (final : text.getLast? = some c) : (text.flatMap e).dropLast = text.dropLast.flatMap e := by
  obtain ⟨front,rfl⟩ := List.getLast?_eq_some_iff.mp final
  rw [List.flatMap_append,List.flatMap_singleton,is.here,List.dropLast_concat,List.dropLast_concat]

theorem utf8Char_ne (c : Char) : String.utf8EncodeChar c ≠ [] := by
  unfold String.utf8EncodeChar
  dsimp only
  split_ifs <;> simp

theorem utf16Char_ne (c : Char) : utf16Char c ≠ [] := by
  unfold utf16Char
  dsimp only
  split_ifs <;> simp

theorem star_sign8 : Texts.Sign String.utf8EncodeChar '*' 42 := utf8_sign (by decide)
theorem star_sign16 : Texts.Sign utf16Char '*' 42 := utf16_sign (by decide)

-- Each way to ask whether a selector covers a name is the one question.
theorem client_covers (selector name : Name) :
    Skeleton.selectorCovers (utf16 selector) (utf16 name) = PhaseLock.selectorCovers selector name := by
  have final : (utf16 selector).getLast? = some 42 ↔ selector.getLast? = some '*' :=
    last_encoded star_sign16 utf16Char_ne selector
  unfold Skeleton.selectorCovers PhaseLock.selectorCovers
  by_cases star : selector.getLast? = some '*'
  · have cut : (utf16 selector).dropLast = utf16 selector.dropLast := dropLast_encoded star_sign16 star
    rw [if_pos (final.mpr star),if_pos star,cut,Bool.eq_iff_iff,List.isPrefixOf_iff_prefix,List.isPrefixOf_iff_prefix]
    exact utf16_starts _ _
  · rw [if_neg (fun is => star (final.mp is)),if_neg star,Bool.eq_iff_iff]
    simp [utf16_inj]

theorem matches_covers (name selector : Name) : matchesSelector name selector = PhaseLock.selectorCovers selector name := by
  unfold matchesSelector stripSuffix PhaseLock.selectorCovers
  by_cases star : selector.getLast? = some '*'
  · simp [star]
  · simp [star,beq_eq_decide]

theorem covers_covered (selectors : List Name) (name : Name) : covers selectors name = covered selectors name := by
  unfold covers covered
  rw [funext (matches_covers name)]

theorem mem_splitOn {sep c : UInt8} {text : Bytes} (member : c ∈ text) : c = sep ∨ ∃ part ∈ text.splitOn sep, c ∈ part := by
  induction text with
  | nil => cases member
  | cons head rest ih =>
    rw [List.splitOn_cons_eq_if_modifyHead]
    by_cases same : head = sep
    · rw [if_pos (by simp [same])]
      rcases List.mem_cons.mp member with rfl | later
      · exact .inl same
      · exact (ih later).imp id fun ⟨part,among,inside⟩ => ⟨part,List.mem_cons_of_mem _ among,inside⟩
    · rw [if_neg (by simp [same])]
      cases parts : rest.splitOn sep with
      | nil => exact absurd parts (List.splitOn_ne_nil sep rest)
      | cons first more =>
        rw [List.modifyHead_cons]
        rcases List.mem_cons.mp member with rfl | later
        · exact .inr ⟨c :: first,by simp,by simp⟩
        · rw [parts] at ih
          rcases ih later with is | ⟨part,among,inside⟩
          · exact .inl is
          · rcases List.mem_cons.mp among with rfl | other
            · exact .inr ⟨head :: part,by simp,List.mem_cons_of_mem _ inside⟩
            · exact .inr ⟨part,List.mem_cons_of_mem _ other,inside⟩

-- A byte of no segment, and no sign that parts them.
def Foreign (c : UInt8) : Prop := Submits.segmentChar c = false ∧ c ≠ 58 ∧ c ≠ 44 ∧ c ≠ 46 ∧ c ≠ 126

instance (c : UInt8) : Decidable (Foreign c) := inferInstanceAs (Decidable (_ ∧ _))

section
variable {c : UInt8} (foreign : Foreign c)
include foreign

theorem segment_foreign {s : Bytes} (whole : Submits.segment s = true) : c ∉ s := by
  intro member
  have each := List.all_eq_true.mp (Bool.and_eq_true_iff.mp whole).2 c member
  rw [foreign.1] at each
  cases each

theorem split_foreign {text : Bytes} (family : c ∉ text.takeWhile (· ≠ 58)) {rest : Bytes}
    (after : text.dropWhile (· ≠ 58) = head :: rest) (params : c ∉ rest) : c ∉ text := by
  have first : head = 58 := by
    have is := List.head?_dropWhile_not (fun c : UInt8 => decide (c ≠ 58)) text
    rw [after] at is
    simpa using is
  rw [← List.takeWhile_append_dropWhile (p := (· ≠ 58)) (l := text),after,List.mem_append,List.mem_cons]
  rintro (inside | rfl | inside)
  · exact family inside
  · exact foreign.2.1 first
  · exact params inside

theorem sliceNameOk_foreign {name : Bytes} (ok : Submits.sliceNameOk name = true) : c ∉ name := by
  unfold Submits.sliceNameOk at ok
  obtain ⟨front,params⟩ := Bool.and_eq_true_iff.mp ok
  have family := segment_foreign foreign (Bool.and_eq_true_iff.mp front).2
  cases after : name.dropWhile (· ≠ 58) with
  | nil =>
    rw [← List.takeWhile_append_dropWhile (p := (· ≠ 58)) (l := name),after,List.append_nil]
    exact family
  | cons head rest =>
    refine split_foreign foreign family after fun member => ?_
    rw [after] at params
    obtain ⟨both,finals⟩ := Bool.and_eq_true_iff.mp params
    have leading := (Bool.and_eq_true_iff.mp both).1
    rcases mem_splitOn member with comma | ⟨part,among,inside⟩
    · exact foreign.2.2.1 comma
    · have split := List.dropLast_append_getLast (List.splitOn_ne_nil 44 rest)
      rw [← split,List.mem_append,List.mem_singleton] at among
      rcases among with early | rfl
      · exact segment_foreign foreign (List.all_eq_true.mp leading part early) inside
      · rw [List.getLastD_eq_getLast?,List.getLast?_eq_getLast_of_ne_nil (List.splitOn_ne_nil 44 rest)] at finals
        have each := List.all_eq_true.mp finals c inside
        rw [foreign.1,decide_eq_false foreign.2.2.2.1,decide_eq_false foreign.2.2.2.2] at each
        cases each

theorem selectorPrefixOk_foreign {text : Bytes} (ok : selectorPrefixOk text = true) : c ∉ text := by
  unfold selectorPrefixOk at ok
  obtain ⟨_,shape⟩ := Bool.and_eq_true_iff.mp ok
  cases after : text.dropWhile (· ≠ 58) with
  | nil => rw [after] at shape; cases shape
  | cons head rest =>
    rw [after] at shape
    obtain ⟨family,params⟩ := Bool.and_eq_true_iff.mp shape
    refine split_foreign foreign (segment_foreign foreign family) after ?_
    rcases Bool.or_eq_true_iff.mp params with none | some
    · simp [of_decide_eq_true none]
    · obtain ⟨comma,parts⟩ := Bool.and_eq_true_iff.mp some
      obtain ⟨body,rfl⟩ := List.getLast?_eq_some_iff.mp (of_decide_eq_true comma)
      rw [List.dropLast_concat] at parts
      intro member
      rcases List.mem_append.mp member with inside | final
      · rcases mem_splitOn inside with is | ⟨part,among,held⟩
        · exact foreign.2.2.1 is
        · exact segment_foreign foreign (List.all_eq_true.mp parts part among) held
      · exact foreign.2.2.1 (List.mem_singleton.mp final)

end

-- A valid selector's star, if any, is its last character.
theorem validSelector_wellFormed (ok : validSelector r = true) : WellFormed r := by
  unfold validSelector at ok
  rcases Bool.or_eq_true_iff.mp ok with all | named
  · rw [of_decide_eq_true all]
    simp [WellFormed]
  · unfold stripSuffix at named
    by_cases star : r.getLast? = some '*'
    · rw [if_pos star] at named
      exact fun member => selectorPrefixOk_foreign (by decide) named ((star_sign8.mem_iff _).mpr member)
    · rw [if_neg star] at named
      exact fun member => sliceNameOk_foreign (by decide) named ((star_sign8.mem_iff _).mpr (List.mem_of_mem_dropLast member))

theorem validSelector_bang (ok : validSelector r = true) : '!' ∉ r := by
  have sign : Texts.Sign String.utf8EncodeChar '!' 33 := utf8_sign (by decide)
  unfold validSelector at ok
  rcases Bool.or_eq_true_iff.mp ok with all | named
  · rw [of_decide_eq_true all]
    decide
  · unfold stripSuffix at named
    by_cases star : r.getLast? = some '*'
    · rw [if_pos star] at named
      obtain ⟨text,rfl⟩ := List.getLast?_eq_some_iff.mp star
      rw [List.dropLast_concat] at named
      intro member
      rcases List.mem_append.mp member with inside | last
      · exact selectorPrefixOk_foreign (by decide) named ((sign.mem_iff _).mpr inside)
      · exact absurd (List.mem_singleton.mp last) (by decide)
    · rw [if_neg star] at named
      exact fun member => sliceNameOk_foreign (by decide) named ((sign.mem_iff _).mpr member)

-- What stands before the first ':' is never empty, and the text ends in ':' or ','.
theorem selectorPrefixOk_ends {text : Bytes} (ok : selectorPrefixOk text = true) :
    2 ≤ text.length ∧ (text.getLast? = some 58 ∨ text.getLast? = some 44) := by
  unfold selectorPrefixOk at ok
  obtain ⟨_,shape⟩ := Bool.and_eq_true_iff.mp ok
  cases after : text.dropWhile (· ≠ 58) with
  | nil => rw [after] at shape; cases shape
  | cons head rest =>
    have first : head = 58 := by
      have is := List.head?_dropWhile_not (fun c : UInt8 => decide (c ≠ 58)) text
      rw [after] at is
      simpa using is
    rw [after] at shape
    obtain ⟨family,params⟩ := Bool.and_eq_true_iff.mp shape
    have some : text.takeWhile (· ≠ 58) ≠ [] := of_decide_eq_true (Bool.and_eq_true_iff.mp family).1
    have whole := List.takeWhile_append_dropWhile (p := fun c : UInt8 => decide (c ≠ 58)) (l := text)
    rw [after,first] at whole
    rw [← whole]
    generalize text.takeWhile (· ≠ 58) = front at some
    refine ⟨?_,?_⟩
    · have filled := List.length_pos_of_ne_nil some
      rw [List.length_append,List.length_cons]
      omega
    · rcases Bool.or_eq_true_iff.mp params with none | more
      · rw [of_decide_eq_true none]
        simp
      · obtain ⟨body,is⟩ := List.getLast?_eq_some_iff.mp (of_decide_eq_true (Bool.and_eq_true_iff.mp more).1)
        right
        rw [is,show front++58 :: (body++[44]) = (front++58 :: body)++[44] by simp,List.getLast?_concat]

theorem utf8_final (r : Name) : (utf8 r).getLast? = some 42 ↔ r.getLast? = some '*' :=
  last_encoded star_sign8 utf8Char_ne r

theorem isPrefixSelector_star (is : isPrefixSelector r = true) : r.getLast? = some '*' := by
  apply (utf8_final r).mp
  unfold isPrefixSelector at is
  dsimp only at is
  split_ifs at is with one
  · obtain ⟨c,single⟩ := List.length_eq_one_iff.mp one
    rw [single] at is ⊢
    exact of_decide_eq_true is
  · exact of_decide_eq_true (Bool.and_eq_true_iff.mp (Bool.and_eq_true_iff.mp is).1).2

-- A valid selector with a star is a prefix one.
theorem isPrefixSelector_iff (ok : validSelector r = true) : isPrefixSelector r = true ↔ r.getLast? = some '*' := by
  constructor
  · exact isPrefixSelector_star
  · intro star
    unfold validSelector stripSuffix at ok
    rw [if_pos star] at ok
    rcases Bool.or_eq_true_iff.mp ok with all | named
    · rw [of_decide_eq_true all]
      decide
    · have cut : (utf8 r).dropLast = utf8 r.dropLast := dropLast_encoded star_sign8 star
      obtain ⟨long,ends⟩ := selectorPrefixOk_ends named
      have size : (utf8 r).length-1 = (utf8 r.dropLast).length := by rw [← cut,List.length_dropLast]
      unfold isPrefixSelector
      dsimp only
      rw [if_neg (by omega),cut,decide_eq_true ((utf8_final r).mpr star),decide_eq_true (show 2 < (utf8 r).length by omega)]
      simpa using ends

-- The writer's test asks the same of a view of valid selectors.
theorem view_covers {view : List Name} (ok : ∀ r ∈ view, validSelector r = true) (slice : Name) :
    viewCovers view (utf8 slice) = covered view slice := by
  unfold viewCovers covered
  rw [Bool.eq_iff_iff,List.any_eq_true,List.any_eq_true]
  refine exists_congr fun r => and_congr_right fun member => ?_
  have kind := isPrefixSelector_iff (ok r member)
  unfold selectorCovers
  by_cases star : r.getLast? = some '*'
  · have cut : (utf8 r).dropLast = utf8 r.dropLast := dropLast_encoded star_sign8 star
    rw [if_pos (kind.mpr star),if_pos star,cut,List.isPrefixOf_iff_prefix,List.isPrefixOf_iff_prefix]
    exact utf8_starts _ _
  · rw [if_neg (fun is => star (kind.mp is)),if_neg star,decide_eq_true_eq,beq_iff_eq,utf8_inj]
    exact eq_comm

instance : Std.Total byteLe := ⟨fun a b => le_total (utf8 a) (utf8 b)⟩
instance : IsTrans Name byteLe := ⟨fun _ _ _ => le_trans⟩

theorem mem_dropRepeats [DecidableEq α] {a b : α} {l : List α} : a ∈ l.destutter' (· ≠ ·) b ↔ a = b ∨ a ∈ l := by
  induction l generalizing b with
  | nil => simp
  | cons c rest ih =>
    rw [List.destutter'_cons]
    by_cases same : b = c
    · subst same
      simp [ih]
    · rw [if_pos same,List.mem_cons,ih,List.mem_cons]

theorem mem_sortDedup {set : List Name} {r : Name} : r ∈ sortDedup set ↔ r ∈ set := by
  refine Iff.trans ?_ (List.mem_insertionSort byteLe)
  rw [sortDedup]
  cases set.insertionSort byteLe with
  | nil => simp
  | cons b rest => rw [List.destutter_cons',mem_dropRepeats,List.mem_cons]

theorem sortDedup_strict (set : List Name) : (sortDedup set).Pairwise fun a b => utf8 a < utf8 b := by
  have sorted : (sortDedup set).Pairwise byteLe := (List.pairwise_insertionSort byteLe set).sublist (List.destutter_sublist _ _)
  have apart : (sortDedup set).IsChain (· ≠ ·) := List.isChain_destutter _ _
  generalize sortDedup set = l at sorted apart
  induction l with
  | nil => exact .nil
  | cons a rest ih =>
    obtain ⟨first,later⟩ := List.pairwise_cons.mp sorted
    refine List.pairwise_cons.mpr ⟨fun b member => ?_,ih later (List.isChain_cons.mp apart).2⟩
    cases rest with
    | nil => cases member
    | cons c more =>
      have differ : a ≠ c := (List.isChain_cons_cons.mp apart).1
      have above : utf8 a < utf8 c := lt_of_le_of_ne (first c List.mem_cons_self) (fun same => differ (utf8_inj.mp same))
      rcases List.mem_cons.mp member with rfl | beyond
      · exact above
      · exact lt_of_lt_of_le above ((List.pairwise_cons.mp later).1 b beyond)

-- A sorted list without repeats is told by what it holds.
theorem sortDedup_ext {a b : List Name} (same : ∀ r, r ∈ a ↔ r ∈ b) : sortDedup a = sortDedup b := by
  have left := sortDedup_strict a
  have right := sortDedup_strict b
  have perm : (sortDedup a).Perm (sortDedup b) := (List.perm_ext_iff_of_nodup
    (left.imp (by rintro x _ less rfl; exact lt_irrefl _ less)) (right.imp (by rintro x _ less rfl; exact lt_irrefl _ less))).mpr
    fun r => by rw [mem_sortDedup,mem_sortDedup,same]
  exact perm.eq_of_pairwise (fun x y _ _ less more => absurd (less.trans more) (lt_irrefl _)) left right

def wanted (wants : List Name) : List Name := if wants = [] then [['*']] else wants

theorem mem_intersect {granted wants : List Name} {r : Name} : r ∈ intersect granted wants ↔
    ∃ m ∈ granted, ∃ w ∈ wanted wants, selectorCovers w m = true ∧ r = m ∨
      selectorCovers w m = false ∧ selectorCovers m w = true ∧ r = w := by
  unfold intersect
  dsimp only
  rw [mem_sortDedup,List.mem_flatMap]
  refine exists_congr fun m => and_congr_right fun _ => ?_
  rw [List.mem_flatMap]
  refine exists_congr fun w => and_congr_right fun _ => ?_
  rw [matches_covers,matches_covers]
  cases left : selectorCovers w m with
  | true => simp
  | false => cases right : selectorCovers m w <;> simp

-- What covers a name in both lists is nested, and the narrower is in the view.
theorem covered_intersect {granted wants : List Name} (grants : ∀ m ∈ granted, WellFormed m)
    (wish : ∀ w ∈ wanted wants, WellFormed w) (x : Name) : covered (intersect granted wants) x = true ↔
      covered granted x = true ∧ covered (wanted wants) x = true := by
  rw [covered_iff,covered_iff,covered_iff]
  constructor
  · rintro ⟨r,member,below⟩
    obtain ⟨m,granting,w,wanting,⟨covers,rfl⟩ | ⟨_,covers,rfl⟩⟩ := mem_intersect.mp member
    · exact ⟨⟨r,granting,below⟩,w,wanting,covers_trans (wish w wanting) covers below⟩
    · exact ⟨⟨m,granting,covers_trans (grants m granting) covers below⟩,r,wanting,below⟩
  · rintro ⟨⟨m,granting,left⟩,w,wanting,right⟩
    cases inner : selectorCovers w m with
    | true => exact ⟨m,mem_intersect.mpr ⟨m,granting,w,wanting,.inl ⟨inner,rfl⟩⟩,left⟩
    | false =>
      have outer : selectorCovers m w = true := (covers_nested left right).resolve_right (by simp [inner])
      exact ⟨w,mem_intersect.mpr ⟨m,granting,w,wanting,.inr ⟨inner,outer,rfl⟩⟩,right⟩

-- Everything is under "*".
theorem covered_wanted (wants : List Name) (x : Name) : covered (wanted wants) x = true ↔ wants = [] ∨ covered wants x = true := by
  unfold wanted
  split_ifs with none
  · simp [covered,selectorCovers,none]
  · simp [none]

-- A view covers what its grant and the connection's wants both cover, the order and the
-- repeats of a grant change neither the view nor its token, and the server, the writer and the
-- client decide alike.
theorem selectors_exact :
    (∀ granted wants : List Name, (∀ r ∈ granted, validSelector r = true) → (∀ w ∈ wants, validSelector w = true) →
      ∀ x, covers (intersect granted wants) x = true ↔ covers granted x = true ∧ (wants = [] ∨ covers wants x = true)) ∧
    (∀ granted granted' wants : List Name, (∀ r, r ∈ granted ↔ r ∈ granted') →
      intersect granted wants = intersect granted' wants ∧
      viewToken (intersect granted wants) = viewToken (intersect granted' wants)) ∧
    ∀ selectors : List Name, (∀ r ∈ selectors, validSelector r = true) → ∀ x,
      viewCovers selectors (utf8 x) = covers selectors x ∧
      selectors.any (fun r => Skeleton.selectorCovers (utf16 r) (utf16 x)) = covers selectors x := by
  refine ⟨fun granted wants grants wish x => ?_,fun granted granted' wants same => ?_,fun selectors ok x => ?_⟩
  · rw [covers_covered,covers_covered,covers_covered,covered_intersect (fun m member => validSelector_wellFormed (grants m member))
      ?_ x,covered_wanted]
    intro w member
    unfold wanted at member
    split_ifs at member with none
    · rw [List.mem_singleton.mp member]
      simp [WellFormed]
    · exact validSelector_wellFormed (wish w member)
  · have view : intersect granted wants = intersect granted' wants := by
      unfold intersect
      refine sortDedup_ext fun r => ?_
      rw [List.mem_flatMap,List.mem_flatMap]
      exact exists_congr fun m => and_congr_left fun _ => same m
    exact ⟨view,by rw [view]⟩
  · rw [covers_covered,view_covers ok]
    refine ⟨rfl,?_⟩
    simp only [client_covers]
    rfl

theorem selectors_exact_sample :
    let granted : List Name := [['c','h',':','*']]
    let wants : List Name := [['c','h',':','a'],['m']]
    (∀ r ∈ granted, validSelector r = true) ∧ (∀ w ∈ wants, validSelector w = true) ∧
      (covers (intersect granted wants) ['c','h',':','a'] = true ↔
        covers granted ['c','h',':','a'] = true ∧ (wants = [] ∨ covers wants ['c','h',':','a'] = true)) ∧
      intersect granted wants = intersect (granted++granted) wants ∧
      viewCovers granted (utf8 ['m']) = covers granted ['m'] := by
  intro granted wants
  have grants : ∀ r ∈ granted, validSelector r = true := by decide
  have wish : ∀ w ∈ wants, validSelector w = true := by decide
  exact ⟨grants,wish,selectors_exact.1 granted wants grants wish _,
    (selectors_exact.2.1 granted (granted++granted) wants (by simp)).1,(selectors_exact.2.2 granted grants ['m']).1⟩

end Selectors
end PhaseLock
