import PhaseLock.ScanWalks
import PhaseLock.OrderedMap
import PhaseLock.Encodings

namespace PhaseLock
namespace Scan
open SkipScan Texts
variable {ν σ : Type}

def Pattern.stand (p : Pattern) (reverse : Bool) (key : Bytes) : Stand Bytes := (p.place key reverse).stand reverse

-- A key that makes a walk pass over one the pattern picks: one whose value stands on the
-- wrong side of its match, or, where the walk starts at a key given it, one outside the head.
def Pattern.misplaced (p : Pattern) (reverse started : Bool) (k m : Bytes) : Bool :=
  if p.head <+: k then crossed reverse p.fields (k.drop p.head.length) (m.drop p.head.length) else started

theorem place_found {p : Pattern} (formed : Formed p.fields) (reverse : Bool) (key : Bytes) :
    p.place key reverse = .found ↔ p.head <+: key ∧ fits p.fields (key.drop p.head.length) = true := by
  unfold Pattern.place
  by_cases under : p.head <+: key
  · rw [if_pos under]
    obtain ⟨rest,rfl⟩ := under
    rw [List.drop_left]
    exact (placed_found formed reverse p.head rest none).trans (by simp)
  · rw [if_neg under]
    exact iff_of_false (by simp) fun both => under both.1

-- The keys found are the same ones either way.
theorem stand_found {p : Pattern} (formed : Formed p.fields) (reverse : Bool) (key : Bytes) :
    (p.stand reverse key).isFound = p.picks key := by
  have same : p.place key reverse = .found ↔ p.place key false = .found := by
    rw [place_found formed,place_found formed]
  rw [Bool.eq_iff_iff,Pattern.picks,decide_eq_true_eq,← same,Pattern.stand]
  cases p.place key reverse <;> simp [Place.stand,Stand.isFound]

theorem picks_fits {p : Pattern} (formed : Formed p.fields) (picked : p.picks m = true) :
    ∃ rest, m = p.head++rest ∧ fits p.fields rest = true := by
  obtain ⟨⟨rest,rfl⟩,fit⟩ := (place_found formed false m).mp (of_decide_eq_true picked)
  rw [List.drop_left] at fit
  exact ⟨rest,rfl,fit⟩

-- At a key under the head, a walk passes over a picked key further on exactly where the
-- key is misplaced before it.
theorem stand_passes {p : Pattern} (formed : Formed p.fields) (under : p.head <+: k) (order : before reverse k m = true)
    (picked : p.picks m = true) (started : Bool) :
    (p.stand reverse k).Passes k m ↔ p.misplaced reverse started k m = true := by
  obtain ⟨rm,rfl,fit⟩ := picks_fits formed picked
  rw [Pattern.stand,Pattern.place,Pattern.misplaced,if_pos under,if_pos under]
  obtain ⟨rk,rfl⟩ := under
  rw [List.drop_left,List.drop_left]
  rw [before_append] at order
  exact placed_passes (h:=none) formed trivial order fit

theorem before_trans (ab : before reverse a b = true) (bc : before reverse b c = true) : before reverse a c = true := by
  cases reverse
  · exact decide_eq_true (lt_trans (of_decide_eq_true ab) (of_decide_eq_true bc))
  · exact decide_eq_true (lt_trans (of_decide_eq_true bc) (of_decide_eq_true ab))

theorem before_strict (a b : Bytes) (ab : before reverse a b = true) : ¬before reverse b a = true := by
  intro ba
  cases reverse <;> exact lt_asymm (of_decide_eq_true ab) (of_decide_eq_true ba)

-- What stands between two texts in a walk shares what starts them both.
theorem between_shares {a k m head : Bytes} (ak : before reverse a k = true) (km : before reverse k m = true)
    (first : head <+: a) (last : head <+: m) : head <+: k := by
  cases reverse
  · exact prefix_between first last (le_of_lt (of_decide_eq_true ak)) (le_of_lt (of_decide_eq_true km))
  · exact prefix_between last first (le_of_lt (of_decide_eq_true km)) (le_of_lt (of_decide_eq_true ak))

theorem stand_nested {p : Pattern} (formed : Formed p.fields)
    (plain : reverse = true → ∀ field ∈ p.fields, field.plainAbove = true) :
    Nested (p.stand reverse) (fun a b => before reverse a b = true) := by
  intro a k m ak km found passesA passesK
  rw [stand_found formed] at found
  by_cases under : p.head <+: a
  · obtain ⟨rm,equal,fit⟩ := picks_fits formed found
    have underK := between_shares ak km under ⟨rm,equal.symm⟩
    rw [stand_passes formed underK km found false,Pattern.misplaced,if_pos underK] at passesK
    rw [stand_passes formed under (before_trans ak km) found false,Pattern.misplaced,if_pos under]
    rw [Pattern.stand,Pattern.place,if_pos under] at passesA
    subst equal
    obtain ⟨r0,rfl⟩ := under
    obtain ⟨rk,rfl⟩ := underK
    rw [before_append] at ak km
    rw [List.drop_left,List.drop_left] at passesK ⊢
    exact crossed_nested (h:=none) formed plain trivial ak km fit passesA passesK
  · rw [Pattern.stand,Pattern.place,if_neg under]
    trivial

theorem past_rising (t : Bytes) (strict : Bool) (order : before reverse a b = true) (there : past t strict a reverse = true) :
    past t strict b reverse = true := by
  by_contra short
  have short := past_false.mp (by simpa using short)
  have back : past t strict a reverse = false := by
    refine past_false.mpr (.inl ?_)
    cases reverse
    · rcases short with less | ⟨_,same⟩
      · exact lt_trans (of_decide_eq_true order) less
      · exact same ▸ of_decide_eq_true order
    · rcases short with less | ⟨_,same⟩
      · exact lt_trans less (of_decide_eq_true order)
      · exact same ▸ of_decide_eq_true order
  rw [there] at back
  cases back

theorem stand_rising (p : Pattern) (reverse : Bool) : Rising (p.stand reverse) (fun a b => before reverse a b = true) := by
  intro k reached at_ a b order there
  unfold Pattern.stand at at_
  cases place : p.place k reverse with
  | seek t strict =>
    rw [place] at at_
    cases at_
    exact past_rising t strict order there
  | _ => rw [place] at at_; cases at_

theorem seek_past (rows : List (Bytes × ν)) (reverse : Bool) (t : Bytes) (strict : Bool) :
    Cursor.seek rows reverse (some t) strict = (ahead rows reverse).dropWhile (fun row => !past t strict row.1 reverse) := by
  have same : ∀ key, past t strict key reverse =
      match reverse,strict with
      | false,false => !decide (key < t)
      | false,true => !decide (key ≤ t)
      | true,false => !decide (t < key)
      | true,true => !decide (t ≤ key) := by
    intro key
    have low : key ≤ t ↔ key < t ∨ t = key := by rw [le_iff_lt_or_eq,eq_comm]
    have high : t ≤ key ↔ t < key ∨ t = key := le_iff_lt_or_eq
    rw [Bool.eq_iff_iff,← not_iff_not,Bool.not_eq_true,past_false]
    cases reverse <;> cases strict
    · simp
    · simp only [Bool.not_eq_true',decide_eq_false_iff_not,Decidable.not_not,low]; simp
    · simp
    · simp only [Bool.not_eq_true',decide_eq_false_iff_not,Decidable.not_not,high]; simp
  cases reverse <;> cases strict <;> simp [Cursor.seek,same]

-- The store's rows stand in key order.
def Sorted (rows : List (Bytes × ν)) : Prop := rows.Pairwise (fun a b => a.1 < b.1)

theorem Sorted.ahead {rows : List (Bytes × ν)} (sorted : Sorted rows) (reverse : Bool) :
    (ahead rows reverse).Pairwise (fun a b => before reverse a.1 b.1 = true) := by
  cases reverse
  · exact sorted.imp fun less => decide_eq_true less
  · exact (List.pairwise_reverse.mpr sorted).imp fun less => decide_eq_true less

-- Stepping toward a target and seeking it come to the same place.
theorem toward_seek {rows front rest : List (Bytes × ν)} {row : Bytes × ν} (sorted : Sorted rows)
    (at_ : ahead rows reverse = front++row :: rest) (here : past t strict row.1 reverse = false) (budget : Nat) :
    (match toward t strict reverse budget rest with
      | some on => on
      | none => Cursor.seek rows reverse (some t) strict) = rest.dropWhile (fun r => !past t strict r.1 reverse) := by
  have ordered := sorted.ahead reverse
  rw [at_] at ordered
  have earlier : ∀ r ∈ front, past t strict r.1 reverse = false := by
    intro r member
    by_contra there
    have on := past_rising t strict ((List.pairwise_append.mp ordered).2.2 r member row List.mem_cons_self)
      (by simpa using there)
    rw [here] at on
    cases on
  have sought : Cursor.seek rows reverse (some t) strict = rest.dropWhile (fun r => !past t strict r.1 reverse) := by
    rw [seek_past,at_,List.dropWhile_append_of_pos (by intro r member; simp [earlier r member]),
      List.dropWhile_cons_of_pos (by simp [here])]
  rw [sought]
  clear sought earlier ordered at_ sorted
  induction budget generalizing rest with
  | zero => rfl
  | succ budget ih =>
    cases rest with
    | nil => rfl
    | cons next rest =>
      by_cases there : past t strict next.1 reverse = true
      · simp [toward,there]
      · have short : past t strict next.1 reverse = false := by simpa using there
        rw [toward,if_neg there,List.dropWhile_cons_of_pos (by simp [short])]
        exact ih

-- What a visit makes of the rows handed to it, one after another until it stops.
def visitAll (visit : Bytes → ν → σ → Visit × σ) : List (Bytes × ν) → σ → Visit × σ
  | [], s => (.next,s)
  | row :: rest, s => match visit row.1 row.2 s with
    | (.next,s') => visitAll visit rest s'
    | other => other

def ended (last : Visit × σ) : Except String Unit × σ :=
  (if last.1 = .fail then .error "the walk's visit failed" else .ok (),last.2)

-- A walk ends, and whatever its budget it visits what a walk by seeks alone hands out.
theorem walkFrom_visited {rows : List (Bytes × ν)} (sorted : Sorted rows) (p : Pattern) (reverse : Bool) (budget : Nat)
    (visit : Bytes → ν → σ → Visit × σ) {cursor : List (Bytes × ν)} (on : cursor <:+ ahead rows reverse)
    (enough : cursor.length < fuel) (s : σ) :
    walkFrom rows p reverse budget visit fuel cursor s = some (ended (visitAll visit (visited (p.stand reverse) cursor) s)) := by
  induction fuel generalizing cursor s with
  | zero => omega
  | succ fuel ih =>
    cases cursor with
    | nil => simp [walkFrom,visited,visitAll,ended]
    | cons row rest =>
      have later : rest <:+ ahead rows reverse := (List.suffix_cons row rest).trans on
      have less : rest.length < fuel := by simp at enough; omega
      rw [walkFrom,visited,Pattern.stand]
      cases place : p.place row.1 reverse with
      | found =>
        simp only [Place.stand,visitAll]
        rcases visit row.1 row.2 s with ⟨_ | _ | _,s'⟩
        · exact ih later less s'
        · rfl
        · rfl
      | step => exact ih later less s
      | done => rfl
      | seek t strict =>
        simp only [Place.stand]
        by_cases there : past t strict row.1 reverse = true
        · rw [if_pos there,if_pos there]
          exact ih later less s
        · rw [if_neg there,if_neg there]
          obtain ⟨front,at_⟩ := on
          have same := toward_seek sorted at_.symm (by simpa using there) budget
          have short := (List.dropWhile_sublist (l:=rest) (fun r => !past t strict r.1 reverse)).length_le
          have stays : rest.dropWhile (fun r => !past t strict r.1 reverse) <:+ ahead rows reverse :=
            (List.dropWhile_suffix _).trans later
          have moved := ih stays (by omega) s
          rw [← same] at moved ⊢
          cases stepped : toward t strict reverse budget rest with
          | some next => simpa only [stepped] using moved
          | none => simpa only [stepped] using moved

-- The keys a walk hands out, one by one.
def collect (key : Bytes) (_ : ν) (keys : List Bytes) : Visit × List Bytes := (.next,keys++[key])

theorem visitAll_collect (rows : List (Bytes × ν)) (keys : List Bytes) :
    visitAll collect rows keys = (.next,keys++rows.map Prod.fst) := by
  induction rows generalizing keys with
  | nil => simp [visitAll]
  | cons row rest ih => simp [visitAll,collect,ih]

def beyond (reverse : Bool) (after : Option Bytes) (key : Bytes) : Bool := after.all (before reverse · key)

-- What a scan is for: the rows past its start that its pattern picks, in walk order.
def picked (rows : List (Bytes × ν)) (p : Pattern) (reverse : Bool) (after : Option Bytes) : List (Bytes × ν) :=
  (ahead rows reverse).filter fun row => p.picks row.1 && beyond reverse after row.1

def Faithful (rows : List (Bytes × ν)) (p : Pattern) (reverse : Bool) (after : Option Bytes) (budget : Nat) : Prop :=
  ∃ n, ∀ fuel, n ≤ fuel →
    walk rows p reverse after budget collect fuel [] = some (.ok (),(picked rows p reverse after).map Prod.fst)

-- A key the walk stands at is misplaced before one the pattern picks.
def Shadowed (rows : List (Bytes × ν)) (p : Pattern) (reverse : Bool) (after : Option Bytes) (m : Bytes) : Prop :=
  ∃ k ∈ placed (p.stand reverse) (start rows p reverse after), before reverse k.1 m = true ∧
    p.misplaced reverse after.isSome k.1 m = true

def Untangled (rows : List (Bytes × ν)) (p : Pattern) (reverse : Bool) (after : Option Bytes) : Prop :=
  ∀ m ∈ rows, beyond reverse after m.1 = true → p.picks m.1 = true → ¬Shadowed rows p reverse after m.1

-- No key past the start, stood at or not, is misplaced before one the pattern picks.
def Tidy (rows : List (Bytes × ν)) (p : Pattern) (reverse : Bool) (after : Option Bytes) : Prop :=
  ∀ k ∈ rows, ∀ m ∈ rows, beyond reverse after k.1 = true → before reverse k.1 m.1 = true → p.picks m.1 = true →
    p.misplaced reverse after.isSome k.1 m.1 = false

instance (rows : List (Bytes × ν)) (p : Pattern) (reverse : Bool) (after : Option Bytes) (m : Bytes) :
    Decidable (Shadowed rows p reverse after m) := inferInstanceAs (Decidable (∃ k ∈ placed _ _, _))

instance (rows : List (Bytes × ν)) (p : Pattern) (reverse : Bool) (after : Option Bytes) :
    Decidable (Untangled rows p reverse after) := inferInstanceAs (Decidable (∀ m ∈ rows, _))

theorem start_suffix (rows : List (Bytes × ν)) (p : Pattern) (reverse : Bool) (after : Option Bytes) :
    start rows p reverse after <:+ ahead rows reverse := by
  have seeks : ∀ target strict, Cursor.seek rows reverse target strict <:+ ahead rows reverse := by
    intro target strict
    cases target with
    | none => cases reverse <;> cases strict <;> exact List.suffix_rfl
    | some t => rw [seek_past]; exact List.dropWhile_suffix _
  unfold start
  cases after with
  | some a => exact seeks _ _
  | none =>
    cases reverse
    · exact seeks (some p.head) false
    · exact seeks (prefixBound p.head) (prefixBound p.head).isSome

theorem mem_ahead (reverse : Bool) {rows : List (Bytes × ν)} : row ∈ ahead rows reverse ↔ row ∈ rows := by
  cases reverse <;> simp [ahead]

-- The rows a start leaves out come before those it keeps, none of them picked past it.
theorem mem_sought {rows : List (Bytes × ν)} (sorted : Sorted rows) (t : Bytes) (strict : Bool) :
    row ∈ Cursor.seek rows reverse (some t) strict ↔ row ∈ rows ∧ past t strict row.1 reverse = true := by
  rw [seek_past]
  constructor
  · intro member
    refine ⟨(mem_ahead reverse).mp ((List.dropWhile_sublist _).subset member),?_⟩
    exact @reached_tail _ _ _ _ (fun key => past t strict key reverse) _ (fun _ _ => past_rising t strict)
      (sorted.ahead reverse) member
  · rintro ⟨member,there⟩
    have whole : (ahead rows reverse).takeWhile (fun row => !past t strict row.1 reverse)++
        (ahead rows reverse).dropWhile (fun row => !past t strict row.1 reverse) = ahead rows reverse :=
      List.takeWhile_append_dropWhile
    rw [← mem_ahead reverse,← whole] at member
    rcases List.mem_append.mp member with early | late
    · have short := List.mem_takeWhile_imp early
      simp [there] at short
    · exact late

theorem past_strict (a key : Bytes) : past a true key reverse = before reverse a key := by
  cases reverse <;> simp [past,before]

theorem head_start {rows : List (Bytes × ν)} (sorted : Sorted rows) (p : Pattern) (member : row ∈ rows)
    (under : p.head <+: row.1) (reverse : Bool) : row ∈ start rows p reverse none := by
  unfold start
  cases reverse
  · rw [if_neg (by simp),mem_sought sorted]
    refine ⟨member,?_⟩
    by_contra short
    rcases past_false.mp (by simpa using short) with below | ⟨none,_⟩
    · exact absurd below (not_lt.mpr (prefix_le under))
    · cases none
  · rw [if_pos rfl]
    cases bound : prefixBound p.head with
    | none => exact (mem_ahead _).mpr member
    | some stop =>
      rw [mem_sought sorted]
      refine ⟨member,?_⟩
      rw [Option.isSome_some,past_strict]
      exact decide_eq_true ((prefixBound_bounds bound row.1).mpr (.inr under))

-- What a walk from no key starts with is under the head, or past everything that is.
theorem start_outside {rows : List (Bytes × ν)} (sorted : Sorted rows) (p : Pattern) (member : k ∈ start rows p reverse none)
    (outside : ¬p.head <+: k.1) (order : before reverse k.1 m = true) : ¬p.head <+: m := by
  intro under
  cases reverse
  · unfold start at member
    rw [if_neg (by simp),mem_sought sorted] at member
    have low : p.head ≤ k.1 := by
      by_contra below
      have short : past p.head false k.1 false = false := past_false.mpr (.inl (not_le.mp below))
      rw [member.2] at short
      cases short
    exact outside (prefix_between List.prefix_rfl under low (le_of_lt (of_decide_eq_true order)))
  · have split : k.1 < p.head ∨ p.head <+: k.1 := by
      cases bound : prefixBound p.head with
      | none => exact prefixBound_none bound k.1
      | some stop =>
        unfold start at member
        rw [if_pos rfl,bound,mem_sought sorted,Option.isSome_some,past_strict] at member
        exact (prefixBound_bounds bound k.1).mp (of_decide_eq_true member.2)
    rcases split with below | inside
    · exact absurd (lt_trans (of_decide_eq_true order) below) (not_lt.mpr (prefix_le under))
    · exact outside inside

theorem mem_start {rows : List (Bytes × ν)} (sorted : Sorted rows) (p : Pattern) (reverse : Bool) (a : Bytes) :
    row ∈ start rows p reverse (some a) ↔ row ∈ rows ∧ before reverse a row.1 = true := by
  rw [start,mem_sought sorted,past_strict]

theorem picks_under {p : Pattern} (picked : p.picks m = true) : p.head <+: m := by
  by_contra outside
  rw [Pattern.picks,Pattern.place,if_neg outside] at picked
  simp at picked

theorem mem_start_picked {rows : List (Bytes × ν)} (sorted : Sorted rows) {p : Pattern} (picks : p.picks m.1 = true)
    (reverse : Bool) (after : Option Bytes) :
    m ∈ start rows p reverse after ↔ m ∈ rows ∧ beyond reverse after m.1 = true := by
  cases after with
  | none =>
    constructor
    · exact fun member => ⟨(mem_ahead reverse).mp ((start_suffix rows p reverse none).subset member),rfl⟩
    · exact fun both => head_start sorted p both.1 (picks_under picks) reverse
  | some a => rw [mem_start sorted]; simp [beyond]

theorem looked_start {rows : List (Bytes × ν)} {p : Pattern} (sorted : Sorted rows) (formed : Formed p.fields) (reverse : Bool)
    (after : Option Bytes) : looked (p.stand reverse) (start rows p reverse after) = picked rows p reverse after := by
  have ordered := sorted.ahead reverse
  obtain ⟨front,whole⟩ := start_suffix rows p reverse after
  have inside : ∀ row, row ∈ front ∨ row ∈ start rows p reverse after → row ∈ rows := by
    intro row member
    rw [← mem_ahead reverse,← whole]
    exact List.mem_append.mpr member
  rw [picked,looked,← whole,List.filter_append]
  rw [← whole] at ordered
  have gone : front.filter (fun row => p.picks row.1 && beyond reverse after row.1) = [] := by
    refine List.filter_eq_nil_iff.mpr fun row member both => ?_
    obtain ⟨picks,far⟩ := Bool.and_eq_true_iff.mp both
    have again := (mem_start_picked sorted picks reverse after).mpr ⟨inside row (.inl member),far⟩
    have twice := (List.pairwise_append.mp ordered).2.2 row member row again
    exact before_strict _ _ twice twice
  rw [gone,List.nil_append]
  refine List.filter_congr fun row member => ?_
  rw [stand_found formed]
  by_cases picks : p.picks row.1 = true
  · rw [((mem_start_picked sorted picks reverse after).mp member).2,Bool.and_true]
  · simp [picks]

theorem beyond_on (far : beyond reverse after k = true) (order : before reverse k m = true) : beyond reverse after m = true := by
  cases after with
  | none => rfl
  | some a => exact before_trans far order

theorem beyond_start {rows : List (Bytes × ν)} (sorted : Sorted rows) (p : Pattern) (member : k ∈ start rows p reverse after) :
    beyond reverse after k.1 = true := by
  cases after with
  | none => rfl
  | some a => simpa [beyond] using ((mem_start sorted p reverse a).mp member).2

-- A key the walk may stand at passes over a picked one further on exactly where it is
-- misplaced before it.
theorem start_passes {rows : List (Bytes × ν)} {p : Pattern} (sorted : Sorted rows) (formed : Formed p.fields)
    (inside : k ∈ start rows p reverse after) (order : before reverse k.1 m = true) (picks : p.picks m = true) :
    (p.stand reverse k.1).Passes k.1 m ↔ p.misplaced reverse after.isSome k.1 m = true := by
  by_cases under : p.head <+: k.1
  · exact stand_passes formed under order picks after.isSome
  · cases after with
    | none => exact absurd (picks_under picks) (start_outside sorted p inside under order)
    | some a =>
      rw [Pattern.stand,Pattern.place,if_neg under,Pattern.misplaced,if_neg under]
      exact iff_of_true trivial rfl

theorem start_clear {rows : List (Bytes × ν)} {p : Pattern} (sorted : Sorted rows) (formed : Formed p.fields)
    (reverse : Bool) (after : Option Bytes) (picks : p.picks m = true) :
    (∀ k ∈ placed (p.stand reverse) (start rows p reverse after), before reverse k.1 m = true →
      ¬(p.stand reverse k.1).Passes k.1 m) ↔ ¬Shadowed rows p reverse after m := by
  constructor
  · rintro clear ⟨k,stood,order,misplaced⟩
    exact clear k stood order ((start_passes sorted formed (placed_subset _ _ stood) order picks).mpr misplaced)
  · intro clear k stood order passes
    exact clear ⟨k,stood,order,(start_passes sorted formed (placed_subset _ _ stood) order picks).mp passes⟩

theorem start_ordered {rows : List (Bytes × ν)} (sorted : Sorted rows) (p : Pattern) (reverse : Bool) (after : Option Bytes) :
    (start rows p reverse after).Pairwise (fun a b => before reverse a.1 b.1 = true) :=
  (sorted.ahead reverse).sublist (start_suffix rows p reverse after).sublist

-- What a walk visits is what its pattern picks and no key it stood at shadows.
theorem mem_visited_start {rows : List (Bytes × ν)} {p : Pattern} (sorted : Sorted rows) (formed : Formed p.fields)
    (reverse : Bool) (after : Option Bytes) :
    m ∈ visited (p.stand reverse) (start rows p reverse after) ↔
      m ∈ rows ∧ beyond reverse after m.1 = true ∧ p.picks m.1 = true ∧ ¬Shadowed rows p reverse after m.1 := by
  rw [mem_visited (stand_rising p reverse) before_strict (start_ordered sorted p reverse after),stand_found formed]
  constructor
  · rintro ⟨member,picks,clear⟩
    obtain ⟨inM,far⟩ := (mem_start_picked sorted picks reverse after).mp member
    exact ⟨inM,far,picks,(start_clear sorted formed reverse after picks).mp clear⟩
  · rintro ⟨inM,far,picks,clear⟩
    exact ⟨(mem_start_picked sorted picks reverse after).mpr ⟨inM,far⟩,picks,
      (start_clear sorted formed reverse after picks).mpr clear⟩

theorem mem_picked {rows : List (Bytes × ν)} : x ∈ picked rows p reverse after ↔
    x ∈ rows ∧ p.picks x.1 = true ∧ beyond reverse after x.1 = true := by
  rw [picked,List.mem_filter,mem_ahead,Bool.and_eq_true]

-- Two lists in walk order with the same rows are the same.
theorem ordered_ext {a b : List (Bytes × ν)} (left : a.Pairwise (fun a b => before reverse a.1 b.1 = true))
    (right : b.Pairwise (fun a b => before reverse a.1 b.1 = true)) (same : ∀ x, x ∈ a ↔ x ∈ b) : a = b := by
  have distinct : ∀ rows : List (Bytes × ν), rows.Pairwise (fun a b => before reverse a.1 b.1 = true) → rows.Nodup := by
    intro rows ordered
    refine List.Pairwise.imp (fun {x y} order => ?_) ordered
    rintro rfl
    exact before_strict _ _ order order
  have perm := (List.perm_ext_iff_of_nodup (distinct a left) (distinct b right)).mpr same
  exact perm.eq_of_pairwise (fun x y _ _ xy yx => absurd yx (before_strict _ _ xy)) left right

-- So it hands out all its pattern picks exactly where none of that is shadowed.
theorem visited_untangled {rows : List (Bytes × ν)} {p : Pattern} (sorted : Sorted rows) (formed : Formed p.fields)
    (reverse : Bool) (after : Option Bytes) :
    visited (p.stand reverse) (start rows p reverse after) = picked rows p reverse after ↔ Untangled rows p reverse after := by
  constructor
  · intro all m inM far picks
    have member := mem_picked.mpr ⟨inM,picks,far⟩
    rw [← all] at member
    exact ((mem_visited_start sorted formed reverse after).mp member).2.2.2
  · intro untangled
    have ordered := (start_ordered sorted p reverse after).sublist
      ((visited_sublist (p.stand reverse) _).trans List.filter_sublist)
    refine ordered_ext ordered ((sorted.ahead reverse).filter _) fun m => ?_
    rw [mem_visited_start sorted formed,mem_picked]
    constructor
    · exact fun both => ⟨both.1,both.2.2.1,both.2.1⟩
    · exact fun both => ⟨both.1,both.2.2,both.2.1,untangled m both.1 both.2.2 both.2.1⟩

-- Tidy rows are untangled, and with plain bounds the other way too.
theorem Tidy.untangled {rows : List (Bytes × ν)} {p : Pattern} (sorted : Sorted rows) (tidy : Tidy rows p reverse after) :
    Untangled rows p reverse after := by
  rintro m inM _ picks ⟨k,stood,order,misplaced⟩
  have startK := placed_subset _ _ stood
  have inK := (mem_ahead reverse).mp ((start_suffix rows p reverse after).subset startK)
  rw [tidy k inK m inM (beyond_start sorted p startK) order picks] at misplaced
  cases misplaced

theorem Untangled.tidy {rows : List (Bytes × ν)} {p : Pattern} (sorted : Sorted rows) (formed : Formed p.fields)
    (plain : reverse = true → ∀ field ∈ p.fields, field.plainAbove = true) (untangled : Untangled rows p reverse after) :
    Tidy rows p reverse after := by
  intro k inK m inM far order picks
  rw [Bool.eq_false_iff]
  intro misplaced
  have startK : k ∈ start rows p reverse after := by
    cases after with
    | none =>
      refine head_start sorted p inK (by_contra fun outside => ?_) reverse
      rw [Pattern.misplaced,if_neg outside] at misplaced
      cases misplaced
    | some a => exact (mem_start sorted p reverse a).mpr ⟨inK,by simpa [beyond] using far⟩
  have clear := (start_clear sorted formed reverse after picks).mpr (untangled m inM (beyond_on far order) picks)
  exact nested_placed (stand_nested formed plain) before_strict before_trans (start_ordered sorted p reverse after)
    (by rw [stand_found formed]; exact picks) clear k startK order
    ((start_passes sorted formed startK order picks).mpr misplaced)

theorem walk_run {rows : List (Bytes × ν)} (sorted : Sorted rows) (p : Pattern) (reverse : Bool) (after : Option Bytes)
    (budget : Nat) (visit : Bytes → ν → σ → Visit × σ) (enough : rows.length < fuel) (s : σ) :
    walk rows p reverse after budget visit fuel s =
      some (ended (visitAll visit (visited (p.stand reverse) (start rows p reverse after)) s)) := by
  refine walkFrom_visited sorted p reverse budget visit (start_suffix rows p reverse after) ?_ s
  have short := (start_suffix rows p reverse after).length_le
  have same : (ahead rows reverse).length = rows.length := by cases reverse <;> simp [ahead]
  omega

-- A walk hands out what its pattern picks exactly over untangled rows.
theorem faithful_untangled {rows : List (Bytes × ν)} {p : Pattern} (sorted : Sorted rows) (formed : Formed p.fields)
    (reverse : Bool) (after : Option Bytes) (budget : Nat) :
    Faithful rows p reverse after budget ↔ Untangled rows p reverse after := by
  rw [← visited_untangled sorted formed]
  have run : ∀ fuel, rows.length+1 ≤ fuel → walk rows p reverse after budget collect fuel [] =
      some (.ok (),(visited (p.stand reverse) (start rows p reverse after)).map Prod.fst) := by
    intro fuel enough
    rw [walk_run sorted p reverse after budget collect (by omega),visitAll_collect,List.nil_append]
    rfl
  constructor
  · rintro ⟨n,all⟩
    have one := all (max n (rows.length+1)) (le_max_left ..)
    rw [run _ (le_max_right ..)] at one
    have keys : (visited (p.stand reverse) (start rows p reverse after)).map Prod.fst =
        (picked rows p reverse after).map Prod.fst := congrArg Prod.snd (Option.some.inj one)
    have some := visited_sublist (p.stand reverse) (start rows p reverse after)
    rw [looked_start sorted formed] at some
    refine some.eq_of_length ?_
    rw [← List.length_map (f:=Prod.fst),keys,List.length_map]
  · intro all
    refine ⟨rows.length+1,fun fuel enough => ?_⟩
    rw [run fuel enough,all]

-- A text that ends in a one-byte sign has a bound, the sign after it.
theorem prefixBound_sign {s : Char} (low : s.val.toNat < 0x80) (text : List Char) :
    prefixBound (Mp.utf8 (text++[s])) = some (Mp.utf8 text++[s.val.toUInt8+1]) := by
  have byte : Mp.utf8 [s] = [s.val.toUInt8] := by
    rw [Mp.utf8,List.flatMap_singleton,(Mp.utf8_sign low).here]
  have below : s.val.toUInt8 ≠ 0xff := by
    intro same
    have same := congrArg UInt8.toNat same
    have is : s.val.toUInt8.toNat = s.val.toNat := UInt8.toNat_ofNat_of_lt' (show s.val.toNat < 256 by omega)
    rw [is] at same
    change s.val.toNat = 255 at same
    omega
  rw [Mp.utf8_append,byte]
  exact prefixBound_concat below _

-- A store's rows, as the cursor walks them.
def stored (kv : OrderedMap (List Char) Bytes) : List (Bytes × Bytes) := kv.scan.map fun row => (Mp.utf8 row.1,row.2)

theorem stored_sorted (kv : OrderedMap (List Char) Bytes) : Sorted (stored kv) :=
  List.pairwise_map.mpr ((OrderedMap.scan_sorted kv).imp fun less => Mp.utf8_mono less)

end Scan
end PhaseLock
