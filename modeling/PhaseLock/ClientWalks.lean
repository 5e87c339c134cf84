import PhaseLock.Utf16

namespace PhaseLock
namespace Skeleton
open SkipScan Texts
variable {σ : Type}

-- The order of keys, by the places of their units.
def rk (k : Units) : List Nat := k.map rank

theorem rk_inj {a b : Units} : rk a = rk b ↔ a = b := rank_injective.list_map.eq_iff

theorem compareKeys_pos (a b : Units) : 0 < compareKeys a b ↔ rk b < rk a := by
  rw [rk,rk,← compareKeys_neg,compareKeys_swap a b]
  omega

theorem compareKeys_zero (a b : Units) : compareKeys a b = 0 ↔ a = b := by
  have low := compareKeys_neg a b
  have high := compareKeys_pos a b
  rcases lt_trichotomy (rk a) (rk b) with less | same | more
  · exact iff_of_false (by have := low.mpr less; omega) fun same => absurd less (same ▸ lt_irrefl _)
  · have neither := mt low.mp (by rw [← rk,← rk,same]; exact lt_irrefl _)
    have nor := mt high.mp (by rw [same]; exact lt_irrefl _)
    exact iff_of_true (by omega) (rk_inj.mp same)
  · exact iff_of_false (by have := high.mpr more; omega) fun same => absurd more (same ▸ lt_irrefl _)

section Exact
variable {keys : List (Option Units)} {a b : Units}

theorem exactFor_neg (one : some a ∈ keys ∨ some b ∈ keys) : exactFor keys a b < 0 ↔ rk a < rk b := by
  rw [rk,rk,← compareKeys_neg,← Int.sign_neg_iff,exactFor_sign one,Int.sign_neg_iff]

theorem exactFor_pos (one : some a ∈ keys ∨ some b ∈ keys) : 0 < exactFor keys a b ↔ rk b < rk a := by
  rw [← compareKeys_pos,← Int.sign_pos_iff,exactFor_sign one,Int.sign_pos_iff]

theorem exactFor_zero (one : some a ∈ keys ∨ some b ∈ keys) : exactFor keys a b = 0 ↔ a = b := by
  rw [← compareKeys_zero,← Int.sign_eq_zero_iff_zero,exactFor_sign one,Int.sign_eq_zero_iff_zero]

end Exact

theorem past_forward (t : Units) (strict : Bool) (k : Units) :
    past t strict k false = true ↔ rk t < rk k ∨ k = t ∧ strict = false := by
  simp [past,exactFor_pos,exactFor_zero]

theorem past_reverse (t : Units) (strict : Bool) (k : Units) :
    past t strict k true = true ↔ rk k < rk t ∨ t = k ∧ strict = false := by
  simp [past,exactFor_pos,exactFor_zero]

def before (reverse : Bool) (a b : Units) : Prop := if reverse then rk b < rk a else rk a < rk b

theorem past_rising (t : Units) (strict : Bool) (order : before reverse a b) (there : past t strict a reverse = true) :
    past t strict b reverse = true := by
  cases reverse
  · rw [past_forward] at there ⊢
    rcases there with less | ⟨rfl,_⟩
    · exact .inl (lt_trans less order)
    · exact .inl order
  · rw [past_reverse] at there ⊢
    rcases there with less | ⟨rfl,_⟩
    · exact .inl (lt_trans order less)
    · exact .inl order

theorem bisect_split (lo hi : Nat) (ordered : lo ≤ hi) (p : Nat → Bool) (mono : ∀ i j, i ≤ j → p j = true → p i = true) :
    lo ≤ bisect lo hi p ∧ bisect lo hi p ≤ hi ∧ (∀ i, lo ≤ i → i < bisect lo hi p → p i = true) ∧
      ∀ i, bisect lo hi p ≤ i → i < hi → p i = false := by
  induction lo,hi using bisect.induct p with
  | case1 lo hi below mid at_ ih =>
    obtain ⟨l,h,front,back⟩ := ih (by omega)
    have is : bisect lo hi p = bisect (mid+1) hi p := by rw [bisect,if_pos below]; exact if_pos at_
    rw [is]
    refine ⟨by omega,h,?_,back⟩
    intro i from_ less
    by_cases early : i ≤ mid
    · exact mono i mid early at_
    · exact front i (by omega) less
  | case2 lo hi below mid at_ ih =>
    obtain ⟨l,h,front,back⟩ := ih (by omega)
    have is : bisect lo hi p = bisect lo mid p := by rw [bisect,if_pos below]; exact if_neg at_
    rw [is]
    refine ⟨l,by omega,front,?_⟩
    intro i from_ less
    by_cases early : i < mid
    · exact back i from_ early
    · rw [Bool.eq_false_iff]
      exact fun there => at_ (mono mid i (by omega) there)
  | case3 lo hi apart =>
    rw [bisect,if_neg apart]
    exact ⟨le_rfl,by omega,fun i _ _ => by omega,fun i _ _ => by omega⟩

def Sorted (keys : List Units) : Prop := keys.Pairwise fun a b => rk a < rk b

def ahead (keys : List Units) (reverse : Bool) : List Units := if reverse then keys.reverse else keys

theorem Sorted.ahead {keys : List Units} (sorted : Sorted keys) (reverse : Bool) : (ahead keys reverse).Pairwise (before reverse) := by
  cases reverse
  · exact sorted
  · exact List.pairwise_reverse.mpr sorted

-- Where a test holds of a sorted list's first part, bisecting finds that part's length.
theorem bisect_parts {α : Type} {keys : List α} (p : α → Bool) (falls : keys.Pairwise fun a b => p b = true → p a = true) :
    bisect 0 keys.length (fun i => (keys[i]?).any p) ≤ keys.length ∧
      (∀ k ∈ keys.take (bisect 0 keys.length fun i => (keys[i]?).any p), p k = true) ∧
      ∀ k ∈ keys.drop (bisect 0 keys.length fun i => (keys[i]?).any p), p k = false := by
  have mono : ∀ i j : Nat, i ≤ j → (keys[j]?).any p = true → (keys[i]?).any p = true := by
    intro i j le there
    rcases Nat.lt_or_eq_of_le le with less | rfl
    · by_cases inside : j < keys.length
      · rw [List.getElem?_eq_getElem inside,Option.any_some] at there
        rw [List.getElem?_eq_getElem (by omega),Option.any_some]
        exact List.pairwise_iff_getElem.mp falls i j (by omega) inside less there
      · rw [List.getElem?_eq_none (by omega)] at there
        cases there
    · exact there
  obtain ⟨_,short,front,back⟩ := bisect_split 0 keys.length (Nat.zero_le _) _ mono
  refine ⟨short,?_,?_⟩
  · intro k member
    obtain ⟨i,inside,rfl⟩ := List.mem_take_iff_getElem.mp member
    have := front i (Nat.zero_le _) (by omega)
    rwa [List.getElem?_eq_getElem (by omega),Option.any_some] at this
  · intro k member
    obtain ⟨i,inside,rfl⟩ := List.mem_drop_iff_getElem.mp member
    have := back _ (Nat.le_add_right _ i) (by omega)
    rwa [List.getElem?_eq_getElem (by omega),Option.any_some] at this

-- The keys from the cursor on, one way.
def view (keys : List Units) (reverse : Bool) (j : Int) : List Units :=
  if reverse then (keys.take (j+1).toNat).reverse else keys.drop j.toNat

-- Where a cursor can stand.
def InRange (keys : List Units) (reverse : Bool) (j : Int) : Prop :=
  if reverse then -1 ≤ j ∧ j < keys.length else 0 ≤ j

theorem key_view {keys : List Units} {j : Int} (inside : InRange keys reverse j) :
    ArrayCursor.key keys j = (view keys reverse j).head? := by
  cases reverse
  · have inside : 0 ≤ j := inside
    rw [ArrayCursor.key,if_pos inside]
    simp [view]
  · have inside : -1 ≤ j ∧ j < keys.length := inside
    unfold ArrayCursor.key view
    by_cases none : 0 ≤ j
    · rw [if_pos none,if_pos rfl,List.head?_reverse,List.getLast?_take]
      have up : (j+1).toNat = j.toNat+1 := by omega
      rw [up,if_neg (by omega),Nat.add_sub_cancel,List.getElem?_eq_getElem (by omega)]
      rfl
    · have start_ : (j+1).toNat = 0 := by omega
      rw [if_neg none,if_pos rfl,start_]
      rfl

theorem step_view {keys : List Units} {j : Int} (inside : InRange keys reverse j) (on : view keys reverse j = key :: rest) :
    InRange keys reverse (ArrayCursor.step reverse j) ∧ view keys reverse (ArrayCursor.step reverse j) = rest := by
  cases reverse
  · have inside : 0 ≤ j := inside
    refine ⟨show (0 : Int) ≤ j+1 by omega,?_⟩
    have on : keys.drop j.toNat = key :: rest := on
    show keys.drop (j+1).toNat = rest
    rw [show (j+1).toNat = j.toNat+1 by omega,← List.drop_drop,on]
    rfl
  · have inside : -1 ≤ j ∧ j < keys.length := inside
    have on : (keys.take (j+1).toNat).reverse = key :: rest := on
    have some_ : 0 ≤ j := by
      by_contra less
      rw [show (j+1).toNat = 0 by omega] at on
      cases on
    refine ⟨show -1 ≤ j+ -1 ∧ j+ -1 < (keys.length : Int) by omega,?_⟩
    show (keys.take (j+ -1+1).toNat).reverse = rest
    rw [show (j+ -1+1).toNat = (j+1).toNat-1 by omega]
    have shorter : keys.take ((j+1).toNat-1) = (keys.take (j+1).toNat).dropLast := by
      have size : (j+1).toNat ≤ keys.length := by omega
      rw [List.dropLast_eq_take,List.length_take,min_eq_left size,List.take_take,min_eq_left (by omega)]
    rw [shorter,← List.tail_reverse,on]
    rfl

theorem seek_none (keys : List Units) (reverse : Bool) (strict : Bool) :
    InRange keys reverse (ArrayCursor.seek keys reverse none strict) ∧
      view keys reverse (ArrayCursor.seek keys reverse none strict) = ahead keys reverse := by
  cases reverse
  · exact ⟨le_refl (0 : Int),rfl⟩
  · refine ⟨show (-1 : Int) ≤ (keys.length : Int)-1 ∧ (keys.length : Int)-1 < keys.length by omega,?_⟩
    show (keys.take ((keys.length : Int)-1+1).toNat).reverse = keys.reverse
    rw [show ((keys.length : Int)-1+1).toNat = keys.length by omega,List.take_length]

-- A seek lands on the first key, one way, to have reached its target.
theorem seek_view {keys : List Units} (sorted : Sorted keys) (reverse : Bool) (t : Units) (strict : Bool) :
    InRange keys reverse (ArrayCursor.seek keys reverse (some t) strict) ∧
      view keys reverse (ArrayCursor.seek keys reverse (some t) strict) =
        (ahead keys reverse).dropWhile (fun k => !past t strict k reverse) := by
  -- what lies before the target in key order
  let under : Units → Bool := fun k => exactFor [some t] k t < 0 || exactFor [some t] k t = 0 && strict != reverse
  have is : ∀ k, under k = true ↔ rk k < rk t ∨ k = t ∧ strict ≠ reverse := by
    intro k
    simp [under,exactFor_neg,exactFor_zero]
  have falls : keys.Pairwise fun a b => under b = true → under a = true := by
    refine sorted.imp fun less there => ?_
    rw [is] at there ⊢
    rcases there with below | ⟨rfl,_⟩
    · exact .inl (lt_trans less below)
    · exact .inl less
  obtain ⟨short,front,back⟩ := bisect_parts under falls
  generalize at_ : bisect 0 keys.length (fun i => (keys[i]?).any under) = n at short front back
  have lands : ArrayCursor.seek keys reverse (some t) strict = (n : Int)-if reverse then 1 else 0 := by
    rw [← at_]
    rfl
  rw [lands]
  cases reverse
  · refine ⟨show (0 : Int) ≤ (n : Int)-0 by omega,?_⟩
    show keys.drop ((n : Int)-0).toNat = keys.dropWhile _
    rw [show ((n : Int)-0).toNat = n by omega]
    have same : ∀ k, (!past t strict k false) = under k := by
      intro k
      rw [Bool.eq_iff_iff,Bool.not_eq_true',← Bool.not_eq_true,past_forward,is]
      rcases lt_trichotomy (rk k) (rk t) with less | equal | more
      · have other : k ≠ t := fun same => absurd less (same ▸ lt_irrefl _)
        simp [less,lt_asymm less,other]
      · simp [rk_inj.mp equal]
      · have other : k ≠ t := fun same => absurd more (same ▸ lt_irrefl _)
        simp [more,lt_asymm more,other]
    simp only [same]
    conv_rhs => rw [← List.take_append_drop n keys]
    rw [List.dropWhile_append_of_pos front]
    cases rest : keys.drop n with
    | nil => rfl
    | cons k more =>
      rw [List.dropWhile_cons_of_neg]
      simpa using back k (by rw [rest]; exact List.mem_cons_self)
  · refine ⟨show (-1 : Int) ≤ (n : Int)-1 ∧ (n : Int)-1 < keys.length by omega,?_⟩
    show (keys.take ((n : Int)-1+1).toNat).reverse = keys.reverse.dropWhile _
    rw [show ((n : Int)-1+1).toNat = n by omega]
    have same : ∀ k, past t strict k true = under k := by
      intro k
      rw [Bool.eq_iff_iff,past_reverse,is,eq_comm (a:=t)]
      simp
    simp only [same]
    conv_rhs => rw [← List.take_append_drop n keys,List.reverse_append]
    rw [List.dropWhile_append_of_pos (by intro k member; simp [back k (List.mem_reverse.mp member)])]
    cases rest : (keys.take n).reverse with
    | nil => rfl
    | cons k more =>
      rw [List.dropWhile_cons_of_neg]
      have inside : k ∈ keys.take n := List.mem_reverse.mp (by rw [rest]; exact List.mem_cons_self)
      simp [front k inside]

def Placement.stand (reverse : Bool) : Placement → Stand Units
  | .found => .found
  | .step => .step
  | .done => .done
  | .seek target strict => .seek (fun key => past target strict key reverse)

def CompiledPattern.stand (c : CompiledPattern) (reverse : Bool) (key : Units) : Stand Units :=
  (placeKey c key reverse).stand reverse

def rows (keys : List Units) : List (Units × Unit) := keys.map fun key => (key,())

-- The keys a walk by seeks alone hands out.
def handed (c : CompiledPattern) (reverse : Bool) (keys : List Units) : List Units :=
  (visited (c.stand reverse) (rows keys)).map Prod.fst

-- What a visit makes of the keys handed to it, until it answers false.
def visitEach (visit : Units → σ → Bool × σ) : List Units → σ → σ
  | [], s => s
  | key :: rest, s => match visit key s with
    | (true,s') => visitEach visit rest s'
    | (false,s') => s'

-- Where steps toward a target lead.
theorem toward_view {keys rest : List Units} (t : Units) (strict : Bool) (budget : Nat) {j : Int} (inside : InRange keys reverse j)
    (on : view keys reverse j = key :: rest) : match toward keys t strict reverse budget j with
      | .ended => rest.dropWhile (fun k => !past t strict k reverse) = []
      | .reached j' => InRange keys reverse j' ∧ view keys reverse j' = rest.dropWhile (fun k => !past t strict k reverse)
      | .short => True := by
  induction budget generalizing j key rest with
  | zero => trivial
  | succ budget ih =>
    obtain ⟨inside',on'⟩ := step_view inside on
    rw [toward,key_view inside',on']
    cases rest with
    | nil => rfl
    | cons next rest =>
      rw [List.head?_cons]
      by_cases there : past t strict next reverse = true
      · simp only [there,if_true,Bool.not_true,List.dropWhile_cons_of_neg,Bool.false_eq_true,not_false_eq_true]
        exact ⟨inside',on'⟩
      · have short : past t strict next reverse = false := by simpa using there
        simp only [short,Bool.not_false,List.dropWhile_cons_of_pos,Bool.false_eq_true,if_false]
        exact ih inside' on'

-- A seek to a target further on passes over the keys behind the cursor.
theorem seek_on {keys rest : List Units} (sorted : Sorted keys) (t : Units) (strict : Bool)
    (on : key :: rest <:+ ahead keys reverse) (here : past t strict key reverse = false) :
    InRange keys reverse (ArrayCursor.seek keys reverse (some t) strict) ∧
      view keys reverse (ArrayCursor.seek keys reverse (some t) strict) = rest.dropWhile (fun k => !past t strict k reverse) := by
  obtain ⟨inside,lands⟩ := seek_view sorted reverse t strict
  refine ⟨inside,lands.trans ?_⟩
  obtain ⟨front,whole⟩ := on
  have ordered := sorted.ahead reverse
  rw [← whole] at ordered ⊢
  have earlier : ∀ k ∈ front, past t strict k reverse = false := by
    intro k member
    by_contra there
    have later := past_rising t strict ((List.pairwise_append.mp ordered).2.2 k member key List.mem_cons_self) (by simpa using there)
    rw [here] at later
    cases later
  rw [List.dropWhile_append_of_pos (by intro k member; simp [earlier k member]),List.dropWhile_cons_of_pos (by simp [here])]

theorem handed_drop (c : CompiledPattern) (reverse : Bool) (keys : List Units) (p : Units → Bool) :
    (visited (c.stand reverse) ((rows keys).dropWhile fun r => p r.1)).map Prod.fst = handed c reverse (keys.dropWhile p) := by
  rw [handed,rows,rows,List.dropWhile_map]
  rfl

-- A walk ends, and whatever its budget it visits what a walk by seeks alone hands out.
theorem walkFrom_handed {keys : List Units} (sorted : Sorted keys) (c : CompiledPattern) (reverse : Bool) (budget : Nat)
    (visit : Units → σ → Bool × σ) {j : Int} (inside : InRange keys reverse j) (on : view keys reverse j <:+ ahead keys reverse)
    (enough : (view keys reverse j).length < fuel) (s : σ) :
    walkFrom keys c reverse budget visit fuel j s = some (visitEach visit (handed c reverse (view keys reverse j)) s) := by
  induction fuel generalizing j s with
  | zero => omega
  | succ fuel ih =>
    rw [walkFrom,key_view inside]
    cases at_ : view keys reverse j with
    | nil => simp [handed,rows,visited,visitEach]
    | cons key rest =>
      rw [at_] at on enough
      have later : rest <:+ ahead keys reverse := (List.suffix_cons key rest).trans on
      have less : rest.length < fuel := by simp at enough; omega
      obtain ⟨inside',on'⟩ := step_view inside at_
      have step : ∀ s, walkFrom keys c reverse budget visit fuel (ArrayCursor.step reverse j) s =
          some (visitEach visit (handed c reverse rest) s) := by
        intro s
        rw [ih inside' (by rw [on']; exact later) (by rw [on']; exact less),on']
      rw [List.head?_cons,handed,rows,List.map_cons,visited,CompiledPattern.stand]
      dsimp only
      cases place : placeKey c key reverse with
      | found =>
        simp only [Placement.stand,List.map_cons,visitEach]
        rcases visit key s with ⟨_ | _,s'⟩
        · rfl
        · exact step s'
      | step => exact step s
      | done => rfl
      | seek t strict =>
        simp only [Placement.stand]
        by_cases there : past t strict key reverse = true
        · rw [if_pos there,if_pos there]
          exact step s
        · rw [if_neg there,if_neg there]
          have short : past t strict key reverse = false := by simpa using there
          have fewer := (List.dropWhile_sublist (l:=rest) (fun k => !past t strict k reverse)).length_le
          have stays : rest.dropWhile (fun k => !past t strict k reverse) <:+ ahead keys reverse :=
            (List.dropWhile_suffix _).trans later
          have same := handed_drop c reverse rest fun k => !past t strict k reverse
          rw [rows] at same
          rw [same]
          have led := toward_view t strict budget inside at_
          cases stepped : toward keys t strict reverse budget j with
          | ended =>
            rw [stepped] at led
            simp [led,handed,rows,visited,visitEach]
          | reached j' =>
            rw [stepped] at led
            dsimp only
            rw [ih led.1 (by rw [led.2]; exact stays) (by rw [led.2]; omega),led.2]
          | short =>
            obtain ⟨on1,on2⟩ := seek_on sorted t strict on short
            dsimp only
            rw [ih on1 (by rw [on2]; exact stays) (by rw [on2]; omega),on2]

end Skeleton
end PhaseLock
