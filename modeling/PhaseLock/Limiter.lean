import PhaseLock.OrderedMap
import Mathlib.Data.Rat.Lemmas
import Mathlib.Algebra.Order.Field.Rat
import Mathlib.Tactic.Linarith
import Mathlib.Tactic.Ring

namespace PhaseLock
variable {κ : Type} [DecidableEq κ]

-- A token bucket per client: each holds up to burst tokens and regains rate per second.
-- The server is started with a positive rate and burst.
structure Limiter where
  rate : ℚ
  burst : Nat
  refills : 0 < rate
  holds : 0 < burst

-- A bucket's tokens, and the instant they are counted at, in nanoseconds.
abbrev Bucket := ℚ × Nat

structure LimiterState (κ : Type) where
  clients : OrderedMap κ Bucket
  lastSweep : Nat

namespace Limiter

-- The time since an instant, in seconds, none since a later one.
def since (now at_ : Nat) : ℚ := ((now-at_ : Nat) : ℚ)/1000000000

def refilled (l : Limiter) (now : Nat) (b : Bucket) : ℚ := b.1+since now b.2*l.rate

-- Forget the buckets that have refilled, at most once a minute.
def sweep (l : Limiter) (st : LimiterState κ) (now : Nat) : LimiterState κ :=
  if 60*1000000000 ≤ now-st.lastSweep then ⟨st.clients.keep fun _ b => decide (l.refilled now b < l.burst),now⟩ else st

def spend (l : Limiter) (b : Bucket) (now : Nat) : Bool × Bucket :=
  let tokens := min (l.burst : ℚ) (l.refilled now b)
  if tokens < 1 then (false,(tokens,now)) else (true,(tokens-1,now))

def draw (l : Limiter) (clients : OrderedMap κ Bucket) (client : κ) (now : Nat) : Bool × OrderedMap κ Bucket :=
  let b := l.spend ((clients.get client).getD (l.burst,now)) now
  (b.1,clients.set client b.2)

def allowAt (l : Limiter) (st : LimiterState κ) (client : κ) (now : Nat) : Bool × LimiterState κ :=
  let st := l.sweep st now
  let drawn := l.draw st.clients client now
  (drawn.1,{st with clients:=drawn.2})

-- Calls in the order they are applied, each with the instant it read and its answer.
def run (l : Limiter) (st : LimiterState κ) : List (κ × Nat) → List (κ × Nat × Bool)
  | [] => []
  | (client,now) :: more => (client,now,(l.allowAt st client now).1) :: run l (l.allowAt st client now).2 more

-- The same calls with no bucket ever forgotten.
def runKept (l : Limiter) (clients : OrderedMap κ Bucket) : List (κ × Nat) → List (κ × Nat × Bool)
  | [] => []
  | (client,now) :: more => (client,now,(l.draw clients client now).1) :: runKept l (l.draw clients client now).2 more

-- The calls a client is allowed in a window.
def allowed (client : κ) (start stop : Nat) (log : List (κ × Nat × Bool)) : List (κ × Nat × Bool) :=
  log.filter fun r => r.1 = client ∧ start ≤ r.2.1 ∧ r.2.1 ≤ stop ∧ r.2.2

-- A call's instant is not before its bucket's, nor, where a sweep has forgotten the bucket of a
-- client that called before, before the last sweep.
def Timely (st : LimiterState κ) (called : List κ) (client : κ) (now : Nat) : Prop :=
  (∀ b, st.clients.get client = some b → b.2 ≤ now) ∧ (client ∈ called → st.clients.get client = none → st.lastSweep ≤ now)

def InOrder (l : Limiter) (st : LimiterState κ) (called : List κ) : List (κ × Nat) → Prop
  | [] => True
  | (client,now) :: more => Timely st called client now ∧ InOrder l (l.allowAt st client now).2 (client :: called) more

theorem since_nonneg (now at_ : Nat) : 0 ≤ since now at_ := div_nonneg (Nat.cast_nonneg _) (by norm_num)

theorem since_early (early : now ≤ at_) : since now at_ = 0 := by
  rw [since,Nat.sub_eq_zero_of_le early,Nat.cast_zero,zero_div]

theorem since_add {a b c : Nat} (ab : a ≤ b) (bc : b ≤ c) : since c a = since c b+since b a := by
  unfold since
  rw [← add_div,← Nat.cast_add]
  congr 2
  omega

theorem since_mono {a b c : Nat} (le : b ≤ c) : since b a ≤ since c a := by
  unfold since
  have fewer : ((b-a : Nat) : ℚ) ≤ ((c-a : Nat) : ℚ) := Nat.cast_le.mpr (by omega)
  exact div_le_div_of_nonneg_right fewer (by norm_num)

variable (l : Limiter)

structure Held (b : Bucket) : Prop where
  some : 0 ≤ b.1
  less : b.1 < l.burst

theorem one_burst : (1 : ℚ) ≤ l.burst := by exact_mod_cast l.holds

theorem regained_nonneg (now at_ : Nat) : 0 ≤ since now at_*l.rate := mul_nonneg (since_nonneg _ _) l.refills.le

theorem spend_held {b : Bucket} (some : 0 ≤ b.1) (now : Nat) : Held l (l.spend b now).2 ∧ (l.spend b now).2.2 = now := by
  have one := l.one_burst
  have regained := l.regained_nonneg now b.2
  have level : 0 ≤ min (l.burst : ℚ) (l.refilled now b) := le_min (by linarith) (by unfold refilled; linarith)
  have cap := min_le_left (l.burst : ℚ) (l.refilled now b)
  unfold spend
  dsimp only
  split
  · rename_i few
    exact ⟨⟨level,by linarith⟩,rfl⟩
  · rename_i enough
    exact ⟨⟨by linarith [not_lt.mp enough],by dsimp only; linarith⟩,rfl⟩

-- A spent token is one less of the bucket's level.
theorem spend_level (b : Bucket) (now : Nat) : (l.spend b now).2.1+(if (l.spend b now).1 then 1 else 0) =
    min (l.burst : ℚ) (l.refilled now b) := by
  unfold spend
  dsimp only
  split <;> simp

-- What a forgotten bucket was: refilled by the last sweep.
structure Alike (st : LimiterState κ) (kept : OrderedMap κ Bucket) (called : List κ) : Prop where
  held : ∀ client b, kept.get client = some b → Held l b
  called : ∀ client b, kept.get client = some b → client ∈ called
  same : ∀ client b, st.clients.get client = some b → kept.get client = some b
  gone : ∀ client b, st.clients.get client = none → kept.get client = some b →
    b.2 ≤ st.lastSweep ∧ l.burst ≤ l.refilled st.lastSweep b

variable {l}

theorem sweep_alike {st : LimiterState κ} {kept : OrderedMap κ Bucket} {called : List κ} (alike : Alike l st kept called) (now : Nat) :
    Alike l (l.sweep st now) kept called := by
  unfold sweep
  split
  · rename_i due
    have get : ∀ client, (st.clients.keep fun _ b => decide (l.refilled now b < l.burst)).get client =
        (st.clients.get client).filter fun b => decide (l.refilled now b < l.burst) := fun client => OrderedMap.get_keep ..
    refine ⟨alike.held,alike.called,fun client b kept_ => ?_,fun client b none held => ?_⟩
    · rw [get,Option.filter_eq_some_iff] at kept_
      exact alike.same client b kept_.1
    · dsimp only at none ⊢
      rw [get] at none
      cases stored : st.clients.get client with
      | none =>
        obtain ⟨early,full⟩ := alike.gone client b stored held
        refine ⟨by omega,full.trans ?_⟩
        have longer := mul_le_mul_of_nonneg_right (since_mono (a:=b.2) (show st.lastSweep ≤ now by omega)) l.refills.le
        unfold refilled
        linarith
      | some b' =>
        rw [stored] at none
        have is := alike.same client b' stored
        rw [held] at is
        cases is
        have full : l.burst ≤ l.refilled now b := by
          by_contra few
          rw [Option.filter_some,if_pos (by simpa using few)] at none
          cases none
        refine ⟨?_,full⟩
        -- a bucket counted at a later instant has regained nothing, and is not full
        by_contra late
        have less := (alike.held client b held).less
        rw [refilled,since_early (by omega)] at full
        linarith
  · exact alike

theorem draw_alike {st : LimiterState κ} {kept : OrderedMap κ Bucket} {called : List κ} (alike : Alike l st kept called) {client : κ}
    {now : Nat} (late : client ∈ called → st.clients.get client = none → st.lastSweep ≤ now) :
    (l.draw st.clients client now).1 = (l.draw kept client now).1 ∧
      Alike l {st with clients:=(l.draw st.clients client now).2} (l.draw kept client now).2 (client :: called) := by
  have spent : l.spend ((st.clients.get client).getD (l.burst,now)) now = l.spend ((kept.get client).getD (l.burst,now)) now := by
    cases stored : st.clients.get client with
    | some b => rw [alike.same client b stored]
    | none => cases held : kept.get client with
      | none => rfl
      | some b =>
        obtain ⟨early,full⟩ := alike.gone client b stored held
        have longer := mul_le_mul_of_nonneg_right (since_mono (a:=b.2) (late (alike.called client b held) stored)) l.refills.le
        have still : l.burst ≤ l.refilled now b := by
          unfold refilled at full ⊢
          linarith
        have fresh : l.refilled now (l.burst,now) = l.burst := by
          rw [refilled,since_early le_rfl]
          simp
        rw [Option.getD_none,Option.getD_some,spend,spend,fresh,min_self,min_eq_left still]
  have start_ : 0 ≤ ((kept.get client).getD (l.burst,now)).1 := by
    cases held : kept.get client with
    | none => exact Nat.cast_nonneg _
    | some b => exact (alike.held client b held).some
  have new := (l.spend_held start_ now).1
  unfold draw
  dsimp only
  rw [spent]
  refine ⟨rfl,fun other b held => ?_,fun other b held => ?_,fun other b stored => ?_,fun other b none held => ?_⟩
  · rw [OrderedMap.get_set] at held
    split at held
    · cases held
      exact new
    · exact alike.held other b held
  · rw [OrderedMap.get_set] at held
    split at held
    · rename_i is
      exact List.mem_cons.mpr (.inl is.symm)
    · exact List.mem_cons_of_mem _ (alike.called other b held)
  · dsimp only at stored
    rw [OrderedMap.get_set] at stored ⊢
    split at stored
    · rename_i is
      rwa [if_pos is]
    · rename_i not_
      rw [if_neg not_]
      exact alike.same other b stored
  · dsimp only at none
    rw [OrderedMap.get_set] at none held
    split at none
    · cases none
    · rename_i not_
      rw [if_neg not_] at held
      exact alike.gone other b none held

-- A call that sweeps is not before its own sweep.
theorem sweep_late {st : LimiterState κ} {called : List κ} {client : κ} {now : Nat} (timely : Timely st called client now) :
    client ∈ called → (l.sweep st now).clients.get client = none → (l.sweep st now).lastSweep ≤ now := by
  unfold sweep
  split
  · exact fun _ _ => le_rfl
  · exact timely.2

-- In order, a limiter that forgets answers as one that does not.
theorem run_alike {st : LimiterState κ} {kept : OrderedMap κ Bucket} {called : List κ} (alike : Alike l st kept called)
    {calls : List (κ × Nat)} (inOrder : InOrder l st called calls) : l.run st calls = l.runKept kept calls := by
  induction calls generalizing st kept called with
  | nil => rfl
  | cons call more ih =>
    obtain ⟨client,now⟩ := call
    obtain ⟨timely,later⟩ := inOrder
    obtain ⟨answer,after⟩ := draw_alike (sweep_alike alike now) (sweep_late timely)
    have rest : l.run (l.allowAt st client now).2 more = l.runKept (l.draw kept client now).2 more := ih after later
    have first : (l.allowAt st client now).1 = (l.draw kept client now).1 := answer
    rw [run,runKept,first,rest]

-- What a client can still be allowed in a window, from what its bucket holds.
def room (l : Limiter) (start stop : Nat) : Option Bucket → ℚ
  | none => l.burst+since stop start*l.rate
  | some b => if stop < b.2 then 0 else min (l.burst : ℚ) (b.1+since start b.2*l.rate)+since stop (max start b.2)*l.rate

theorem min_more {a b c : ℚ} (more : 0 ≤ c) : min a (b+c) ≤ min a b+c := by
  rcases le_total a b with le | le
  · rw [min_eq_left le]
    exact (min_le_left _ _).trans (by linarith)
  · rw [min_eq_right le]
    exact min_le_right _ _

theorem room_nonneg {b : Option Bucket} (held : ∀ b', b = some b' → 0 ≤ b'.1) (start stop : Nat) : 0 ≤ room l start stop b := by
  have burst : (0 : ℚ) ≤ l.burst := Nat.cast_nonneg _
  cases b with
  | none => exact add_nonneg burst (l.regained_nonneg _ _)
  | some b =>
    unfold room
    dsimp only
    split
    · exact le_rfl
    · exact add_nonneg (le_min burst (add_nonneg (held b rfl) (l.regained_nonneg _ _))) (l.regained_nonneg _ _)

-- A call takes from a window's room what it is allowed there.
theorem spend_room {b : Bucket} (some : 0 ≤ b.1) {now start stop : Nat} (late : b.2 ≤ now) :
    (if start ≤ now ∧ now ≤ stop ∧ (l.spend b now).1 = true then 1 else 0)+room l start stop (Option.some (l.spend b now).2) ≤
      room l start stop (Option.some b) := by
  have at_ := (l.spend_held some now).2
  have level := l.spend_level b now
  have kept := (l.spend_held some now).1.some
  by_cases after : stop < now
  · rw [if_neg fun all => after.not_ge all.2.1,room,at_,if_pos after,zero_add]
    exact room_nonneg (fun b' is => by cases is; exact some) start stop
  · rw [room,room,at_,if_neg after,if_neg (show ¬stop < b.2 by omega)]
    generalize l.spend b now = spent at *
    rw [refilled] at level
    by_cases before_ : now < start
    · rw [if_neg fun all => before_.not_ge all.1,max_eq_left before_.le,max_eq_left (show b.2 ≤ start by omega),
        since_add late before_.le]
      have less : spent.2.1 ≤ b.1+since now b.2*l.rate := by
        have := min_le_right (l.burst : ℚ) (b.1+since now b.2*l.rate)
        split at level <;> linarith
      have grows : min (l.burst : ℚ) (spent.2.1+since start now*l.rate) ≤
          min (l.burst : ℚ) (b.1+(since start now+since now b.2)*l.rate) := min_le_min_left _ (by linarith)
      linarith
    · have inside : start ≤ now := by omega
      have one : (if start ≤ now ∧ now ≤ stop ∧ spent.1 = true then (1 : ℚ) else 0) = if spent.1 then 1 else 0 := by
        simp [inside,show now ≤ stop by omega]
      rw [one,max_eq_right inside,since_early inside,zero_mul,add_zero]
      have first := min_le_right (l.burst : ℚ) spent.2.1
      have gained : min (l.burst : ℚ) (b.1+since now b.2*l.rate)+since stop now*l.rate ≤
          min (l.burst : ℚ) (b.1+since start b.2*l.rate)+since stop (max start b.2)*l.rate := by
        rcases le_total b.2 start with early | within
        · rw [max_eq_left early,since_add early inside,since_add inside (show now ≤ stop by omega)]
          have more := min_more (a:=(l.burst : ℚ)) (b:=b.1+since start b.2*l.rate) (l.regained_nonneg now start)
          have split_ : b.1+(since now start+since start b.2)*l.rate = b.1+since start b.2*l.rate+since now start*l.rate := by ring
          rw [split_]
          linarith
        · rw [max_eq_right within,since_early within,since_add late (show now ≤ stop by omega),zero_mul,add_zero]
          have more := min_more (a:=(l.burst : ℚ)) (b:=b.1) (l.regained_nonneg now b.2)
          linarith
      linarith

-- The calls of a client are applied in order, none before its bucket's instant.
def KeptInOrder (l : Limiter) (kept : OrderedMap κ Bucket) : List (κ × Nat) → Prop
  | [] => True
  | (client,now) :: more => (∀ b, kept.get client = some b → b.2 ≤ now) ∧ KeptInOrder l (l.draw kept client now).2 more

theorem kept_inOrder {st : LimiterState κ} {kept : OrderedMap κ Bucket} {called : List κ} (alike : Alike l st kept called)
    {calls : List (κ × Nat)} (inOrder : InOrder l st called calls) : KeptInOrder l kept calls := by
  induction calls generalizing st kept called with
  | nil => trivial
  | cons call more ih =>
    obtain ⟨client,now⟩ := call
    obtain ⟨timely,later⟩ := inOrder
    refine ⟨fun b held => ?_,ih (draw_alike (sweep_alike alike now) (sweep_late timely)).2 later⟩
    cases stored : st.clients.get client with
    | none => exact (alike.gone client b stored held).1.trans (timely.2 (alike.called client b held) stored)
    | some b' =>
      have is := alike.same client b' stored
      rw [held] at is
      cases is
      exact timely.1 b stored

theorem runKept_room {kept : OrderedMap κ Bucket} (held : ∀ client b, kept.get client = some b → 0 ≤ b.1) {calls : List (κ × Nat)}
    (inOrder : KeptInOrder l kept calls) (client : κ) {start stop : Nat} (order : start ≤ stop) :
    ((allowed client start stop (l.runKept kept calls)).length : ℚ) ≤ room l start stop (kept.get client) := by
  induction calls generalizing kept with
  | nil =>
    rw [runKept,allowed,List.filter_nil,List.length_nil,Nat.cast_zero]
    exact room_nonneg (fun b is => held client b is) start stop
  | cons call more ih =>
    obtain ⟨caller,now⟩ := call
    obtain ⟨late,later⟩ := inOrder
    have start_ : 0 ≤ ((kept.get caller).getD (l.burst,now)).1 := by
      cases stored : kept.get caller with
      | none => exact Nat.cast_nonneg _
      | some b => exact held caller b stored
    have held' : ∀ other b, (l.draw kept caller now).2.get other = some b → 0 ≤ b.1 := by
      intro other b stored
      rw [draw,OrderedMap.get_set] at stored
      split at stored
      · cases stored
        exact (l.spend_held start_ now).1.some
      · exact held other b stored
    have rest := ih held' later
    rw [runKept,allowed,List.filter_cons]
    by_cases own : caller = client
    · subst own
      have fresh : room l start stop (some ((kept.get caller).getD (l.burst,now))) ≤ room l start stop (kept.get caller) := by
        cases stored : kept.get caller with
        | some b => exact le_rfl
        | none =>
          have burst : (0 : ℚ) ≤ l.burst := Nat.cast_nonneg _
          rw [Option.getD_none,room,room]
          split
          · exact add_nonneg burst (l.regained_nonneg _ _)
          · have cap := min_le_left (l.burst : ℚ) (l.burst+since start now*l.rate)
            have shorter : since stop (max start now)*l.rate ≤ since stop start*l.rate := by
              rw [since_add (show start ≤ max start now from le_max_left _ _) (show max start now ≤ stop by omega),add_mul]
              linarith [l.regained_nonneg (max start now) start]
            linarith
      have early : ((kept.get caller).getD (l.burst,now)).2 ≤ now := by
        cases stored : kept.get caller with
        | none => exact le_rfl
        | some b => exact late b stored
      have spent := @spend_room l _ start_ now start stop early
      rw [draw,OrderedMap.get_set,if_pos rfl] at rest
      have counted : (if start ≤ now ∧ now ≤ stop ∧ (l.spend ((kept.get caller).getD (l.burst,now)) now).1 = true then (1 : ℚ) else 0)+
          ((allowed caller start stop (l.runKept (l.draw kept caller now).2 more)).length : ℚ) ≤ room l start stop (kept.get caller) :=
        ((add_le_add_right rest _).trans spent).trans fresh
      refine le_trans (le_of_eq ?_) counted
      simp only [draw,true_and,decide_eq_true_eq]
      split
      · rw [List.length_cons,Nat.cast_add,Nat.cast_one,add_comm]
        rfl
      · rw [zero_add]
        rfl
    · rw [if_neg (by simp [own])]
      rw [draw,OrderedMap.get_set,if_neg own] at rest
      exact rest

-- With the calls applied in order, forgetting changes no answer, and a window allows a client
-- no more than a burst and what the rate gives back over it.
theorem budget_bounds_every_window (l : Limiter) (started : Nat) (calls : List (κ × Nat))
    (inOrder : InOrder l ⟨∅,started⟩ [] calls) :
    l.run ⟨∅,started⟩ calls = l.runKept ∅ calls ∧ ∀ (client : κ) (start length : Nat),
      ((allowed client start (start+length) (l.run ⟨∅,started⟩ calls)).length : ℚ) ≤
        l.burst+l.rate*((length : ℚ)/1000000000) := by
  have none : ∀ client, (∅ : OrderedMap κ Bucket).get client = none := fun _ => rfl
  have alike : Alike l ⟨∅,started⟩ (∅ : OrderedMap κ Bucket) [] := by
    refine ⟨fun client b held => ?_,fun client b held => ?_,fun client b held => ?_,fun client b _ held => ?_⟩
    all_goals
      rw [none] at held
      cases held
  have same := run_alike alike inOrder
  refine ⟨same,fun client start length => ?_⟩
  have bound := runKept_room (fun client b held => (alike.held client b held).some) (kept_inOrder alike inOrder) client
    (Nat.le_add_right start length)
  rw [same]
  rw [none,room,since,Nat.add_sub_cancel_left,mul_comm _ l.rate] at bound
  exact bound

def onePerSecond : Limiter := ⟨1,1,by norm_num,by norm_num⟩

theorem budget_bounds_every_window_sample :
    ((allowed () 1000000000 (1000000000+500000000) (onePerSecond.run ⟨∅,0⟩ [((),1000000000),((),1200000000)])).length : ℚ) ≤
      onePerSecond.burst+onePerSecond.rate*(((500000000 : Nat) : ℚ)/1000000000) :=
  (budget_bounds_every_window onePerSecond 0 [((),1000000000),((),1200000000)]
    ⟨⟨fun b held => (by cases held),fun _ _ => by decide⟩,
      ⟨⟨fun b held => by
        have is : b = (0,1000000000) := by
          have stored : ((onePerSecond.allowAt (⟨∅,0⟩ : LimiterState Unit) () 1000000000).2.clients.get ()) = some (0,1000000000) := by
            decide +kernel
          exact Option.some.inj (held.symm.trans stored)
        rw [is]
        decide,fun _ _ => by decide +kernel⟩,trivial⟩⟩).2 () 1000000000 500000000

-- A call that read its instant before one already applied moves the bucket back, and the
-- same second is regained twice.
theorem late_call_regains_twice :
    (allowed () 1000000000 1000000000 (onePerSecond.run ⟨∅,0⟩ [((),1000000000),((),0),((),1000000000)])).length = 2 ∧
      ¬((2 : ℚ) ≤ onePerSecond.burst+onePerSecond.rate*(((0 : Nat) : ℚ)/1000000000)) ∧
      ¬InOrder onePerSecond (⟨∅,0⟩ : LimiterState Unit) [] [((),1000000000),((),0),((),1000000000)] := by
  refine ⟨by decide +kernel,by norm_num [onePerSecond],fun inOrder => ?_⟩
  have stored : ((onePerSecond.allowAt (⟨∅,0⟩ : LimiterState Unit) () 1000000000).2.clients.get ()) = some (0,1000000000) := by
    decide +kernel
  exact absurd (inOrder.2.1.1 _ stored) (by decide)

end Limiter
end PhaseLock
