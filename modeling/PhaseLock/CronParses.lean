import PhaseLock.CronParts

namespace PhaseLock
namespace Cron
variable {ζ : Type}

-- What every total is: past 2^53 whole, and so never just below 2^63.
structure Total (d : Double) : Prop where
  nonneg : ∀ q, d = .finite q → 0 ≤ q
  whole : ∀ q, d = .finite q → 2^53 ≤ q → ∃ n : Nat, q = n
  gap : ∀ q, d = .finite q → q < 2^63 → q ≤ 2^63-1024

theorem total_round (q : ℚ) : Total (.round q) := by
  have made : ∀ v, Double.round q = .finite v → v = Double.value q := by
    intro v is
    unfold Double.round at is
    split at is
    · cases is
    · exact (Double.finite.inj is).symm
  refine ⟨fun v is => ?_,fun v is large => ?_,fun v is less => ?_⟩
  · rw [made v is]
    exact Double.value_nonneg q
  · rw [made v is] at large ⊢
    exact Double.value_whole large
  · rw [made v is] at less ⊢
    have bound := Double.value_gap (q:=q) (f:=10) (by norm_num; linarith)
    norm_num at bound ⊢
    exact bound

theorem total_zero : Total (.finite 0) := by
  refine ⟨fun q is => ?_,fun q is large => ?_,fun q is _ => ?_⟩
  all_goals cases is
  · exact le_rfl
  · norm_num at large
  · norm_num

theorem total_plus (a b : Double) : Total (a.plus b) := by
  have none : Total .infinite := ⟨nofun,nofun,nofun⟩
  cases a with
  | infinite => exact none
  | finite a => cases b with
    | infinite => exact none
    | finite b => exact total_round (a+b)

theorem seconds_total (rest : Text) {total out : Double} (held : Total total) (read : seconds rest total = some out) : Total out := by
  induction rest,total using seconds.induct with
  | case1 total =>
    rw [seconds,if_pos rfl] at read
    cases read
    exact held
  | case2 rest total some none =>
    rw [seconds,if_neg some,if_pos none] at read
    cases read
  | case3 rest total some more v u isV isU ih =>
    rw [seconds,if_neg some,if_neg more,isV,isU] at read
    exact ih (total_plus _ _) read
  | case4 rest total some more bad =>
    rw [seconds,if_neg some,if_neg more] at read
    split at read
    · rename_i v u isV isU
      exact absurd isU (bad v u isV)
    · cases read

theorem totalSeconds_total {s : Text} {total : Double} (read : totalSeconds s = some total) : Total total := by
  unfold totalSeconds at read
  split at read
  · cases read
    exact total_zero
  · split at read
    · cases read
    · exact seconds_total _ total_zero read

-- A whole number of seconds below 2^63 by enough stays there.
theorem value_small {n : Nat} (le : n ≤ 2^63-1024) : Double.value n ≤ 2^63-1024 := by
  rcases Nat.eq_zero_or_pos n with rfl | some
  · have zero : Double.value ((0 : Nat) : ℚ) = 0 := by
      have := Double.halfEven_le (q:=((0 : Nat) : ℚ)/2^Double.exponent ((0 : Nat) : ℚ)) (n:=0) (by simp)
      unfold Double.value
      rw [Nat.le_zero.mp this]
      simp
    rw [zero]
    norm_num
  · have cast : (n : ℚ) ≤ 2^63-1024 := by
      have : (n : ℚ) ≤ ((2^63-1024 : Nat) : ℚ) := by exact_mod_cast le
      norm_num at this ⊢
      exact this
    have top : ((2^53-1 : Nat) : ℚ)*2^(10 : Int) = 2^63-1024 := by norm_num
    have bound := Double.value_le (q:=(n : ℚ)) (f:=10) (k:=2^53-1) (by norm_num) (by exact_mod_cast some)
      (lt_of_le_of_lt cast (by norm_num)) (cast.trans_eq top.symm)
    exact bound.trans_eq top

theorem value_less {q : ℚ} (some : 0 ≤ q) {n : Nat} (small : n ≤ 1000) (le : q ≤ 2^n) : Double.value q ≤ 2^n := by
  rcases some.lt_or_eq with some | rfl
  · have bound := Double.value_le (q:=q) (f:=n) (k:=1) (by omega) some
      (lt_of_le_of_lt le (by rw [← zpow_natCast]; exact (zpow_lt_zpow_iff_right₀ (by norm_num)).mpr (by omega)))
      (by simpa using le)
    simpa using bound
  · have := Double.halfEven_le (q:=0/2^Double.exponent 0) (n:=0) (by simp)
    unfold Double.value
    rw [Nat.le_zero.mp this]
    simp

theorem round_small {q : ℚ} (less : Double.value q < 2^1024) : Double.round q = .finite (Double.value q) :=
  if_neg (not_le.mpr less)

-- A total below 2^63 seconds is rounded up within 64 bits.
theorem ceilSecs_below {q : ℚ} (held : Total (.finite q)) (less : q < 2^63) :
    ceilSecs (Double.halfEven (q*1000000000)) ≤ 2^63-1024 := by
  have some := held.nonneg q rfl
  have huge : (2 : ℚ)^63-1024 < 2^1024 := by
    have more : (2 : ℚ)^63 < 2^1024 := pow_lt_pow_right₀ one_lt_two (by norm_num)
    exact lt_trans (sub_lt_self _ (by norm_num)) more
  have fits : ∀ a b : ℚ, Double.value a ≤ 2^63-1024 → Double.value b ≤ 2^63-1024 → Double.value (Double.value a+Double.value b) ≤ 2^63-1024 →
      ∃ sum : ℚ, (Double.round a).plus (.round b) = .finite sum ∧ ⌈sum⌉₊ ≤ 2^63-1024 := by
    intro a b first second both
    rw [round_small (lt_of_le_of_lt first huge),round_small (lt_of_le_of_lt second huge)]
    simp only [Double.plus]
    rw [round_small (lt_of_le_of_lt both huge)]
    have up : ⌈Double.value (Double.value a+Double.value b)⌉₊ ≤ 2^63-1024 := by
      refine Nat.ceil_le.mpr ?_
      norm_num at both ⊢
      exact both
    exact ⟨_,rfl,up⟩
  suffices small : ∃ sum : ℚ, asSecs (Double.halfEven (q*1000000000)) = .finite sum ∧ ⌈sum⌉₊ ≤ 2^63-1024 by
    obtain ⟨sum,is,up⟩ := small
    rw [ceilSecs,is]
    exact (min_le_right _ _).trans (max_le (by norm_num) up)
  unfold asSecs
  by_cases large : 2^53 ≤ q
  · obtain ⟨n,rfl⟩ := held.whole q rfl large
    have top := held.gap n rfl less
    have small : n ≤ 2^63-1024 := by
      have : (n : ℚ) ≤ ((2^63-1024 : Nat) : ℚ) := by norm_num at top ⊢; exact top
      exact_mod_cast this
    have exact_ : Double.halfEven ((n : ℚ)*1000000000) = n*1000000000 :=
      le_antisymm (Double.halfEven_le (by push_cast; exact le_rfl)) (Double.le_halfEven (by push_cast; exact le_rfl))
    rw [exact_,Nat.mul_div_cancel n (by norm_num),Nat.mul_mod_left]
    have zero : Double.value (((0 : Nat) : ℚ)/1000000000) = 0 := by
      refine le_antisymm ?_ (Double.value_nonneg _)
      have := Double.halfEven_le (q:=(((0 : Nat) : ℚ)/1000000000)/2^Double.exponent (((0 : Nat) : ℚ)/1000000000)) (n:=0) (by simp)
      unfold Double.value
      rw [Nat.le_zero.mp this]
      simp
    refine fits _ _ (value_small small) (by rw [zero]; norm_num) ?_
    rw [zero,add_zero]
    obtain ⟨m,is⟩ := Double.value_whole (q:=(n : ℚ)) (by
      have low := Double.le_value (q:=(n : ℚ)) (n:=53) (by norm_num) (by exact_mod_cast large)
      exact_mod_cast low)
    have again := value_small small
    rw [is] at again ⊢
    refine value_small ?_
    have : (m : ℚ) ≤ ((2^63-1024 : Nat) : ℚ) := by norm_num at again ⊢; exact again
    exact_mod_cast this
  · have whole : Double.halfEven (q*1000000000) ≤ 2^53*1000000000 := Double.halfEven_le (by push_cast; linarith [not_le.mp large])
    generalize Double.halfEven (q*1000000000) = d at whole
    have first : Double.value ((d/1000000000 : Nat) : ℚ) ≤ 2^53 := by
      refine value_less (Nat.cast_nonneg _) (by norm_num) ?_
      have : d/1000000000 ≤ 2^53 := by omega
      exact_mod_cast this
    have second : Double.value (((d%1000000000 : Nat) : ℚ)/1000000000) ≤ 2^0 := by
      refine value_less (n:=0) (div_nonneg (Nat.cast_nonneg _) (by norm_num)) (by norm_num) ?_
      rw [pow_zero,div_le_one (by norm_num)]
      have : d%1000000000 ≤ 1000000000 := (Nat.mod_lt d (by norm_num)).le
      exact_mod_cast this
    have both := value_less (q:=Double.value ((d/1000000000 : Nat) : ℚ)+Double.value (((d%1000000000 : Nat) : ℚ)/1000000000))
      (add_nonneg (Double.value_nonneg _) (Double.value_nonneg _)) (n:=54) (by norm_num) (by norm_num at first second ⊢; linarith)
    exact fits _ _ (by norm_num at first ⊢; linarith) (by norm_num at second ⊢; linarith) (by norm_num at both ⊢; linarith)

-- One from 2^63 seconds on is not.
theorem ceilSecs_past {q : ℚ} (past : 2^63 ≤ q) : ceilSecs (Double.halfEven (q*1000000000)) = 2^63-1 := by
  have whole : 2^63*1000000000 ≤ Double.halfEven (q*1000000000) := Double.le_halfEven (by push_cast; linarith)
  generalize Double.halfEven (q*1000000000) = d at whole
  have first : (2 : ℚ)^63 ≤ Double.value ((d/1000000000 : Nat) : ℚ) := by
    have low := Double.le_value (q:=((d/1000000000 : Nat) : ℚ)) (n:=63) (by norm_num) (by
      have : 2^63 ≤ d/1000000000 := by omega
      exact_mod_cast this)
    exact_mod_cast low
  unfold ceilSecs
  generalize isSum : asSecs d = sum
  cases sum with
  | infinite => rfl
  | finite v =>
    unfold asSecs Double.round at isSum
    split at isSum
    · cases isSum
    · split at isSum
      · cases isSum
      · simp only [Double.plus,Double.round] at isSum
        split at isSum
        · cases isSum
        · have is := Double.finite.inj isSum
          have low := Double.le_value (q:=Double.value ((d/1000000000 : Nat) : ℚ)+Double.value (((d%1000000000 : Nat) : ℚ)/1000000000))
            (n:=63) (by norm_num) (by
              have := Double.value_nonneg (((d%1000000000 : Nat) : ℚ)/1000000000)
              have goal : (2 : ℚ)^63 ≤ Double.value ((d/1000000000 : Nat) : ℚ)+Double.value (((d%1000000000 : Nat) : ℚ)/1000000000) := by
                linarith
              exact_mod_cast goal)
          rw [is] at low
          have up : 2^63 ≤ ⌈v⌉₊ := by
            have cast : ((2^63 : Nat) : ℚ) ≤ (⌈v⌉₊ : ℚ) := le_trans (by exact_mod_cast low) (Nat.le_ceil v)
            exact_mod_cast cast
          dsimp only
          omega

-- An @every is taken, or refused for its text, exactly where the seconds it sums to are
-- below 2^63.
def EverySafe (d : Text) : Prop := ∀ total, totalSeconds d = some total → total.Below (2^63)

theorem schedule_every (spec d : Text) : (Form.every spec d : Form ζ).schedule = (parseDuration spec d).bind fun d =>
    (wholeMinutes d).bind fun minutes => .ok (.every minutes,if minutes*1000000000 = d then none else some ⟨d,minutes⟩) := rfl

theorem every_safe (spec d : Text) : (∀ t, (Form.every spec d : Form ζ).schedule = .error t → ∃ why, t = .refused why) ↔ EverySafe d := by
  unfold EverySafe
  cases read : totalSeconds d with
  | none =>
    have is : (Form.every spec d : Form ζ).schedule = .error (.refused (.badDuration spec d)) := by
      rw [schedule_every,parseDuration,read]
      rfl
    refine iff_of_true (fun t failed => ?_) nofun
    rw [is] at failed
    cases failed
    exact ⟨_,rfl⟩
  | some total =>
    have held := totalSeconds_total read
    have is : (Form.every spec d : Form ζ).schedule = (fromSecs total).bind fun d => (wholeMinutes d).bind fun minutes =>
        .ok (.every minutes,if minutes*1000000000 = d then none else some ⟨d,minutes⟩) := by
      rw [schedule_every,parseDuration,read]
    rw [is]
    simp only [Option.some.injEq,forall_eq']
    cases total with
    | infinite =>
      refine iff_of_false (fun all => ?_) id
      obtain ⟨why,is⟩ := all .panicked rfl
      cases is
    | finite q =>
      by_cases less : q < 2^63
      · have fits : q < 2^64 := by linarith [show (2 : ℚ)^63 < 2^64 by norm_num]
        have short := ceilSecs_below held less
        refine iff_of_true (fun t failed => ?_) less
        rw [fromSecs,if_pos fits,Except.bind,wholeMinutes,if_neg (by omega)] at failed
        cases failed
      · refine iff_of_false (fun all => ?_) less
        by_cases fits : q < 2^64
        · have full := ceilSecs_past (not_lt.mp less)
          obtain ⟨why,is⟩ := all .overflow (by
            rw [fromSecs,if_pos fits,Except.bind,wholeMinutes,full,if_pos (by norm_num)]
            rfl)
          cases is
        · obtain ⟨why,is⟩ := all .panicked (by
            rw [fromSecs,if_neg fits]
            rfl)
          cases is

-- A computation that fails only by refusing its text.
def Tame {α : Type} (x : Except Trouble α) : Prop := ∀ t, x = .error t → ∃ why, t = .refused why

theorem tame_ok {α : Type} (a : α) : Tame (.ok a) := nofun

theorem tame_refused {α : Type} (why : Refusal) : Tame (.error (.refused why) : Except Trouble α) :=
  fun _ is => ⟨why,(Except.error.inj is).symm⟩

theorem tame_bind {α β : Type} {x : Except Trouble α} {g : α → Except Trouble β} :
    Tame (x >>= g) ↔ Tame x ∧ ∀ a, x = .ok a → Tame (g a) := by
  cases x with
  | error t => exact ⟨fun all => ⟨fun t' is => all t' (congrArg Except.error (Except.error.inj is)),nofun⟩,
      fun both t' is => both.1 t' (congrArg Except.error (Except.error.inj is))⟩
  | ok a => exact ⟨fun all => ⟨nofun,fun a' is => Except.ok.inj is ▸ all⟩,fun both => both.2 a rfl⟩

theorem readValue_tame (min : Nat) (names : List Text) (v : Text) : Tame (readValue min names v) := by
  unfold readValue
  split
  · exact tame_ok _
  · split
    · exact tame_ok _
    · exact tame_refused _

theorem readPart_tame (min max : Nat) (names : List Text) (part : Text) : Tame (readPart min max names part) := by
  unfold readPart readStep readRange
  refine tame_bind.mpr ⟨?_,fun r _ => tame_bind.mpr ⟨?_,fun r' _ => ?_⟩⟩
  · split
    · split
      · exact tame_ok _
      · exact tame_refused _
    · exact tame_ok _
  · split
    · exact tame_ok _
    · split
      · exact tame_bind.mpr ⟨readValue_tame _ _ _,fun _ _ => tame_bind.mpr ⟨readValue_tame _ _ _,fun _ _ => tame_ok _⟩⟩
      · exact tame_bind.mpr ⟨readValue_tame _ _ _,fun _ _ => tame_ok _⟩
  · dsimp only
    split
    · exact tame_refused _
    · split
      · exact tame_ok _
      · exact tame_refused _

theorem readPart_within {min max : Nat} {names : List Text} {part : Text} (read : readPart min max names part = .ok p) :
    min ≤ p.lo ∧ p.lo ≤ p.hi ∧ p.hi ≤ max := by
  unfold readPart at read
  obtain ⟨r,_,read⟩ := ok_bind read
  obtain ⟨r',_,read⟩ := ok_bind read
  dsimp only at read
  split at read
  · cases read
  · split at read
    · cases read
      dsimp only
      omega
    · cases read

-- A part's last value and one step more stay within 32 bits.
def Steady (lo hi step : Nat) : Prop := lo+(hi-lo)/step*step+step < 2^32

-- Marking a part's values from one of them on adds those up to its end, or runs past the
-- counter's width.
theorem mark_spec (p : Part) (v bits : Nat) :
    (v ≤ p.hi → 2^32 ≤ v+(p.hi-v)/p.step*p.step+p.step → mark p v bits = .error .overflow) ∧
      (¬(v ≤ p.hi ∧ 2^32 ≤ v+(p.hi-v)/p.step*p.step+p.step) → ∃ out, mark p v bits = .ok out ∧
        ∀ m, out.testBit m = true ↔ bits.testBit m = true ∨ ∃ k, m = v+k*p.step ∧ m ≤ p.hi) := by
  have positive := p.positive
  induction v,bits using mark.induct p with
  | case1 v bits inside over_ =>
    rw [mark,if_pos inside,if_pos over_]
    refine ⟨fun _ _ => rfl,fun not_ => absurd ⟨inside,?_⟩ not_⟩
    have := Nat.zero_le ((p.hi-v)/p.step*p.step)
    omega
  | case2 v bits inside under ih =>
    rw [mark,if_pos inside,if_neg under]
    obtain ⟨fails,runs⟩ := ih
    -- one step on, a last value is the same one
    have same : v+p.step ≤ p.hi → v+p.step+(p.hi-(v+p.step))/p.step*p.step = v+(p.hi-v)/p.step*p.step := by
      intro more
      have count : (p.hi-v)/p.step = (p.hi-(v+p.step))/p.step+1 := by
        rw [← Nat.sub_sub]
        exact Nat.div_eq_sub_div positive (by omega)
      rw [count,Nat.add_mul]
      omega
    have last : ¬v+p.step ≤ p.hi → (p.hi-v)/p.step = 0 := fun none => Nat.div_eq_of_lt (by omega)
    constructor
    · intro _ over_
      by_cases more : v+p.step ≤ p.hi
      · exact fails more (by rw [same more]; exact over_)
      · rw [last more] at over_
        omega
    · intro fine
      obtain ⟨out,ran,bits_⟩ := runs (by
        rintro ⟨more,over_⟩
        rw [same more] at over_
        exact fine ⟨inside,over_⟩)
      refine ⟨out,ran,fun m => ?_⟩
      rw [bits_,Nat.testBit_or,Bool.or_eq_true,Nat.one_shiftLeft,Nat.testBit_two_pow,or_assoc,decide_eq_true_eq]
      refine or_congr_right ⟨?_,?_⟩
      · rintro (rfl | ⟨k,rfl,le⟩)
        · exact ⟨0,by omega,inside⟩
        · exact ⟨k+1,by rw [Nat.add_mul]; omega,le⟩
      · rintro ⟨k,rfl,le⟩
        cases k with
        | zero => exact .inl (by omega)
        | succ k => exact .inr ⟨k,by rw [Nat.add_mul]; omega,le⟩
  | case3 v bits outside =>
    rw [mark,if_neg outside]
    refine ⟨fun inside => absurd inside outside,fun _ => ⟨bits,rfl,fun m => ?_⟩⟩
    refine ⟨.inl,fun either => either.resolve_right ?_⟩
    rintro ⟨k,rfl,le⟩
    have := Nat.zero_le (k*p.step)
    omega

section Fields
variable {min max : Nat} {names : List Text}

-- What a field's parts denote.
def Denotes (min max : Nat) (names : List Text) (parts : List Text) (m : Nat) : Prop :=
  ∃ part ∈ parts, ∃ lo hi step, Means min max names part lo hi step ∧ ∃ k, m = lo+k*step ∧ m ≤ hi

def Readable (min max : Nat) (names : List Text) (parts : List Text) : Prop :=
  ∀ part ∈ parts, ∃ lo hi step, Means min max names part lo hi step

-- Every part up to the first that means nothing is steady.
def SteadyParts (min max : Nat) (names : List Text) : List Text → Prop
  | [] => True
  | part :: more => ∀ lo hi step, Means min max names part lo hi step → Steady lo hi step ∧ SteadyParts min max names more

variable (lettered : Lettered names)
include lettered

theorem parts_spec (parts : List Text) (found : Nat × Bool) :
    (SteadyParts min max names parts → Tame (parts.foldlM (addPart min max names) found)) ∧
    (¬SteadyParts min max names parts → parts.foldlM (addPart min max names) found = .error .overflow) ∧
    ((∃ out, parts.foldlM (addPart min max names) found = .ok out) → Readable min max names parts) ∧
    (SteadyParts min max names parts → Readable min max names parts →
      ∃ out, parts.foldlM (addPart min max names) found = .ok out ∧
        ∀ m, out.1.testBit m = true ↔ found.1.testBit m = true ∨ Denotes min max names parts m) := by
  induction parts generalizing found with
  | nil =>
    refine ⟨fun _ => tame_ok _,fun not_ => absurd trivial not_,fun _ => nofun,fun _ _ => ⟨found,rfl,fun m => ?_⟩⟩
    exact ⟨.inl,fun either => either.resolve_right nofun⟩
  | cons part more ih =>
    cases read : readPart min max names part with
    | error t =>
      have failed : (part :: more).foldlM (addPart min max names) found = .error t := by
        rw [List.foldlM_cons,addPart,read]
        rfl
      have nothing : ∀ lo hi step, ¬Means min max names part lo hi step := by
        intro lo hi step means
        obtain ⟨p,is,_⟩ := (readPart_means lettered).mpr means
        rw [read] at is
        cases is
      rw [failed]
      refine ⟨fun _ => ?_,fun not_ => ?_,nofun,fun _ readable => ?_⟩
      · obtain ⟨why,rfl⟩ := readPart_tame min max names part t read
        exact tame_refused why
      · exact absurd (fun lo hi step means => absurd means (nothing lo hi step)) not_
      · obtain ⟨lo,hi,step,means⟩ := readable part List.mem_cons_self
        exact absurd means (nothing lo hi step)
    | ok p =>
      obtain ⟨_,ordered,_⟩ := readPart_within read
      obtain ⟨fails,runs⟩ := mark_spec p p.lo found.1
      have means := (readPart_means lettered).mp ⟨p,read,rfl,rfl,rfl⟩
      have only : ∀ lo hi step, Means min max names part lo hi step → p.lo = lo ∧ p.hi = hi ∧ p.step = step := by
        intro lo hi step other
        obtain ⟨q,is,same⟩ := (readPart_means lettered).mpr other
        cases read.symm.trans is
        exact same
      by_cases steady : Steady p.lo p.hi p.step
      · obtain ⟨out,marked,bits⟩ := runs fun both => not_le.mpr steady both.2
        have ran : (part :: more).foldlM (addPart min max names) found =
            more.foldlM (addPart min max names) (out,if 1 < p.step then false else p.star || found.2) := by
          rw [List.foldlM_cons,addPart,read]
          show (mark p p.lo found.1 >>= fun bits => _) >>= _ = _
          rw [marked]
          rfl
        obtain ⟨tame,overflows,needs,exact_⟩ := ih (out,if 1 < p.step then false else p.star || found.2)
        rw [ran]
        refine ⟨fun all => tame (all _ _ _ means).2,fun not_ => overflows fun later => not_ fun lo hi step other => ?_,fun some => ?_,
          fun all readable => ?_⟩
        · obtain ⟨rfl,rfl,rfl⟩ := only lo hi step other
          exact ⟨steady,later⟩
        · exact List.forall_mem_cons.mpr ⟨⟨_,_,_,means⟩,needs some⟩
        · obtain ⟨out',done,bits'⟩ := exact_ (all _ _ _ means).2 fun part' member => readable part' (List.mem_cons_of_mem _ member)
          refine ⟨out',done,fun m => ?_⟩
          rw [bits',bits,or_assoc]
          refine or_congr_right ⟨?_,?_⟩
          · rintro (⟨k,is,le⟩ | ⟨part',member,denoted⟩)
            · exact ⟨part,List.mem_cons_self,_,_,_,means,k,is,le⟩
            · exact ⟨part',List.mem_cons_of_mem _ member,denoted⟩
          · rintro ⟨part',member,lo,hi,step,other,k,is,le⟩
            rcases List.mem_cons.mp member with rfl | later
            · obtain ⟨rfl,rfl,rfl⟩ := only lo hi step other
              exact .inl ⟨k,is,le⟩
            · exact .inr ⟨part',later,lo,hi,step,other,k,is,le⟩
      · have ran : (part :: more).foldlM (addPart min max names) found = .error .overflow := by
          rw [List.foldlM_cons,addPart,read]
          show (mark p p.lo found.1 >>= fun bits => _) >>= _ = _
          rw [fails ordered (not_lt.mp steady)]
          rfl
        rw [ran]
        exact ⟨fun all => absurd (all _ _ _ means).1 steady,fun _ => rfl,nofun,fun all _ => absurd (all _ _ _ means).1 steady⟩

theorem field_tame (s : Text) : Tame (field min max names s) ↔ SteadyParts min max names (s.splitOn ',') := by
  obtain ⟨tame,overflows,_,_⟩ := @parts_spec min max names lettered (s.splitOn ',') (0,false)
  refine ⟨fun all => ?_,tame⟩
  by_contra not_
  obtain ⟨why,is⟩ := all .overflow (overflows not_)
  cases is

theorem field_ok {s : Text} {out : Nat × Bool} (ran : field min max names s = .ok out) :
    Readable min max names (s.splitOn ',') ∧ ∀ m, out.1.testBit m = true ↔ Denotes min max names (s.splitOn ',') m := by
  obtain ⟨_,overflows,needs,exact_⟩ := @parts_spec min max names lettered (s.splitOn ',') (0,false)
  have readable := needs ⟨out,ran⟩
  have steady : SteadyParts min max names (s.splitOn ',') := by
    by_contra not_
    have failed := overflows not_
    rw [field] at ran
    rw [ran] at failed
    cases failed
  obtain ⟨out',ran',bits⟩ := exact_ steady readable
  cases ran.symm.trans ran'
  exact ⟨readable,fun m => by rw [bits]; simp⟩

end Fields

structure FieldText where
  min : Nat
  max : Nat
  names : List Text
  text : Text

-- Every part of every field, up to the first refused, is steady.
def SteadyFields : List FieldText → Prop
  | [] => True
  | f :: more => SteadyParts f.min f.max f.names (f.text.splitOn ',') ∧
    (Readable f.min f.max f.names (f.text.splitOn ',') → SteadyFields more)

theorem bind_field {α : Type} {f : FieldText} (lettered : Lettered f.names) {g : Nat × Bool → Except Trouble α} {more : List FieldText}
    (rest : ∀ out, Tame (g out) ↔ SteadyFields more) :
    Tame (field f.min f.max f.names f.text >>= g) ↔ SteadyFields (f :: more) := by
  rw [tame_bind,field_tame lettered,SteadyFields]
  refine and_congr_right fun steady => ⟨fun all readable => ?_,fun all out ran => (rest out).mpr (all (field_ok lettered ran).1)⟩
  obtain ⟨out,ran,_⟩ := (@parts_spec f.min f.max f.names lettered (f.text.splitOn ',') (0,false)).2.2.2 steady readable
  exact (rest out).mp (all out ran)

-- The five fields of a spec, each with its bounds and names.
def fiveFields (minute hour dom month dow : Text) : List FieldText :=
  [⟨0,59,[],minute⟩,⟨0,23,[],hour⟩,⟨1,31,[],dom⟩,⟨1,12,months,month⟩,⟨0,7,days,dow⟩]

theorem fields_tame (minute hour dom month dow : Text) (tz : ζ) :
    Tame (Form.fields minute hour dom month dow tz).schedule ↔ SteadyFields (fiveFields minute hour dom month dow) := by
  refine bind_field (f:=⟨0,59,[],minute⟩) lettered_none fun m => bind_field (f:=⟨0,23,[],hour⟩) lettered_none fun h =>
    bind_field (f:=⟨1,31,[],dom⟩) lettered_none fun d => bind_field (f:=⟨1,12,months,month⟩) lettered_months fun mo =>
    bind_field (f:=⟨0,7,days,dow⟩) lettered_days fun w => ?_
  exact iff_of_true (tame_ok _) (show SteadyFields [] from trivial)

-- Each field's bits are what its parts denote, Sunday both 0 and 7.
structure Exact (s : Spec ζ) (minute hour dom month dow : Text) : Prop where
  minute : ∀ m, s.minute.testBit m = true ↔ Denotes 0 59 [] (minute.splitOn ',') m
  hour : ∀ m, s.hour.testBit m = true ↔ Denotes 0 23 [] (hour.splitOn ',') m
  dom : ∀ m, s.dom.testBit m = true ↔ Denotes 1 31 [] (dom.splitOn ',') m
  month : ∀ m, s.month.testBit m = true ↔ Denotes 1 12 months (month.splitOn ',') m
  dow : ∀ m, s.dow.testBit m = true ↔ Denotes 0 7 days (dow.splitOn ',') m ∨ m = 0 ∧ Denotes 0 7 days (dow.splitOn ',') 7

theorem fields_exact {minute hour dom month dow : Text} {tz : ζ} {s : Spec ζ}
    (ran : (Form.fields minute hour dom month dow tz).schedule = .ok (.spec s,notice)) : Exact s minute hour dom month dow := by
  obtain ⟨m,ranM,ran⟩ := ok_bind ran
  obtain ⟨h,ranH,ran⟩ := ok_bind ran
  obtain ⟨d,ranD,ran⟩ := ok_bind ran
  obtain ⟨mo,ranMo,ran⟩ := ok_bind ran
  obtain ⟨w,ranW,ran⟩ := ok_bind ran
  cases ran
  have week := (field_ok lettered_days ranW).2
  refine ⟨(field_ok lettered_none ranM).2,(field_ok lettered_none ranH).2,(field_ok lettered_none ranD).2,(field_ok lettered_months ranMo).2,
    fun x => ?_⟩
  dsimp only
  rw [← week x,← week 7]
  by_cases sunday : w.1.testBit 7 = true
  · have one : (1 : Nat).testBit x = true ↔ x = 0 := by
      rw [← pow_zero 2,Nat.testBit_two_pow,decide_eq_true_eq,eq_comm]
    rw [if_pos sunday,Nat.testBit_or,Bool.or_eq_true,one]
    simp [sunday]
  · rw [if_neg sunday]
    simp [sunday]

theorem readZone_tame (zone : Text → Option ζ) (lead s : Text) (tz : ζ) : Tame (readZone zone lead s tz) := by
  unfold readZone
  split
  · exact tame_ok _
  · split
    · exact tame_refused _
    · split
      · exact tame_refused _
      · exact tame_ok _

theorem fieldTexts_tame (s : Text) : Tame (fieldTexts s) := by
  unfold fieldTexts
  repeat' split
  all_goals first | exact tame_ok _ | exact tame_refused _

theorem form_tame (zone : Text → Option ζ) (utc : ζ) (spec : Text) : Tame (form zone utc spec) := by
  refine tame_bind.mpr ⟨readZone_tame _ _ _ _,fun a _ => tame_bind.mpr ⟨readZone_tame _ _ _ _,fun b _ => ?_⟩⟩
  dsimp only
  split
  · exact tame_ok _
  · refine tame_bind.mpr ⟨fieldTexts_tame _,fun fields _ => ?_⟩
    split
    · exact tame_ok _
    · exact tame_refused _

-- The parser answers with a schedule or a refusal, and five fields are taken as their parts
-- denote.
def Promise (zone : Text → Option ζ) (utc : ζ) (spec : Text) : Prop :=
  Tame (parse zone utc spec) ∧ ∀ s notice, parse zone utc spec = .ok (.spec s,notice) →
    ∃ minute hour dom month dow tz, form zone utc spec = .ok (.fields minute hour dom month dow tz) ∧
      Exact s minute hour dom month dow

def Form.Safe : Form ζ → Prop
  | .every _ d => EverySafe d
  | .fields minute hour dom month dow _ => SteadyFields (fiveFields minute hour dom month dow)

theorem exact_fields {zone : Text → Option ζ} {utc : ζ} {spec : Text} {s : Spec ζ} (ran : parse zone utc spec = .ok (.spec s,notice)) :
    ∃ minute hour dom month dow tz, form zone utc spec = .ok (.fields minute hour dom month dow tz) ∧
      Exact s minute hour dom month dow := by
  obtain ⟨f,formed,ran⟩ := ok_bind ran
  cases f with
  | every spec d =>
    obtain ⟨d,_,ran⟩ := ok_bind ran
    obtain ⟨minutes,_,ran⟩ := ok_bind ran
    cases ran
  | fields minute hour dom month dow tz => exact ⟨minute,hour,dom,month,dow,tz,formed,fields_exact ran⟩

-- It does so exactly where an @every is of less than 2^63 seconds, and no part of a field up
-- to the first refused steps past 32 bits.
theorem parse_total_and_exact (zone : Text → Option ζ) (utc : ζ) (spec : Text) :
    Promise zone utc spec ↔ ∀ f, form zone utc spec = .ok f → f.Safe := by
  have shape : Tame (parse zone utc spec) ↔ ∀ f, form zone utc spec = .ok f → f.Safe := by
    have both : Tame (parse zone utc spec) ↔ Tame (form zone utc spec) ∧ ∀ f, form zone utc spec = .ok f → Tame f.schedule := tame_bind
    rw [both,and_iff_right (form_tame zone utc spec)]
    refine forall₂_congr fun f _ => ?_
    cases f with
    | every spec d => exact every_safe spec d
    | fields minute hour dom month dow tz => exact fields_tame minute hour dom month dow tz
  exact ⟨fun all => shape.mp all.1,fun safe => ⟨shape.mpr safe,fun _ _ ran => exact_fields ran⟩⟩

-- A step of 2^32 - 1 from 1 runs past the counter.
theorem long_step_overflows : parse (fun _ => none) () "1/4294967295 * * * *".toList = .error .overflow ∧
    ¬Promise (fun _ => none) () "1/4294967295 * * * *".toList := by
  have shape : form (fun _ => none) () "1/4294967295 * * * *".toList =
      .ok (.fields "1/4294967295".toList ['*'] ['*'] ['*'] ['*'] ()) := by decide +kernel
  have part : readPart 0 59 [] "1/4294967295".toList = .ok ⟨1,59,4294967295,false,by norm_num⟩ := by decide +kernel
  have parts : ("1/4294967295".toList : Text).splitOn ',' = ["1/4294967295".toList] := by decide +kernel
  have minute : field 0 59 [] "1/4294967295".toList = .error .overflow := by
    refine (parts_spec lettered_none _ _).2.1 fun steady => ?_
    rw [parts] at steady
    exact absurd (steady _ _ _ ((readPart_means lettered_none).mp ⟨_,part,rfl,rfl,rfl⟩)).1 (by unfold Steady; norm_num)
  have failed : parse (fun _ => none) () "1/4294967295 * * * *".toList = .error .overflow := by
    rw [parse,shape]
    show field 0 59 [] "1/4294967295".toList >>= _ = _
    rw [minute]
    rfl
  refine ⟨failed,fun promise => ?_⟩
  obtain ⟨why,is⟩ := promise.1 .overflow failed
  cases is

end Cron
end PhaseLock
