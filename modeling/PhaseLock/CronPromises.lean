import PhaseLock.SchedulerRuns

namespace PhaseLock
namespace Cron

variable {ζ : Type}

-- The slots of a search, counted from a mark.
inductive Counts (next : Int → Search) (mark : Int) : Int → Prop where
  | one {x : Int} : next mark = .slot x → Counts next mark x
  | more {t x : Int} : Counts next mark t → next t = .slot x → Counts next mark x

theorem counts_after {next : Int → Search} {mark t x : Int} (first : next mark = .slot t) (rest : Counts next t x) :
    Counts next mark x := by
  induction rest with
  | one asked => exact .more (.one first) asked
  | more _ asked ih => exact .more ih asked

theorem counts_trans {next : Int → Search} {mark t x : Int} (left : Counts next mark t) (right : Counts next t x) :
    Counts next mark x := by
  induction right with
  | one asked => exact .more left asked
  | more _ asked ih => exact .more ih asked

theorem word_slot {x : Int} (low : -2^63 ≤ x) (high : x < 2^63) : word x = .slot x := if_pos ⟨low,high⟩

theorem every_latest {d : Nat} {mark now slot : Int} (is : (Schedule.every d : Schedule ζ).latest mark now = .slot slot) :
    0 < (now-mark)/d ∧ slot = mark+(now-mark)/d*d ∧ slot ≤ now := by
  unfold Schedule.latest at is
  unfold word at is
  dsimp only at is
  by_cases fits : -2^63 ≤ now-mark ∧ now-mark < 2^63
  · rw [if_pos fits] at is
    dsimp only at is
    split at is
    · rename_i some
      cases is
      refine ⟨some,rfl,?_⟩
      have step : (d : Int) ≠ 0 := by
        intro zero
        rw [zero,Int.ediv_zero] at some
        exact lt_irrefl _ some
      have := Int.ediv_mul_le (now-mark) step
      omega
    · cases is
  · rw [if_neg fits] at is
    cases is

theorem dueAfter_now {next : Int → Search} {now mark slot : Int} (due : DueAfter next now mark slot) : slot ≤ now := by
  induction due with
  | last _ low _ => exact low
  | more _ _ _ ih => exact ih

theorem dueAfter_counts {next : Int → Search} {now mark slot : Int} (due : DueAfter next now mark slot) : Counts next mark slot := by
  induction due with
  | last asked _ _ => exact .one asked
  | more asked _ _ ih => exact counts_after asked ih

theorem u64_slot {x : Int} (low : 0 ≤ x) (high : x < 2^63) : (u64 x : Int) = x ∧ u64 x < 2^63 := by
  unfold u64
  omega

theorem i64_mark {n : Nat} (small : n < 2^63) : i64 n = n := if_pos small

-- The slots of an entry's runs.
def slotsOf (key : SeriesKey) (runs : List (Run ζ)) : List Int := (runs.filter (·.entry.key = key)).map Run.slot

-- No cron entry's mark is before 1970.
def Small (st : Storage) : Prop := ∀ install entry n, st.seriesHwm (.cron install entry) = some n → n < 2^63

def Covered (st : Storage) (runs : List (Run ζ)) : Prop :=
  ∀ r ∈ runs, ∃ n, st.seriesHwm r.entry.key = some n ∧ r.slot ≤ n

theorem covered_raised {a b : Storage} {runs : List (Run ζ)} (raised : a.Raised b) (covered : Covered a runs) : Covered b runs := by
  intro r member
  obtain ⟨n,held,le⟩ := covered r member
  obtain ⟨later,here,more⟩ := raised _ _ held
  exact ⟨later,here,by omega⟩

theorem slotsOf_append (key : SeriesKey) (a b : List (Run ζ)) : slotsOf key (a++b) = slotsOf key a++slotsOf key b := by
  unfold slotsOf
  rw [List.filter_append,List.map_append]

theorem ordered_sublist {key : SeriesKey} {a b : List (Run ζ)} (ordered : (slotsOf key (a++b)).Pairwise (· < ·)) :
    (slotsOf key a).Pairwise (· < ·) := by
  rw [slotsOf_append] at ordered
  exact (List.pairwise_append.mp ordered).1

-- One more run, past the entry's mark, keeps the order.
theorem ordered_run {st : Storage} {runs : List (Run ζ)} (covered : Covered st runs) (small : Small st)
    (ordered : ∀ key, (slotsOf key runs).Pairwise (· < ·)) {r : Run ζ}
    (past : ∀ mark, st.seriesHwm r.entry.key = some mark → i64 mark < r.slot) (key : SeriesKey) :
    (slotsOf key (runs++[r])).Pairwise (· < ·) := by
  rw [slotsOf_append,List.pairwise_append]
  refine ⟨ordered key,?_,fun x inside y single => ?_⟩
  · unfold slotsOf
    rw [List.filter_cons]
    split <;> simp
  · obtain ⟨q,member,rfl⟩ := List.mem_map.mp inside
    obtain ⟨member,own⟩ := List.mem_filter.mp member
    obtain ⟨r',only,rfl⟩ := List.mem_map.mp single
    obtain ⟨only,own'⟩ := List.mem_filter.mp only
    rw [List.mem_singleton.mp only] at own' ⊢
    obtain ⟨n,held,le⟩ := covered q member
    rw [of_decide_eq_true own,← of_decide_eq_true own'] at held
    have := past n held
    rw [i64_mark (small _ _ _ held)] at this
    omega

namespace Scheduler

-- Where a step goes: the disk's marks only rise, and what runs is past them.
structure Goes (s later : Scheduler ζ) : Prop where
  raised : s.db.disk.Raised later.db.disk
  more : s.all <+: later.all
  past : ∀ r ∈ later.all.drop s.all.length, ∀ mark, s.db.disk.seriesHwm r.entry.key = some mark → i64 mark < r.slot

theorem Goes.refl (s : Scheduler ζ) : s.Goes s := ⟨.refl _,List.prefix_refl _,fun r member => by simp at member⟩

theorem Goes.trans {a b c : Scheduler ζ} (small : Small a.db.disk) (small' : Small b.db.disk) (left : a.Goes b) (right : b.Goes c) : a.Goes c := by
  refine ⟨left.raised.trans right.raised,left.more.trans right.more,fun r member mark held => ?_⟩
  obtain ⟨further,isB⟩ := left.more
  obtain ⟨last,isC⟩ := right.more
  rw [← isC,← isB,List.append_assoc,List.drop_left] at member
  rcases List.mem_append.mp member with middle | final
  · refine left.past r ?_ mark held
    rw [← isB,List.drop_left]
    exact middle
  · obtain ⟨later,held',le⟩ := left.raised _ _ held
    have := right.past r (by rw [← isC,List.drop_left]; exact final) later held'
    rw [i64_mark (small _ _ _ held)]
    rw [i64_mark (small' _ _ _ held')] at this
    omega

theorem goes_same {s later : Scheduler ζ} (disk : later.db.disk = s.db.disk) (all : later.all = s.all) : s.Goes later := by
  refine ⟨?_,?_,fun r member => ?_⟩
  · rw [disk]
    exact .refl _
  · rw [all]
  · rw [all] at member
    simp at member

end Scheduler

variable [DecidableEq ζ] {z : Zones ζ}

theorem nextOf_epoch {s : Spec ζ} {t x : Int} (late : 0 ≤ t) (asked : z.nextOf (.spec s) t = .slot x) : 0 ≤ x := by
  unfold Zones.nextOf at asked
  dsimp only at asked
  split at asked
  · exact late.trans (next_above asked).le
  · exact z.epoch late asked

theorem due_now {sched : Schedule ζ} {mark now slot : Int} (due : z.Due sched mark now slot) : slot ≤ now := by
  cases sched with
  | every d => exact (every_latest due).2.2
  | spec s => exact dueAfter_now due

theorem due_epoch {sched : Schedule ζ} {mark now slot : Int} (late : 0 ≤ mark) (due : z.Due sched mark now slot) : 0 ≤ slot := by
  cases sched with
  | every d =>
    obtain ⟨some,rfl,_⟩ := every_latest due
    have := Int.mul_nonneg some.le (Int.natCast_nonneg d)
    omega
  | spec s =>
    replace due : DueAfter (z.nextOf (.spec s)) now mark slot := due
    induction due with
    | last asked _ _ => exact nextOf_epoch late asked
    | more asked _ _ ih => exact ih (nextOf_epoch late asked)

theorem due_counts {sched : Schedule ζ} {mark now slot : Int} (late : 0 ≤ mark) (small : now < 2^63)
    (due : z.Due sched mark now slot) : Counts (z.nextOf sched) mark slot := by
  cases sched with
  | every d =>
    obtain ⟨some,is,low⟩ := every_latest due
    obtain ⟨k,whole⟩ : ∃ k : Nat, (now-mark)/d = (k+1 : Nat) := ⟨((now-mark)/d).toNat-1,by omega⟩
    have asked : ∀ j : Nat, j ≤ k → z.nextOf (.every d) (mark+(j : Nat)*d) = .slot (mark+(j+1 : Nat)*d) := by
      intro j within
      have below : mark+(j : Nat)*(d : Int)+d ≤ now := by
        have : j*d+d ≤ (k+1)*d := by
          rw [← Nat.succ_mul]
          exact Nat.mul_le_mul_right d (by omega)
        have : (j : Int)*d+d ≤ ((k+1 : Nat) : Int)*d := by exact_mod_cast this
        rw [whole] at is
        omega
      have above : 0 ≤ ((j : Nat) : Int)*d := by exact_mod_cast Nat.zero_le _
      rw [show mark+((j+1 : Nat) : Int)*d = mark+(j : Nat)*(d : Int)+d by push_cast; ring]
      exact word_slot (by omega) (by omega)
    have each : ∀ j : Nat, j ≤ k → Counts (z.nextOf (.every d)) mark (mark+(j+1 : Nat)*d) := by
      intro j within
      induction j with
      | zero =>
        refine .one ?_
        simpa using asked 0 within
      | succ j ih => exact .more (ih (by omega)) (asked (j+1) within)
    rw [is,whole]
    exact each k le_rfl
  | spec s => exact dueAfter_counts due

-- What is so of a hook's run: its slot is one of its schedule from the mark the entry was
-- armed with, at or below the clock, and past the stored mark, which it becomes.
structure Run.Fair (z : Zones ζ) (r : Run ζ) : Prop where
  counted : Counts (z.nextOf r.entry.sched) r.armed r.slot
  clock : r.slot ≤ (r.clock/1000 : Nat)
  past : ∀ mark, r.before.seriesHwm r.entry.key = some mark → i64 mark < r.slot
  marked : r.after.seriesHwm r.entry.key = some (u64 r.slot)
  failed : r.failed = true → r.after.kv = r.before.kv ∧ r.after.log = r.before.log ∧ r.after.slices = r.before.slices

namespace Scheduler

-- The marks in memory: each is its entry's armed mark or a slot counted from it.
def Live (z : Zones ζ) (s : Scheduler ζ) : Prop := ∀ (i : Nat) e, s.entries[i]? = some e → ∃ mark armed,
  s.marks[i]? = some mark ∧ s.armed[i]? = some armed ∧ 0 ≤ armed ∧ 0 ≤ mark ∧ (mark = armed ∨ Counts (z.nextOf e.sched) armed mark)

def Fits (z : Zones ζ) (s : Scheduler ζ) : Prop := match s.phase with
  | .off => True
  | .arming marks => ∀ (i : Nat) e, s.entries[i]? = some e → ∃ n, marks[i]? = some n ∧ n < 2^63
  | .asleep => s.Live z
  | .firing clock _ => s.Live z ∧ clock < 2^63
  | .ticking clock i slot _ => s.Live z ∧ clock < 2^63 ∧ ∃ e armed, s.entries[i]? = some e ∧ s.armed[i]? = some armed ∧
    Counts (z.nextOf e.sched) armed slot ∧ 0 ≤ slot ∧ slot ≤ (clock/1000 : Nat)

structure Inv (z : Zones ζ) (s : Scheduler ζ) : Prop where
  sound : s.db.Sound
  disk : Small s.db.disk
  open_ : Small s.db.writer.store
  fits : s.Fits z
  fair : ∀ r ∈ s.all, r.Fair z
  ordered : ∀ key, (slotsOf key (s.kept++s.opened)).Pairwise (· < ·)
  kept : Covered s.db.disk s.kept
  opened : Covered s.db.writer.store (s.kept++s.opened)

end Scheduler

namespace Scheduler
variable {s : Scheduler ζ}

-- A request the writer handles, which leaves no mark before 1970.
theorem Inv.request (inv : s.Inv z) {servertime : Int} {req : Writer.Req} {after : Writer}
    (ran : s.db.writer.handle servertime req = .ok after) (small : Small after.store) :
    Inv z {s with db:=s.db.next (.request servertime req)} ∧ s.db.next (.request servertime req) = {s.db with writer:=after} := by
  obtain ⟨after',ran',leads⟩ := handle_ok inv.sound.writer.sound servertime req
  cases ran.symm.trans ran'
  have is : s.db.next (.request servertime req) = {s.db with writer:=after} := by simp only [Db.next,ran]
  have sound := (Db.step_sound inv.sound (.request servertime req)).1
  refine ⟨⟨sound,?_,?_,inv.fits,inv.fair,inv.ordered,?_,?_⟩,is⟩
  · rw [is]
    exact inv.disk
  · rw [is]
    exact small
  · rw [is]
    exact inv.kept
  · rw [is]
    exact covered_raised leads.raised inv.opened

theorem small_cron {a b : Storage} (small : Small a)
    (same : ∀ install entry, b.seriesHwm (.cron install entry) = a.seriesHwm (.cron install entry)) : Small b :=
  fun install entry n held => small install entry n (by rwa [← same])

theorem submit_step (inv : s.Inv z) (servertime : Int) (call : Writer.Call) : Inv z (s.next (.submit servertime call)) ∧
    s.Goes (s.next (.submit servertime call)) := by
  obtain ⟨after,ran,_⟩ := handle_ok inv.sound.writer.sound servertime (.submit call)
  obtain ⟨inv',is⟩ := inv.request ran (small_cron inv.open_ (submit_cron inv.sound.writer.sound servertime call ran))
  exact ⟨inv',goes_same (by simp only [next,is]) rfl⟩

theorem minute_small {clock : Nat} (small : clock < 2^63) : u64 (minuteOf clock) < 2^63 := by
  refine (u64_slot ?_ ?_).2 <;> unfold minuteOf <;> omega

theorem arm_step (inv : s.Inv z) (servertime : Int) (clock : Nat) (small : clock < 2^63) :
    Inv z (s.arm servertime clock) ∧ s.Goes (s.arm servertime clock) := by
  obtain ⟨after,marks,ran,answered,armed⟩ := arm_ok s.db.writer servertime (s.entries.map fun e => (e.install,e.name)) (u64 (minuteOf clock))
  have small' : Small after.store := fun install entry n held =>
    (armed.new _ _ held).elim (inv.open_ install entry n) fun is => is ▸ minute_small small
  obtain ⟨inv',is⟩ := inv.request ran small'
  refine ⟨⟨inv'.sound,inv'.disk,inv'.open_,?_,inv'.fair,inv'.ordered,inv'.kept,inv'.opened⟩,goes_same (by simp only [arm,is]) rfl⟩
  show ∀ (i : Nat) e, s.entries[i]? = some e → ∃ n, (((s.db.next _).writer.after.getLast?.map Reply.marks).getD [])[i]? = some n ∧ n < 2^63
  intro i e at_
  rw [is]
  dsimp only
  rw [answered]
  obtain ⟨n,marked,held⟩ := armed.each i e.key (by rw [List.map_map,List.getElem?_map,at_]; rfl)
  exact ⟨n,marked,small' _ _ _ held⟩

theorem turn_fits {clock i : Nat} (live : s.Live z) (small : clock < 2^63) : Fits z {s with phase:=s.turn clock i} := by
  unfold Fits turn
  split
  · rename_i off
    split at off <;> cases off
  · rename_i off
    split at off <;> cases off
  · exact live
  · rename_i is
    split at is
    · cases is
      exact ⟨live,small⟩
    · cases is
  · rename_i off
    split at off <;> cases off

theorem wake_step (inv : s.Inv z) (clock : Nat) (allowed : s.allowed z (.wake clock)) :
    Inv z (s.next (.wake clock)) ∧ s.Goes (s.next (.wake clock)) := by
  obtain ⟨asleep,small⟩ := allowed
  have live : s.Live z := by
    have fits := inv.fits
    unfold Fits at fits
    split at asleep
    · rename_i is
      rw [is] at fits
      exact fits
    · exact asleep.elim
  exact ⟨⟨inv.sound,inv.disk,inv.open_,turn_fits live small,inv.fair,inv.ordered,inv.kept,inv.opened⟩,goes_same rfl rfl⟩

theorem live_set {i : Nat} {slot : Int} {e : Entry ζ} {mark armed : Int} (live : s.Live z) (at_ : s.entries[i]? = some e)
    (held : s.marks[i]? = some mark) (origin : s.armed[i]? = some armed) (late : 0 ≤ armed) (late' : 0 ≤ slot)
    (counted : Counts (z.nextOf e.sched) armed slot) (phase : Phase) :
    Live z {s with
      marks:=s.marks.set i slot
      phase} := by
  intro j other member
  by_cases same : j = i
  · subst same
    cases at_.symm.trans member
    have inside : j < s.marks.length := (List.getElem?_eq_some_iff.mp held).1
    exact ⟨slot,armed,List.getElem?_set_self inside,origin,late,late',.inr counted⟩
  · obtain ⟨mark',armed',held',rest⟩ := live j other member
    exact ⟨mark',armed',by rw [List.getElem?_set_ne (Ne.symm same)]; exact held',rest⟩

theorem fire_step (inv : s.Inv z) (slot : Option Int) (allowed : s.allowed z (.fire slot)) :
    Inv z (s.fire slot) ∧ s.Goes (s.fire slot) := by
  have fits := inv.fits
  unfold Scheduler.allowed at allowed
  dsimp only at allowed
  split at allowed
  · rename_i clock i phase
    unfold Fits at fits
    rw [phase] at fits
    obtain ⟨live,small⟩ := fits
    obtain ⟨e,mark,at_,held,due⟩ := allowed
    cases slot with
    | none =>
      have is : s.fire none = {s with phase:=s.turn clock (i+1)} := by
        unfold fire
        rw [phase]
      rw [is]
      exact ⟨⟨inv.sound,inv.disk,inv.open_,turn_fits live small,inv.fair,inv.ordered,inv.kept,inv.opened⟩,goes_same rfl rfl⟩
    | some slot =>
      have is : s.fire (some slot) = {s with
          marks:=s.marks.set i slot
          phase:=.ticking clock i slot false} := by
        unfold fire
        rw [phase]
      obtain ⟨mark',armed,held',origin,late,late',from_⟩ := live i e at_
      cases held.symm.trans held'
      replace due : z.Due e.sched mark (clock/1000 : Nat) slot := due
      have slotLate := due_epoch late' due
      have counted : Counts (z.nextOf e.sched) armed slot := by
        have last := due_counts late' (by omega) due
        rcases from_ with rfl | before_
        · exact last
        · exact counts_trans before_ last
      rw [is]
      refine ⟨⟨inv.sound,inv.disk,inv.open_,?_,inv.fair,inv.ordered,inv.kept,inv.opened⟩,goes_same rfl rfl⟩
      exact ⟨live_set live at_ held origin late slotLate counted _,small,e,armed,at_,origin,counted,slotLate,due_now due⟩
  · exact allowed.elim

-- A tick that runs its entry's hook runs it fairly, and past every mark there is.
theorem tick_step (inv : s.Inv z) (servertime : Int) (id : Nat) (ops : List Write) (ran : Ran)
    (allowed : s.allowed z (.tick servertime id ops ran)) :
    Inv z (s.tick servertime id ops ran) ∧ s.Goes (s.tick servertime id ops ran) := by
  have fits := inv.fits
  unfold Scheduler.allowed at allowed
  dsimp only at allowed
  split at allowed
  · rename_i clock i slot handled phase
    subst allowed
    unfold Fits at fits
    rw [phase] at fits
    obtain ⟨live,small,e,armed,at_,origin,counted,late,low⟩ := fits
    obtain ⟨after,done,ticked⟩ := tick_ok inv.sound.writer.sound servertime e.install e.name (u64 slot) id ops ran
    obtain ⟨same,fitsWord⟩ := u64_slot late (by omega)
    let db := s.db.next (.request servertime (.tick e.install e.name (u64 slot) id ops ran))
    let runs : List (Run ζ) := if s.db.writer.decidedBefore (some (e.key,u64 slot)) then []
      else [⟨e,slot,clock,armed,ran ≠ .carried,s.db.writer.store,db.writer.store⟩]
    have is : s.tick servertime id ops ran = {s with
        db
        phase:=.ticking clock i slot true
        opened:=s.opened++runs
        all:=s.all++runs} := by
      unfold tick
      rw [phase]
      simp only [at_,origin]
      rfl
    have marks : ∀ key, after.store.seriesHwm key = s.db.writer.store.seriesHwm key ∨ key = e.key ∧ after.store.seriesHwm key = some (u64 slot) := by
      intro key
      by_cases own : key = e.key
      · cases decided : s.db.writer.decidedBefore (some (e.key,u64 slot)) with
        | true =>
          rw [ticked.deduped decided]
          exact .inl rfl
        | false =>
          refine .inr ⟨own,?_⟩
          rw [own]
          exact ticked.marked decided
      · exact .inl (ticked.others key own)
    have small' : Small after.store := by
      intro install entry n held
      rcases marks (.cron install entry) with old | ⟨_,new⟩
      · rw [old] at held
        exact inv.open_ install entry n held
      · rw [held] at new
        cases new
        exact fitsWord
    obtain ⟨inv',isDb⟩ := inv.request done small'
    have fits' : Fits z {s with
        db
        phase:=.ticking clock i slot true
        opened:=s.opened++runs
        all:=s.all++runs} := ⟨live,small,e,armed,at_,origin,counted,late,low⟩
    rw [is]
    cases decided : s.db.writer.decidedBefore (some (e.key,u64 slot)) with
    | true =>
      have none_ : runs = [] := if_pos decided
      rw [none_,List.append_nil,List.append_nil] at fits' ⊢
      exact ⟨⟨inv'.sound,inv'.disk,inv'.open_,fits',inv'.fair,inv'.ordered,inv'.kept,inv'.opened⟩,
        goes_same (by simp only [db,isDb]) rfl⟩
    | false =>
      let r : Run ζ := ⟨e,slot,clock,armed,ran ≠ .carried,s.db.writer.store,db.writer.store⟩
      have one : runs = [r] := if_neg (by rw [decided]; exact Bool.false_ne_true)
      have stored : db.writer.store = after.store := by simp only [db,isDb]
      have past : ∀ mark, s.db.writer.store.seriesHwm e.key = some mark → i64 mark < slot := by
        intro mark held
        have := not_decided decided held
        rw [i64_mark (inv.open_ _ _ _ held)]
        omega
      have fair : r.Fair z := by
        refine ⟨counted,low,past,?_,fun failed => ?_⟩
        · show db.writer.store.seriesHwm e.key = _
          rw [stored]
          exact ticked.marked decided
        · show db.writer.store.kv = _ ∧ db.writer.store.log = _ ∧ db.writer.store.slices = _
          rw [stored]
          exact ticked.failed (of_decide_eq_true failed)
      rw [one] at fits' ⊢
      refine ⟨⟨inv'.sound,inv'.disk,inv'.open_,fits',?_,?_,inv'.kept,?_⟩,?_,List.prefix_append _ _,?_⟩
      · intro q member
        rcases List.mem_append.mp member with old | new
        · exact inv.fair q old
        · rw [List.mem_singleton.mp new]
          exact fair
      · intro key
        rw [← List.append_assoc]
        exact ordered_run inv.opened inv.open_ inv.ordered past key
      · intro q member
        rw [← List.append_assoc] at member
        rcases List.mem_append.mp member with old | new
        · exact inv'.opened q old
        · rw [List.mem_singleton.mp new]
          exact ⟨u64 slot,fair.marked,same.ge⟩
      · show s.db.disk.Raised db.disk
        simp only [db,isDb]
        exact .refl _
      · intro q member mark held
        rw [List.drop_left,List.mem_singleton] at member
        rw [member] at held ⊢
        obtain ⟨later,here,le⟩ := inv.sound.writer.raised _ _ held
        have := past later here
        rw [i64_mark (inv.open_ _ _ _ here)] at this
        rw [i64_mark (inv.disk _ _ _ held)]
        show (mark : Int) < slot
        omega
  · exact allowed.elim

theorem commit_step (inv : s.Inv z) : Inv z s.commit ∧ s.Goes s.commit := by
  have sound := (Db.step_sound inv.sound .commit).1
  have fits := inv.fits
  unfold Fits at fits
  let middle : Scheduler ζ := {s with
    db:=s.db.next .commit
    kept:=s.kept++s.opened
    opened:=[]}
  have goes : ∀ later : Scheduler ζ, later.db = middle.db → later.all = s.all → s.Goes later := by
    intro later db all
    refine ⟨?_,?_,fun r member => ?_⟩
    · rw [db]
      exact inv.sound.writer.raised
    · rw [all]
    · rw [all] at member
      simp at member
  have holds : ∀ later : Scheduler ζ, later.db = middle.db → later.kept = middle.kept → later.opened = [] → later.all = s.all →
      later.Fits z → later.Inv z := by
    intro later db kept opened all fits
    refine ⟨?_,?_,?_,fits,?_,?_,?_,?_⟩
    · rw [db]
      exact sound
    · rw [db]
      exact inv.open_
    · rw [db]
      exact inv.open_
    · rw [all]
      exact inv.fair
    · rw [kept,opened,List.append_nil]
      exact inv.ordered
    · rw [kept,db]
      exact inv.opened
    · rw [kept,opened,db,List.append_nil]
      exact inv.opened
  cases phase : s.phase with
  | off =>
    have is : s.commit = middle := by simp only [commit,middle,phase]
    rw [is]
    exact ⟨holds middle rfl rfl rfl rfl (by unfold Fits; simp only [middle,phase]),goes middle rfl rfl⟩
  | asleep =>
    have is : s.commit = middle := by simp only [commit,middle,phase]
    rw [is]
    rw [phase] at fits
    exact ⟨holds middle rfl rfl rfl rfl (by unfold Fits; simp only [middle,phase]; exact fits),goes middle rfl rfl⟩
  | firing clock i =>
    have is : s.commit = middle := by simp only [commit,middle,phase]
    rw [is]
    rw [phase] at fits
    exact ⟨holds middle rfl rfl rfl rfl (by unfold Fits; simp only [middle,phase]; exact fits),goes middle rfl rfl⟩
  | arming marks =>
    have is : s.commit = {middle with
        phase:=.asleep
        marks:=marks.map i64
        armed:=marks.map i64} := by simp only [commit,middle,phase]
    rw [is]
    rw [phase] at fits
    refine ⟨holds _ rfl rfl rfl rfl ?_,goes _ rfl rfl⟩
    show Live z _
    intro i e at_
    obtain ⟨n,marked,small⟩ := fits i e at_
    have read : (marks.map i64)[i]? = some (n : Int) := by rw [List.getElem?_map,marked,Option.map_some,i64_mark small]
    exact ⟨n,n,read,read,Int.natCast_nonneg n,Int.natCast_nonneg n,.inl rfl⟩
  | ticking clock i slot handled =>
    rw [phase] at fits
    cases handled with
    | true =>
      have is : s.commit = {middle with phase:=s.turn clock (i+1)} := by simp only [commit,middle,phase]; rfl
      rw [is]
      exact ⟨holds _ rfl rfl rfl rfl (turn_fits (s:=middle) fits.1 fits.2.1),goes _ rfl rfl⟩
    | false =>
      have is : s.commit = middle := by simp only [commit,middle,phase]
      rw [is]
      exact ⟨holds middle rfl rfl rfl rfl (by unfold Fits; simp only [middle,phase]; exact fits),goes middle rfl rfl⟩

theorem restart_step (inv : s.Inv z) (entries : List (Entry ζ)) (servertime : Int) (id : Nat) (ops : List Write) (ran : Ran) :
    Inv z (s.next (.restart entries servertime id ops ran)) ∧ s.Goes (s.next (.restart entries servertime id ops ran)) := by
  have sound := (Db.step_sound inv.sound (.restart servertime id ops ran)).1
  obtain ⟨disk,open_⟩ := restart_series inv.sound servertime id ops ran
  have covered : ∀ {st : Storage}, st.series = s.db.disk.series → Covered st s.kept := by
    intro st same r member
    obtain ⟨n,held,le⟩ := inv.kept r member
    exact ⟨n,by rw [seriesHwm_congr same]; exact held,le⟩
  refine ⟨⟨sound,?_,?_,trivial,inv.fair,fun key => ?_,covered disk,?_⟩,Raised.of_series disk,List.prefix_refl _,fun r member => ?_⟩
  · exact small_cron inv.disk fun _ _ => seriesHwm_congr disk _
  · exact small_cron inv.disk fun _ _ => seriesHwm_congr open_ _
  · show (slotsOf key (s.kept++[])).Pairwise _
    rw [List.append_nil]
    exact ordered_sublist (inv.ordered key)
  · show Covered _ (s.kept++[])
    rw [List.append_nil]
    exact covered open_
  · have none_ : r ∈ s.all.drop s.all.length := member
    simp at none_

theorem step_ok (inv : s.Inv z) (event : SchedulerEvent ζ) (allowed : s.allowed z event) :
    Inv z (s.next event) ∧ s.Goes (s.next event) := by
  cases event with
  | submit servertime call => exact submit_step inv servertime call
  | commit => exact commit_step inv
  | restart entries servertime id ops ran => exact restart_step inv entries servertime id ops ran
  | arm servertime clock => exact arm_step inv servertime clock allowed.2
  | wake clock => exact wake_step inv clock allowed
  | fire slot => exact fire_step inv slot allowed
  | tick servertime id ops ran => exact tick_step inv servertime id ops ran allowed

theorem start_inv : Inv z {} := by
  have none_ : ∀ key, ({} : Storage).seriesHwm key = none := fun _ => rfl
  refine ⟨Db.start_sound,fun _ _ n held => ?_,fun _ _ n held => ?_,trivial,fun r member => (by cases member),fun key => List.Pairwise.nil,
    fun r member => (by cases member),fun r member => (by cases member)⟩
  · cases (none_ _).symm.trans held
  · cases (none_ _).symm.trans held

theorem runs_inv {events : List (SchedulerEvent ζ)} (path : (machine z).Runs {} events s) : s.Inv z :=
  path.invariant start_inv fun _ event inv allowed => (step_ok inv event allowed).1

theorem runs_go {events : List (SchedulerEvent ζ)} {later : Scheduler ζ} (inv : s.Inv z) (path : (machine z).Runs s events later) :
    s.Goes later := by
  induction path with
  | nil => exact .refl s
  | step prior allowed ih =>
    have middle := prior.invariant inv fun _ event inv allowed => (step_ok inv event allowed).1
    exact ih.trans inv.disk middle.disk (step_ok middle _ allowed).2

-- A restart that loses no hook's run.
def Clean (s : Scheduler ζ) : SchedulerEvent ζ → Prop
  | .restart _ _ _ _ _ => s.opened = []
  | _ => True

theorem clean_all {events : List (SchedulerEvent ζ)} (path : ((machine z).under Clean).Runs {} events s) : s.all = s.kept++s.opened := by
  refine path.invariant (P := fun s : Scheduler ζ => s.all = s.kept++s.opened) rfl ?_
  intro s event same ⟨_,clean⟩
  cases event with
  | submit servertime call => exact same
  | commit =>
    show s.commit.all = s.commit.kept++s.commit.opened
    unfold commit
    dsimp only
    split <;> simpa using same
  | restart entries servertime id ops ran =>
    show s.all = s.kept++[]
    rw [same,(clean : s.opened = [])]
  | arm servertime clock => exact same
  | wake clock => exact same
  | fire slot =>
    show (s.fire slot).all = (s.fire slot).kept++(s.fire slot).opened
    unfold fire
    split <;> split <;> exact same
  | tick servertime id ops ran =>
    show (s.tick servertime id ops ran).all = (s.tick servertime id ops ran).kept++(s.tick servertime id ops ran).opened
    unfold tick
    split
    · split
      · dsimp only
        rw [same,List.append_assoc]
      · exact same
    · exact same

-- Each entry's slots run in order, each once, but for runs lost with a batch that never
-- committed: each a slot of its schedule from its mark, due by the clock and past its mark,
-- which it becomes even where the hook fails.
theorem slots_run_once {events : List (SchedulerEvent ζ)} (path : (machine z).Runs {} events s) :
    (∀ key, (slotsOf key (s.kept++s.opened)).Pairwise (· < ·)) ∧
    (((machine z).under Clean).Runs {} events s → ∀ key, (slotsOf key s.all).Pairwise (· < ·)) ∧
    (∀ r ∈ s.all, r.Fair z) ∧
    ∀ more later, (machine z).Runs s more later → ∀ r ∈ later.all.drop s.all.length, ∀ mark,
      s.db.disk.seriesHwm r.entry.key = some mark → i64 mark < r.slot := by
  have inv := runs_inv path
  refine ⟨inv.ordered,fun clean key => ?_,inv.fair,fun more later rest => (runs_go inv rest).past⟩
  rw [clean_all clean]
  exact inv.ordered key

end Scheduler

-- An entry that fires every minute, armed at 0, and its first slot.
def utcOnly : Zones Unit := ⟨(),fun _ _ => .none,nofun⟩
def minutely : Entry Unit := ⟨"db".toList,"beat".toList,.every 60⟩

def ticking : List (SchedulerEvent Unit) :=
  [.restart [minutely] 0 0 [] .carried,.arm 0 0,.commit,.wake 60000,.fire (some 60),.tick 60000 1 [] .carried]

namespace Scheduler

theorem ticking_runs {s : Scheduler Unit} {events : List (SchedulerEvent Unit)}
    (rest : (machine utcOnly).Runs (ticking.foldl next {}) events s) : (machine utcOnly).Runs {} (ticking++events) s := by
  refine .cons ?_ <| .cons ?_ <| .cons ?_ <| .cons ?_ <| .cons ?_ <| .cons ?_ rest
  · exact fun _ => rfl
  · exact ⟨trivial,by norm_num⟩
  · exact trivial
  · exact ⟨trivial,by norm_num⟩
  · exact ⟨minutely,0,rfl,by decide +kernel,show _ = _ by decide +kernel⟩
  · exact rfl

theorem slots_run_once_sample : (∀ key, (slotsOf key ((ticking.foldl next {}).kept++(ticking.foldl next {}).opened)).Pairwise (· < ·)) ∧
    ((ticking.foldl next ({} : Scheduler Unit)).all.map Run.slot = [60]) :=
  ⟨(slots_run_once (ticking_runs .nil)).1,by decide +kernel⟩

-- Where the batch of that slot's tick is lost, the slot's hook runs again.
theorem lost_batch_runs_again : ∃ events s, (machine utcOnly).Runs {} events s ∧ s.all.map Run.slot = [60,60] ∧
    ¬(slotsOf minutely.key s.all).Pairwise (· < ·) := by
  refine ⟨ticking++ticking,ticking.foldl next (ticking.foldl next {}),ticking_runs ?_,by decide +kernel,by decide +kernel⟩
  refine .cons ?_ <| .cons ?_ <| .cons ?_ <| .cons ?_ <| .cons ?_ <| .cons ?_ .nil
  · exact fun _ => rfl
  · exact ⟨trivial,by norm_num⟩
  · exact trivial
  · exact ⟨trivial,by norm_num⟩
  · exact ⟨minutely,0,rfl,by decide +kernel,show _ = _ by decide +kernel⟩
  · exact rfl

end Scheduler

end Cron
end PhaseLock
