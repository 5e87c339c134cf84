import PhaseLock.Scheduler

namespace PhaseLock

variable {w : Writer}

-- A call's mutations mark no cron entry.
theorem runMutation_cron (behind : ∀ row ∈ w.store.log, row.position ≤ w.position) (servertime : Int) (attempt : Nat) (m : Asked)
    {after : Writer} {ran : Except (Option Name) Outcome} (is : w.runMutation servertime attempt m = .ok (after,ran)) (install entry : Name) :
    after.store.seriesHwm (.cron install entry) = w.store.seriesHwm (.cron install entry) := by
  have marked : ∀ v : Writer, v.store.series = w.store.series →
      (v.mark (m.series.map fun row => (SeriesKey.series row.1,row.2)) servertime).store.seriesHwm (.cron install entry) =
        w.store.seriesHwm (.cron install entry) := by
    intro v same
    rw [← seriesHwm_congr same]
    cases m.series with
    | none => rfl
    | some row => exact (seriesHwm_mark _ _ _ _ _).trans (if_neg (by simp))
  unfold Writer.runMutation at is
  dsimp only at is
  split at is
  · cases is
    rfl
  · split at is
    · cases is
      rfl
    · cases is
      exact marked w rfl
    · obtain ⟨decided,outcome,items,run,_,series,_⟩ := decide_ok behind servertime m
      rw [run] at is
      cases is
      exact marked decided series

theorem runCall_cron (servertime : Int) (attempt : Nat) (install entry : Name) (mutations : List Asked) :
    ∀ {w after : Writer} {reply : Reply} (outcomes : List Outcome), w.Sound →
      w.runCall servertime attempt outcomes mutations = .ok (after,reply) →
      after.store.seriesHwm (.cron install entry) = w.store.seriesHwm (.cron install entry) := by
  induction mutations with
  | nil =>
    intro w after reply outcomes _ ran
    cases ran
    rfl
  | cons m rest ih =>
    intro w after reply outcomes sound ran
    have behind : ∀ row ∈ w.store.log, row.position ≤ w.position := fun _ member => sound.logged.behind member
    unfold Writer.runCall at ran
    cases data : m.data with
    | error why =>
      simp only [data] at ran
      exact ih (w:=w.answers _) _ (sound.answered (unreadable_answered w m why)).sound ran
    | ok _ =>
      simp only [data] at ran
      obtain ⟨middle,result,a,is,answered⟩ := runMutation_ok behind servertime attempt m
      have first := runMutation_cron behind servertime attempt m is install entry
      rw [is] at ran
      cases result with
      | error hash =>
        cases ran
        exact first
      | ok outcome => exact (ih _ (sound.answered answered).sound ran).trans first

theorem submit_cron (sound : w.Sound) (servertime : Int) (call : Writer.Call) {after : Writer}
    (ran : w.handle servertime (.submit call) = .ok after) (install entry : Name) :
    after.store.seriesHwm (.cron install entry) = w.store.seriesHwm (.cron install entry) := by
  unfold Writer.handle Writer.handleSubmit at ran
  dsimp only at ran
  split at ran
  · cases ran
    rfl
  · cases called : w.runCall servertime call.attempt [] call.mutations with
    | error fatal =>
      rw [called] at ran
      cases ran
    | ok result =>
      rw [called] at ran
      obtain ⟨middle,reply⟩ := result
      cases ran
      show middle.store.seriesHwm (.cron install entry) = _
      exact runCall_cron servertime call.attempt install entry call.mutations [] sound called

-- A tick's slot at or below its entry's mark changes nothing; any other moves the mark to it,
-- and what a failed hook wrote is discarded.
structure Writer.Ticked (w : Writer) (key : SeriesKey) (slot : Nat) (ran : Ran) (after : Writer) : Prop where
  deduped : w.decidedBefore (some (key,slot)) = true → after.store = w.store
  marked : w.decidedBefore (some (key,slot)) = false → after.store.seriesHwm key = some slot
  others : ∀ other, other ≠ key → after.store.seriesHwm other = w.store.seriesHwm other
  failed : ran ≠ .carried → after.store.kv = w.store.kv ∧ after.store.log = w.store.log ∧ after.store.slices = w.store.slices

theorem hwm_fresh {st : Storage} {key : SeriesKey} {n : Nat} {time : Int} (fresh : ∀ mark, st.seriesHwm key = some mark → mark < n) :
    (st.seriesMark key n time).seriesHwm key = some n := by
  rw [seriesHwm_mark,if_pos rfl]
  cases held : st.seriesHwm key with
  | none => rfl
  | some mark => exact congrArg some (max_eq_right (fresh mark held).le)

theorem not_decided {key : SeriesKey} {n : Nat} (fresh : w.decidedBefore (some (key,n)) = false) {mark : Nat}
    (held : w.store.seriesHwm key = some mark) : mark < n := by
  simpa [Writer.decidedBefore,held] using fresh

theorem tick_ok (sound : w.Sound) (servertime : Int) (install entry : Name) (slot id : Nat) (ops : List Write) (ran : Ran) :
    ∃ after, w.handle servertime (.tick install entry slot id ops ran) = .ok after ∧ w.Ticked (.cron install entry) slot ran after := by
  have behind : ∀ row ∈ w.store.log, row.position ≤ w.position := fun _ member => sound.logged.behind member
  have moved : ∀ {st : Storage}, st.series = w.store.series → w.decidedBefore (some (.cron install entry,slot)) = false →
      (st.seriesMark (.cron install entry) slot servertime).seriesHwm (.cron install entry) = some slot := by
    intro st same fresh
    refine hwm_fresh fun mark held => not_decided fresh ?_
    rwa [seriesHwm_congr same] at held
  have apart : ∀ {st : Storage}, st.series = w.store.series → ∀ other, other ≠ .cron install entry →
      (st.seriesMark (.cron install entry) slot servertime).seriesHwm other = w.store.seriesHwm other := by
    intro st same other more
    rw [seriesHwm_mark,if_neg more.symm,seriesHwm_congr same]
  unfold Writer.handle Writer.handleTick
  dsimp only
  cases before : w.decidedBefore (some (SeriesKey.cron install entry,slot)) with
  | true => exact ⟨_,rfl,fun _ => rfl,fun fresh => absurd (before.symm.trans fresh) (by decide),fun _ _ => rfl,fun _ => ⟨rfl,rfl,rfl⟩⟩
  | false =>
    rw [if_neg Bool.false_ne_true]
    cases ran with
    | refused why =>
      exact ⟨_,rfl,fun old => absurd (before.symm.trans old) (by decide),moved rfl,apart rfl,fun _ => ⟨rfl,rfl,rfl⟩⟩
    | threw why =>
      exact ⟨_,rfl,fun old => absurd (before.symm.trans old) (by decide),moved rfl,apart rfl,fun _ => ⟨rfl,rfl,rfl⟩⟩
    | carried =>
      obtain ⟨c,mutated,committed⟩ := commits_ok behind id servertime ops
      dsimp only
      rw [committed]
      exact ⟨_,rfl,fun old => absurd (before.symm.trans old) (by decide),moved mutated.series,apart mutated.series,
        fun failed => absurd rfl failed⟩

-- What arming makes of a list of entries: each has the mark it is answered with, old marks
-- stay, and a new one is the minute.
structure Armed (before after : Storage) (keys : List SeriesKey) (marks : List Nat) (minute : Nat) : Prop where
  each : ∀ (i : Nat) key, keys[i]? = some key → ∃ n, marks[i]? = some n ∧ after.seriesHwm key = some n
  kept : ∀ key n, before.seriesHwm key = some n → after.seriesHwm key = some n
  new : ∀ key n, after.seriesHwm key = some n → before.seriesHwm key = some n ∨ n = minute

def armsOne (servertime : Int) (minute : Nat) (s : Writer × List Nat) (key : SeriesKey) : Writer × List Nat :=
  match s.1.store.seriesHwm key with
  | some m => (s.1,s.2++[m])
  | none => ({s.1 with store:=s.1.store.seriesMark key minute servertime},s.2++[minute])

theorem arms_all (servertime : Int) (minute : Nat) (keys : List SeriesKey) (s : Writer × List Nat) :
    ∃ marks, (keys.foldl (armsOne servertime minute) s).2 = s.2++marks ∧
      Armed s.1.store (keys.foldl (armsOne servertime minute) s).1.store keys marks minute := by
  induction keys generalizing s with
  | nil => exact ⟨[],by simp,fun i key none => (by simp at none),fun _ _ held => held,fun _ _ held => .inl held⟩
  | cons key rest ih =>
    obtain ⟨marks,answered,armed⟩ := ih (armsOne servertime minute s key)
    obtain ⟨n,marked,held,kept,new⟩ : ∃ n, (armsOne servertime minute s key).2 = s.2++[n] ∧
        (armsOne servertime minute s key).1.store.seriesHwm key = some n ∧
        (∀ other m, s.1.store.seriesHwm other = some m → (armsOne servertime minute s key).1.store.seriesHwm other = some m) ∧
        (∀ other m, (armsOne servertime minute s key).1.store.seriesHwm other = some m → s.1.store.seriesHwm other = some m ∨ m = minute) := by
      unfold armsOne
      cases held : s.1.store.seriesHwm key with
      | some m => exact ⟨m,rfl,held,fun _ _ old => old,fun _ _ old => .inl old⟩
      | none =>
        refine ⟨minute,rfl,hwm_fresh fun mark old => (by rw [held] at old; cases old),fun other m old => ?_,fun other m => ?_⟩
        · have apart : key ≠ other := fun same => by rw [← same,held] at old; cases old
          exact (seriesHwm_mark _ _ _ _ _).trans ((if_neg apart).trans old)
        · dsimp only
          rw [seriesHwm_mark]
          split
          · rename_i same
            rw [held]
            exact fun is => .inr (Option.some.inj is).symm
          · exact .inl
    refine ⟨n :: marks,?_,fun i other at_ => ?_,fun other m old => armed.kept other m (kept other m old),fun other m here => ?_⟩
    · rw [List.foldl_cons,answered,marked,List.append_assoc]
      rfl
    · cases i with
      | zero =>
        cases at_
        exact ⟨n,rfl,armed.kept _ _ held⟩
      | succ i => exact armed.each i other at_
    · exact (armed.new other m here).elim (new other m) .inr

theorem arm_ok (w : Writer) (servertime : Int) (keys : List (Name × Name)) (minute : Nat) :
    ∃ after marks, w.handle servertime (.arm keys minute) = .ok after ∧ after.after.getLast?.map Reply.marks = some marks ∧
      Armed w.store after.store (keys.map fun row => .cron row.1 row.2) marks minute := by
  obtain ⟨marks,answered,armed⟩ := arms_all servertime minute (keys.map fun row => SeriesKey.cron row.1 row.2) (w,[])
  refine ⟨_,marks,rfl,?_,armed⟩
  unfold Writer.handleArm Writer.replies
  rw [List.getLast?_concat]
  exact congrArg some answered

-- A restart takes the marks on the disk.
theorem restart_series {s : Db} (sound : s.Sound) (servertime : Int) (id : Nat) (ops : List Write) (ran : Ran) :
    (s.next (.restart servertime id ops ran)).disk.series = s.disk.series ∧
    (s.next (.restart servertime id ops ran)).writer.store.series = s.disk.series := by
  have behind : ∀ row ∈ (Writer.opens s.disk s.answered).store.log, row.position ≤ (Writer.opens s.disk s.answered).position :=
    fun _ member => sound.disk.logged.behind member
  unfold Db.next
  dsimp only
  split
  · unfold Writer.bootstrap
    cases ran with
    | refused why => exact ⟨rfl,rfl⟩
    | threw why => exact ⟨rfl,rfl⟩
    | carried =>
      dsimp only
      by_cases empty : (WriteBuffer.writes ops).isEmpty = true
      · rw [if_pos empty]
        exact ⟨rfl,rfl⟩
      · obtain ⟨c,mutated,committed⟩ := commits_ok behind id servertime ops
        rw [if_neg empty,committed]
        exact ⟨mutated.series,mutated.series⟩
  · exact ⟨rfl,rfl⟩

end PhaseLock
