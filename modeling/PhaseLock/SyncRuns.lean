import PhaseLock.Sync

namespace PhaseLock
variable {V D : Type} {db : Database V}

-- What a store says of the sync.
namespace Store
variable (store : Store V D)

def cursor : Int := (store.checkpoint.map CheckpointRecord.position).getD (-1)
def applied : Int := (store.checkpoint.map CheckpointRecord.applied).getD (-1)
def selectors : List Name := (store.view.map ViewRecord.selectors).getD []

-- A slice's seq and keys are as the log has them at a position.
def At (log : List (WireEdit V)) (slice : Name) (p : Int) : Prop :=
  store.seqs.get slice = (serverState log slice p).map SliceState.seq ∧ store.base.sliceKeys slice = keysOf (serverState log slice p)

end Store

-- The server's state of a slice, at its head.
def serverNow (log : List (WireEdit V)) (slice : Name) : Option (SliceState V) :=
  (editsOf log slice).foldl (fun s e => e.apply s) none

theorem serverState_now {log : List (WireEdit V)} (head : ∀ e ∈ log, e.position ≤ p) (slice : Name) :
    serverState log slice p = serverNow log slice := by
  unfold serverState History.stateAt serverNow
  congr 1
  refine List.filter_eq_self.mpr fun e member => ?_
  simpa using head e (mem_editsOf.mp member).1

namespace Core
variable {core : Core V D}

theorem Mirrors.stored (mirrors : core.Mirrors) : core.store.cursor = core.replica.cursor ∧
    core.store.applied = core.replica.applied ∧ core.store.selectors = core.replica.view := by
  refine ⟨?_,?_,?_⟩
  · unfold Store.cursor; rw [mirrors.checkpoint]; rfl
  · unfold Store.applied; rw [mirrors.checkpoint]; exact mirrors.applied.symm
  · unfold Store.selectors; rw [mirrors.view]; rfl

theorem Mirrors.at (mirrors : core.Mirrors) (log : List (WireEdit V)) (slice : Name) (p : Int) :
    core.store.At log slice p ↔ core.replica.At log slice p := by
  unfold Store.At Replica.At
  rw [mirrors.seqs slice]
  exact Iff.rfl

-- Nothing in flight: none in the store.
theorem Mirrors.landed (mirrors : core.Mirrors) (landed : ∀ r, core.store.backfills.get r = none) : ¬core.replica.Frozen := by
  rintro ⟨r,d,going⟩
  obtain ⟨entry,held,_⟩ := Option.map_eq_some_iff.mp going
  have stored := mirrors.backfills r
  rw [landed r,held] at stored
  cases stored

end Core

namespace World
variable {w : World V D} {wants : List Name} {predictor : Option (Predictor V D)} {steps : List (Step V D)}

theorem blank_sound (predictor : Option (Predictor V D)) : Sound db (blank predictor) where
  synced := by
    refine ⟨⟨?_,?_,rfl,rfl,rfl,fun _ => rfl,fun _ => rfl,fun _ => rfl,fun _ _ => rfl⟩,⟨?_,fun _ => ?_⟩,rfl⟩
    · intro k v held; cases held
    · intro name seq e held; cases held
    · exact {
        low := le_rfl
        applied_le := le_rfl
        cursor_le := le_rfl
        genuine := fun e parked => by cases parked
        held := fun slice n held => by cases held
        empty := fun slice _ => by
          funext k
          show (if sliceOf k = some slice then (∅ : OrderedMap Key V).get k else none) = none
          split <;> rfl
        formed := fun v member => by cases member
        inside := fun r d going => by cases going
        kept := fun slice inView _ => by cases inView
        downloading := fun r d going => by cases going
        orphan := fun r _ => ⟨fun _ => rfl,fun _ => rfl⟩}
    · exact ⟨fun e parked => (by cases parked),.inl rfl,fun slice n held => (by cases held)⟩
  carried := rfl
  types := fun want member => by cases member
  vouched := le_rfl

-- One build's runs: the stored view is the one its token names, and of its wants.
structure Steady (wants : List Name) (w : World V D) : Prop where
  built : w.wants = wants
  named : w.heard.selectors = w.named
  wanted : ∀ v ∈ w.named, covered wants v = true

theorem read_steady {items : List (Inbound V)} {s final : Stream} {named : List Name} (carried : s.Carries db wants items final)
    (same : s.selectors = named) (wanted : ∀ v ∈ named, covered wants v = true) :
    (s.reads items).selectors = items.foldl namedBy named ∧ ∀ v ∈ items.foldl namedBy named, covered wants v = true := by
  induction items generalizing s named with
  | nil => exact ⟨same,wanted⟩
  | cons item rest ih =>
    obtain ⟨⟨_,sends⟩,carried⟩ := carried
    refine ih carried ?_ ?_
    · cases item <;> first | exact same | rfl
    · cases item with
      | view record =>
        intro v member
        obtain ⟨_,want,inside,covers⟩ := sends.2.2.2.1 v member
        exact (covered_iff _ _).mpr ⟨want,inside,covers⟩
      | _ => exact wanted

-- A build's own start cuts nothing from its view.
theorem restart_steady (sound : w.Sound db) (types : ∀ want ∈ wants, SliceType want) (named : w.heard.selectors = w.named)
    (wanted : ∀ v ∈ w.named, covered wants v = true) (weather : Weather) :
    (Core.load w.engine.core.store w.engine.core.nextEntry : Core V D).PurgesCleanly wants ∧
      (w.next (.restart wants weather)).Steady wants := by
  have mirrors := Core.load_mirrors sound.synced.mirrors w.engine.core.nextEntry
  have replica := Core.load_replica sound.synced.mirrors w.engine.core.nextEntry
  have inv := sound.synced.invariant.reload
  rw [← replica] at inv
  have views : (Core.load w.engine.core.store w.engine.core.nextEntry : Core V D).selectors = w.named := by
    show (Core.load w.engine.core.store w.engine.core.nextEntry : Core V D).replica.view = w.named
    rw [replica]
    exact sound.synced.view.symm.trans named
  have clean : (Core.load w.engine.core.store w.engine.core.nextEntry : Core V D).PurgesCleanly wants := by
    intro frozen leaves
    obtain ⟨r,d,going⟩ := (Core.frozen_iff _).mp frozen
    obtain ⟨entry,held,_⟩ := Option.map_eq_some_iff.mp going
    obtain ⟨_,v,member,spanned⟩ := inv.1.inside r d going
    have inNamed : v ∈ w.named := by rw [← views]; exact member
    obtain ⟨want,inside,covers⟩ := (covered_iff _ _).mp (wanted v inNamed)
    have wanted : covered wants r = true := (covered_iff _ _).mpr
      ⟨want,inside,covers_trans (types want inside).wellFormed covers spanned⟩
    have gone := List.all_eq_true.mp leaves r ((OrderedMap.mem_keys _ _).mpr ⟨entry,held⟩)
    rw [wanted] at gone
    cases gone
  refine ⟨clean,?_⟩
  -- committed or not, the start leaves the view's selectors as they were
  have kept : ∀ {core : Core V D} {after : Engine V D}, core.selectors = w.named → core.Alike after.core →
      Steady wants {w with engine:=after,wants,stream:=closedStream after.core,heard:=closedStream after.core} := by
    intro core after same alike
    refine ⟨rfl,?_,wanted⟩
    show after.core.replica.view = w.named
    rw [alike.replica]
    exact same
  show Steady wants {w with engine:=Engine.start _ _ _ _ _ _ _,wants,stream:=closedStream (Engine.start _ _ _ _ _ _ _).core,heard:=closedStream (Engine.start _ _ _ _ _ _ _).core}
  unfold Engine.start
  dsimp only
  cases ran : (Core.load w.engine.core.store w.engine.core.nextEntry : Core V D).purgeIn wants with
  | error failure =>
    have ended := Engine.keeps_fail failure ({
      core:=Core.load w.engine.core.store w.engine.core.nextEntry
      predictor:=w.engine.predictor
      series:=w.engine.series+1
      nextId:=w.engine.nextId} : Engine V D)
    exact kept views ended.core
  | ok core =>
    obtain ⟨_,_,_,filtered⟩ := Core.purgeIn_invariant mirrors inv types clean ran
    have ended := Engine.caught_keeps (Engine.refresh_keeps weather true ({
      core
      predictor:=w.engine.predictor
      series:=w.engine.series+1
      nextId:=w.engine.nextId} : Engine V D))
    refine kept ?_ ended.core
    rw [filtered,views]
    exact List.filter_eq_self.mpr wanted

-- A step of one build's run: its frames name the view its token is good for.
theorem next_steady (sound : w.Sound db) (steady : w.Steady wants) {step : Step V D} (allowed : w.Allowed db (· = wants) step) :
    (w.next step).Steady wants := by
  have aside : ∀ {after : Engine V D} {stream : Stream}, Steady wants {w with engine:=after,stream} :=
    ⟨steady.built,steady.named,steady.wanted⟩
  cases step with
  | restart started weather =>
    obtain ⟨rfl,types⟩ := allowed
    exact (restart_steady sound types steady.named steady.wanted weather).2
  | engine event current =>
    cases event with
    | pass weather =>
      dsimp only [Allowed] at allowed
      dsimp only [next]
      cases taken : w.engine.takes with
      | none => exact aside
      | some turn =>
        rw [taken] at allowed
        cases turn with
        | connect =>
          refine ⟨steady.built,?_,steady.wanted⟩
          show current.getD w.heard.selectors = w.named
          cases current with
          | none => exact steady.named
          | some selectors => exact (allowed selectors rfl).1
        | inbox =>
          dsimp only
          split
          · exact ⟨steady.built,steady.named,steady.wanted⟩
          · have carried : ∃ final, w.heard.Carries db wants w.reads final := by
              have carried := sound.carried
              rw [steady.built,← List.takeWhile_append_dropWhile (p := (!Engine.isEnd ·)) (l := w.engine.inbox)] at carried
              unfold World.reads
              rw [if_pos taken]
              exact ⟨_,carried.split.1⟩
            obtain ⟨final,carried⟩ := carried
            obtain ⟨named,wanted⟩ := read_steady carried steady.named steady.wanted
            split
            · exact aside
            · exact ⟨steady.built,named,wanted⟩
        | _ => exact aside
    | _ => exact aside

-- A rule on each item a pass reads, where it reaches it.
def Reading (rule : Core V D → Inbound V → Prop) (w : World V D) : Step V D → Prop
  | .engine (.pass _) _ => w.engine.startCalls.core.Along rule w.reads
  | _ => True

-- A step of one build's run takes no token for another view, and its own start ends no freeze.
theorem next_clean (sound : w.Sound db) (steady : w.Steady wants) {step : Step V D} (allowed : w.Allowed db (· = wants) step)
    (rule : w.Reading Core.Cleanly step) : w.Cleanly step := by
  cases step with
  | restart started weather =>
    obtain ⟨rfl,types⟩ := allowed
    exact (restart_steady sound types steady.named steady.wanted weather).1
  | engine event current =>
    cases event with
    | pass weather =>
      refine ⟨rule,?_⟩
      intro taken selectors given
      dsimp only [Allowed] at allowed
      rw [taken] at allowed
      exact (allowed selectors given).1.trans (steady.named.symm.trans sound.synced.view)
    | _ => trivial

theorem next_good (sound : w.Sound db) (steady : w.Steady wants) {step : Step V D} (allowed : w.Allowed db (· = wants) step)
    (rule : w.Reading Core.Cleanly step) : Sound db (w.next step) ∧ (w.next step).Steady wants :=
  ⟨(next_sound sound allowed (next_clean sound steady allowed rule)).1,next_steady sound steady allowed⟩

theorem first_good (types : ∀ want ∈ wants, SliceType want) (predictor : Option (Predictor V D)) :
    Sound db (first wants predictor) ∧ (first wants predictor).Steady wants := by
  have sound : Sound db (blank predictor) := blank_sound predictor
  obtain ⟨clean,steady⟩ := restart_steady (w := blank predictor) sound types rfl (fun v member => by cases member) {}
  exact ⟨(restart_sound sound {} types clean).1,steady⟩

-- So a run of one build whose frames read cleanly is clean throughout.
theorem clean_runs {before : World V D} (good : before.Sound db ∧ before.Steady wants)
    (path : ((machine db (· = wants)).under (Reading Core.Cleanly)).Runs before steps w) :
    ((machine db (· = wants)).under Cleanly).Runs before steps w ∧ w.Sound db ∧ w.Steady wants := by
  induction path with
  | nil => exact ⟨.nil,good⟩
  | step prior allowed ih =>
    obtain ⟨runs,sound,steady⟩ := ih
    exact ⟨.step runs ⟨allowed.1,next_clean sound steady allowed.1 allowed.2⟩,next_good sound steady allowed.1 allowed.2⟩

theorem runs_good (types : ∀ want ∈ wants, SliceType want)
    (path : ((machine db (· = wants)).under (Reading Core.Cleanly)).Runs (first wants predictor) steps w) :
    w.Sound db ∧ w.Steady wants := (clean_runs (first_good types predictor) path).2

end World
end PhaseLock
