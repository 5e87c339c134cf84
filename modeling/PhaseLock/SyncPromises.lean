import PhaseLock.SyncRuns

namespace PhaseLock
variable {V D : Type} {db : Database V}

namespace Core
variable {core : Core V D}

-- A view frame that cancels no backfill in flight.
def CancelsNone (core : Core V D) : Inbound V → Prop
  | .view record => core.backfills.keys.all (covered record.selectors ·) = true
  | _ => True

-- A view frame that comes in a freeze leaves some backfill in flight, kept or new.
def LeavesSome (core : Core V D) : Inbound V → Prop
  | .view record => core.frozen = true → (core.diffIn record).frozen = true
  | _ => True

instance (core : Core V D) : ∀ frame : Inbound V, Decidable (core.CancelsNone frame)
  | .view _ => inferInstanceAs (Decidable (_ = true))
  | .opened _ _ | .edits _ | .live _ | .vouch _ | .ended _ => .isTrue trivial

instance (core : Core V D) : ∀ frame : Inbound V, Decidable (core.LeavesSome frame)
  | .view _ => inferInstanceAs (Decidable (_ = true → _ = true))
  | .opened _ _ | .edits _ | .live _ | .vouch _ | .ended _ => .isTrue trivial

theorem frozen_of (held : core.backfills.get r = some entry) : core.frozen = true :=
  (frozen_iff core).mpr ⟨r,downloadOf entry,by simp [replica,held]⟩

-- A grant ends no freeze.
theorem grantIn_going (old atStart : List Name) (position : Int) (selector : Name)
    (going : ∃ entry, core.backfills.get r = some entry) :
    ∃ entry, (core.grantIn old atStart position selector).backfills.get r = some entry := by
  unfold grantIn
  split
  · exact going
  · split
    · exact going
    · unfold spawnIn startBackfill writeBackfill
      dsimp only
      rw [OrderedMap.get_set_self]
      simp only [OrderedMap.get_set]
      split
      · exact ⟨_,rfl⟩
      · exact going

theorem CancelsNone.leaves {item : Inbound V} (cancels : core.CancelsNone item) : core.LeavesSome item := by
  cases item with
  | view record =>
    intro frozen
    obtain ⟨r,d,going⟩ := (frozen_iff core).mp frozen
    obtain ⟨entry,held,_⟩ := Option.map_eq_some_iff.mp going
    have none : core.backfills.keys.filter (!covered record.selectors ·) = [] := by
      rw [List.filter_eq_nil_iff]
      intro name member
      simp [List.all_eq_true.mp cancels name member]
    unfold diffIn
    rw [none]
    obtain ⟨entry,held⟩ := foldl_invariant (P := fun s : Core V D => ∃ entry, s.backfills.get r = some entry)
      (fun s selector _ going => grantIn_going _ _ _ selector going) ⟨entry,held⟩
    exact frozen_of held
  | _ => trivial

theorem LeavesSome.clean {item : Inbound V} (leaves : core.LeavesSome item) : core.Cleanly item := by
  cases item with
  | view record =>
    intro frozen thawed
    rw [leaves frozen] at thawed
    cases thawed
  | _ => trivial

end Core

-- A logged edit is in the base, in a state its slice came to at or after it.
def Store.Reflects (store : Store V D) (log : List (WireEdit V)) (e : WireEdit V) : Prop :=
  ∃ p, e.position ≤ p ∧ store.At log e.slice p

-- What a store says of a logged edit: it is in the base, or parked, or left to a
-- backfill that has not landed.
def Store.AccountsFor (store : Store V D) (log : List (WireEdit V)) (e : WireEdit V) : Prop :=
  store.Reflects log e ∨ store.parkedEdits.get (e.slice,e.seq) = some e ∨
    ∃ r record, store.backfills.get r = some record ∧ selectorCovers r e.slice = true ∧ e.position < record.untilPosition

-- What a freeze leaves behind once it has ended: nothing.
structure Store.AtRest (store : Store V D) : Prop where
  edits : store.parkedEdits.entries = []
  pages : store.parkedPages.entries = []
  headers : store.backfillSeqs.entries = []
  outside : ∀ slice, covered store.selectors slice = false →
    store.seqs.get slice = none ∧ ∀ key, store.base.sliceKeys slice key = none
  reached : 0 ≤ store.applied → store.applied = store.cursor

namespace World
variable {w : World V D} {wants : List Name} {predictor : Option (Predictor V D)} {steps : List (Step V D)}

theorem Reading.imp {strong weak : Core V D → Inbound V → Prop} (implied : ∀ core item, strong core item → weak core item)
    {step : Step V D} (reading : w.Reading strong step) : w.Reading weak step := by
  cases step with
  | restart wants weather => trivial
  | engine event current =>
    cases event with
    | pass weather => exact Core.Along.imp implied reading
    | _ => trivial

theorem leaves_runs (path : ((machine db (· = wants)).under (Reading Core.LeavesSome)).Runs (first wants predictor) steps w) :
    ((machine db (· = wants)).under (Reading Core.Cleanly)).Runs (first wants predictor) steps w :=
  path.under_mono fun _ _ _ => Reading.imp fun _ _ => Core.LeavesSome.clean

theorem cancels_runs (path : ((machine db (· = wants)).under (Reading Core.CancelsNone)).Runs (first wants predictor) steps w) :
    ((machine db (· = wants)).under (Reading Core.Cleanly)).Runs (first wants predictor) steps w :=
  leaves_runs (path.under_mono fun _ _ _ => Reading.imp fun _ _ => Core.CancelsNone.leaves)

instance (rule : Core V D → Inbound V → Prop) [∀ core item, Decidable (rule core item)] (w : World V D) :
    ∀ step : Step V D, Decidable (w.Reading rule step)
  | .engine (.pass _) _ => inferInstanceAs (Decidable (Core.Along _ _ _))
  | .restart _ _ | .engine (.hook _ _) _ | .engine (.push _ _) _ | .engine (.outcome _ _) _ | .engine (.results _) _
  | .engine (.backoff _) _ | .engine .retry _ | .engine (.sendMutation _) _ | .engine (.sendOnlineMutation _ _) _
  | .engine .newQuery _ | .engine .reconnectNow _ | .engine .abort _ => .isTrue trivial

instance (w : World V D) : ∀ step : Step V D, Decidable (w.Cleanly step)
  | .engine (.pass _) _ => inferInstanceAs (Decidable (_ ∧ _))
  | .restart _ _ => inferInstanceAs (Decidable (Core.PurgesCleanly _ _))
  | .engine (.hook _ _) _ | .engine (.push _ _) _ | .engine (.outcome _ _) _ | .engine (.results _) _
  | .engine (.backoff _) _ | .engine .retry _ | .engine (.sendMutation _) _ | .engine (.sendOnlineMutation _ _) _
  | .engine .newQuery _ | .engine .reconnectNow _ | .engine .abort _ => .isTrue trivial

instance [DecidableEq V] (db : Database V) (builds : List Name → Prop) [DecidablePred builds] (w : World V D) (step : Step V D) :
    Decidable ((machine db builds).allowed w step) := inferInstanceAs (Decidable (w.Allowed db builds step))

instance [DecidableEq V] (db : Database V) (builds : List Name → Prop) [DecidablePred builds]
    (rule : World V D → Step V D → Prop) [∀ w step, Decidable (rule w step)] (w : World V D) (step : Step V D) :
    Decidable (((machine db builds).under rule).allowed w step) := inferInstanceAs (Decidable (_ ∧ _))

-- A small database of two slices, and runs of one connection over it.
namespace Sample

def log : List (WireEdit Nat) := [
  ⟨1,['s'],1,1,.birth,[(['s','!','a'],some 1)]⟩,
  ⟨2,['t'],1,2,.birth,[(['t','!','a'],some 1)]⟩,
  ⟨3,['s'],2,3,.normal,[(['s','!','a'],some 2)]⟩]

def served : Database Nat := .serving ['e'] log (by decide)
def build : List Name := [['s'],['t']]
def start : World Nat Unit := first build none

def pass : Step Nat Unit := .engine (.pass {}) none
def hook (item : Inbound Nat) : Step Nat Unit := .engine (.hook 0 item) none
def push (selector : Name) (entry : Nat) (item : BackfillItem Nat) : Step Nat Unit :=
  .engine (.push ⟨entry,selector,entry,0,0,none⟩ item) none

-- A view of s, and its backfill, pushed and landed.
def landing : List (Step Nat Unit) := [pass,pass,hook (.opened ['e'] 3),hook (.view ⟨['1'],1,[['s']]⟩),pass,pass,
  push ['s'] 0 (.header 1 1 (served.header ['s'] 1)),push ['s'] 0 (.page [(['s','!','a'],1)] 1 []),
  push ['s'] 0 .pagesDone,push ['s'] 0 .editsDone,pass]

-- Its next edit, and a vouch at the head.
def caughtUp : List (Step Nat Unit) := landing++[hook (.edits [⟨3,['s'],2,3,.normal,[(['s','!','a'],some 2)]⟩]),hook (.vouch 3),pass]

-- A start of a build that wants s alone, and its connection.
def narrowed : List (Step Nat Unit) := caughtUp++[.restart [['s']] {},pass,pass,hook (.opened ['e'] 3),pass]

-- A view of t, whose backfill has a tail edit past the cursor when an empty view cancels it.
def canceled : List (Step Nat Unit) := landing++[hook (.view ⟨['2'],2,[['t']]⟩),pass,pass,
  push ['t'] 1 (.header 1 1 (served.header ['t'] 1)),
  push ['t'] 1 (.edits [⟨2,['t'],1,2,.birth,[(['t','!','a'],some 1)]⟩] 2),pass,hook (.view ⟨['3'],2,[]⟩),pass]

-- And s granted again, its cursor vouched past the edit that the base still lacks.
def regranted : List (Step Nat Unit) := canceled++[hook (.vouch 5),pass,hook (.view ⟨['4'],5,[['s']]⟩),pass,pass,
  push ['s'] 2 (.header 4 3 (served.header ['s'] 4)),push ['s'] 2 (.page [(['s','!','a'],2)] 1 []),
  push ['s'] 2 .pagesDone,push ['s'] 2 .editsDone,pass]

-- A view of s, of t too, of t alone, and of both again, before any backfill of theirs has landed.
def revoked : List (Step Nat Unit) := [pass,pass,hook (.opened ['e'] 3),hook (.view ⟨['1'],1,[['s']]⟩),pass,pass,
  hook (.view ⟨['2'],2,[['s'],['t']]⟩),pass,pass,hook (.view ⟨['3'],2,[['t']]⟩),pass,pass,
  push ['t'] 1 (.header 2 2 (served.header ['t'] 2)),push ['t'] 1 (.page [(['t','!','a'],1)] 1 []),pass,
  hook (.view ⟨['4'],3,[['s'],['t']]⟩),pass,pass,
  push ['s'] 2 (.header 3 3 (served.header ['s'] 3)),push ['s'] 2 (.page [(['s','!','a'],2)] 1 []),
  push ['t'] 1 .pagesDone,push ['t'] 1 .editsDone,push ['s'] 2 .pagesDone,push ['s'] 2 .editsDone,pass,pass,
  hook (.vouch 3),pass]

-- The run that catches up cancels no backfill.
theorem caughtUp_reached : ∃ w, ((machine served (· = build)).under (Reading Core.CancelsNone)).Runs start caughtUp w ∧
    w.engine.core.store.seqs.get ['s'] = some 2 := by
  obtain ⟨w,path,found⟩ := Machine.follow_finds ((machine served (· = build)).under (Reading Core.CancelsNone)) start caughtUp
    (fun w => w.engine.core.store.seqs.get ['s'] = some 2) (by decide +kernel)
  exact ⟨w,path,of_decide_eq_true found⟩

end Sample

theorem Sound.held (sound : w.Sound db) (held : w.engine.core.store.seqs.get slice = some n) :
    w.engine.core.store.At db.log slice w.engine.core.store.applied := by
  have mirrors := sound.synced.mirrors
  rw [mirrors.at,mirrors.stored.2.1]
  rw [mirrors.seqs slice] at held
  exact sound.synced.invariant.1.held slice n held

-- Every held slice is its log's fold at one position, the base's, at rest or frozen.
theorem held_slices_are_the_log (types : ∀ want ∈ wants, SliceType want)
    (path : ((machine db (· = wants)).under (Reading Core.CancelsNone)).Runs (first wants predictor) steps w) :
    ∀ slice n, w.engine.core.store.seqs.get slice = some n →
      w.engine.core.store.At db.log slice w.engine.core.store.applied := by
  have sound := (runs_good types (cancels_runs path)).1
  exact fun slice n held => sound.held held

theorem held_slices_are_the_log_landing : ∃ w,
    ((machine Sample.served (· = Sample.build)).under (Reading Core.CancelsNone)).Runs Sample.start Sample.caughtUp w ∧
      w.engine.core.store.At Sample.log ['s'] w.engine.core.store.applied := by
  obtain ⟨w,path,held⟩ := Sample.caughtUp_reached
  exact ⟨w,path,held_slices_are_the_log (by decide) path ['s'] 2 held⟩

theorem Sound.accounts (sound : w.Sound db) {e : WireEdit V} (logged : e ∈ db.log)
    (inView : covered w.engine.core.store.selectors e.slice = true) (below : e.position ≤ w.engine.core.store.cursor) :
    w.engine.core.store.AccountsFor db.log e := by
  obtain ⟨mirrors,⟨inv,_⟩,_⟩ := sound.synced
  obtain ⟨cursor,applied,view⟩ := mirrors.stored
  rw [view] at inView
  rw [cursor] at below
  have sent := le_trans below inv.cursor_le
  by_cases spanned : w.engine.core.replica.Over e.slice
  · obtain ⟨r,d,going,covers⟩ := spanned
    by_cases late : d.untilPosition ≤ e.position
    · exact .inr (.inl ((inv.downloading r d going).live e logged covers late sent))
    · obtain ⟨entry,held,same⟩ := Option.map_eq_some_iff.mp going
      refine .inr (.inr ⟨r,entry.record,?_,covers,?_⟩)
      · rw [mirrors.backfills r,held]
        rfl
      · rw [← same] at late
        exact not_le.mp late
  · have kept := inv.kept e.slice inView spanned
    by_cases past : w.engine.core.replica.applied < e.position
    · exact .inr (.inl (kept.parked e logged rfl past sent))
    · exact .inl ⟨_,not_lt.mp past,(mirrors.at db.log e.slice _).mpr kept.base⟩

-- What a run's cursor promises: no edit of the view at or below it is skipped, and it never goes back.
def SkipsNone (db : Database V) (m : Machine (World V D) (Step V D)) (start : World V D) : Prop :=
  ∀ {steps w}, m.Runs start steps w →
    (∀ e ∈ db.log, covered w.engine.core.store.selectors e.slice = true → e.position ≤ w.engine.core.store.cursor →
      w.engine.core.store.AccountsFor db.log e) ∧
    ∀ {later w'}, m.Runs w later w' → w.engine.core.store.cursor ≤ w'.engine.core.store.cursor

theorem Sound.skips {builds : List Name → Prop} {start : World V D} (sound : start.Sound db) :
    SkipsNone db ((machine db builds).under Cleanly) start := by
  intro steps w path
  have keeps : ∀ (s : World V D) (step : Step V D), s.Sound db → ((machine db builds).under Cleanly).allowed s step →
      Sound db (s.next step) := fun s step sound allowed => (next_sound sound allowed.1 allowed.2).1
  have sound : w.Sound db := path.invariant (P := fun w => w.Sound db) sound keeps
  refine ⟨fun e logged inView below => sound.accounts logged inView below,fun {later w'} onwards => ?_⟩
  refine onwards.related (P := fun w => w.Sound db)
    (R := fun a b : World V D => a.engine.core.store.cursor ≤ b.engine.core.store.cursor)
    (fun _ => le_rfl) (fun _ _ _ => le_trans) keeps ?_ sound
  intro s step sound allowed
  obtain ⟨after,up⟩ := next_sound sound allowed.1 allowed.2
  rw [sound.synced.mirrors.stored.1]
  exact le_trans up (le_of_eq after.synced.mirrors.stored.1.symm)

-- Where no step ends a freeze over an edit parked past the cursor, and no token is taken as
-- current for another view than the stored one, the cursor skips no edit of the view, and never
-- goes back; and in runs of one build only its view frames need care.
theorem cursor_skips_no_edit (types : ∀ want ∈ wants, SliceType want) :
    (∀ builds : List Name → Prop, SkipsNone db ((machine db builds).under Cleanly) (first wants predictor)) ∧
      SkipsNone db ((machine db (· = wants)).under (Reading Core.Cleanly)) (first wants predictor) := by
  have good : Sound db (first wants predictor) ∧ _ := first_good types predictor
  refine ⟨fun builds => good.1.skips,fun {steps w} path => ?_⟩
  obtain ⟨runs,reached⟩ := clean_runs good path
  obtain ⟨accounts,up⟩ := good.1.skips runs
  exact ⟨accounts,fun onwards => up (clean_runs reached onwards).1⟩

-- A narrower build's start over the run that catches up, and its connection.
theorem cursor_skips_no_edit_landing :
    (∃ w, ((machine Sample.served (· = Sample.build)).under (Reading Core.Cleanly)).Runs Sample.start Sample.caughtUp w ∧
      ∀ e ∈ Sample.log, covered w.engine.core.store.selectors e.slice = true → e.position ≤ w.engine.core.store.cursor →
        w.engine.core.store.AccountsFor Sample.log e) ∧
    ∃ w, ((machine Sample.served fun _ => True).under Cleanly).Runs Sample.start Sample.narrowed w ∧
      w.engine.core.store.AccountsFor Sample.log ⟨3,['s'],2,3,.normal,[(['s','!','a'],some 2)]⟩ := by
  constructor
  · obtain ⟨w,path,_⟩ := Sample.caughtUp_reached
    have clean := cancels_runs path
    exact ⟨w,clean,((cursor_skips_no_edit (by decide)).2 clean).1⟩
  · obtain ⟨w,path,found⟩ := Machine.follow_finds ((machine Sample.served fun _ => True).under Cleanly) Sample.start Sample.narrowed
      (fun w => w.engine.core.store.selectors = [['s']] ∧ w.engine.core.store.cursor = 3) (by decide +kernel)
    obtain ⟨view,cursor⟩ := of_decide_eq_true found
    exact ⟨w,path,((cursor_skips_no_edit (by decide)).1 _ path).1 _ (by decide) (by rw [view]; decide) (le_of_eq cursor.symm)⟩

-- An empty view ends a freeze over t's parked tail edit, so s stays held; granted again
-- past a vouch, its blob is taken for older than the base, and the edit between is lost.
theorem cursor_skips_an_edit : ∃ w, (machine Sample.served (· = Sample.build)).Runs Sample.start Sample.regranted w ∧
    ∃ e ∈ Sample.log, covered w.engine.core.store.selectors e.slice = true ∧ e.position ≤ w.engine.core.store.cursor ∧
      ¬w.engine.core.store.AccountsFor Sample.log e := by
  obtain ⟨w,path,found⟩ := Machine.follow_finds (machine Sample.served (· = Sample.build)) Sample.start Sample.regranted
    (fun w => w.engine.core.store.selectors = [['s']] ∧ w.engine.core.store.cursor = 5 ∧
      w.engine.core.store.seqs.get ['s'] = some 1 ∧ w.engine.core.store.parkedEdits.get (['s'],2) = none ∧
      w.engine.core.store.backfills.entries = []) (by decide +kernel)
  obtain ⟨view,cursor,held,unparked,landed⟩ := of_decide_eq_true found
  refine ⟨w,path,⟨3,['s'],2,3,.normal,[(['s','!','a'],some 2)]⟩,by decide,by rw [view]; decide,by rw [cursor]; decide,?_⟩
  rintro (⟨p,reached,seq,_⟩ | parked | ⟨r,record,going,_⟩)
  · have head : ∀ e ∈ Sample.log, e.position ≤ p := fun e member =>
      le_trans ((by decide : ∀ e ∈ Sample.log, e.position ≤ 3) e member) reached
    rw [held,serverState_now head] at seq
    exact absurd seq (by decide)
  · rw [unparked] at parked
    cases parked
  · rw [(OrderedMap.entries_nil _).mp landed] at going
    cases going

theorem Sound.rests (sound : w.Sound db) (landed : ∀ r, w.engine.core.store.backfills.get r = none) :
    w.engine.core.store.AtRest := by
  obtain ⟨mirrors,⟨inv,rests⟩,_⟩ := sound.synced
  have thawed := rests (mirrors.landed landed)
  obtain ⟨cursor,applied,view⟩ := mirrors.stored
  have idle : ∀ r, w.engine.core.backfills.get r = none := by
    intro r
    have stored := mirrors.backfills r
    rw [landed r] at stored
    exact Option.map_eq_none_iff.mp stored.symm
  have orphan := fun r => inv.orphan r (show (w.engine.core.backfills.get r).map Core.downloadOf = none by rw [idle r]; rfl)
  refine ⟨?_,?_,?_,?_,?_⟩
  · rw [OrderedMap.entries_nil]
    intro key
    cases parked : w.engine.core.store.parkedEdits.get key with
    | none => rfl
    | some e =>
      have own := mirrors.genuine key.1 key.2 e parked
      refine absurd ?_ (thawed.parked e)
      show w.engine.core.store.parkedEdits.get (e.slice,e.seq) = some e
      rw [own.1,own.2]
      exact parked
  · rw [OrderedMap.entries_nil]
    exact fun key => (orphan key.1).1 key.2
  · rw [OrderedMap.entries_nil]
    exact fun r => mirrors.headers r (idle r)
  · intro slice outside
    have unheld : w.engine.core.replica.held slice = none := by
      cases held : w.engine.core.replica.held slice with
      | none => rfl
      | some n =>
        have inView : covered w.engine.core.replica.view slice = true := thawed.inside slice n held
        rw [← view,outside] at inView
        cases inView
    refine ⟨?_,fun key => congrFun (inv.empty slice unheld) key⟩
    rw [mirrors.seqs slice]
    exact unheld
  · rw [applied,cursor]
    intro based
    rcases thawed.reached with same | ⟨never,_⟩
    · exact same
    · rw [never] at based
      exact absurd based (by decide)

-- Where no step ends a freeze over an edit parked past the cursor, and no token is
-- taken as current for another view than the stored one, a freeze leaves nothing
-- behind once it has ended.
theorem thaw_leaves_nothing {builds : List Name → Prop} (types : ∀ want ∈ wants, SliceType want)
    (path : ((machine db builds).under Cleanly).Runs (first wants predictor) steps w)
    (landed : ∀ r, w.engine.core.store.backfills.get r = none) : w.engine.core.store.AtRest := by
  have sound : w.Sound db := by
    refine path.invariant (P := fun w => w.Sound db) (first_good types predictor).1 ?_
    intro s step sound allowed
    exact (next_sound sound allowed.1 allowed.2).1
  exact sound.rests landed

theorem thaw_leaves_nothing_landing : ∃ w, ((machine Sample.served (· = Sample.build)).under Cleanly).Runs
    Sample.start Sample.caughtUp w ∧ w.engine.core.store.AtRest := by
  obtain ⟨w,path,landed⟩ := Machine.follow_finds ((machine Sample.served (· = Sample.build)).under Cleanly)
    Sample.start Sample.caughtUp (fun w => w.engine.core.store.backfills.entries = []) (by decide +kernel)
  exact ⟨w,path,thaw_leaves_nothing (by decide) path ((OrderedMap.entries_nil _).mp (of_decide_eq_true landed))⟩

-- The empty view leaves t's tail edit parked, and s held outside it.
theorem thaw_leaves_an_edit : ∃ w, (machine Sample.served (· = Sample.build)).Runs Sample.start Sample.canceled w ∧
    (∀ r, w.engine.core.store.backfills.get r = none) ∧ w.engine.core.store.parkedEdits.entries ≠ [] ∧
    (covered w.engine.core.store.selectors ['s'] = false ∧ w.engine.core.store.seqs.get ['s'] = some 1) ∧
    ¬w.engine.core.store.AtRest := by
  obtain ⟨w,path,found⟩ := Machine.follow_finds (machine Sample.served (· = Sample.build)) Sample.start Sample.canceled
    (fun w => w.engine.core.store.backfills.entries = [] ∧ w.engine.core.store.parkedEdits.entries ≠ [] ∧
      covered w.engine.core.store.selectors ['s'] = false ∧ w.engine.core.store.seqs.get ['s'] = some 1) (by decide +kernel)
  obtain ⟨landed,parked,outside⟩ := of_decide_eq_true found
  exact ⟨w,path,(OrderedMap.entries_nil _).mp landed,parked,outside,fun rests => parked rests.edits⟩

-- At the server's head and at rest, the client holds what its view covers of the
-- server's live slices, each at the server's seq, and no more.
theorem view_converges (types : ∀ want ∈ wants, SliceType want)
    (path : ((machine db (· = wants)).under (Reading Core.LeavesSome)).Runs (first wants predictor) steps w)
    (head : ∀ e ∈ db.log, e.position ≤ w.vouched) (landed : ∀ r, w.engine.core.store.backfills.get r = none) (slice : Name) :
    w.engine.core.store.seqs.get slice =
      if covered w.engine.core.store.selectors slice = true then (serverNow db.log slice).map SliceState.seq else none := by
  have sound := (runs_good types (leaves_runs path)).1
  by_cases inView : covered w.engine.core.store.selectors slice = true
  · rw [if_pos inView]
    obtain ⟨mirrors,⟨inv,rests⟩,_⟩ := sound.synced
    have still := mirrors.landed landed
    rw [mirrors.stored.2.2] at inView
    have settled := (inv.settled still (rests still).parked inView).2
    have below : ∀ e ∈ db.log, e.position ≤ w.heard.sent := fun e logged =>
      le_trans (head e logged) (le_trans sound.vouched inv.cursor_le)
    rw [← serverState_now below,mirrors.seqs slice]
    exact settled.1
  · rw [if_neg inView]
    exact ((sound.rests landed).outside slice (by simpa using inView)).1

-- A slice revoked and granted again while the freeze of its first grant lasts.
theorem view_converges_landing : ∃ w, ((machine Sample.served (· = Sample.build)).under (Reading Core.LeavesSome)).Runs
    Sample.start Sample.revoked w ∧ w.engine.core.store.seqs.get ['s'] = some 2 ∧
      w.engine.core.store.seqs.get ['t'] = some 1 := by
  obtain ⟨w,path,found⟩ := Machine.follow_finds ((machine Sample.served (· = Sample.build)).under (Reading Core.LeavesSome))
    Sample.start Sample.revoked (fun w => w.vouched = 3 ∧ w.engine.core.store.backfills.entries = [] ∧
      w.engine.core.store.selectors = [['s'],['t']]) (by decide +kernel)
  obtain ⟨vouched,landed,view⟩ := of_decide_eq_true found
  have converges := view_converges (by decide) path (by rw [vouched]; decide) ((OrderedMap.entries_nil _).mp landed)
  rw [view] at converges
  exact ⟨w,path,converges ['s'],converges ['t']⟩

end World
end PhaseLock
