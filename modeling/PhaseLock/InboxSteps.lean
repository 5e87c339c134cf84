import PhaseLock.FrameSteps

namespace PhaseLock
variable {V D : Type} {db : Database V}

theorem Stream.after_edits (s : Stream) {edits : List (WireEdit V)} {last : WireEdit V} (ends : last ∈ edits.getLast?) :
    (s.after (.edits edits)).sent = max s.sent last.position := by
  show edits.getLast?.elim s.sent (fun last => max s.sent last.position) = _
  rw [show edits.getLast? = some last from ends]
  rfl

namespace Core

-- The Engine accounts for all a stream has sent it, under the stream's selectors.
structure Synced (db : Database V) (core : Core V D) (s : Stream) : Prop where
  mirrors : core.Mirrors
  invariant : core.replica.Invariant db s.sent
  view : s.selectors = core.replica.view

-- A view frame that ends a freeze finds no edit parked past the cursor.
def Cleanly (core : Core V D) : Inbound V → Prop
  | .view record => core.frozen = true → (core.diffIn record).frozen = false →
      ∀ row ∈ core.store.parkedEdits.entries, row.2.position ≤ core.cursor
  | _ => True

instance (core : Core V D) : ∀ frame : Inbound V, Decidable (core.Cleanly frame)
  | .view _ => inferInstanceAs (Decidable (_ = _ → _ = _ → ∀ row ∈ _,_))
  | .opened _ _ | .edits _ | .live _ | .vouch _ | .ended _ => .isTrue trivial

-- Frozen, or at rest.
theorem Synced.settled {core : Core V D} {s : Stream} (synced : core.Synced db s) (thawed : core.frozen = false)
    (inView : core.replica.InView slice) :
    (∀ e ∈ db.log, e.slice = slice → core.applied < e.position → s.sent < e.position) ∧
      core.replica.At db.log slice s.sent := by
  have thawed := (thawed_iff core).mp thawed
  exact synced.invariant.1.settled thawed (synced.invariant.2 thawed).parked inView

-- The slices a frame breaks start backfills, from where the stream has not sent.
theorem breaks_accounted {core : Core V D} {sent : Int} (breaks : List (WireEdit V)) (mirrors : core.Mirrors)
    (inv : core.replica.Accounted db sent)
    (logged : ∀ e ∈ breaks, e ∈ db.log ∧ core.replica.InView e.slice ∧ sent < e.position) :
    (breaks.foldl spawnBreak core).Mirrors ∧ (breaks.foldl spawnBreak core).replica.Accounted db sent ∧
      core.Stands (breaks.foldl spawnBreak core) ∧
      (core.replica.Frozen ∨ breaks ≠ [] → (breaks.foldl spawnBreak core).replica.Frozen) := by
  induction breaks generalizing core with
  | nil => exact ⟨mirrors,inv,⟨rfl,rfl⟩,fun frozen => frozen.resolve_right (by simp)⟩
  | cons e rest ih =>
    obtain ⟨inLog,inView,late⟩ := logged e List.mem_cons_self
    have plain := db.valid.plain e inLog
    have one : (core.spawnBreak e).Mirrors ∧ (core.spawnBreak e).replica.Accounted db sent ∧
        core.Stands (core.spawnBreak e) ∧ (core.spawnBreak e).replica.Frozen := by
      unfold spawnBreak
      by_cases going : core.backfills.has e.slice
      · rw [if_pos going]
        obtain ⟨entry,held⟩ := (OrderedMap.has_iff _ _).mp going
        exact ⟨mirrors,inv,⟨rfl,rfl⟩,e.slice,downloadOf entry,by simp [replica,held]⟩
      · rw [if_neg going]
        have none : core.replica.inflight e.slice = none := by
          show (core.backfills.get e.slice).map downloadOf = none
          cases held : core.backfills.get e.slice with
          | none => rfl
          | some entry => exact absurd ((OrderedMap.has_iff _ _).mpr ⟨entry,held⟩) going
        unfold Stands
        rw [spawnIn_replica]
        refine ⟨spawnIn_mirrors mirrors _ _,inv.spawn none ⟨?_,(covered_iff _ _).mp inView⟩ ?_,⟨rfl,rfl⟩,
          Replica.spawn_frozen ..⟩
        · exact fun star => plain.2 (List.mem_of_mem_dropLast star)
        · intro x _ _ from_ under
          omega
    obtain ⟨mirrors',inv',stood,frozen⟩ := one
    obtain ⟨mirrors',inv',last,frozen⟩ := ih mirrors' inv' (by
      intro x member
      unfold Replica.InView
      rw [stood.1]
      exact logged x (List.mem_cons_of_mem _ member))
    refine ⟨mirrors',inv',stood.trans last,fun _ => frozen (.inl ?_)⟩
    assumption

-- What a frame's slices settle at.
theorem settles_replica {core : Core V D} (mirrors : core.Mirrors) {rows : List (Name × Option Nat)}
    (distinct : (rows.map Prod.fst).Nodup) :
    (rows.foldl (fun core row => core.settleIn row.1 row.2) core).Mirrors ∧
    (rows.foldl (fun core row => core.settleIn row.1 row.2) core).replica =
      {core.replica with held:=fun slice => (OrderedMap.lookup slice rows).getD (core.replica.held slice)} := by
  induction rows generalizing core with
  | nil => exact ⟨mirrors,rfl⟩
  | cons row rest ih =>
    obtain ⟨absent,tail⟩ := List.nodup_cons.mp distinct
    obtain ⟨mirrors',equal⟩ := ih (settleIn_mirrors mirrors row.1 row.2) tail
    refine ⟨mirrors',?_⟩
    rw [List.foldl_cons,equal,settleIn_replica]
    refine Replica.ext rfl ?_ rfl rfl rfl rfl rfl rfl rfl
    funext slice
    show (OrderedMap.lookup slice rest).getD (Function.update core.replica.held row.1 row.2 slice) =
      (OrderedMap.lookup slice (row :: rest)).getD (core.replica.held slice)
    obtain ⟨name,seq⟩ := row
    by_cases same : name = slice
    · subst same
      rw [OrderedMap.lookup_absent rest name absent,Function.update_self]
      simp [OrderedMap.lookup]
    · rw [Function.update_of_ne (Ne.symm same)]
      simp [OrderedMap.lookup,same]

-- A whole frame gives each slice the fold of its own edits, and its new seq.
theorem applyFrameIn_parts {core after : Core V D} {frame : Frame V} (mirrors : core.Mirrors)
    (plain : ∀ e ∈ frame.apply, '!' ∉ e.slice) (state : Name → Option (SliceState V))
    (start : ∀ name, core.replica.keys name = keysOf (state name)) (ran : core.applyFrameIn frame = .ok after) :
    after.Mirrors ∧ after.epoch = core.epoch ∧ after.replica = {core.replica with
      keys:=fun name => keysOf ((editsOf frame.apply name).foldl (fun s e => e.apply s) (state name))
      held:=frame.held core.slices} := by
  obtain ⟨m,o,d,tripped⟩ := beside_roundTrips core frame.apply
  have mirrors' := (beside_roundTrips core frame.apply).mirrors mirrors
  unfold applyFrameIn at ran
  dsimp only at ran
  rw [tripped] at ran mirrors'
  obtain ⟨applied,applies,ran⟩ := bind_ok.mp ran
  cases ran
  obtain ⟨⟨base,changed⟩,wrote,ran⟩ := bind_ok.mp applies
  cases ran
  obtain ⟨keys,owned⟩ := Base.applyEdits_get plain state start wrote
  have based : ({core.withOutgoing m o with store:={(core.withOutgoing m o).store with base},dirty:=d++changed} : Core V D).Mirrors :=
    {mirrors' with owned := owned mirrors'.owned}
  obtain ⟨settled,equal⟩ := settles_replica based frame.seqs.keys_nodup
  refine ⟨settled,?_,equal.trans ?_⟩
  · exact foldl_invariant (P := fun s : Core V D => s.epoch = core.epoch)
      (fun s row _ same => by cases at_ : row.2 <;> simpa [settleIn,forgetIn,holdIn,at_] using same) rfl
  · refine Replica.ext (funext keys) ?_ rfl rfl rfl rfl rfl rfl rfl
    funext slice
    show (frame.seqs.get slice).getD (core.slices.get slice) = frame.held core.slices slice
    unfold Frame.held
    cases frame.seqs.get slice <;> rfl

-- At rest at a position, the base is moved by a whole frame to where the stream stands.
theorem applyFrameIn_synced {core after : Core V D} {s : Stream} {edits : List (WireEdit V)} {last : WireEdit V}
    (synced : core.Synced db s) (thawed : core.frozen = false) (whole : FrameOf db.log s edits)
    (ends : last ∈ edits.getLast?) (unbroken : (edits.foldl (Frame.step core.slices) {}).breaks = [])
    (ran : (core.applyFrameIn (edits.foldl (Frame.step core.slices) {}) >>= fun core =>
      core.advanceCursorIn last.position true) = .ok after) :
    after.Synced db (s.after (.edits edits)) ∧ after.cursor = max last.position core.cursor := by
  obtain ⟨mirrors,⟨inv,rests⟩,same⟩ := synced
  have settled := fun slice => @Synced.settled V D db slice core s ⟨mirrors,⟨inv,rests⟩,same⟩ thawed
  have quiet := fun slice inView => (settled slice inView).1
  have base := fun slice inView => (settled slice inView).2
  have still := (thawed_iff core).mp thawed
  obtain ⟨parked,reached,inside⟩ := rests still
  have inView : ∀ slice, covered s.selectors slice = true ↔ core.replica.InView slice := by
    intro slice; rw [same]; exact Iff.rfl
  have read : FrameAt db.log s core.slices edits (edits.foldl (Frame.step core.slices) {}) :=
    frame_read db.valid whole fun slice covers => (base slice ((inView slice).mp covers)).1
  generalize edits.foldl (Frame.step core.slices) {} = frame at read unbroken ran
  have lastIn : last ∈ edits := List.mem_of_getLast? ends
  -- the frame's edits are of the view, so there is one, and the base has reached the cursor
  have caught : core.applied = core.cursor := by
    rcases reached with caught | ⟨_,empty⟩
    · exact caught
    · have covers := (whole.logged last lastIn).2
      rw [same,empty] at covers
      cases covers
  have absent : ∀ slice, ¬core.replica.InView slice → core.replica.held slice = none ∧ core.replica.keys slice = fun _ => none := by
    intro slice outside
    have unheld : core.replica.held slice = none := by
      cases held : core.replica.held slice with
      | none => rfl
      | some n => exact absurd (inside slice n held) outside
    exact ⟨unheld,inv.empty slice unheld⟩
  obtain ⟨applied,applies,ran⟩ := bind_ok.mp ran
  obtain ⟨mirrors',_,equal⟩ := applyFrameIn_parts mirrors
    (fun e member => (db.valid.plain e (whole.logged e (read.applied e member)).1).1)
    (fun slice => if core.inView slice then serverState db.log slice s.sent else none)
    (fun slice => by
      by_cases here : core.inView slice
      · rw [if_pos here]; exact (base slice here).2
      · rw [if_neg here]; exact (absent slice here).2)
    applies
  have moved := advanceCursorIn_replica ran
  have cursor : applied.cursor = core.cursor := by
    show applied.replica.cursor = core.replica.cursor
    rw [equal]
  have lower : applied.applied = core.applied := by
    show applied.replica.applied = core.replica.applied
    rw [equal]
  rw [equal,cursor,lower,if_pos rfl,caught] at moved
  have final : after.replica.applied = max last.position core.cursor := by rw [moved]
  have reaches : s.sent ≤ max s.sent last.position := le_max_left _ _
  have sentFirst := inv.cursor_le
  have low := inv.low
  -- between the base's new position and the stream's, the view's slices have no edits
  have gap : Quiet db.log s.selectors (max last.position core.cursor) (max s.sent last.position) := by
    intro e member covers past
    by_contra under
    have past' : core.applied < e.position := by rw [caught]; omega
    have beyond := quiet e.slice ((inView _).mp covers) e member rfl past'
    omega
  have lands : ∀ slice, core.replica.InView slice →
      serverState db.log slice (max s.sent last.position) = serverState db.log slice (max last.position core.cursor) := by
    intro slice here
    refine serverState_quiet db.valid (by have : core.replica.cursor = core.cursor := rfl; omega) ?_
    intro e member equal past
    exact gap e member (by rw [equal]; exact (inView slice).mpr here) past
  have rest : after.replica.Invariant db after.replica.applied := by
    refine Replica.Invariant.rest ?_ ?_ ?_ ?_ ?_ ?_ ?_ ?_
    · rw [moved]; exact inv.formed
    · rw [final]; have : core.replica.applied = core.cursor := caught; omega
    · rw [moved]
    · rw [moved]; exact parked
    · rw [moved]; exact still
    · rw [moved]
      intro r
      refine inv.orphan r ?_
      cases going : core.replica.inflight r with
      | none => rfl
      | some d => exact absurd ⟨r,d,going⟩ still
    · rw [moved]
      intro slice here
      have here : core.replica.InView slice := here
      obtain ⟨held,folds⟩ := read.ends db.valid whole unbroken ends ((inView slice).mpr here)
      rw [lands slice here] at held folds
      refine ⟨held,?_⟩
      show keysOf ((editsOf frame.apply slice).foldl (fun s e => e.apply s)
        (if core.inView slice = true then serverState db.log slice s.sent else none)) = _
      rw [if_pos (show core.inView slice = true from here),folds]
    · rw [moved]
      intro slice outside
      have outside : ¬core.replica.InView slice := outside
      have none : editsOf frame.apply slice = [] := by
        refine List.filter_eq_nil_iff.mpr fun e member => ?_
        have covers := (whole.logged e (read.applied e member)).2
        simp only [decide_eq_true_eq]
        rintro rfl
        exact outside ((inView _).mp covers)
      refine ⟨?_,?_⟩
      · show frame.held core.slices slice = _
        unfold Frame.held
        cases at_ : frame.seqs.get slice with
        | none => exact (absent slice outside).1
        | some seq =>
          obtain ⟨e,member,equal⟩ := read.seqs slice seq at_
          have covers := (whole.logged e member).2
          rw [equal] at covers
          exact absurd ((inView _).mp covers) outside
      · show keysOf ((editsOf frame.apply slice).foldl (fun s e => e.apply s)
          (if core.inView slice = true then serverState db.log slice s.sent else .none)) = _
        rw [none,if_neg (show ¬core.inView slice = true from outside)]
        rfl
  have sent := s.after_edits ends
  refine ⟨⟨advanceCursorIn_mirrors ran mirrors',?_,?_⟩,?_⟩
  · rw [sent]
    rw [final] at rest
    refine rest.extend (by have : core.replica.cursor = core.cursor := rfl; omega) ?_
    have view : after.replica.view = s.selectors := by rw [moved,same]
    rw [view]
    exact gap
  · rw [moved]; exact same
  · show after.replica.cursor = _
    rw [moved]

-- A frame that parks leaves the base as it is.
theorem parks_synced {core after : Core V D} {s : Stream} {edits : List (WireEdit V)} {last : WireEdit V}
    (breaks : List (WireEdit V)) (synced : core.Synced db s) (whole : FrameOf db.log s edits) (ends : last ∈ edits.getLast?)
    (broken : ∀ e ∈ breaks, e ∈ edits ∧ s.sent < e.position) (freezes : core.frozen = true ∨ breaks ≠ [])
    (ran : ((breaks.foldl spawnBreak core).parkEdits edits).advanceCursorIn last.position false = .ok after) :
    after.Synced db (s.after (.edits edits)) ∧ after.cursor = max last.position core.cursor := by
  obtain ⟨mirrors,⟨inv,_⟩,same⟩ := synced
  obtain ⟨mirrors',inv',stood,frozen⟩ := breaks_accounted breaks mirrors inv (by
    intro e member
    obtain ⟨read,late⟩ := broken e member
    obtain ⟨inLog,covers⟩ := whole.logged e read
    rw [same] at covers
    exact ⟨inLog,covers,late⟩)
  have frozen := frozen (freezes.imp (frozen_iff core).mp id)
  generalize breaks.foldl spawnBreak core = middle at mirrors' inv' stood frozen ran
  have parks := parkEdits_replica middle db.valid inv'.genuine edits (fun e member => (whole.logged e member).1)
  have parked := inv'.park (same.trans stood.1.symm) whole ends
  have moved := advanceCursorIn_replica ran
  rw [← parks] at parked
  have advanced := parked.advance (le_max_right s.sent last.position)
  have applied : (middle.parkEdits edits).replica.applied = middle.applied := rfl
  have cursor : (middle.parkEdits edits).cursor = core.cursor := stood.2
  rw [if_neg (by simp)] at moved
  have equal : after.replica = {(middle.parkEdits edits).replica with
      cursor:=max last.position (middle.parkEdits edits).replica.cursor} := moved
  rw [← equal] at advanced
  refine ⟨⟨advanceCursorIn_mirrors ran (parkEdits_mirrors mirrors' edits),?_,?_⟩,?_⟩
  · rw [s.after_edits ends]
    refine ⟨advanced,fun thawed => absurd ?_ thawed⟩
    rw [equal]
    exact frozen
  · rw [moved]
    exact same.trans stood.1.symm
  · show after.replica.cursor = _
    rw [moved,cursor]

theorem onEditsIn_synced {core after : Core V D} {s : Stream} {edits : List (WireEdit V)} (synced : core.Synced db s)
    (whole : FrameOf db.log s edits) (ran : core.onEditsIn edits = .ok after) :
    after.Synced db (s.after (.edits edits)) ∧ core.cursor ≤ after.cursor := by
  unfold onEditsIn at ran
  cases ends : edits.getLast? with
  | none =>
    rw [ends] at ran
    cases ran
    have still : s.after (.edits edits) = s := by
      show {s with sent:=edits.getLast?.elim s.sent (fun last => max s.sent last.position)} = s
      rw [ends]; rfl
    rw [still]
    exact ⟨synced,le_rfl⟩
  | some last =>
    rw [ends] at ran
    dsimp only at ran
    by_cases frozen : core.frozen = true
    · rw [if_pos frozen,if_pos (.inl frozen)] at ran
      obtain ⟨synced',cursor⟩ := parks_synced [] synced whole ends (by simp) (.inl frozen) ran
      exact ⟨synced',by rw [cursor]; exact le_max_right _ _⟩
    · have thawed : core.frozen = false := by simpa using frozen
      rw [if_neg frozen] at ran
      by_cases broken : (edits.foldl (Frame.step core.slices) {}).breaks ≠ []
      · rw [if_pos (.inr broken)] at ran
        have read : FrameAt db.log s core.slices edits (edits.foldl (Frame.step core.slices) {}) :=
          frame_read db.valid whole fun slice covers => (synced.settled thawed (by
            rw [synced.view] at covers; exact covers)).2.1
        obtain ⟨synced',cursor⟩ := parks_synced _ synced whole ends read.breaks (.inr broken) ran
        exact ⟨synced',by rw [cursor]; exact le_max_right _ _⟩
      · rw [if_neg (not_or.mpr ⟨frozen,broken⟩)] at ran
        obtain ⟨synced',cursor⟩ := applyFrameIn_synced synced thawed whole ends (not_not.mp broken) ran
        exact ⟨synced',by rw [cursor]; exact le_max_right _ _⟩

-- A vouch, or the live mark, at a position past which the stream has sent nothing.
theorem onCursorIn_synced {core after : Core V D} {s : Stream} (synced : core.Synced db s) (le : s.sent ≤ position)
    (quiet : Quiet db.log s.selectors s.sent position) (ran : core.onCursorIn position = .ok after) :
    after.Synced db {s with sent:=position} ∧ after.cursor = position := by
  obtain ⟨mirrors,⟨inv,rests⟩,same⟩ := synced
  have moved := advanceCursorIn_replica ran
  have sentFirst := inv.cursor_le
  have low := inv.low
  have appliedFirst := inv.applied_le
  have cursor : max position core.cursor = position := max_eq_left (le_trans sentFirst le)
  have reach : max position core.applied = position := max_eq_left (le_trans appliedFirst (le_trans sentFirst le))
  have quiet' : Quiet db.log core.replica.view s.sent position := by rw [← same]; exact quiet
  rw [cursor,reach] at moved
  refine ⟨⟨advanceCursorIn_mirrors ran mirrors,?_,by rw [moved]; exact same⟩,?_⟩
  · by_cases frozen : core.frozen = true
    · rw [frozen] at moved
      have advanced := (inv.extend le quiet').advance (le_refl position)
      have here : max position core.replica.cursor = position := cursor
      rw [here] at advanced
      have equal : after.replica = {core.replica with cursor:=position} := moved
      rw [equal]
      exact ⟨advanced,fun thawed => absurd ((frozen_iff core).mp frozen) thawed⟩
    · have thawed : core.frozen = false := by simpa using frozen
      have still := (thawed_iff core).mp thawed
      obtain ⟨parked,_,inside⟩ := rests still
      rw [thawed] at moved
      have equal : after.replica = {core.replica with cursor:=position,applied:=position} := moved
      have rest : after.replica.Invariant db after.replica.applied := by
        rw [equal]
        refine Replica.Invariant.rest inv.formed (by dsimp only; omega) rfl parked still ?_ ?_ ?_
        · intro r
          refine inv.orphan r ?_
          cases going : core.replica.inflight r with
          | none => rfl
          | some d => exact absurd ⟨r,d,going⟩ still
        · intro slice here
          have here : core.replica.InView slice := here
          obtain ⟨_,held,keys⟩ := inv.settled still parked here
          have steady : serverState db.log slice position = _ := serverState_quiet db.valid le fun e member equal past =>
            quiet' e member (by rw [equal]; exact here) past
          exact ⟨by dsimp only; rw [steady]; exact held,by dsimp only; rw [steady]; exact keys⟩
        · intro slice outside
          have unheld : core.replica.held slice = none := by
            cases held : core.replica.held slice with
            | none => rfl
            | some n => exact absurd (inside slice n held) outside
          exact ⟨unheld,inv.empty slice unheld⟩
      have applied : after.replica.applied = position := by rw [equal]
      rw [applied] at rest
      exact rest
  · show after.replica.cursor = position
    rw [moved]

-- A view's grants, selector by selector: what is in flight stays, what comes is a
-- selector's own, and each read so far is accounted for.
structure Granting (rep : Replica V) (first core : Core V D) (selectors seen : List Name) (untilPosition : Int) : Prop where
  mirrors : core.Mirrors
  beside : core.replica = {first.replica with inflight:=core.replica.inflight}
  checkpoint : core.checkpoint = first.checkpoint ∧ core.epoch = first.epoch
  stays : ∀ r d, first.replica.inflight r = some d → core.replica.inflight r = some d
  comes : ∀ r d, core.replica.inflight r = some d → first.replica.inflight r = some d ∨
    first.replica.inflight r = none ∧ r ∈ selectors ∧ d = ⟨untilPosition,none,false⟩
  granted : ∀ v ∈ seen, (∃ r d, core.replica.inflight r = some d ∧ selectorCovers r v = true) ∨
    covered rep.view v = true ∧ ∀ r d, rep.inflight r = some d → selectorCovers r v = false

theorem covers_inflight (core : Core V D) (v : Name) : (core.backfills.keys.any (selectorCovers · v)) = true ↔
    ∃ r d, core.replica.inflight r = some d ∧ selectorCovers r v = true := by
  rw [List.any_eq_true]
  constructor
  · rintro ⟨r,member,covers⟩
    obtain ⟨entry,held⟩ := (OrderedMap.mem_keys _ _).mp member
    exact ⟨r,downloadOf entry,by simp [replica,held],covers⟩
  · rintro ⟨r,d,going,covers⟩
    obtain ⟨entry,held,_⟩ := Option.map_eq_some_iff.mp going
    exact ⟨r,(OrderedMap.mem_keys _ _).mpr ⟨entry,held⟩,covers⟩

theorem grantIn_granting {start first core : Core V D} {selectors seen : List Name}
    (at_ : Granting start.replica first core selectors seen untilPosition) (member : v ∈ selectors) :
    Granting start.replica first (grantIn start.selectors start.backfills.keys untilPosition core v) selectors (seen++[v])
      untilPosition := by
  have extend : ∀ {after : Core V D}, (∀ r d, core.replica.inflight r = some d → after.replica.inflight r = some d) →
      ((∃ r d, after.replica.inflight r = some d ∧ selectorCovers r v = true) ∨ covered start.replica.view v = true ∧
        ∀ r d, start.replica.inflight r = some d → selectorCovers r v = false) →
      ∀ x ∈ seen++[v], (∃ r d, after.replica.inflight r = some d ∧ selectorCovers r x = true) ∨
        covered start.replica.view x = true ∧ ∀ r d, start.replica.inflight r = some d → selectorCovers r x = false := by
    intro after more mine x inside
    rcases List.mem_append.mp inside with old | new
    · exact (at_.granted x old).imp (fun ⟨r,d,going,covers⟩ => ⟨r,d,more r d going,covers⟩) id
    · simp only [List.mem_singleton] at new
      exact new ▸ mine
  unfold grantIn
  by_cases flying : core.backfills.keys.any (selectorCovers · v) = true
  · rw [if_pos flying]
    exact {at_ with granted := extend (fun _ _ => id) (.inl ((covers_inflight core v).mp flying))}
  · rw [if_neg flying]
    by_cases kept : covered start.selectors v = true ∧ ¬covered start.backfills.keys v = true
    · rw [if_pos kept]
      refine {at_ with granted := extend (fun _ _ => id) (.inr ⟨kept.1,fun r d going => ?_⟩)}
      rw [Bool.eq_false_iff]
      exact fun covers => kept.2 ((covers_inflight start v).mpr ⟨r,d,going,covers⟩)
    · rw [if_neg kept]
      have none : core.replica.inflight v = none := by
        cases going : core.replica.inflight v with
        | none => rfl
        | some d => exact absurd ((covers_inflight core v).mpr ⟨v,d,going,covers_refl v⟩) flying
      have spawned := spawnIn_replica core v untilPosition
      have stays : ∀ r d, core.replica.inflight r = some d → (core.spawnIn v untilPosition).replica.inflight r = some d := by
        intro r d going
        have other : r ≠ v := by rintro rfl; rw [none] at going; cases going
        rw [spawned]
        simpa [Replica.spawn,Function.update_of_ne other] using going
      have comes : ∀ r d, (core.spawnIn v untilPosition).replica.inflight r = some d →
          core.replica.inflight r = some d ∨ r = v ∧ d = ⟨untilPosition,.none,false⟩ := by
        intro r d going
        rw [spawned] at going
        by_cases same : r = v
        · subst same
          simp only [Replica.spawn,Function.update_self,Option.some.injEq] at going
          exact .inr ⟨rfl,going.symm⟩
        · simp only [Replica.spawn,Function.update_of_ne same] at going
          exact .inl going
      refine ⟨spawnIn_mirrors at_.mirrors v _,?_,?_,fun r d going => stays r d (at_.stays r d going),?_,
        extend stays (.inl ⟨v,⟨untilPosition,.none,false⟩,?_,covers_refl v⟩)⟩
      · rw [spawned]
        unfold Replica.spawn
        rw [at_.beside]
      · have untouched : (core.spawnIn v untilPosition).checkpoint = core.checkpoint ∧
            (core.spawnIn v untilPosition).epoch = core.epoch := by
          unfold spawnIn startBackfill writeBackfill
          dsimp only
          rw [OrderedMap.get_set_self]
          exact ⟨rfl,rfl⟩
        exact ⟨untouched.1.trans at_.checkpoint.1,untouched.2.trans at_.checkpoint.2⟩
      · intro r d going
        rcases comes r d going with old | ⟨rfl,rfl⟩
        · exact at_.comes r d old
        · refine .inr ⟨?_,member,rfl⟩
          cases before : first.replica.inflight r with
          | none => rfl
          | some d => rw [at_.stays r d before] at none; cases none
      · rw [spawned]
        exact Function.update_self ..

theorem grants_granting {start first core : Core V D} {selectors seen rest : List Name}
    (at_ : Granting start.replica first core selectors seen untilPosition) (members : ∀ v ∈ rest, v ∈ selectors) :
    Granting start.replica first (rest.foldl (grantIn start.selectors start.backfills.keys untilPosition) core) selectors
      (seen++rest) untilPosition := by
  induction rest generalizing core seen with
  | nil => simpa using at_
  | cons v rest ih =>
    have one := grantIn_granting at_ (members v List.mem_cons_self)
    have more := ih one fun x inside => members x (List.mem_cons_of_mem _ inside)
    simpa using more

theorem dropBackfillsIn_checkpoint (core : Core V D) (gone : List Name) :
    (core.dropBackfillsIn gone).checkpoint = core.checkpoint ∧ (core.dropBackfillsIn gone).epoch = core.epoch :=
  foldl_invariant (P := fun s : Core V D => s.checkpoint = core.checkpoint ∧ s.epoch = core.epoch)
    (fun s r _ same => by unfold dropBackfillIn; cases s.backfills.get r <;> exact same) ⟨rfl,rfl⟩

theorem diffIn_granting {core : Core V D} (mirrors : core.Mirrors) (record : ViewRecord) :
    Granting core.replica (core.dropBackfillsIn (core.backfills.keys.filter (!covered record.selectors ·)))
      (core.diffIn record) record.selectors (broadestFirst record.selectors) (record.position+1) := by
  have start : Granting core.replica (core.dropBackfillsIn (core.backfills.keys.filter (!covered record.selectors ·)))
      (core.dropBackfillsIn (core.backfills.keys.filter (!covered record.selectors ·))) record.selectors []
      (record.position+1) := by
    refine ⟨dropBackfillsIn_mirrors mirrors _,rfl,⟨rfl,rfl⟩,fun _ _ => id,fun _ _ => .inl,by simp⟩
  exact grants_granting start fun v member => (List.mem_insertionSort _).mp member

theorem saveCursor_writeView (core : Core V D) (epoch : Name) (position : Int) (record : ViewRecord) :
    (core.writeView record).saveCursor epoch position = (core.saveCursor epoch position).writeView record := by
  unfold saveCursor
  dsimp only
  rw [apply_ite (fun saved : Core V D => saved.writeView record)]
  rfl

-- The view's record is written, and with no checkpoint yet the cursor too.
theorem writeView_viewed {core after : Core V D} {record : ViewRecord} {sent : Int} (mirrors : core.Mirrors)
    (inv : core.replica.Accounted db sent) (le : sent ≤ record.position) (nonneg : 0 ≤ record.position)
    (ran : (if ((core.diffIn record).writeView record).checkpoint = none then
      ((core.diffIn record).writeView record).advanceCursorIn record.position false
      else .ok ((core.diffIn record).writeView record)) = .ok after) :
    after.Mirrors ∧ core.replica.Viewed record.selectors record.position after.replica ∧
      (core.checkpoint ≠ none → after.replica.cursor = core.replica.cursor) ∧ after.frozen = (core.diffIn record).frozen ∧
      after.store.parkedEdits = (core.diffIn record).store.parkedEdits := by
  have grants := diffIn_granting mirrors record
  have first := dropBackfillsIn_replica inv.orphan (core.backfills.keys.filter (!covered record.selectors ·))
  have fixed := dropBackfillsIn_checkpoint core (core.backfills.keys.filter (!covered record.selectors ·))
  generalize core.dropBackfillsIn (core.backfills.keys.filter (!covered record.selectors ·)) = cut at grants first fixed
  generalize core.diffIn record = diffed at grants ran
  have checkpoint : diffed.checkpoint = core.checkpoint := grants.checkpoint.1.trans fixed.1
  have cursor : diffed.cursor = core.cursor := by unfold Core.cursor; rw [checkpoint]
  have sentFirst := inv.cursor_le
  -- the written view, and the cursor where it ends
  have written : after.Mirrors ∧ ∃ position, after.replica = {diffed.replica with view:=record.selectors,cursor:=position} ∧
      core.cursor ≤ position ∧ position ≤ record.position ∧ (core.checkpoint ≠ none → position = core.cursor) ∧
      after.backfills = diffed.backfills ∧ after.store.parkedEdits = diffed.store.parkedEdits := by
    by_cases bare : core.checkpoint = none
    · have here : (diffed.writeView record).checkpoint = none := checkpoint.trans bare
      rw [if_pos here] at ran
      obtain ⟨epoch,_,rfl⟩ := advance_ok ran
      rw [if_neg (by simp),saveCursor_writeView]
      have bottom : core.cursor = -1 := by unfold Core.cursor; rw [bare]; rfl
      have saved := saveCursor_replica diffed epoch record.position
      have known : (diffed.saveCursor epoch record.position).checkpoint ≠ none := by
        unfold saveCursor
        rw [checkpoint,bare]
        simp [writeCheckpoint]
      refine ⟨writeView_mirrors (saveCursor_mirrors diffed epoch record.position diffed.applied grants.mirrors) record known,
        max record.position diffed.cursor,?_,?_,?_,fun some_ => absurd bare some_,?_⟩
      · show {(diffed.saveCursor epoch record.position).replica with view:=record.selectors} = _
        rw [saved]
      · rw [cursor]; exact le_max_right _ _
      · rw [cursor,bottom]; omega
      · unfold saveCursor
        dsimp only
        split <;> exact ⟨rfl,rfl⟩
    · have here : ¬(diffed.writeView record).checkpoint = none := fun none => bare (checkpoint.symm.trans none)
      rw [if_neg here] at ran
      cases ran
      refine ⟨writeView_mirrors grants.mirrors record fun none => bare (checkpoint.symm.trans none),core.cursor,?_,le_rfl,
        le_trans sentFirst le,fun _ => rfl,rfl,rfl⟩
      rw [← cursor]
      rfl
  obtain ⟨mirrors',position,equal,low,high,kept,backfills,parked⟩ := written
  have beside := grants.beside
  rw [first] at beside
  have inflight : after.replica.inflight = diffed.replica.inflight := by rw [equal]
  have canceled : ∀ r, r ∈ core.backfills.keys.filter (!covered record.selectors ·) ↔
      (∃ entry, core.backfills.get r = some entry) ∧ covered record.selectors r = false := by
    intro r; simp [OrderedMap.mem_keys]
  have cutInflight : ∀ r d, cut.replica.inflight r = some d ↔ core.replica.inflight r = some d ∧ covered record.selectors r = true := by
    intro r d
    rw [first]
    simp only [Replica.cancel]
    by_cases gone : r ∈ core.backfills.keys.filter (!covered record.selectors ·)
    · rw [if_pos gone]
      simp [((canceled r).mp gone).2]
    · rw [if_neg gone]
      refine ⟨fun going => ⟨going,?_⟩,And.left⟩
      cases covers : covered record.selectors r with
      | true => rfl
      | false =>
        obtain ⟨entry,held,_⟩ := Option.map_eq_some_iff.mp going
        exact absurd ((canceled r).mpr ⟨⟨entry,held⟩,covers⟩) gone
  refine ⟨mirrors',?_,?_,?_,parked⟩
  · exact {
      keys := by rw [equal,beside]; rfl
      held := by rw [equal,beside]; rfl
      applied := by rw [equal,beside]; rfl
      parked := by rw [equal,beside]; rfl
      view := by rw [equal]
      cursor := by rw [equal]; exact ⟨low,high⟩
      stays := by
        intro r d going covers
        rw [inflight]
        exact grants.stays r d ((cutInflight r d).mpr ⟨going,covers⟩)
      comes := by
        intro r d going
        rw [inflight] at going
        rcases grants.comes r d going with old | ⟨none,member,rfl⟩
        · obtain ⟨before,covers⟩ := (cutInflight r d).mp old
          have stays : r ∉ core.backfills.keys.filter (!covered record.selectors ·) := by
            rw [canceled,covers]; simp
          refine .inl ⟨before,covers,?_,?_⟩
          · rw [equal,beside]
            show (if r ∈ _ then _ else core.replica.pages r) = _
            rw [if_neg stays]
          · rw [equal,beside]
            show (if r ∈ _ then _ else core.replica.header r) = _
            rw [if_neg stays]
        · have before : core.replica.inflight r = .none := by
            cases before : core.replica.inflight r with
            | none => rfl
            | some d =>
              have covers : covered record.selectors r = true := (covered_iff _ _).mpr ⟨r,member,covers_refl r⟩
              rw [(cutInflight r d).mpr ⟨before,covers⟩] at none
              cases none
          refine .inr ⟨before,member,rfl,?_⟩
          rw [equal,beside]
          funext start
          show (if r ∈ _ then fun _ => Option.none else core.replica.pages r) start = _
          split
          · rfl
          · exact (inv.orphan r before).1 start
      granted := by
        intro v member
        rw [inflight]
        exact grants.granted v ((List.mem_insertionSort _).mpr member)
      orphan := by
        intro r none
        rw [inflight] at none
        have gone : (core.replica.cancel (core.backfills.keys.filter (!covered record.selectors ·))).inflight r = .none := by
          rw [← first]
          cases going : cut.replica.inflight r with
          | none => rfl
          | some d => rw [grants.stays r d going] at none; cases none
        have clear := orphans_cancel inv.orphan _ r gone
        rw [equal,beside]
        exact clear}
  · intro known
    rw [equal]
    exact kept known
  · unfold Core.frozen
    rw [backfills]

theorem diffIn_parked (core : Core V D) (record : ViewRecord) :
    (core.diffIn record).store.parkedEdits = core.store.parkedEdits := by
  have cut : (core.dropBackfillsIn (core.backfills.keys.filter (!covered record.selectors ·))).store.parkedEdits =
      core.store.parkedEdits :=
    foldl_invariant (P := fun s : Core V D => s.store.parkedEdits = core.store.parkedEdits)
      (fun s r _ same => by unfold dropBackfillIn; cases s.backfills.get r <;> exact same) rfl
  refine foldl_invariant (P := fun s : Core V D => s.store.parkedEdits = core.store.parkedEdits) ?_ cut
  intro s v _ same
  unfold grantIn
  split
  · exact same
  · split
    · exact same
    · unfold spawnIn startBackfill writeBackfill
      dsimp only
      rw [OrderedMap.get_set_self]
      exact same

-- The slices a new view has dropped go at once, when nothing is downloading and
-- nothing was.
theorem drops_synced {core after : Core V D} {s : Stream} {record : ViewRecord} (synced : core.Synced db s)
    (thawed : core.frozen = false) (mirrors : after.Mirrors) (inv : after.replica.Accounted db record.position)
    (diff : core.replica.Viewed record.selectors record.position after.replica)
    (kept : core.checkpoint ≠ none → after.replica.cursor = core.replica.cursor) (rests : after.frozen = false) :
    (after.dropSlicesIn after.inView).Mirrors ∧
      (after.dropSlicesIn after.inView).replica.Invariant db record.position ∧
      after.Stands (after.dropSlicesIn after.inView) := by
  have plain : ∀ slice n, after.slices.get slice = some n → '!' ∉ slice := fun slice n held => held_plain inv held
  obtain ⟨cut,gone,drops⟩ := dropSlicesIn_restricted after after.inView plain inv.empty
  have restricted := inv.restrict cut (fun slice inView => inView) (by rw [drops]; rfl) (by rw [drops]; rfl)
    (by rw [drops]; rfl) (by rw [drops]; rfl) (by rw [drops]; rfl) (by rw [drops]; rfl)
  obtain ⟨parked,reached,_⟩ := synced.invariant.2 ((thawed_iff core).mp thawed)
  have still := (thawed_iff after).mp rests
  refine ⟨dropSlicesIn_mirrors mirrors _ plain,⟨restricted,fun _ => ⟨?_,?_,?_⟩⟩,?_⟩
  · intro e member
    have member := cut.parked member
    rw [diff.parked] at member
    exact parked e member
  · rw [drops]
    show after.replica.applied = after.replica.cursor ∨ after.replica.applied = -1 ∧ after.replica.view = []
    rw [diff.applied,diff.view]
    -- with no base yet there was no view, and a view of no selectors starts no backfill
    have bare : core.replica.applied = -1 → core.replica.view = [] → record.selectors = [] := by
      intro _ empty
      refine List.eq_nil_iff_forall_not_mem.mpr fun v member => ?_
      rcases diff.granted v member with ⟨r,d,going,_⟩ | ⟨old,_⟩
      · exact still ⟨r,d,going⟩
      · rw [empty] at old; cases old
    rcases reached with caught | ⟨never,empty⟩
    · by_cases known : core.checkpoint = none
      · have never : core.replica.applied = -1 := by
          show core.applied = -1
          rw [synced.mirrors.applied,known]; rfl
        have empty : core.replica.view = [] := by
          show (core.view.map ViewRecord.selectors).getD [] = []
          rw [synced.mirrors.bare known]; rfl
        exact .inr ⟨never,bare never empty⟩
      · rw [kept known]
        exact .inl caught
    · exact .inr ⟨never,bare never empty⟩
  · intro slice n held
    rw [cut.held] at held
    split at held
    · rename_i inView
      show covered (after.dropSlicesIn after.inView).replica.view slice = true
      rw [drops]
      exact inView
    · cases held
  · rw [Stands,drops]
    exact ⟨rfl,rfl⟩

theorem onViewIn_parts (core : Core V D) (record : ViewRecord) :
    core.onViewIn record = (if ((core.diffIn record).writeView record).checkpoint = none then
      ((core.diffIn record).writeView record).advanceCursorIn record.position false
      else .ok ((core.diffIn record).writeView record)) >>= dropsIn core.frozen := by
  unfold onViewIn
  dsimp only
  split <;> rfl

theorem onViewIn_synced {core after : Core V D} {s : Stream} {record : ViewRecord} {wants : List Name}
    (synced : core.Synced db s) (types : ∀ w ∈ wants, SliceType w) (le : s.sent ≤ record.position) (nonneg : 0 ≤ record.position)
    (formed : ∀ v ∈ record.selectors, WellFormed v ∧ ∃ w ∈ wants, selectorCovers w v = true)
    (quiet : Quiet db.log s.selectors s.sent record.position) (clean : core.Cleanly (.view record))
    (ran : core.onViewIn record = .ok after) :
    after.Synced db (s.after (V:=V) (.view record)) ∧ core.cursor ≤ after.cursor := by
  obtain ⟨mirrors,⟨inv,rests⟩,same⟩ := synced
  rw [onViewIn_parts] at ran
  obtain ⟨written,writes,ran⟩ := bind_ok.mp ran
  obtain ⟨mirrors',diff,kept,frozen,parked⟩ := writeView_viewed mirrors inv le nonneg writes
  rw [same] at quiet
  have inv' := inv.view diff (fun v member => by
    obtain ⟨well,w,want,covers⟩ := formed v member
    exact ⟨well,w,types w want,covers⟩) quiet
  -- whatever is left to do leaves the view and the cursor as written
  have done : ∀ {last : Core V D}, last.Mirrors → last.replica.Invariant db record.position → written.Stands last →
      last.Synced db (s.after (V:=V) (.view record)) ∧ core.cursor ≤ last.cursor := by
    intro last lastMirrors lastInv stood
    refine ⟨⟨lastMirrors,lastInv,?_⟩,?_⟩
    · rw [stood.1,diff.view]; rfl
    · show core.replica.cursor ≤ last.replica.cursor
      rw [stood.2]
      exact diff.cursor.1
  unfold dropsIn at ran
  by_cases freezes : written.frozen = true
  · rw [if_pos freezes] at ran
    cases ran
    exact done mirrors' ⟨inv',fun thawed => absurd ((frozen_iff _).mp freezes) thawed⟩ ⟨rfl,rfl⟩
  · have thawed : written.frozen = false := by simpa using freezes
    rw [if_neg freezes] at ran
    by_cases wasFrozen : core.frozen = true
    · rw [if_pos wasFrozen] at ran
      have still := (thawed_iff written).mp thawed
      obtain ⟨landed,lands,stood⟩ := landIn_invariant mirrors' inv' (fun r d going => absurd ⟨r,d,going⟩ still) (by
        intro _ e member
        have member : written.store.parkedEdits.get (e.slice,e.seq) = some e := member
        rw [parked,diffIn_parked] at member
        have early := clean wasFrozen (by rw [← frozen]; exact thawed) ((e.slice,e.seq),e)
          ((OrderedMap.mem_entries _ _ _).mpr member)
        have moved : core.replica.cursor ≤ written.replica.cursor := diff.cursor.1
        exact le_trans early moved) ran
      exact done landed lands stood
    · have wasThawed : core.frozen = false := by simpa using wasFrozen
      rw [if_neg wasFrozen] at ran
      cases ran
      obtain ⟨dropMirrors,dropInv,stood⟩ := drops_synced ⟨mirrors,⟨inv,rests⟩,same⟩ wasThawed mirrors' inv' diff kept thawed
      exact done dropMirrors dropInv stood

theorem onItemIn_synced {core after : Core V D} {s : Stream} {wants : List Name}
    {item : Inbound V} (synced : core.Synced db s) (types : ∀ w ∈ wants, SliceType w)
    (sends : s.Sends db wants item) (clean : core.Cleanly item) (ran : core.onItemIn item = .ok after) :
    after.Synced db (s.after item) ∧ vouchedBy core.cursor item ≤ after.cursor := by
  cases item with
  | opened epoch head =>
    have opens : after = {core with epoch:=some epoch} := by
      unfold onItemIn onOpenIn at ran
      dsimp only at ran
      split at ran
      · cases ran; rfl
      · split at ran
        · cases ran
        · cases ran; rfl
    rw [opens]
    exact ⟨⟨{synced.mirrors with},synced.invariant,synced.view⟩,le_rfl⟩
  | view record =>
    obtain ⟨_,le,nonneg,formed,quiet⟩ := sends
    exact onViewIn_synced synced types le nonneg formed quiet clean ran
  | edits edits => exact onEditsIn_synced synced sends.2.2 ran
  | live position =>
    obtain ⟨_,_,le,quiet⟩ := sends
    obtain ⟨synced',reached⟩ := onCursorIn_synced synced le quiet ran
    exact ⟨synced',by rw [reached]; exact max_le (le_trans synced.invariant.1.cursor_le le) le_rfl⟩
  | vouch position =>
    obtain ⟨_,_,le,quiet⟩ := sends
    obtain ⟨synced',reached⟩ := onCursorIn_synced synced le quiet ran
    exact ⟨synced',by rw [reached]; exact max_le (le_trans synced.invariant.1.cursor_le le) le_rfl⟩
  | ended fatal =>
    cases ran
    exact ⟨⟨synced.mirrors,synced.invariant,synced.view⟩,le_rfl⟩

-- A rule met by each of an inbox's items where it is reached.
def Along (rule : Core V D → Inbound V → Prop) (core : Core V D) : List (Inbound V) → Prop
  | [] => True
  | item :: rest => rule core item ∧ match core.onItemIn item with
    | .ok next => next.Along rule rest
    | .error _ => True

instance Along.decide (rule : Core V D → Inbound V → Prop) [∀ core item, Decidable (rule core item)] (core : Core V D)
    (items : List (Inbound V)) : Decidable (core.Along rule items) :=
  match items with
  | [] => isTrue trivial
  | item :: rest =>
    have : Decidable (match core.onItemIn item with
        | .ok next => next.Along rule rest
        | .error _ => True) :=
      match core.onItemIn item with
      | .ok next => Along.decide rule next rest
      | .error _ => isTrue trivial
    inferInstanceAs (Decidable (_ ∧ _))

theorem Along.imp {strong weak : Core V D → Inbound V → Prop} {core : Core V D} {items : List (Inbound V)}
    (implied : ∀ core item, strong core item → weak core item) (along : core.Along strong items) : core.Along weak items := by
  induction items generalizing core with
  | nil => trivial
  | cons item rest ih =>
    refine ⟨implied core item along.1,?_⟩
    have tail := along.2
    cases read : core.onItemIn item with
    | error failure => trivial
    | ok next => rw [read] at tail; exact ih tail

theorem onItems_synced {core after : Core V D} {s : Stream} {wants : List Name}
    {items : List (Inbound V)} {final : Stream} (synced : core.Synced db s) (types : ∀ w ∈ wants, SliceType w)
    (carried : Stream.Carries db wants s items final) (clean : core.Along Cleanly items)
    (ran : items.foldlM onItemIn core = .ok after) : after.Synced db final ∧ items.foldl vouchedBy core.cursor ≤ after.cursor := by
  induction items generalizing core s with
  | nil =>
    obtain rfl : s = final := carried
    cases ran
    exact ⟨synced,le_rfl⟩
  | cons item rest ih =>
    obtain ⟨next,one,ran⟩ := foldlM_ok.mp ran
    obtain ⟨⟨_,sends⟩,carried⟩ := carried
    obtain ⟨synced',up⟩ := onItemIn_synced synced types sends clean.1 one
    have tail := clean.2
    rw [one] at tail
    obtain ⟨final,upper⟩ := ih synced' carried tail ran
    exact ⟨final,le_trans (vouchedBys_mono rest up) upper⟩

-- A land tried from an accounted state: at rest there is nothing parked for it.
theorem tryLandIn_synced {core after : Core V D} {s : Stream} (synced : core.Synced db s) (ran : core.tryLandIn = .ok after) :
    after.Synced db s ∧ after.cursor = core.cursor := by
  obtain ⟨mirrors,inv,stood⟩ := tryLandIn_invariant synced.mirrors synced.invariant.1 (by
    intro thawed e member
    exact absurd member ((synced.invariant.2 ((thawed_iff core).mp thawed)).parked e)) ran
  exact ⟨⟨mirrors,inv,synced.view.trans stood.1.symm⟩,stood.2⟩

-- The inbox's transaction.
theorem onItemsIn_synced {core after : Core V D} {s : Stream} {wants : List Name}
    {items : List (Inbound V)} {final : Stream} (synced : core.Synced db s) (types : ∀ w ∈ wants, SliceType w)
    (carried : Stream.Carries db wants s items final) (clean : core.Along Cleanly items)
    (ran : core.onItemsIn items = .ok after) : after.Synced db final ∧ items.foldl vouchedBy core.cursor ≤ after.cursor := by
  obtain ⟨middle,read,ran⟩ := bind_ok.mp ran
  obtain ⟨synced',up⟩ := onItems_synced synced types carried clean read
  by_cases frozen : middle.frozen = true
  · rw [if_pos frozen] at ran
    obtain ⟨landed,stood⟩ := tryLandIn_synced synced' ran
    exact ⟨landed,le_trans up (le_of_eq stood.symm)⟩
  · rw [if_neg frozen] at ran
    cases ran
    exact ⟨synced',up⟩

end Core
end PhaseLock
