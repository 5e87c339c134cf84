import PhaseLock.Journal

namespace PhaseLock
variable {V D : Type}

-- Where the edits that enter the base come from: what the stream and the downloads brought, parked
-- meanwhile or not.
namespace Core
variable {P : WireEdit V → Prop} {core after : Core V D}

-- Every parked edit is of a kind.
def Parked (P : WireEdit V → Prop) (core : Core V D) : Prop := ∀ at_ e, core.store.parkedEdits.get at_ = some e → P e

-- What parks nothing new.
def Fewer (core after : Core V D) : Prop := ∀ at_ e, after.store.parkedEdits.get at_ = some e → core.store.parkedEdits.get at_ = some e

theorem Fewer.refl (core : Core V D) : Fewer core core := fun _ _ held => held

theorem Fewer.trans {a b c : Core V D} (first : Fewer a b) (second : Fewer b c) : Fewer a c :=
  fun at_ e held => first at_ e (second at_ e held)

theorem Fewer.same (same : after.store.parkedEdits = core.store.parkedEdits) : Fewer core after := by
  intro at_ e held
  rw [← same]
  exact held

theorem Fewer.parked (fewer : Fewer core after) (held : core.Parked P) : after.Parked P := fun at_ e inside => held at_ e (fewer at_ e inside)

theorem fewer_folds {α : Type} {f : Core V D → α → Core V D} (items : List α) (each : ∀ (core : Core V D) item, Fewer core (f core item))
    (core : Core V D) : Fewer core (items.foldl f core) :=
  foldl_invariant (P := Fewer core) (fun s item _ before => Fewer.trans before (each s item)) (.refl core)

theorem delParked_fewer (core : Core V D) (slice : Name) : Fewer core {core with store:=core.store.delParked slice} := by
  intro at_ e held
  have held : (core.store.parkedEdits.keep (fun at_ _ => at_.1 ≠ slice)).get at_ = some e := held
  rw [OrderedMap.get_keep] at held
  exact (Option.filter_eq_some_iff.mp held).1

theorem release_fewer (core : Core V D) (id : Nat) : Fewer core (core.release id) := by
  unfold release
  split
  · exact .refl core
  · exact .same rfl

theorem releaseThroughIn_fewer (core : Core V D) (position : Int) : Fewer core (core.releaseThroughIn position) := by
  unfold releaseThroughIn
  split
  · exact .refl core
  · exact Fewer.trans (.same rfl) (fewer_folds _ release_fewer _)

theorem saveCursor_fewer (core : Core V D) (epoch : Name) (position : Int) : Fewer core (core.saveCursor epoch position) := by
  unfold saveCursor
  dsimp only
  split
  · exact .refl core
  · exact .same rfl

theorem advanceCursorIn_fewer {position : Int} {applied : Bool} (ran : core.advanceCursorIn position applied = .ok after) :
    Fewer core after := by
  obtain ⟨epoch,_,rfl⟩ := advance_ok ran
  refine Fewer.trans ?_ (saveCursor_fewer _ epoch position)
  split
  · exact releaseThroughIn_fewer core position
  · exact .refl core

theorem appliedTo_fewer (core : Core V D) (position : Int) : Fewer core (core.appliedTo position) := by
  unfold appliedTo
  split
  · exact .refl core
  · refine Fewer.trans (releaseThroughIn_fewer core position) ?_
    unfold saveApplied
    split
    · exact .refl _
    · exact .same rfl

theorem markSeen_fewer (core : Core V D) (id : Nat) : Fewer core (core.markSeen id) := by
  unfold markSeen
  split
  · exact .refl core
  · exact .same rfl

theorem roundTrip_fewer (core : Core V D) (id : Nat) : Fewer core (core.roundTrip id) := by
  unfold roundTrip
  split
  · exact (fewer_folds [id] release_fewer core).trans (markSeen_fewer _ id)
  · exact markSeen_fewer core id

theorem startBackfill_fewer (core : Core V D) (selector : Name) : Fewer core (core.startBackfill selector) := by
  unfold startBackfill
  split
  · exact .refl core
  · exact .same rfl

theorem restartIn_fewer (core : Core V D) (selector : Name) : Fewer core (core.restartIn selector) := by
  unfold restartIn
  split
  · exact .refl core
  · exact Fewer.trans (.same rfl) (startBackfill_fewer _ selector)

theorem spawnIn_fewer (core : Core V D) (selector : Name) (untilPosition : Int) : Fewer core (core.spawnIn selector untilPosition) := by
  unfold spawnIn
  exact Fewer.trans (.same rfl) (startBackfill_fewer _ selector)

theorem dropBackfillIn_fewer (core : Core V D) (selector : Name) : Fewer core (core.dropBackfillIn selector) := by
  unfold dropBackfillIn
  split
  · exact .refl core
  · exact .same rfl

theorem settleIn_fewer (core : Core V D) (slice : Name) (seq : Option Nat) : Fewer core (core.settleIn slice seq) := by
  cases seq <;> exact .same rfl

theorem clearIn_fewer (core : Core V D) (slice : Name) : Fewer core (core.clearIn slice) := .same rfl

theorem dropSliceIn_fewer (core : Core V D) (slice : Name) : Fewer core (core.dropSliceIn slice) := by
  unfold dropSliceIn
  dsimp only
  exact Fewer.trans (clearIn_fewer core slice) (Fewer.trans (delParked_fewer _ slice) (.same rfl))

theorem dropSlicesIn_fewer (core : Core V D) (keep : Name → Bool) : Fewer core (core.dropSlicesIn keep) :=
  fewer_folds _ dropSliceIn_fewer core

theorem dropBackfillsIn_fewer (core : Core V D) (selectors : List Name) : Fewer core (core.dropBackfillsIn selectors) :=
  fewer_folds _ dropBackfillIn_fewer core

theorem dropParkedIn_fewer (core : Core V D) (keep : Name → Bool) : Fewer core (core.dropParkedIn keep) := by
  intro at_ e held
  rw [dropParkedIn_parked] at held
  split at held
  · exact held
  · cases held

theorem filterView_fewer (core : Core V D) (keep : Name → Bool) : Fewer core (core.filterView keep) := by
  unfold filterView
  split
  · exact .refl core
  · split
    · exact .refl core
    · exact .same rfl

theorem mendIn_fewer (cursor : Int) (core : Core V D) (slice : Name) : Fewer core (mendIn cursor core slice) := by
  unfold mendIn
  split
  · exact restartIn_fewer core slice
  · exact spawnIn_fewer core slice _

theorem writeBlobIn_fewer {b : Blob} {skip : List Name} (ran : core.writeBlobIn b skip = .ok after) : Fewer core after := by
  obtain ⟨⟨store,changed⟩,made,done⟩ := bind_ok.mp ran
  cases done
  obtain ⟨⟨base,keys⟩,_,wrote⟩ := bind_ok.mp made
  cases wrote
  exact .same rfl

theorem applyRunIn_fewer {plan : Plan V} (ran : core.applyRunIn plan = .ok after) : Fewer core after := by
  unfold applyRunIn at ran
  split at ran
  · cases ran
    exact .refl core
  · obtain ⟨⟨store,changed⟩,made,done⟩ := bind_ok.mp ran
    cases done
    obtain ⟨⟨base,keys⟩,_,wrote⟩ := bind_ok.mp made
    cases wrote
    exact Fewer.trans (.same rfl) (fewer_folds plan.run (fun core e => roundTrip_fewer core e.id) _)

theorem landPlansIn_fewer {blobs : List Blob} {plans : List (Plan V)} {cursor : Int}
    (ran : core.landPlansIn blobs plans cursor = .ok after) : Fewer core after := by
  obtain ⟨written,wrote,ran⟩ := bind_ok.mp ran
  obtain ⟨planned,settled,done⟩ := bind_ok.mp ran
  cases done
  have blobbed : Fewer core written := foldlM_invariant (P := Fewer core)
    (fun _ _ _ _ before stepped => Fewer.trans before (writeBlobIn_fewer stepped))
    (fewer_folds (plans.filter (·.blob)) (fun core plan => clearIn_fewer core plan.slice) core) wrote
  have runs : Fewer core planned := foldlM_invariant (P := Fewer core) (fun s plan next _ before stepped => by
    obtain ⟨middle,applied,done⟩ := bind_ok.mp stepped
    cases done
    exact Fewer.trans before (Fewer.trans (applyRunIn_fewer applied) (settleIn_fewer middle plan.slice plan.heldAt))) blobbed settled
  have cleared : Fewer (planned.dropSlicesIn planned.inView) (planned.dropSlicesIn planned.inView).clearParked := fun at_ e none => (by cases none)
  exact runs.trans ((dropSlicesIn_fewer planned _).trans (cleared.trans ((dropBackfillsIn_fewer _ _).trans (appliedTo_fewer _ cursor))))

theorem landIn_fewer (ran : core.landIn = .ok after) : Fewer core after := by
  obtain ⟨blobs,_,ran⟩ := bind_ok.mp ran
  dsimp only at ran
  split at ran
  · cases ran
    exact .refl core
  · split at ran
    · exact landPlansIn_fewer ran
    · cases ran
      exact fewer_folds _ (mendIn_fewer core.cursor) core

theorem tryLandIn_fewer (ran : core.tryLandIn = .ok after) : Fewer core after := by
  obtain ⟨waiting,_,ran⟩ := bind_ok.mp ran
  cases waiting with
  | true =>
    cases ran
    exact .refl core
  | false => exact landIn_fewer ran

theorem purgeIn_fewer {wants : List Name} (ran : core.purgeIn wants = .ok after) : Fewer core after := by
  have purged : Fewer core (core.purged wants) := (dropBackfillsIn_fewer core _).trans ((dropSlicesIn_fewer _ (covered wants)).trans
    ((dropParkedIn_fewer _ (covered wants)).trans (filterView_fewer _ (covered wants))))
  rw [purgeIn_parts] at ran
  split at ran
  · exact purged.trans (tryLandIn_fewer ran)
  · cases ran
    exact purged

theorem onOutcomeIn_fewer (conn : Nat) (core : Core V D) (ended : Ended) : Fewer core (onOutcomeIn conn core ended) := by
  unfold onOutcomeIn
  split
  · exact .refl core
  · split
    · exact .refl core
    · split
      · exact .refl core
      · split
        · exact .same rfl
        · unfold startOver
          exact Fewer.trans (.same rfl) (startBackfill_fewer _ _)
        · split
          · exact .refl core
          · exact .same rfl

theorem onRetryTimer_fewer (core : Core V D) (timer : Name × Nat) : Fewer core (core.onRetryTimer timer) := by
  unfold onRetryTimer
  dsimp only
  split
  · exact .same rfl
  · split
    · exact .same rfl
    · exact Fewer.trans (.same rfl) (startBackfill_fewer _ _)

theorem spawnBreak_fewer (core : Core V D) (e : WireEdit V) : Fewer core (core.spawnBreak e) := by
  unfold spawnBreak
  split
  · exact .refl core
  · exact spawnIn_fewer core e.slice e.position

theorem applyFrameIn_fewer {frame : Frame V} (ran : core.applyFrameIn frame = .ok after) : Fewer core after := by
  obtain ⟨based,wrote,done⟩ := bind_ok.mp ran
  cases done
  obtain ⟨⟨base,changed⟩,_,done⟩ := bind_ok.mp wrote
  cases done
  have tripped := fewer_folds (f := fun core e => roundTrip core (WireEdit.id e)) frame.apply (fun core e => roundTrip_fewer core e.id) core
  have settled := fewer_folds (f := fun (core : Core V D) (row : Name × Option Nat) => core.settleIn row.1 row.2) frame.seqs.entries
    (fun core row => settleIn_fewer core row.1 row.2)
  exact tripped.trans (Fewer.trans (.same rfl) (settled _))

-- What parks edits parks those it is given.
theorem parkEdits_parked {edits : List (WireEdit V)} (held : core.Parked P) (all : ∀ e ∈ edits, P e) : (core.parkEdits edits).Parked P :=
  foldl_invariant (P := fun parked : OrderedMap (Name × Nat) (WireEdit V) => ∀ at_ e, parked.get at_ = some e → P e)
    (fun parked e member before at_ x inside => by
      rw [OrderedMap.get_set] at inside
      split at inside
      · cases inside
        exact all e member
      · exact before at_ x inside) held

end Core

-- The edits an item of the inbox or a push carries.
def Inbound.carried : Inbound V → List (WireEdit V)
  | .edits frame => frame
  | _ => []

def BackfillItem.carried : BackfillItem V → List (WireEdit V)
  | .edits tail _ => tail
  | _ => []

namespace Core
variable {P : WireEdit V → Prop} {core after : Core V D}

theorem diffIn_fewer (core : Core V D) (record : ViewRecord) : Fewer core (core.diffIn record) := by
  unfold diffIn
  refine Fewer.trans (dropBackfillsIn_fewer core _) (fewer_folds _ (fun core selector => ?_) _)
  unfold grantIn
  split
  · exact .refl core
  · split
    · exact .refl core
    · exact spawnIn_fewer core selector _

theorem viewed_fewer {record : ViewRecord} (made : core.viewed record = .ok after) : Fewer core after := by
  have written : Fewer core ((core.diffIn record).writeView record) := Fewer.trans (diffIn_fewer core record) (.same rfl)
  unfold viewed at made
  split at made
  · exact written.trans (advanceCursorIn_fewer made)
  · cases made
    exact written

theorem onItemIn_parked {item : Inbound V} (held : core.Parked P) (all : ∀ e ∈ item.carried, P e) (ran : core.onItemIn item = .ok after) :
    after.Parked P := by
  cases item with
  | opened epoch head =>
    have ran : core.onOpenIn epoch = .ok after := ran
    unfold onOpenIn at ran
    split at ran
    · cases ran
      exact held
    · split at ran
      · cases ran
      · cases ran
        exact held
  | view record =>
    have ran : core.onViewIn record = .ok after := ran
    rw [onViewIn_parts] at ran
    obtain ⟨middle,made,ran⟩ := bind_ok.mp ran
    have seen := (viewed_fewer made).parked held
    unfold dropsIn at ran
    split at ran
    · cases ran
      exact seen
    · split at ran
      · exact (landIn_fewer ran).parked seen
      · cases ran
        exact (dropSlicesIn_fewer middle _).parked seen
  | edits edits =>
    have ran : core.onEditsIn edits = .ok after := ran
    unfold onEditsIn at ran
    split at ran
    · cases ran
      exact held
    · rename_i last _
      have ran : (if core.frozen = true ∨ (core.frameOf edits).breaks ≠ [] then
          (((core.frameOf edits).breaks.foldl spawnBreak core).parkEdits edits).advanceCursorIn last.position false
          else core.applyFrameIn (core.frameOf edits) >>= fun core => core.advanceCursorIn last.position true) = .ok after := ran
      split at ran
      · have spawned := (fewer_folds (core.frameOf edits).breaks spawnBreak_fewer core).parked held
        exact (advanceCursorIn_fewer ran).parked (parkEdits_parked spawned all)
      · obtain ⟨middle,applied,ran⟩ := bind_ok.mp ran
        exact (advanceCursorIn_fewer ran).parked ((applyFrameIn_fewer applied).parked held)
  | live position => exact (advanceCursorIn_fewer ran).parked held
  | vouch position => exact (advanceCursorIn_fewer ran).parked held
  | ended fatal =>
    cases ran
    exact held

theorem onItemsIn_parked {items : List (Inbound V)} (held : core.Parked P) (all : ∀ item ∈ items, ∀ e ∈ item.carried, P e)
    (ran : core.onItemsIn items = .ok after) : after.Parked P := by
  obtain ⟨middle,read,ran⟩ := bind_ok.mp ran
  have seen : middle.Parked P := foldlM_invariant (P := Parked P)
    (fun s item t member before stepped => onItemIn_parked before (all item member) stepped) held read
  split at ran
  · exact (tryLandIn_fewer ran).parked seen
  · cases ran
    exact seen

theorem parkPushIn_parked {selector : Name} {item : BackfillItem V} (held : core.Parked P) (all : ∀ e ∈ item.carried, P e)
    (ran : core.parkPushIn selector item = .ok after) : after.Parked P := by
  unfold parkPushIn at ran
  split at ran
  · cases ran
  · split at ran
    all_goals cases ran
    · exact held
    · exact held
    · exact held
    · exact held
    · exact parkEdits_parked held all
    · exact held

theorem onPushesIn_parked {pushes : List (BackfillWork V)} (held : core.Parked P) (all : ∀ work ∈ pushes, ∀ e ∈ work.item.carried, P e)
    (ran : core.onPushesIn pushes = .ok after) : after.Parked P := by
  obtain ⟨middle,read,ran⟩ := bind_ok.mp ran
  exact (tryLandIn_fewer ran).parked (foldlM_invariant (P := Parked P)
    (fun s work t member before stepped => parkPushIn_parked before (all work member) stepped) held read)

theorem chain_run {e : WireEdit V} {cut : Int} {edits : List (WireEdit V)} {chain : Chain V}
    (member : e ∈ (edits.foldl (Chain.step cut) chain).run) : e ∈ chain.run ∨ e ∈ edits := by
  induction edits generalizing chain with
  | nil => exact .inl member
  | cons head rest ih =>
    rcases ih member with inside | inside
    · unfold Chain.step at inside
      split at inside
      · exact .inl inside
      · split at inside
        · exact .inr (by rw [List.mem_singleton.mp inside]; exact List.mem_cons_self)
        · split at inside
          · cases inside
          · rcases List.mem_append.mp inside with old | new
            · exact .inl old
            · exact .inr (by rw [List.mem_singleton.mp new]; exact List.mem_cons_self)
    · exact .inr (List.mem_cons_of_mem _ inside)

theorem landed_parked (held : core.Parked P) : ∀ e ∈ core.landed, P e := by
  intro e member
  unfold landed at member
  split at member
  · cases member
  · split at member
    · cases member
    · obtain ⟨plan,listed,inside⟩ := List.mem_flatMap.mp member
      obtain ⟨slice,_,rfl⟩ := List.mem_map.mp listed
      rcases chain_run inside with none | parked
      · cases none
      · obtain ⟨seq,here⟩ := (Store.mem_parkedOf _ _ _).mp parked
        exact held _ e here

theorem tryLanded_parked (held : core.Parked P) : ∀ e ∈ core.tryLanded, P e := by
  intro e member
  unfold tryLanded at member
  split at member
  · exact landed_parked held e member
  · cases member

theorem frame_apply {e : WireEdit V} {slices : OrderedMap Name Nat} {edits : List (WireEdit V)} {frame : Frame V}
    (member : e ∈ (edits.foldl (Frame.step slices) frame).apply) : e ∈ frame.apply ∨ e ∈ edits := by
  induction edits generalizing frame with
  | nil => exact .inl member
  | cons head rest ih =>
    rcases ih member with inside | inside
    · unfold Frame.step at inside
      dsimp only at inside
      split at inside
      · exact .inl inside
      · split at inside
        · exact .inl inside
        · rcases List.mem_append.mp inside with old | new
          · exact .inl old
          · exact .inr (by rw [List.mem_singleton.mp new]; exact List.mem_cons_self)
    · exact .inr (List.mem_cons_of_mem _ inside)

theorem framed_carried {edits : List (WireEdit V)} : ∀ e ∈ core.framed edits, e ∈ edits := by
  intro e member
  unfold framed at member
  split at member
  · cases member
  · unfold frameOf at member
    split at member
    · cases member
    · exact (frame_apply member).resolve_left List.not_mem_nil

theorem broughtBy_parked {item : Inbound V} (held : core.Parked P) (all : ∀ e ∈ item.carried, P e) : ∀ e ∈ core.broughtBy item, P e := by
  intro e member
  cases item with
  | edits edits => exact all e (framed_carried e member)
  | view record =>
    unfold broughtBy at member
    dsimp only at member
    split at member
    · rename_i made
      split at member
      · exact landed_parked ((viewed_fewer made).parked held) e member
      · cases member
    · cases member
  | opened | live | vouch | ended => cases member

theorem brought_parked {items : List (Inbound V)} (held : core.Parked P) (all : ∀ item ∈ items, ∀ e ∈ item.carried, P e) :
    ∀ e ∈ core.brought items, P e := by
  induction items generalizing core with
  | nil =>
    intro e member
    unfold brought at member
    split at member
    · exact tryLanded_parked held e member
    · cases member
  | cons item rest ih =>
    intro e member
    unfold brought at member
    rcases List.mem_append.mp member with first | later
    · exact broughtBy_parked held (all item List.mem_cons_self) e first
    · split at later
      · rename_i next stepped
        exact ih (onItemIn_parked held (all item List.mem_cons_self) stepped)
          (fun item member => all item (List.mem_cons_of_mem _ member)) e later
      · cases later

theorem pushed_parked {pushes : List (BackfillWork V)} (held : core.Parked P) (all : ∀ work ∈ pushes, ∀ e ∈ work.item.carried, P e) :
    ∀ e ∈ core.pushed pushes, P e := by
  intro e member
  unfold pushed at member
  split at member
  · rename_i next read
    exact tryLanded_parked (foldlM_invariant (P := Parked P)
      (fun s work t inside before stepped => parkPushIn_parked before (all work inside) stepped) held read) e member
  · cases member

theorem purges_parked {wants : List Name} (held : core.Parked P) : ∀ e ∈ core.purges wants, P e := by
  intro e member
  unfold purges at member
  split at member
  · have purged : Fewer core (core.purged wants) := (dropBackfillsIn_fewer core _).trans ((dropSlicesIn_fewer _ (covered wants)).trans
      ((dropParkedIn_fewer _ (covered wants)).trans (filterView_fewer _ (covered wants))))
    exact tryLanded_parked (purged.parked held) e member
  · cases member

end Core

namespace Engine
variable {P : WireEdit V → Prop} {engine after : Engine V D}

-- Every edit an Engine holds outside its base: queued, being pushed, or parked.
structure Carries (P : WireEdit V → Prop) (engine : Engine V D) : Prop where
  inbox : ∀ item ∈ engine.inbox, ∀ e ∈ item.carried, P e
  pushes : ∀ work ∈ engine.backfillWork, ∀ e ∈ work.item.carried, P e
  parked : engine.core.Parked P

theorem Carries.entering (held : engine.Carries P) : ∀ e ∈ engine.entering, P e := by
  intro e member
  unfold Engine.entering at member
  split at member
  · dsimp only at member
    split at member
    · cases member
    · unfold Core.ifRan at member
      split at member
      · exact Core.brought_parked held.parked (fun item inside => held.inbox item (List.takeWhile_subset _ inside)) e member
      · cases member
  · dsimp only at member
    split at member
    · cases member
    · unfold Core.ifRan at member
      split at member
      · exact Core.pushed_parked held.parked (fun work inside => held.pushes work (List.mem_filter.mp inside).1) e member
      · cases member
  · cases member

end Engine
end PhaseLock
