import PhaseLock.DownloadSteps

namespace PhaseLock
variable {V D : Type} {db : Database V}

namespace Core

-- What a start reads back of a download: all but its state in memory.
def reload (d : Download) : Download :=
  ⟨d.untilPosition,d.resume,d.resume.any (fun r => r.snapshotDone ∧ r.tailDone)⟩

theorem loads_get {rows : List ((Name × BackfillRecord) × Nat)} (distinct : (rows.map (·.1.1)).Nodup)
    (start : OrderedMap Name BackfillEntry) (r : Name) :
    (∀ row ∈ rows, row.1.1 = r → (rows.foldl (fun backfills row => backfills.set row.1.1 (loadEntry row.2 row.1.2)) start).get r =
      some (loadEntry row.2 row.1.2)) ∧
    ((∀ row ∈ rows, row.1.1 ≠ r) →
      (rows.foldl (fun backfills row => backfills.set row.1.1 (loadEntry row.2 row.1.2)) start).get r = start.get r) := by
  induction rows generalizing start with
  | nil => simp
  | cons row rest ih =>
    obtain ⟨absent,tail⟩ := List.nodup_cons.mp distinct
    obtain ⟨inside,outside⟩ := ih tail (start.set row.1.1 (loadEntry row.2 row.1.2))
    refine ⟨?_,?_⟩
    · intro x member same
      rcases List.mem_cons.mp member with rfl | later
      · rw [List.foldl_cons,outside,OrderedMap.get_set,if_pos same]
        rintro y more rfl
        exact absent (List.mem_map.mpr ⟨y,more,same.symm⟩)
      · exact inside x later same
    · intro others
      rw [List.foldl_cons,outside fun x later => others x (List.mem_cons_of_mem _ later),
        OrderedMap.get_set_ne _ _ (others row List.mem_cons_self)]

theorem loadBackfills_get (store : Store V D) (nextEntry : Nat) (r : Name) :
    ∃ id, (loadBackfills store nextEntry).get r = (store.backfills.get r).map (loadEntry id) := by
  have distinct : ((store.backfills.entries.zipIdx nextEntry).map (·.1.1)).Nodup := by
    have keys : (store.backfills.entries.zipIdx nextEntry).map (·.1.1) = store.backfills.keys := by
      unfold OrderedMap.keys
      rw [← List.zipIdx_map_fst nextEntry store.backfills.entries,List.map_map,List.zipIdx_map_fst]
      rfl
    rw [keys]
    exact store.backfills.keys_nodup
  obtain ⟨inside,outside⟩ := loads_get distinct (∅ : OrderedMap Name BackfillEntry) r
  unfold loadBackfills
  cases held : store.backfills.get r with
  | none =>
    refine ⟨0,outside ?_⟩
    rintro ⟨⟨x,record⟩,id⟩ member rfl
    have at_ := (OrderedMap.mem_entries _ _ _).mp (List.fst_mem_of_mem_zipIdx member)
    rw [held] at at_
    cases at_
  | some record =>
    have member := (OrderedMap.mem_entries _ _ _).mpr held
    rw [← List.zipIdx_map_fst nextEntry store.backfills.entries] at member
    obtain ⟨⟨⟨x,y⟩,id⟩,indexed,same⟩ := List.mem_map.mp member
    cases same
    exact ⟨id,inside _ indexed rfl⟩

theorem load_mirrors {core : Core V D} (mirrors : core.Mirrors) (nextEntry : Nat) :
    (load core.store nextEntry : Core V D).Mirrors where
  owned := mirrors.owned
  genuine := mirrors.genuine
  view := rfl
  checkpoint := rfl
  applied := rfl
  bare := by
    intro none
    have none : core.store.checkpoint = .none := none
    rw [mirrors.checkpoint] at none
    show core.store.view = .none
    rw [mirrors.view]
    exact mirrors.bare none
  seqs := fun _ => rfl
  backfills := by
    intro r
    obtain ⟨id,loaded⟩ := loadBackfills_get core.store nextEntry r
    show core.store.backfills.get r = ((loadBackfills core.store nextEntry).get r).map BackfillEntry.record
    rw [loaded,Option.map_map]
    exact Option.map_id'.symm
  headers := by
    intro r gone
    obtain ⟨id,loaded⟩ := loadBackfills_get core.store nextEntry r
    have gone : (loadBackfills core.store nextEntry).get r = none := gone
    rw [loaded,mirrors.backfills r,Option.map_map,Option.map_eq_none_iff] at gone
    exact mirrors.headers r gone

theorem load_replica {core : Core V D} (mirrors : core.Mirrors) (nextEntry : Nat) :
    (load core.store nextEntry : Core V D).replica =
      {core.replica with inflight:=fun r => (core.replica.inflight r).map reload} := by
  refine Replica.ext rfl ?_ ?_ ?_ ?_ rfl ?_ rfl rfl
  · funext slice
    exact mirrors.seqs slice
  · show (core.store.view.map ViewRecord.selectors).getD [] = core.selectors
    rw [mirrors.view]; rfl
  · show (core.store.checkpoint.map CheckpointRecord.position).getD (-1) = core.cursor
    rw [mirrors.checkpoint]; rfl
  · show (core.store.checkpoint.map CheckpointRecord.applied).getD (-1) = core.applied
    rw [mirrors.checkpoint,mirrors.applied]
  · funext r
    obtain ⟨id,loaded⟩ := loadBackfills_get core.store nextEntry r
    show ((loadBackfills core.store nextEntry).get r).map downloadOf = ((core.backfills.get r).map downloadOf).map reload
    rw [loaded,mirrors.backfills r]
    cases held : core.backfills.get r with
    | none => rfl
    | some entry =>
      simp only [Option.map_some,downloadOf,reload,loadEntry]
      congr 2
      cases both : entry.record.resume.any (fun r => r.snapshotDone ∧ r.tailDone) <;> simp

end Core

namespace Replica
variable {rep : Replica V} {sent : Int}

theorem Accounted.reload (inv : rep.Accounted db sent) :
    Accounted db {rep with inflight:=fun r => (rep.inflight r).map Core.reload} sent :=
  {inv with
    inside := by
      intro r d going
      obtain ⟨old,going,_⟩ := Option.map_eq_some_iff.mp going
      exact inv.inside r old going
    kept := by
      intro slice inView clear
      have before : ¬rep.Over slice := fun ⟨r,d,going,covers⟩ => clear ⟨r,Core.reload d,by simp [going],covers⟩
      obtain ⟨base,parked,alive⟩ := inv.kept slice inView before
      exact ⟨base,parked,alive⟩
    downloading := by
      intro r d going
      obtain ⟨old,before,rfl⟩ := Option.map_eq_some_iff.mp going
      obtain ⟨live,fresh,brought,_⟩ := inv.downloading r old before
      refine ⟨live,fresh,fun resume at_ => (brought resume at_).carry (fun _ => id) rfl rfl,?_⟩
      intro ready
      obtain ⟨resume,at_,both⟩ := Option.any_eq_true _ _ |>.mp ready
      simp only [decide_eq_true_eq] at both
      exact ⟨resume,at_,both⟩
    orphan := by
      intro r gone
      exact inv.orphan r (Option.map_eq_none_iff.mp gone)}

theorem Invariant.reload (inv : rep.Invariant db sent) :
    Invariant db {rep with inflight:=fun r => (rep.inflight r).map Core.reload} sent := by
  refine ⟨inv.1.reload,fun thawed => ?_⟩
  have still : ¬rep.Frozen := fun ⟨r,d,going⟩ => thawed ⟨r,Core.reload d,by simp [going]⟩
  obtain ⟨parked,reached,inside⟩ := inv.2 still
  exact ⟨parked,reached,inside⟩

end Replica

namespace Core

-- What a start's purge keeps before it lands, for the wants it is of.
def purged (core : Core V D) (wants : List Name) : Core V D :=
  (((core.dropBackfillsIn (core.backfills.keys.filter (!covered wants ·))).dropSlicesIn (covered wants)).dropParkedIn
    (covered wants)).filterView (covered wants)

theorem purgeIn_parts (core : Core V D) (wants : List Name) :
    core.purgeIn wants = if core.frozen then (core.purged wants).tryLandIn else .ok (core.purged wants) := rfl

theorem purged_replica {core : Core V D} {sent : Int} (wants : List Name) (mirrors : core.Mirrors)
    (inv : core.replica.Accounted db sent) :
    (core.purged wants).Mirrors ∧ core.replica.Purged wants (core.purged wants).replica := by
  have canceled := dropBackfillsIn_replica inv.orphan (core.backfills.keys.filter (!covered wants ·))
  have cutMirrors := dropBackfillsIn_mirrors mirrors (core.backfills.keys.filter (!covered wants ·))
  have cutSlices : (core.dropBackfillsIn (core.backfills.keys.filter (!covered wants ·))).slices = core.slices :=
    foldl_invariant (P := fun s : Core V D => s.slices = core.slices)
      (fun s r _ same => by unfold dropBackfillIn; cases s.backfills.get r <;> exact same) rfl
  have gone : ∀ r, r ∈ core.backfills.keys.filter (!covered wants ·) ↔
      (∃ entry, core.backfills.get r = some entry) ∧ covered wants r = false := by
    intro r; simp [OrderedMap.mem_keys]
  unfold purged
  generalize core.dropBackfillsIn (core.backfills.keys.filter (!covered wants ·)) = cut at canceled cutMirrors cutSlices ⊢
  have plain : ∀ slice n, cut.slices.get slice = some n → '!' ∉ slice := by
    rw [cutSlices]; exact fun slice n held => held_plain inv held
  have empty : ∀ slice, cut.slices.get slice = none → cut.replica.keys slice = fun _ => none := by
    rw [cutSlices,canceled]; exact inv.empty
  obtain ⟨slices,left,drops⟩ := dropSlicesIn_restricted cut (covered wants) plain empty
  have dropMirrors := dropSlicesIn_mirrors cutMirrors (covered wants) plain
  generalize cut.dropSlicesIn (covered wants) = dropped at slices drops dropMirrors ⊢
  have parks := dropParkedIn_replica dropped (covered wants)
  have parkMirrors := dropParkedIn_mirrors dropMirrors (covered wants)
  have views := filterView_replica (dropped.dropParkedIn (covered wants)) (covered wants)
  rw [parks,drops,canceled] at views
  refine ⟨filterView_mirrors parkMirrors _,?_⟩
  have keys : dropped.replica.keys = (core.replica.drop left).keys := by rw [drops,canceled]; rfl
  have inflight : ∀ r d, (core.replica.cancel (core.backfills.keys.filter (!covered wants ·))).inflight r = some d ↔
      core.replica.inflight r = some d ∧ covered wants r = true := by
    intro r d
    simp only [Replica.cancel]
    by_cases leaves : r ∈ core.backfills.keys.filter (!covered wants ·)
    · rw [if_pos leaves]
      simp [((gone r).mp leaves).2]
    · rw [if_neg leaves]
      refine ⟨fun going => ⟨going,?_⟩,And.left⟩
      cases covers : covered wants r with
      | true => rfl
      | false =>
        obtain ⟨entry,held,_⟩ := Option.map_eq_some_iff.mp going
        exact absurd ((gone r).mpr ⟨⟨entry,held⟩,covers⟩) leaves
  rw [views]
  refine ⟨⟨?_,?_,?_,?_⟩,fun e member => member.2,rfl,rfl,rfl,?_,?_,?_⟩
  · intro slice
    have cutKeys := slices.keys slice
    rw [drops,canceled] at cutKeys
    exact cutKeys
  · intro slice
    have cutHeld := slices.held slice
    rw [drops,canceled] at cutHeld
    exact cutHeld
  · intro e member
    exact member.1.1
  · intro e member kept
    have stays := slices.stays e (by rw [canceled]; exact member) kept
    rw [drops,canceled] at stays
    exact ⟨stays,kept⟩
  · intro r d going covers
    exact (inflight r d).mpr ⟨going,covers⟩
  · intro r d going
    obtain ⟨old,covers⟩ := (inflight r d).mp going
    have stays : r ∉ core.backfills.keys.filter (!covered wants ·) := by
      rw [gone,covers]; simp
    refine ⟨old,covers,?_,?_⟩
    · show (if r ∈ _ then _ else core.replica.pages r) = _
      rw [if_neg stays]
    · show (if r ∈ _ then _ else core.replica.header r) = _
      rw [if_neg stays]
  · exact orphans_cancel inv.orphan _

-- A start's purge that ends a freeze leaves no edit parked past the cursor.
def PurgesCleanly (core : Core V D) (wants : List Name) : Prop :=
  core.frozen = true → core.backfills.keys.all (!covered wants ·) = true →
    ∀ row ∈ core.store.parkedEdits.entries, covered wants row.2.slice = true → row.2.position ≤ core.cursor

instance (core : Core V D) (wants : List Name) : Decidable (core.PurgesCleanly wants) := by
  unfold PurgesCleanly; infer_instance

theorem purgeIn_invariant {core after : Core V D} {wants : List Name} {sent : Int} (mirrors : core.Mirrors)
    (inv : core.replica.Invariant db sent) (types : ∀ w ∈ wants, SliceType w) (clean : core.PurgesCleanly wants)
    (ran : core.purgeIn wants = .ok after) :
    after.Mirrors ∧ after.replica.Invariant db sent ∧ after.cursor = core.cursor ∧
      after.selectors = core.selectors.filter (covered wants) := by
  rw [purgeIn_parts] at ran
  obtain ⟨mirrors',cut⟩ := purged_replica wants mirrors inv.1
  have inv' := inv.1.purge types cut
  by_cases frozen : core.frozen = true
  · rw [if_pos frozen] at ran
    obtain ⟨landed,lands,stood⟩ := tryLandIn_invariant mirrors' inv' (by
      intro thawed e member
      have still := (thawed_iff _).mp thawed
      have early := clean frozen (by
        rw [List.all_eq_true]
        intro r inside
        obtain ⟨entry,held⟩ := (OrderedMap.mem_keys _ _).mp inside
        cases covers : covered wants r with
        | false => rfl
        | true => exact absurd ⟨r,_,cut.stays r _ (inflight_of held) covers⟩ still) ((e.slice,e.seq),e)
        ((OrderedMap.mem_entries _ _ _).mpr (cut.slices.parked member))
      have cursor : (core.purged wants).cursor = core.cursor := cut.cursor
      rw [cursor]
      exact early (cut.wanted e member)) ran
    exact ⟨landed,lands,stood.2.trans cut.cursor,stood.1.trans cut.view⟩
  · have thawed : core.frozen = false := by simpa using frozen
    rw [if_neg frozen] at ran
    cases ran
    have still := (thawed_iff core).mp thawed
    exact ⟨mirrors',⟨inv',fun _ => (inv.2 still).purge inv.1 types cut⟩,cut.cursor,cut.view⟩

end Core
end PhaseLock
