import PhaseLock.Replica

namespace PhaseLock
variable {V D : Type}

namespace Core

def downloadOf (entry : BackfillEntry) : Download :=
  ⟨entry.record.untilPosition,entry.record.resume,entry.status = .ready⟩

-- The accounting's view of the Engine's state.
def replica (core : Core V D) : Replica V where
  keys := core.store.base.sliceKeys
  held := core.slices.get
  view := core.selectors
  cursor := core.cursor
  applied := core.applied
  parked := {e | core.store.parkedEdits.get (e.slice,e.seq) = some e}
  inflight := fun r => (core.backfills.get r).map downloadOf
  pages := fun r start => core.store.parkedPages.get (r,start)
  header := fun r slice => (core.headerOf r).get slice

-- Memory and store tell one story, and every row stands under its own key.
structure Mirrors (core : Core V D) : Prop where
  owned : core.store.base.Owned
  genuine : core.store.Genuine
  view : core.store.view = core.view
  checkpoint : core.store.checkpoint = core.checkpoint
  applied : core.applied = (core.checkpoint.map CheckpointRecord.applied).getD (-1)
  bare : core.checkpoint = none → core.view = none
  seqs : ∀ slice, core.store.seqs.get slice = core.slices.get slice
  backfills : ∀ r, core.store.backfills.get r = (core.backfills.get r).map BackfillEntry.record
  headers : ∀ r, core.backfills.get r = none → core.store.backfillSeqs.get r = none

theorem frozen_iff (core : Core V D) : core.frozen = true ↔ core.replica.Frozen := by
  unfold frozen Replica.Frozen replica
  rw [decide_eq_true_eq,OrderedMap.size,List.length_pos_iff,ne_eq,OrderedMap.entries_nil]
  simp only [Option.map_eq_some_iff]
  constructor
  · intro some
    by_contra none
    refine some fun r => Option.eq_none_iff_forall_ne_some.mpr fun entry held => none ⟨r,_,entry,held,rfl⟩
  · rintro ⟨r,_,entry,held,_⟩ none
    rw [none r] at held
    cases held

theorem thawed_iff (core : Core V D) : core.frozen = false ↔ ¬core.replica.Frozen := by
  rw [← frozen_iff,Bool.not_eq_true]

-- What touches the outbox and its rows alone leaves the sync's state alone.
def Beside (core after : Core V D) : Prop :=
  ∃ mutations outgoing dirty, after = {core.withOutgoing mutations outgoing with dirty}

theorem Beside.refl (core : Core V D) : core.Beside core := ⟨core.store.mutations,core.outgoing,core.dirty,rfl⟩

theorem Beside.trans {a b c : Core V D} (first : a.Beside b) (second : b.Beside c) : a.Beside c := by
  obtain ⟨m,o,d,rfl⟩ := first
  obtain ⟨m',o',d',rfl⟩ := second
  exact ⟨m',o',d',rfl⟩

theorem Beside.replica {core after : Core V D} (beside : core.Beside after) : after.replica = core.replica := by
  obtain ⟨m,o,d,rfl⟩ := beside
  rfl

theorem Beside.mirrors {core after : Core V D} (beside : core.Beside after) (mirrors : core.Mirrors) : after.Mirrors := by
  obtain ⟨m,o,d,rfl⟩ := beside
  exact ⟨mirrors.owned,mirrors.genuine,mirrors.view,mirrors.checkpoint,mirrors.applied,mirrors.bare,mirrors.seqs,
    mirrors.backfills,mirrors.headers⟩

theorem beside_release (core : Core V D) (id : Nat) : core.Beside (core.release id) := by
  unfold release
  cases core.outgoing.outbox.get id with
  | none => exact .refl core
  | some ordinal => exact ⟨_,_,core.dirty,rfl⟩

theorem beside_releaseIn (core : Core V D) (ids : List Nat) : core.Beside (core.releaseIn ids) :=
  foldl_invariant (f := release) (fun s id _ beside => Beside.trans beside (beside_release s id)) (.refl core)

theorem beside_markSeen (core : Core V D) (id : Nat) : core.Beside (core.markSeen id) := by
  unfold markSeen
  cases core.outgoing.online.get id with
  | none => exact .refl core
  | some online => exact ⟨core.store.mutations,{core.outgoing with online:=core.outgoing.online.set id {online with seen:=true}},core.dirty,rfl⟩

theorem beside_roundTrip (core : Core V D) (id : Nat) : core.Beside (core.roundTrip id) := by
  unfold roundTrip
  split
  · exact (beside_releaseIn core [id]).trans (beside_markSeen _ id)
  · exact beside_markSeen core id

theorem beside_roundTrips (core : Core V D) (edits : List (WireEdit V)) :
    core.Beside (edits.foldl (fun core e => core.roundTrip e.id) core) :=
  foldl_invariant (fun s e _ beside => Beside.trans beside (beside_roundTrip s e.id)) (.refl core)

-- The applied position moves up, and only the outbox with it.
theorem releaseThroughIn_beside (core : Core V D) (position : Int) :
    ({core with applied:=max position core.applied} : Core V D).Beside (core.releaseThroughIn position) := by
  unfold releaseThroughIn
  split
  · rename_i le; rw [max_eq_right le]; exact .refl core
  · rename_i past; rw [max_eq_left (by omega)]; exact beside_releaseIn _ _

theorem saveCursor_replica (core : Core V D) (epoch : Name) (position : Int) :
    (core.saveCursor epoch position).replica = {core.replica with cursor:=max position core.cursor} := by
  unfold saveCursor
  dsimp only
  split
  · rename_i same
    obtain ⟨c,held,at_⟩ := Option.any_eq_true _ _ |>.mp same
    simp only [decide_eq_true_eq] at at_
    have here : core.checkpoint = some c := held
    have cursor : core.cursor = max position core.cursor := by
      calc core.cursor = c.position := by unfold Core.cursor; rw [here]; rfl
        _ = max position core.cursor := at_.1
    rw [← cursor]
    rfl
  · rfl

-- A saved checkpoint agrees with memory, whatever the applied position was.
theorem saveCursor_mirrors (core : Core V D) (epoch : Name) (position applied : Int) (mirrors : core.Mirrors) :
    (({core with applied} : Core V D).saveCursor epoch position).Mirrors := by
  unfold saveCursor
  dsimp only
  split
  · rename_i same
    obtain ⟨c,held,at_⟩ := Option.any_eq_true _ _ |>.mp same
    simp only [decide_eq_true_eq] at at_
    have here : core.checkpoint = some c := held
    refine ⟨mirrors.owned,mirrors.genuine,mirrors.view,mirrors.checkpoint,?_,mirrors.bare,mirrors.seqs,
      mirrors.backfills,mirrors.headers⟩
    dsimp only
    rw [here]
    exact at_.2.symm
  · exact ⟨mirrors.owned,mirrors.genuine,mirrors.view,rfl,rfl,by rintro ⟨⟩,mirrors.seqs,mirrors.backfills,mirrors.headers⟩

theorem advance_ok {core after : Core V D} {applied : Bool} (ran : core.advanceCursorIn position applied = .ok after) :
    ∃ epoch, core.epoch = some epoch ∧
      after = (if applied then core.releaseThroughIn position else core).saveCursor epoch position := by
  unfold advanceCursorIn at ran
  cases known : core.epoch with
  | none => rw [known] at ran; cases ran
  | some epoch => rw [known] at ran; cases ran; exact ⟨epoch,rfl,rfl⟩

theorem advanceCursorIn_replica {core after : Core V D} {applied : Bool}
    (ran : core.advanceCursorIn position applied = .ok after) :
    after.replica = {core.replica with
      cursor:=max position core.cursor
      applied:=if applied then max position core.applied else core.applied} := by
  obtain ⟨epoch,_,rfl⟩ := advance_ok ran
  rw [saveCursor_replica]
  cases applied with
  | false => rfl
  | true =>
    have released := releaseThroughIn_beside core position
    have cursor : (core.releaseThroughIn position).cursor = core.cursor := by
      obtain ⟨m,o,d,equal⟩ := released
      rw [equal]; rfl
    rw [if_pos rfl,if_pos rfl,released.replica,cursor]
    rfl

theorem advanceCursorIn_mirrors {core after : Core V D} {applied : Bool}
    (ran : core.advanceCursorIn position applied = .ok after) (mirrors : core.Mirrors) : after.Mirrors := by
  obtain ⟨epoch,_,rfl⟩ := advance_ok ran
  cases applied with
  | false => exact saveCursor_mirrors core epoch position core.applied mirrors
  | true =>
    obtain ⟨m,o,d,equal⟩ := releaseThroughIn_beside core position
    rw [if_pos rfl,equal]
    have beside : core.Beside {core.withOutgoing m o with dirty:=d} := ⟨m,o,d,rfl⟩
    exact saveCursor_mirrors _ epoch position (max position core.applied) (beside.mirrors mirrors)

theorem saveApplied_replica (core : Core V D) (position : Int) : (core.saveApplied position).replica = core.replica := by
  unfold saveApplied
  cases known : core.checkpoint with
  | none => rfl
  | some c =>
    have cursor : core.cursor = c.position := by unfold Core.cursor; rw [known]; rfl
    unfold replica
    rw [cursor]
    rfl

theorem appliedTo_replica (core : Core V D) (position : Int) :
    (core.appliedTo position).replica = {core.replica with applied:=max position core.applied} := by
  unfold appliedTo
  split
  · rename_i le; rw [max_eq_right le]; rfl
  · rw [saveApplied_replica,(releaseThroughIn_beside core position).replica]; rfl

theorem appliedTo_mirrors {core : Core V D} (mirrors : core.Mirrors) (known : position ≤ core.applied ∨ core.checkpoint ≠ none) :
    (core.appliedTo position).Mirrors := by
  unfold appliedTo
  split
  · exact mirrors
  · rename_i past
    obtain ⟨c,held⟩ := Option.ne_none_iff_exists'.mp (known.resolve_left past)
    obtain ⟨m,o,d,equal⟩ := releaseThroughIn_beside core position
    rw [equal]
    unfold saveApplied
    dsimp only [withOutgoing]
    rw [held]
    refine ⟨mirrors.owned,mirrors.genuine,mirrors.view,rfl,?_,by rintro ⟨⟩,mirrors.seqs,mirrors.backfills,mirrors.headers⟩
    exact max_eq_left (by omega)

-- A store's record table following memory's.
theorem writeBackfill_replica (core : Core V D) (r : Name) (entry : BackfillEntry) :
    (core.writeBackfill r entry).replica =
      {core.replica with inflight:=Function.update core.replica.inflight r (some (downloadOf entry))} := by
  refine Replica.ext rfl rfl rfl rfl rfl rfl ?_ rfl rfl
  funext x
  show ((core.backfills.set r entry).get x).map downloadOf =
    Function.update core.replica.inflight r (some (downloadOf entry)) x
  rw [OrderedMap.get_set]
  by_cases same : r = x
  · subst same; simp
  · rw [if_neg same,Function.update_of_ne (Ne.symm same)]; rfl

theorem writeBackfill_mirrors {core : Core V D} (mirrors : core.Mirrors) (r : Name) (entry : BackfillEntry) :
    (core.writeBackfill r entry).Mirrors where
  owned := mirrors.owned
  genuine := mirrors.genuine
  view := mirrors.view
  checkpoint := mirrors.checkpoint
  applied := mirrors.applied
  bare := mirrors.bare
  seqs := mirrors.seqs
  backfills := by
    intro x
    show (core.store.backfills.set r entry.record).get x = ((core.backfills.set r entry).get x).map BackfillEntry.record
    rw [OrderedMap.get_set,OrderedMap.get_set,mirrors.backfills x]
    split <;> rfl
  headers := by
    intro x gone
    have gone : (core.backfills.set r entry).get x = none := gone
    rw [OrderedMap.get_set] at gone
    split at gone
    · cases gone
    · exact mirrors.headers x gone

-- A change of an entry that its record does not show.
theorem setEntry_mirrors {core : Core V D} (mirrors : core.Mirrors) {entry : BackfillEntry} (new : BackfillEntry)
    (held : core.backfills.get r = some entry) (same : new.record = entry.record) :
    ({core with backfills:=core.backfills.set r new} : Core V D).Mirrors :=
  {mirrors with
    backfills := by
      intro x
      show core.store.backfills.get x = ((core.backfills.set r new).get x).map BackfillEntry.record
      rw [OrderedMap.get_set,mirrors.backfills x]
      by_cases here : r = x
      · subst here; rw [if_pos rfl,held]; exact congrArg some same.symm
      · rw [if_neg here]
    headers := by
      intro x gone
      have gone : (core.backfills.set r new).get x = none := gone
      rw [OrderedMap.get_set] at gone
      split at gone
      · cases gone
      · exact mirrors.headers x gone}

theorem setEntry_replica (core : Core V D) (r : Name) (entry : BackfillEntry) :
    ({core with backfills:=core.backfills.set r entry} : Core V D).replica =
      {core.replica with inflight:=Function.update core.replica.inflight r (some (downloadOf entry))} :=
  writeBackfill_replica core r entry

theorem startBackfill_mirrors {core : Core V D} (mirrors : core.Mirrors) (r : Name) : (core.startBackfill r).Mirrors := by
  unfold startBackfill
  cases held : core.backfills.get r with
  | none => exact mirrors
  | some entry =>
    have moved := setEntry_mirrors mirrors {entry with status:=.downloading} held rfl
    exact {moved with}

theorem startBackfill_replica {core : Core V D} {entry : BackfillEntry} (held : core.backfills.get r = some entry) :
    (core.startBackfill r).replica = {core.replica with
      inflight:=Function.update core.replica.inflight r (some ⟨entry.record.untilPosition,entry.record.resume,false⟩)} := by
  unfold startBackfill
  rw [held]
  exact setEntry_replica core r {entry with status:=.downloading}

theorem writeBackfill_held (core : Core V D) (r : Name) (entry : BackfillEntry) :
    (core.writeBackfill r entry).backfills.get r = some entry := OrderedMap.get_set_self core.backfills r entry

theorem spawnIn_replica (core : Core V D) (r : Name) (untilPosition : Int) :
    (core.spawnIn r untilPosition).replica = core.replica.spawn r untilPosition := by
  unfold spawnIn
  dsimp only
  rw [startBackfill_replica (writeBackfill_held _ r _),writeBackfill_replica]
  exact Replica.ext rfl rfl rfl rfl rfl rfl (Function.update_idem ..) rfl rfl

theorem spawnIn_mirrors {core : Core V D} (mirrors : core.Mirrors) (r : Name) (untilPosition : Int) :
    (core.spawnIn r untilPosition).Mirrors := by
  unfold spawnIn
  have numbered : ({core with nextEntry:=core.nextEntry+1} : Core V D).Mirrors := {mirrors with}
  exact startBackfill_mirrors (writeBackfill_mirrors numbered r _) r

-- The parked pages and the header of a selector go.
theorem delPages_get (store : Store V D) (r x : Name) (start : Nat) :
    (store.delPages r).parkedPages.get (x,start) = if x = r then none else store.parkedPages.get (x,start) := by
  show (store.parkedPages.keep _).get (x,start) = _
  rw [OrderedMap.get_keep]
  by_cases same : x = r
  · cases store.parkedPages.get (x,start) <;> simp [Option.filter,same]
  · cases store.parkedPages.get (x,start) <;> simp [Option.filter,same]

theorem delHeader_get (headers : OrderedMap Name (OrderedMap Name Nat)) (r x slice : Name) :
    (((headers.del r).get x).getD ∅).get slice = if x = r then none else ((headers.get x).getD ∅).get slice := by
  rw [OrderedMap.get_del]
  by_cases same : r = x
  · subst same; simp
  · rw [if_neg same,if_neg (Ne.symm same)]

theorem restartIn_replica {core : Core V D} {entry : BackfillEntry} (held : core.backfills.get r = some entry) :
    (core.restartIn r).replica =
      core.replica.download r ⟨entry.record.untilPosition,none,false⟩ ∅ (fun _ => none) (fun _ => none) := by
  unfold restartIn
  rw [held]
  dsimp only
  rw [startBackfill_replica (writeBackfill_held _ r _),writeBackfill_replica]
  refine Replica.ext rfl rfl rfl rfl rfl ?_ (Function.update_idem ..) ?_ ?_
  · show core.replica.parked = core.replica.parked ∪ ∅
    exact (Set.union_empty _).symm
  · funext x start
    show (core.store.delPages r).parkedPages.get (x,start) = Function.update core.replica.pages r (fun _ => none) x start
    rw [delPages_get]
    by_cases same : x = r
    · subst same; simp
    · rw [if_neg same,Function.update_of_ne same]; rfl
  · funext x slice
    show (((core.store.backfillSeqs.del r).get x).getD ∅).get slice =
      Function.update core.replica.header r (fun _ => none) x slice
    rw [delHeader_get]
    by_cases same : x = r
    · subst same; simp
    · rw [if_neg same,Function.update_of_ne same]; rfl

-- Pages alone may go, and the headers of downloads.
theorem delPages_mirrors {core : Core V D} (mirrors : core.Mirrors) (r : Name) :
    ({core with store:=core.store.delPages r} : Core V D).Mirrors := {mirrors with}

theorem delHeader_mirrors {core : Core V D} (mirrors : core.Mirrors) (r : Name) :
    ({core with store:={core.store.delPages r with backfillSeqs:=core.store.backfillSeqs.del r}} : Core V D).Mirrors :=
  {mirrors with
    headers := by
      intro x gone
      show (core.store.backfillSeqs.del r).get x = none
      rw [OrderedMap.get_del]
      split
      · rfl
      · exact mirrors.headers x gone}

theorem restartIn_mirrors {core : Core V D} (mirrors : core.Mirrors) (r : Name) : (core.restartIn r).Mirrors := by
  unfold restartIn
  cases core.backfills.get r with
  | none => exact mirrors
  | some entry => exact startBackfill_mirrors (writeBackfill_mirrors (delHeader_mirrors mirrors r) r _) r

def Orphans (rep : Replica V) : Prop :=
  ∀ r, rep.inflight r = none → (∀ start, rep.pages r start = none) ∧ ∀ slice, rep.header r slice = none

theorem dropBackfillIn_replica {core : Core V D} (orphan : Orphans core.replica) (r : Name) :
    (core.dropBackfillIn r).replica = core.replica.cancel [r] := by
  unfold dropBackfillIn
  cases held : core.backfills.get r with
  | none =>
    obtain ⟨pages,header⟩ := orphan r (by simp [replica,held])
    have same : ∀ x, x ∈ [r] ↔ x = r := by simp
    unfold Replica.cancel
    simp only [same]
    have inflight : (fun x => if x = r then none else core.replica.inflight x) = core.replica.inflight := by
      funext x; by_cases here : x = r
      · subst here; simp [replica,held]
      · rw [if_neg here]
    have paged : (fun x => if x = r then fun _ => none else core.replica.pages x) = core.replica.pages := by
      funext x; by_cases here : x = r
      · subst here; rw [if_pos rfl]; funext start; exact (pages start).symm
      · rw [if_neg here]
    have headed : (fun x => if x = r then fun _ => none else core.replica.header x) = core.replica.header := by
      funext x; by_cases here : x = r
      · subst here; rw [if_pos rfl]; funext slice; exact (header slice).symm
      · rw [if_neg here]
    rw [inflight,paged,headed]
  | some entry =>
    unfold Replica.cancel
    have same : ∀ x, x ∈ [r] ↔ x = r := by simp
    simp only [same]
    refine Replica.ext rfl rfl rfl rfl rfl rfl ?_ ?_ ?_
    · funext x
      show ((core.backfills.del r).get x).map downloadOf = if x = r then none else (core.backfills.get x).map downloadOf
      rw [OrderedMap.get_del]
      by_cases here : r = x
      · subst here; simp
      · rw [if_neg here,if_neg (Ne.symm here)]
    · funext x start
      show (core.store.delPages r).parkedPages.get (x,start) = (if x = r then fun _ => none else core.replica.pages x) start
      rw [delPages_get]
      split <;> rfl
    · funext x slice
      show (((core.store.backfillSeqs.del r).get x).getD ∅).get slice =
        (if x = r then fun _ => none else core.replica.header x) slice
      rw [delHeader_get]
      split <;> rfl

theorem orphans_cancel {rep : Replica V} (orphan : Orphans rep) (gone : List Name) : Orphans (rep.cancel gone) := by
  intro r none
  simp only [Replica.cancel] at none ⊢
  by_cases here : r ∈ gone
  · simp [here]
  · rw [if_neg here] at none
    simpa [here] using orphan r none

theorem dropBackfillsIn_replica {core : Core V D} (orphan : Orphans core.replica) (gone : List Name) :
    (core.dropBackfillsIn gone).replica = core.replica.cancel gone := by
  unfold dropBackfillsIn
  induction gone generalizing core with
  | nil => exact (Replica.cancel_nil _).symm
  | cons r rest ih =>
    have one := dropBackfillIn_replica orphan r
    rw [List.foldl_cons,ih (by rw [one]; exact orphans_cancel orphan [r]),one,Replica.cancel_cons]

theorem dropBackfillIn_mirrors {core : Core V D} (mirrors : core.Mirrors) (r : Name) : (core.dropBackfillIn r).Mirrors := by
  unfold dropBackfillIn
  cases core.backfills.get r with
  | none => exact mirrors
  | some entry =>
    exact {mirrors with
      backfills := by
        intro x
        show (core.store.backfills.del r).get x = ((core.backfills.del r).get x).map BackfillEntry.record
        rw [OrderedMap.get_del,OrderedMap.get_del,mirrors.backfills x]
        split <;> rfl
      headers := by
        intro x gone
        have gone : (core.backfills.del r).get x = none := gone
        show (core.store.backfillSeqs.del r).get x = none
        rw [OrderedMap.get_del] at gone ⊢
        split at gone
        · rename_i same; rw [if_pos same]
        · rename_i other; rw [if_neg other]; exact mirrors.headers x gone}

theorem dropBackfillsIn_mirrors {core : Core V D} (mirrors : core.Mirrors) (gone : List Name) :
    (core.dropBackfillsIn gone).Mirrors :=
  foldl_invariant (fun _ r _ held => dropBackfillIn_mirrors held r) mirrors

-- Slices held, forgotten, cleared and dropped.
theorem settleIn_replica (core : Core V D) (slice : Name) (seq : Option Nat) :
    (core.settleIn slice seq).replica = {core.replica with held:=Function.update core.replica.held slice seq} := by
  refine Replica.ext ?_ ?_ ?_ ?_ ?_ ?_ ?_ ?_ ?_
  case refine_2 =>
    funext x
    show (core.settleIn slice seq).slices.get x = Function.update core.replica.held slice seq x
    cases seq with
    | none =>
      show (core.slices.del slice).get x = _
      rw [OrderedMap.get_del]
      by_cases same : slice = x
      · subst same; simp
      · rw [if_neg same,Function.update_of_ne (Ne.symm same)]; rfl
    | some n =>
      show (core.slices.set slice n).get x = _
      rw [OrderedMap.get_set]
      by_cases same : slice = x
      · subst same; simp
      · rw [if_neg same,Function.update_of_ne (Ne.symm same)]; rfl
  all_goals cases seq <;> rfl

theorem settleIn_mirrors {core : Core V D} (mirrors : core.Mirrors) (slice : Name) (seq : Option Nat) :
    (core.settleIn slice seq).Mirrors := by
  cases seq with
  | none =>
    exact {mirrors with
      seqs := by
        intro x
        show (core.store.seqs.del slice).get x = (core.slices.del slice).get x
        rw [OrderedMap.get_del,OrderedMap.get_del,mirrors.seqs x]}
  | some n =>
    exact {mirrors with
      seqs := by
        intro x
        show (core.store.seqs.set slice n).get x = (core.slices.set slice n).get x
        rw [OrderedMap.get_set,OrderedMap.get_set,mirrors.seqs x]}

theorem clearIn_replica (core : Core V D) (plain : '!' ∉ slice) :
    (core.clearIn slice).replica = {core.replica with keys:=Function.update core.replica.keys slice (fun _ => none)} := by
  refine Replica.ext ?_ rfl rfl rfl rfl rfl rfl rfl rfl
  funext x
  show (core.store.base.delPrefix (slicePrefix slice)).1.sliceKeys x =
    Function.update core.replica.keys slice (fun _ => none) x
  by_cases same : x = slice
  · subst same; rw [Base.clear_slice _ plain,Function.update_self]
  · rw [Base.clear_other _ plain same,Function.update_of_ne same]; rfl

theorem clearIn_mirrors {core : Core V D} (mirrors : core.Mirrors) (plain : '!' ∉ slice) : (core.clearIn slice).Mirrors :=
  {mirrors with owned := Base.clear_owned plain mirrors.owned}

theorem delParked_get (parked : OrderedMap (Name × Nat) (WireEdit V)) (slice : Name) (at_ : Name × Nat) :
    (parked.keep (fun key _ => key.1 ≠ slice)).get at_ = if at_.1 = slice then none else parked.get at_ := by
  rw [OrderedMap.get_keep]
  by_cases same : at_.1 = slice
  · cases parked.get at_ <;> simp [Option.filter,same]
  · cases parked.get at_ <;> simp [Option.filter,same]

theorem dropSliceIn_replica (core : Core V D) (plain : '!' ∉ slice) :
    (core.dropSliceIn slice).replica = core.replica.drop [slice] := by
  have same : ∀ x, x ∈ [slice] ↔ x = slice := by simp
  refine Replica.ext ?_ ?_ rfl rfl rfl ?_ rfl rfl rfl
  · show (core.clearIn slice).replica.keys = _
    rw [clearIn_replica core plain]
    funext x
    show Function.update core.replica.keys slice (fun _ => none) x = if x ∈ [slice] then fun _ => none else core.replica.keys x
    simp only [same,Function.update_apply]
  · funext x
    show (core.slices.del slice).get x = if x ∈ [slice] then none else core.slices.get x
    rw [OrderedMap.get_del]
    simp only [same,eq_comm]
  · ext e
    show (core.store.parkedEdits.keep _).get (e.slice,e.seq) = some e ↔
      core.store.parkedEdits.get (e.slice,e.seq) = some e ∧ e.slice ∉ [slice]
    rw [delParked_get]
    simp only [same]
    by_cases here : e.slice = slice <;> simp [here]

theorem dropSliceIn_mirrors {core : Core V D} (mirrors : core.Mirrors) (plain : '!' ∉ slice) :
    (core.dropSliceIn slice).Mirrors := by
  have cleared := clearIn_mirrors mirrors plain
  exact {cleared with
    genuine := by
      intro name seq e parked
      have parked : (core.store.parkedEdits.keep _).get (name,seq) = some e := parked
      rw [delParked_get] at parked
      split at parked
      · cases parked
      · exact mirrors.genuine name seq e parked
    seqs := by
      intro x
      show (core.store.seqs.del slice).get x = (core.slices.del slice).get x
      rw [OrderedMap.get_del,OrderedMap.get_del,mirrors.seqs x]}

theorem dropSlices_replica (core : Core V D) (gone : List Name) (plain : ∀ slice ∈ gone, '!' ∉ slice) :
    (gone.foldl dropSliceIn core).replica = core.replica.drop gone := by
  induction gone generalizing core with
  | nil => exact (Replica.drop_nil _).symm
  | cons slice rest ih =>
    rw [List.foldl_cons,ih _ (fun x member => plain x (List.mem_cons_of_mem _ member)),
      dropSliceIn_replica core (plain slice List.mem_cons_self),Replica.drop_cons]

theorem dropSlicesIn_mirrors {core : Core V D} (mirrors : core.Mirrors) (keep : Name → Bool)
    (plain : ∀ slice n, core.slices.get slice = some n → '!' ∉ slice) : (core.dropSlicesIn keep).Mirrors := by
  refine foldl_invariant (fun s slice member held => dropSliceIn_mirrors held ?_) mirrors
  obtain ⟨n,held⟩ := (core.slices.mem_keys slice).mp (List.mem_filter.mp member).1
  exact plain slice n held

-- Held slices outside keep leave; one not held has no keys to leave.
theorem dropSlicesIn_restricted (core : Core V D) (keep : Name → Bool)
    (plain : ∀ slice n, core.slices.get slice = some n → '!' ∉ slice)
    (empty : ∀ slice, core.slices.get slice = none → core.replica.keys slice = fun _ => none) :
    core.replica.Restricted keep (core.dropSlicesIn keep).replica ∧
      ∃ gone, (core.dropSlicesIn keep).replica = core.replica.drop gone := by
  have closed : (core.dropSlicesIn keep).replica = core.replica.drop (core.slices.keys.filter (!keep ·)) := by
    refine dropSlices_replica core _ fun slice member => ?_
    obtain ⟨n,held⟩ := (core.slices.mem_keys slice).mp (List.mem_filter.mp member).1
    exact plain slice n held
  have gone : ∀ slice, slice ∈ core.slices.keys.filter (!keep ·) ↔
      (∃ n, core.slices.get slice = some n) ∧ keep slice = false := by
    intro slice; simp [OrderedMap.mem_keys]
  generalize core.slices.keys.filter (!keep ·) = left at closed gone
  refine ⟨?_,left,closed⟩
  rw [closed]
  have stays : ∀ slice, slice ∉ left → keep slice = true ∨ core.slices.get slice = none := by
    intro slice stays
    cases kept : keep slice with
    | true => exact .inl rfl
    | false =>
      cases held : core.slices.get slice with
      | none => exact .inr rfl
      | some n => exact absurd ((gone slice).mpr ⟨⟨n,held⟩,kept⟩) stays
  refine ⟨?_,?_,fun e member => member.1,fun e member kept => ⟨member,?_⟩⟩
  · intro slice
    show (if slice ∈ left then fun _ => none else core.replica.keys slice) = _
    by_cases leaves : slice ∈ left
    · rw [if_pos leaves,((gone slice).mp leaves).2]; rfl
    · rw [if_neg leaves]
      rcases stays slice leaves with kept | unheld
      · rw [kept]; rfl
      · rw [empty slice unheld]; split <;> rfl
  · intro slice
    show (if slice ∈ left then none else core.slices.get slice) = if keep slice = true then core.slices.get slice else none
    by_cases leaves : slice ∈ left
    · rw [if_pos leaves,((gone slice).mp leaves).2]; rfl
    · rw [if_neg leaves]
      rcases stays slice leaves with kept | unheld
      · rw [kept]; rfl
      · rw [unheld]; split <;> rfl
  · rw [gone,kept]; simp

-- Parked edits: those of a log stand apart by slice and seq.
theorem parkEdits_get (edits : List (WireEdit V)) (parked : OrderedMap (Name × Nat) (WireEdit V)) (at_ : Name × Nat)
    (e : WireEdit V) (held : (edits.foldl (fun parked e => parked.set (e.slice,e.seq) e) parked).get at_ = some e) :
    parked.get at_ = some e ∨ e ∈ edits ∧ at_ = (e.slice,e.seq) := by
  induction edits generalizing parked with
  | nil => exact .inl held
  | cons x rest ih =>
    rcases ih _ held with before | ⟨later,same⟩
    · rw [OrderedMap.get_set] at before
      split at before
      · rename_i here
        cases before
        exact .inr ⟨List.mem_cons_self,here.symm⟩
      · exact .inl before
    · exact .inr ⟨List.mem_cons_of_mem _ later,same⟩

theorem parkEdits_kept (edits : List (WireEdit V)) (parked : OrderedMap (Name × Nat) (WireEdit V)) (e : WireEdit V)
    (apart : ∀ x ∈ edits, x.slice = e.slice → x.seq = e.seq → x = e)
    (held : parked.get (e.slice,e.seq) = some e ∨ e ∈ edits) :
    (edits.foldl (fun parked e => parked.set (e.slice,e.seq) e) parked).get (e.slice,e.seq) = some e := by
  induction edits generalizing parked with
  | nil => exact held.resolve_right (by simp)
  | cons x rest ih =>
    refine ih _ (fun y member => apart y (List.mem_cons_of_mem _ member)) ?_
    rw [OrderedMap.get_set]
    by_cases here : (x.slice,x.seq) = (e.slice,e.seq)
    · simp only [Prod.mk.injEq] at here
      rw [apart x List.mem_cons_self here.1 here.2,if_pos rfl]
      exact .inl rfl
    · rw [if_neg here]
      rcases held with before | member
      · exact .inl before
      · rcases List.mem_cons.mp member with rfl | later
        · exact absurd rfl here
        · exact .inr later

theorem parkEdits_replica (core : Core V D) {log : List (WireEdit V)} (valid : ValidLog log)
    (genuine : ∀ e ∈ core.replica.parked, e ∈ log) (edits : List (WireEdit V)) (logged : ∀ e ∈ edits, e ∈ log) :
    (core.parkEdits edits).replica = {core.replica with parked:=core.replica.parked ∪ {e | e ∈ edits}} := by
  refine Replica.ext rfl rfl rfl rfl rfl ?_ rfl rfl rfl
  ext e
  show (edits.foldl (fun parked e => parked.set (e.slice,e.seq) e) core.store.parkedEdits).get (e.slice,e.seq) = some e ↔
    e ∈ core.replica.parked ∨ e ∈ edits
  constructor
  · intro held
    exact (parkEdits_get edits _ _ e held).imp id And.left
  · intro held
    have inLog : e ∈ log := held.elim (genuine e) (logged e)
    exact parkEdits_kept edits _ e (fun x member same seq => valid.seq_eq (logged x member) inLog same seq) held

theorem parkEdits_mirrors {core : Core V D} (mirrors : core.Mirrors) (edits : List (WireEdit V)) :
    (core.parkEdits edits).Mirrors :=
  {mirrors with
    genuine := by
      intro name seq e held
      rcases parkEdits_get edits _ _ e held with before | ⟨_,same⟩
      · exact mirrors.genuine name seq e before
      · cases same; exact ⟨rfl,rfl⟩}

theorem delParkeds_get (gone : List Name) (store : Store V D) (at_ : Name × Nat) :
    (gone.foldl Store.delParked store).parkedEdits.get at_ = if at_.1 ∈ gone then none else store.parkedEdits.get at_ := by
  induction gone generalizing store with
  | nil => simp
  | cons slice rest ih =>
    rw [List.foldl_cons,ih]
    show (if at_.1 ∈ rest then none else (store.parkedEdits.keep _).get at_) = _
    rw [delParked_get]
    by_cases inRest : at_.1 ∈ rest <;> by_cases here : at_.1 = slice <;> simp [inRest,here]

theorem delParkeds_only (gone : List Name) (store : Store V D) :
    ∃ parked, gone.foldl Store.delParked store = {store with parkedEdits:=parked} :=
  foldl_invariant (P := fun s : Store V D => ∃ parked, s = {store with parkedEdits:=parked})
    (by rintro _ slice _ ⟨parked,rfl⟩; exact ⟨_,rfl⟩) ⟨store.parkedEdits,rfl⟩

theorem dropParkedIn_parked (core : Core V D) (keep : Name → Bool) (at_ : Name × Nat) :
    (core.dropParkedIn keep).store.parkedEdits.get at_ = if keep at_.1 then core.store.parkedEdits.get at_ else none := by
  show (((core.store.parkedSlices.filter (!keep ·)).foldl Store.delParked core.store).parkedEdits).get at_ = _
  rw [delParkeds_get]
  have gone : at_.1 ∈ core.store.parkedSlices.filter (!keep ·) ↔
      (∃ seq e, core.store.parkedEdits.get (at_.1,seq) = some e) ∧ keep at_.1 = false := by
    rw [List.mem_filter,Store.mem_parkedSlices,Bool.not_eq_true']
  cases kept : keep at_.1 with
  | true => rw [if_neg (by rw [gone,kept]; simp)]; rfl
  | false =>
    cases held : core.store.parkedEdits.get at_ with
    | none => split <;> rfl
    | some e => rw [if_pos (gone.mpr ⟨⟨at_.2,e,held⟩,kept⟩)]; rfl

theorem dropParkedIn_replica (core : Core V D) (keep : Name → Bool) :
    (core.dropParkedIn keep).replica = {core.replica with parked:={e | e ∈ core.replica.parked ∧ keep e.slice = true}} := by
  have parked := dropParkedIn_parked core keep
  obtain ⟨rows,only⟩ := delParkeds_only (core.store.parkedSlices.filter (!keep ·)) core.store
  unfold dropParkedIn at *
  rw [only] at parked ⊢
  refine Replica.ext rfl rfl rfl rfl rfl ?_ rfl rfl rfl
  ext e
  show rows.get (e.slice,e.seq) = some e ↔ core.store.parkedEdits.get (e.slice,e.seq) = some e ∧ keep e.slice = true
  rw [show rows.get (e.slice,e.seq) = _ from parked (e.slice,e.seq)]
  split
  · rename_i kept; simp [kept]
  · rename_i cut; simp [cut]

theorem dropParkedIn_mirrors {core : Core V D} (mirrors : core.Mirrors) (keep : Name → Bool) :
    (core.dropParkedIn keep).Mirrors := by
  have parked := dropParkedIn_parked core keep
  obtain ⟨rows,only⟩ := delParkeds_only (core.store.parkedSlices.filter (!keep ·)) core.store
  unfold dropParkedIn at *
  rw [only] at parked ⊢
  exact {mirrors with
    genuine := by
      intro name seq e held
      have held : rows.get (name,seq) = some e := held
      rw [show rows.get (name,seq) = _ from parked (name,seq)] at held
      split at held
      · exact mirrors.genuine name seq e held
      · cases held}

theorem filterView_selectors (core : Core V D) (keep : Name → Bool) :
    (core.filterView keep).selectors = core.selectors.filter keep := by
  unfold filterView
  cases known : core.view with
  | none => simp [selectors,known]
  | some view =>
    dsimp only
    split
    · rename_i all
      simp [selectors,known,List.filter_eq_self.mpr (List.all_eq_true.mp all)]
    · simp [selectors,known,writeView]

theorem filterView_replica (core : Core V D) (keep : Name → Bool) :
    (core.filterView keep).replica = {core.replica with view:=core.replica.view.filter keep} := by
  refine Replica.ext ?_ ?_ (filterView_selectors core keep) ?_ ?_ ?_ ?_ ?_ ?_
  all_goals
    unfold filterView
    cases core.view with
    | none => rfl
    | some view => dsimp only; split <;> rfl

theorem writeView_mirrors {core : Core V D} (mirrors : core.Mirrors) (view : ViewRecord) (known : core.checkpoint ≠ none) :
    (core.writeView view).Mirrors :=
  {mirrors with
    view := rfl
    bare := fun none => absurd none known}

theorem filterView_mirrors {core : Core V D} (mirrors : core.Mirrors) (keep : Name → Bool) : (core.filterView keep).Mirrors := by
  unfold filterView
  cases known : core.view with
  | none => exact mirrors
  | some view =>
    dsimp only
    split
    · exact mirrors
    · refine writeView_mirrors mirrors _ fun none => ?_
      have bare := mirrors.bare none
      rw [known] at bare
      cases bare

end Core
end PhaseLock
