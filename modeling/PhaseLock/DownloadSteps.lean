import PhaseLock.InboxSteps

namespace PhaseLock
variable {V D : Type} {db : Database V}

namespace Core

-- What a step that leaves the view and the cursor alone, and moves the replica
-- within its accounting, does for the Engine.
theorem Synced.stays {core after : Core V D} {s : Stream} (synced : core.Synced db s) (mirrors : after.Mirrors)
    (inv : after.replica.Accounted db s.sent) (stood : core.Stands after) (frozen : after.replica.Frozen) :
    after.Synced db s ∧ after.cursor = core.cursor :=
  ⟨⟨mirrors,⟨inv,fun thawed => absurd frozen thawed⟩,synced.view.trans stood.1.symm⟩,stood.2⟩

theorem Synced.same {core after : Core V D} {s : Stream} (synced : core.Synced db s) (mirrors : after.Mirrors)
    (same : after.replica = core.replica) : after.Synced db s ∧ after.cursor = core.cursor := by
  refine ⟨⟨mirrors,by rw [same]; exact synced.invariant,by rw [same]; exact synced.view⟩,?_⟩
  show after.replica.cursor = core.replica.cursor
  rw [same]

theorem inflight_of {core : Core V D} {entry : BackfillEntry} (held : core.backfills.get r = some entry) :
    core.replica.inflight r = some (downloadOf entry) := by simp [replica,held]

-- An entry's change that its download does not show.
theorem setEntry_synced {core : Core V D} {s : Stream} {entry : BackfillEntry} (new : BackfillEntry) (synced : core.Synced db s)
    (held : core.backfills.get r = some entry) (record : new.record = entry.record) (status : new.status = entry.status) :
    ({core with backfills:=core.backfills.set r new} : Core V D).Synced db s := by
  refine (synced.same (setEntry_mirrors synced.mirrors new held record) ?_).1
  rw [setEntry_replica]
  have shown : downloadOf new = downloadOf entry := by unfold downloadOf; rw [record,status]
  rw [shown,← inflight_of held,Function.update_eq_self]

-- A download that starts again waits for what its record still lacks.
theorem startBackfill_synced {core : Core V D} {s : Stream} (synced : core.Synced db s) (r : Name) :
    (core.startBackfill r).Synced db s ∧ (core.startBackfill r).cursor = core.cursor := by
  cases held : core.backfills.get r with
  | none =>
    unfold startBackfill
    rw [held]
    exact ⟨synced,rfl⟩
  | some entry =>
    have going := inflight_of held
    have inv := synced.invariant.1
    have old := inv.downloading r _ going
    have equal : (core.startBackfill r).replica = core.replica.download r
        ⟨entry.record.untilPosition,entry.record.resume,false⟩ ∅ (core.replica.pages r) (core.replica.header r) := by
      rw [startBackfill_replica held]
      unfold Replica.download
      rw [Set.union_empty,Function.update_eq_self,Function.update_eq_self]
    refine synced.stays (startBackfill_mirrors synced.mirrors r) ?_ ?_ ?_
    · rw [equal]
      refine inv.download going (by simp) ?_
      rw [← equal,startBackfill_replica held]
      exact ⟨old.live,old.fresh,fun resume at_ => (old.brought resume at_).carry (fun _ => id) rfl rfl,by simp⟩
    · unfold Stands
      rw [equal]
      exact ⟨rfl,rfl⟩
    · rw [equal]
      exact ⟨r,_,Function.update_self ..⟩

-- Ready is with both halves in.
theorem finished {core : Core V D} {entry : BackfillEntry} {sent : Int} {resume : Resume}
    (old : core.replica.Downloading db sent r (downloadOf entry)) (ready : entry.status = .ready)
    (at_ : entry.record.resume = some resume) : resume.snapshotDone = true ∧ resume.tailDone = true := by
  obtain ⟨resume',same,done⟩ := old.ready (decide_eq_true ready)
  have same : entry.record.resume = some resume' := same
  rw [at_] at same
  cases same
  exact done

-- A push is accepted by the download it continues.
theorem saveResume_replica (core : Core V D) (r : Name) (entry : BackfillEntry) (resume : Resume) :
    (core.saveResume r entry resume).replica = {core.replica with
      inflight:=Function.update core.replica.inflight r (some ⟨entry.record.untilPosition,some resume,
        (if resume.snapshotDone ∧ resume.tailDone then .ready else entry.status : BackfillStatus) = .ready⟩)} :=
  writeBackfill_replica core r _

theorem saveResume_synced {core base : Core V D} {s : Stream} {entry new : BackfillEntry} {resume : Resume}
    (more : Set (WireEdit V)) (paged : Nat → Option (List (Key × V))) (headed : Name → Option Nat)
    (synced : core.Synced db s) (held : core.backfills.get r = some entry) (same : new.record = entry.record ∧ new.status = entry.status)
    (mirrors : base.Mirrors) (shown : base.replica = {core.replica with
      parked:=core.replica.parked ∪ more
      pages:=Function.update core.replica.pages r paged
      header:=Function.update core.replica.header r headed})
    (logged : ∀ e ∈ more, e ∈ db.log ∧ selectorCovers r e.slice = true)
    (ready : entry.status = .ready → resume.snapshotDone = true ∧ resume.tailDone = true)
    (brought : base.replica.Brought db r entry.record.untilPosition resume) :
    (base.saveResume r new resume).Synced db s ∧ (base.saveResume r new resume).cursor = core.cursor := by
  have going := inflight_of held
  have inv := synced.invariant.1
  have old := inv.downloading r _ going
  have replicas : (base.saveResume r new resume).replica = core.replica.download r ⟨entry.record.untilPosition,some resume,
      (if resume.snapshotDone ∧ resume.tailDone then .ready else entry.status : BackfillStatus) = .ready⟩ more paged headed := by
    rw [saveResume_replica,shown,same.1,same.2]
    rfl
  refine synced.stays (writeBackfill_mirrors mirrors r _) ?_ ?_ ?_
  · rw [replicas]
    refine inv.download going logged ⟨?_,by simp,?_,?_⟩
    · intro e member covers from_ under
      exact .inl (old.live e member covers from_ under)
    · intro resume' at_
      cases at_
      refine brought.carry ?_ ?_ ?_ <;> rw [shown] <;> rfl
    · intro isReady
      refine ⟨resume,rfl,?_⟩
      by_cases both : resume.snapshotDone = true ∧ resume.tailDone = true
      · exact both
      · simp only [if_neg both,decide_eq_true_eq] at isReady
        exact ready isReady
  · unfold Stands
    rw [replicas]
    exact ⟨rfl,rfl⟩
  · rw [replicas]
    exact ⟨r,_,Function.update_self ..⟩

-- A push that parks nothing.
theorem saveResume_bare {core : Core V D} {s : Stream} {entry : BackfillEntry} {resume : Resume} (synced : core.Synced db s)
    (held : core.backfills.get r = some entry)
    (ready : entry.status = .ready → resume.snapshotDone = true ∧ resume.tailDone = true)
    (brought : core.replica.Brought db r entry.record.untilPosition resume) :
    (core.saveResume r entry resume).Synced db s ∧ (core.saveResume r entry resume).cursor = core.cursor := by
  refine saveResume_synced ∅ (core.replica.pages r) (core.replica.header r) synced held ⟨rfl,rfl⟩ synced.mirrors ?_
    (by simp) ready brought
  rw [Set.union_empty,Function.update_eq_self,Function.update_eq_self]

theorem header_replica (core : Core V D) (r : Name) (seqs : OrderedMap Name Nat) :
    ({core with store:={core.store with backfillSeqs:=core.store.backfillSeqs.set r seqs}} : Core V D).replica =
      {core.replica with header:=Function.update core.replica.header r seqs.get} := by
  refine Replica.ext rfl rfl rfl rfl rfl rfl rfl rfl ?_
  funext x slice
  show (((core.store.backfillSeqs.set r seqs).get x).getD ∅).get slice = Function.update core.replica.header r seqs.get x slice
  rw [OrderedMap.get_set]
  by_cases same : r = x
  · subst same; rw [if_pos rfl,Function.update_self]; rfl
  · rw [if_neg same,Function.update_of_ne (Ne.symm same)]; rfl

theorem page_replica (core : Core V D) (r : Name) (start : Nat) (ops : List (Key × V)) :
    ({core with store:={core.store with parkedPages:=core.store.parkedPages.set (r,start) ops}} : Core V D).replica =
      {core.replica with
        pages:=Function.update core.replica.pages r (Function.update (core.replica.pages r) start (some ops))} := by
  refine Replica.ext rfl rfl rfl rfl rfl rfl rfl ?_ rfl
  funext x at_
  show (core.store.parkedPages.set (r,start) ops).get (x,at_) =
    Function.update core.replica.pages r (Function.update (core.replica.pages r) start (some ops)) x at_
  rw [OrderedMap.get_set]
  by_cases same : r = x
  · subst same
    rw [Function.update_self]
    by_cases here : start = at_
    · subst here; rw [if_pos rfl,Function.update_self]
    · rw [if_neg (by simp [here]),Function.update_of_ne (Ne.symm here)]; rfl
  · rw [if_neg (by simp [same]),Function.update_of_ne (Ne.symm same)]; rfl

-- The record a header starts, over what the last had brought of the tail.
theorem Brought.header {rep : Replica V} {position visible fromPosition untilPosition : Int}
    (headed : ∀ slice, rep.header r slice = (db.header r position).get slice)
    (seen : ∀ e ∈ db.log, selectorCovers r e.slice = true → visible < e.position → position < e.position)
    (tail : ∀ e ∈ db.log, selectorCovers r e.slice = true → position < e.position → e.position < untilPosition →
      e.position ≤ fromPosition → e ∈ rep.parked)
    (clear : ∀ start, rep.pages r start = none) :
    rep.Brought db r untilPosition (Resume.fresh position visible fromPosition) where
  header := headed
  visible := seen
  tail := fun e member covers past below reached => tail e member covers past below (reached.resolve_right (by simp [Resume.fresh]))
  pages := by
    intro op
    constructor
    · rintro ⟨start,page,held,_⟩
      rw [clear start] at held
      cases held
    · rintro ⟨row,member,low,_⟩
      have offset := db.offset r position row member
      simp only [Resume.fresh] at low
      omega
  starts := fun start page held => by rw [clear start] at held; cases held
  done := by simp [Resume.fresh]

theorem pushHeader_synced {core after : Core V D} {s : Stream} {entry : BackfillEntry} {position visible : Int}
    {seqs : OrderedMap Name Nat} (synced : core.Synced db s) (held : core.backfills.get r = some entry)
    (pushes : db.Pushes r entry.record (.header position visible seqs))
    (ran : core.parkPushIn r (.header position visible seqs) = .ok after) : after.Synced db s ∧ after.cursor = core.cursor := by
  obtain ⟨fresh,rfl,seen⟩ := pushes
  have old := synced.invariant.1.downloading r _ (inflight_of held)
  have mirrors : ({core with store:={core.store with
      backfillSeqs:=core.store.backfillSeqs.set r (db.header r position)}} : Core V D).Mirrors :=
    {synced.mirrors with
      headers := by
        intro x gone
        have other : r ≠ x := by rintro rfl; rw [show core.backfills.get r = some entry from held] at gone; cases gone
        show (core.store.backfillSeqs.set r _).get x = none
        rw [OrderedMap.get_set_ne _ _ other]
        exact synced.mirrors.headers x gone}
  unfold parkPushIn at ran
  rw [held] at ran
  cases ran
  refine saveResume_synced ∅ (core.replica.pages r) (db.header r position).get synced held ⟨rfl,rfl⟩ mirrors ?_ (by simp) ?_ ?_
  · rw [header_replica,Set.union_empty,Function.update_eq_self]
  · intro ready
    obtain ⟨resume,at_,snapshot,_⟩ := old.ready (decide_eq_true ready)
    obtain ⟨_,open_,_⟩ := fresh resume at_
    rw [snapshot] at open_
    cases open_
  · rw [header_replica]
    refine Brought.header (fun slice => ?_) seen ?_ ?_
    · dsimp only
      rw [Function.update_self]
    · intro e member covers past below reached
      cases at_ : entry.record.resume with
      | none =>
        rw [at_] at reached
        simp only [Option.map_none,Option.getD_none,max_self] at reached
        omega
      | some resume =>
        obtain ⟨_,_,le⟩ := fresh resume at_
        rw [at_] at reached
        simp only [Option.map_some,Option.getD_some] at reached
        exact (old.brought resume at_).tail e member covers (by omega) below (.inl (by omega))
    · intro start
      cases at_ : entry.record.resume with
      | none => exact old.fresh at_ start
      | some resume =>
        obtain ⟨zero,_,_⟩ := fresh resume at_
        cases page : core.replica.pages r start with
        | none => rfl
        | some ops =>
          have low := (old.brought resume at_).starts start ops page
          omega

theorem pushPage_synced {core after : Core V D} {s : Stream} {entry : BackfillEntry} {ops : List (Key × V)} {skip : Nat}
    {checksum : Name} (synced : core.Synced db s) (held : core.backfills.get r = some entry)
    (pushes : db.Pushes r entry.record (.page ops skip checksum))
    (ran : core.parkPushIn r (.page ops skip checksum) = .ok after) : after.Synced db s ∧ after.cursor = core.cursor := by
  obtain ⟨resume,at_,grows,opsAre⟩ := pushes
  have at_ : entry.record.resume = some resume := at_
  have old := synced.invariant.1.downloading r _ (inflight_of held)
  have brought := old.brought resume at_
  unfold parkPushIn at ran
  rw [held] at ran
  dsimp only at ran
  rw [at_] at ran
  cases ran
  refine saveResume_synced ∅ (Function.update (core.replica.pages r) resume.skipBytes (some ops)) (core.replica.header r)
    synced held ⟨rfl,rfl⟩ {synced.mirrors with} ?_ (by simp) (fun ready => by simpa using finished old ready at_) ?_
  · rw [page_replica,Set.union_empty,Function.update_eq_self]
  · rw [page_replica]
    exact {
      header := brought.header
      visible := brought.visible
      tail := brought.tail
      pages := by
        intro op
        dsimp only
        rw [Function.update_self]
        constructor
        · rintro ⟨start,page,parked,inside⟩
          by_cases here : start = resume.skipBytes
          · subst here
            rw [Function.update_self] at parked
            cases parked
            rw [opsAre] at inside
            obtain ⟨row,member,rfl⟩ := List.mem_map.mp inside
            obtain ⟨inBlob,span⟩ := List.mem_filter.mp member
            simp only [decide_eq_true_eq] at span
            exact ⟨row,inBlob,span.2,rfl⟩
          · rw [Function.update_of_ne here] at parked
            obtain ⟨row,inBlob,low,same⟩ := (brought.pages op).mp ⟨start,page,parked,inside⟩
            exact ⟨row,inBlob,by omega,same⟩
        · rintro ⟨row,inBlob,low,rfl⟩
          by_cases before : row.1 ≤ resume.skipBytes
          · obtain ⟨start,page,parked,inside⟩ := (brought.pages row.2).mpr ⟨row,inBlob,before,rfl⟩
            have early := brought.starts start page parked
            exact ⟨start,page,by rw [Function.update_of_ne (by omega)]; exact parked,inside⟩
          · refine ⟨resume.skipBytes,_,Function.update_self ..,?_⟩
            rw [opsAre]
            refine List.mem_map.mpr ⟨row,List.mem_filter.mpr ⟨inBlob,?_⟩,rfl⟩
            simp only [decide_eq_true_eq]
            exact ⟨by omega,low⟩
      starts := by
        intro start page
        dsimp only
        rw [Function.update_self]
        intro parked
        by_cases here : start = resume.skipBytes
        · omega
        · rw [Function.update_of_ne here] at parked
          have early := brought.starts start page parked
          omega
      done := fun finished row member => le_trans (brought.done finished row member) (le_of_lt grows)}

theorem pushEdits_synced {core after : Core V D} {s : Stream} {entry : BackfillEntry} {edits : List (WireEdit V)}
    {scanned : Int} (synced : core.Synced db s) (held : core.backfills.get r = some entry)
    (pushes : db.Pushes r entry.record (.edits edits scanned))
    (ran : core.parkPushIn r (.edits edits scanned) = .ok after) : after.Synced db s ∧ after.cursor = core.cursor := by
  obtain ⟨logged,resume,at_,whole⟩ := pushes
  have at_ : entry.record.resume = some resume := at_
  have old := synced.invariant.1.downloading r _ (inflight_of held)
  have brought := old.brought resume at_
  unfold parkPushIn at ran
  rw [held] at ran
  dsimp only at ran
  rw [at_] at ran
  cases ran
  have parks := parkEdits_replica core db.valid synced.invariant.1.genuine edits (fun e member => (logged e member).1)
  refine saveResume_synced {e | e ∈ edits} (core.replica.pages r) (core.replica.header r) synced held ⟨rfl,rfl⟩
    (parkEdits_mirrors synced.mirrors edits) ?_ logged (fun ready => by simpa using finished old ready at_) ?_
  · rw [parks,Function.update_eq_self,Function.update_eq_self]
  · rw [parks]
    exact {
      header := brought.header
      visible := brought.visible
      tail := by
        intro e member covers past below reached
        by_cases had : e.position ≤ resume.fromPosition ∨ resume.tailDone = true
        · exact .inl (brought.tail e member covers past below had)
        · rw [not_or,not_le] at had
          exact .inr (whole e member covers had.1 below (reached.resolve_right had.2))
      pages := brought.pages
      starts := brought.starts
      done := brought.done}

theorem parkPushIn_synced {core after : Core V D} {s : Stream} {entry : BackfillEntry} {item : BackfillItem V}
    (synced : core.Synced db s) (held : core.backfills.get r = some entry) (pushes : db.Pushes r entry.record item)
    (ran : core.parkPushIn r item = .ok after) : after.Synced db s ∧ after.cursor = core.cursor := by
  have old := synced.invariant.1.downloading r _ (inflight_of held)
  cases item with
  | header position visible seqs => exact pushHeader_synced synced held pushes ran
  | page ops skip checksum => exact pushPage_synced synced held pushes ran
  | edits edits scanned => exact pushEdits_synced synced held pushes ran
  | length length =>
    unfold parkPushIn at ran
    rw [held] at ran
    cases ran
    exact ⟨setEntry_synced _ synced held rfl rfl,rfl⟩
  | pagesDone =>
    obtain ⟨resume,at_,whole⟩ := pushes
    have at_ : entry.record.resume = some resume := at_
    have brought := old.brought resume at_
    unfold parkPushIn at ran
    rw [held] at ran
    dsimp only at ran
    rw [at_] at ran
    cases ran
    exact saveResume_bare synced held (fun ready => ⟨rfl,(finished old ready at_).2⟩)
      ⟨brought.header,brought.visible,brought.tail,brought.pages,brought.starts,fun _ => whole⟩
  | editsDone =>
    obtain ⟨resume,at_,whole⟩ := pushes
    have at_ : entry.record.resume = some resume := at_
    have brought := old.brought resume at_
    unfold parkPushIn at ran
    rw [held] at ran
    dsimp only at ran
    rw [at_] at ran
    cases ran
    refine saveResume_bare synced held (fun ready => ⟨(finished old ready at_).1,rfl⟩)
      ⟨brought.header,brought.visible,?_,brought.pages,brought.starts,brought.done⟩
    intro e member covers past below _
    refine brought.tail e member covers past below (.inl ?_)
    by_contra beyond
    have stops := whole e member covers (by omega)
    omega

-- A download's stale end gives up its pages, and keeps what it has of the tail.
theorem startOver_synced {core : Core V D} {s : Stream} {entry : BackfillEntry} (synced : core.Synced db s)
    (held : core.backfills.get r = some entry) : (core.startOver r entry).Synced db s := by
  have going := inflight_of held
  have old := synced.invariant.1.downloading r _ going
  unfold startOver
  dsimp only
  generalize newIs : ({entry with
    record:={entry.record with resume:=entry.record.resume.map (fun r =>
      {r with skipBytes:=0,checksum:=[],snapshotDone:=false,tailDone:=false})}
    attempts:=0} : BackfillEntry) = new
  have mirrors := startBackfill_mirrors (writeBackfill_mirrors (delPages_mirrors synced.mirrors r) r new) r
  have cleared : ({core with store:=core.store.delPages r} : Core V D).replica =
      {core.replica with pages:=Function.update core.replica.pages r fun _ => none} := by
    refine Replica.ext rfl rfl rfl rfl rfl rfl rfl ?_ rfl
    funext x start
    show (core.store.delPages r).parkedPages.get (x,start) = Function.update core.replica.pages r (fun _ => none) x start
    rw [delPages_get]
    by_cases same : x = r
    · subst same; rw [if_pos rfl,Function.update_self]
    · rw [if_neg same,Function.update_of_ne same]; rfl
  have equal : ((({core with store:=core.store.delPages r} : Core V D).writeBackfill r new).startBackfill r).replica =
      core.replica.download r ⟨new.record.untilPosition,new.record.resume,false⟩ ∅ (fun _ => none) (core.replica.header r) := by
    rw [startBackfill_replica (writeBackfill_held _ r new),writeBackfill_replica,cleared]
    unfold Replica.download
    rw [Set.union_empty,Function.update_eq_self,Function.update_idem]
  generalize (({core with store:=core.store.delPages r} : Core V D).writeBackfill r new).startBackfill r = after at mirrors equal ⊢
  refine (synced.stays mirrors ?_ ?_ ?_).1
  · rw [equal]
    refine synced.invariant.1.download going (by simp) ⟨?_,?_,?_,by simp⟩
    · rw [← newIs]
      exact fun e member covers from_ under => .inl (old.live e member covers from_ under)
    · intro _ start
      show Function.update core.replica.pages r (fun _ => none) r start = none
      rw [Function.update_self]
    · intro resume' at_
      rw [← newIs] at at_
      obtain ⟨resume,before,rfl⟩ := Option.map_eq_some_iff.mp at_
      have brought := old.brought resume before
      rw [← newIs]
      exact {
        header := by
          intro slice
          show Function.update core.replica.header r (core.replica.header r) r slice = _
          rw [Function.update_eq_self]
          exact brought.header slice
        visible := brought.visible
        tail := fun e member covers past below reached =>
          .inl (brought.tail e member covers past below (.inl (reached.resolve_right (by simp))))
        pages := by
          intro op
          constructor
          · rintro ⟨start,page,parked,_⟩
            have parked : Function.update core.replica.pages r (fun _ => none) r start = some page := parked
            rw [Function.update_self] at parked
            cases parked
          · rintro ⟨row,member,low,_⟩
            have offset := db.offset r resume.position row member
            dsimp only at low
            omega
        starts := by
          intro start page parked
          have parked : Function.update core.replica.pages r (fun _ => none) r start = some page := parked
          rw [Function.update_self] at parked
          cases parked
        done := by simp}
  · unfold Stands
    rw [equal]
    exact ⟨rfl,rfl⟩
  · rw [equal]
    exact ⟨r,_,Function.update_self ..⟩

theorem startBackfill_cursor (core : Core V D) (r : Name) : (core.startBackfill r).cursor = core.cursor := by
  unfold startBackfill
  cases core.backfills.get r <;> rfl

theorem onOutcomeIn_synced {core : Core V D} {s : Stream} (synced : core.Synced db s) (conn : Nat) (ended : Ended) :
    (onOutcomeIn conn core ended).Synced db s ∧ (onOutcomeIn conn core ended).cursor = core.cursor := by
  unfold onOutcomeIn
  split
  · exact ⟨synced,rfl⟩
  · cases held : core.backfills.get ended.call.selector with
    | none => exact ⟨synced,rfl⟩
    | some entry =>
      dsimp only
      split
      · exact ⟨synced,rfl⟩
      · cases ended.outcome with
        | done => exact ⟨setEntry_synced _ synced held rfl rfl,rfl⟩
        | stale => exact ⟨startOver_synced synced held,startBackfill_cursor _ _⟩
        | failed =>
          dsimp only
          split
          · exact ⟨synced,rfl⟩
          · obtain ⟨mirrors,inv,view⟩ := setEntry_synced {entry with attempts:=entry.attempts+1,retryTimer:=true}
              synced held rfl rfl
            exact ⟨⟨{mirrors with},inv,view⟩,rfl⟩

theorem onOutcomesIn_synced {core : Core V D} {s : Stream} (synced : core.Synced db s) (conn : Nat) (outcomes : List Ended) :
    (core.onOutcomesIn conn outcomes).Synced db s ∧ (core.onOutcomesIn conn outcomes).cursor = core.cursor :=
  foldl_invariant (P := fun at_ : Core V D => at_.Synced db s ∧ at_.cursor = core.cursor)
    (fun at_ ended _ held => by
      obtain ⟨synced',cursor⟩ := onOutcomeIn_synced held.1 conn ended
      exact ⟨synced',cursor.trans held.2⟩) ⟨synced,rfl⟩

theorem onRetryTimer_synced {core : Core V D} {s : Stream} (synced : core.Synced db s) (timer : Name × Nat) :
    (core.onRetryTimer timer).Synced db s ∧ (core.onRetryTimer timer).cursor = core.cursor := by
  unfold onRetryTimer
  dsimp only
  have erased : ({core with timers:=core.timers.erase timer} : Core V D).Synced db s :=
    ⟨{synced.mirrors with},synced.invariant,synced.view⟩
  cases held : core.backfills.get timer.1 with
  | none => exact ⟨erased,rfl⟩
  | some entry =>
    dsimp only
    split
    · exact ⟨erased,rfl⟩
    · have cleared := setEntry_synced {entry with retryTimer:=false} erased held rfl rfl
      exact ⟨(startBackfill_synced cleared timer.1).1,startBackfill_cursor _ _⟩

end Core
end PhaseLock
