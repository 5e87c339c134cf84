import PhaseLock.Chains
import PhaseLock.Mirror

namespace PhaseLock
variable {V D : Type} {db : Database V} {sent : Int}

namespace Replica
variable {rep : Replica V}

-- A download that waits for nothing: both halves in, and its slices unchanged
-- between the cursor and its cut.
def Landable (rep : Replica V) : Prop := ∀ r d, rep.inflight r = some d →
  ∃ resume, d.resume = some resume ∧ resume.snapshotDone = true ∧ resume.tailDone = true ∧ resume.visible ≤ rep.cursor

-- Under a finished download, every edit the stream has sent past its cut is parked.
theorem Accounted.parked_past (inv : rep.Accounted db sent) (going : rep.inflight r = some d)
    (at_ : d.resume = some resume) (tail : resume.tailDone = true) {e : WireEdit V} (member : e ∈ db.log)
    (covers : selectorCovers r e.slice = true) (past : resume.position < e.position) (under : e.position ≤ sent) :
    e ∈ rep.parked := by
  by_cases below : e.position < d.untilPosition
  · exact ((inv.downloading r d going).brought resume at_).tail e member covers past below (.inr tail)
  · exact (inv.downloading r d going).live e member covers (by omega) under

-- With nothing parked past the cursor, the view's slices have no edits past it.
theorem Accounted.quiet_past (inv : rep.Accounted db sent) (landable : rep.Landable)
    (none : ∀ e ∈ rep.parked, e.position ≤ rep.cursor) : Quiet db.log rep.view rep.cursor sent := by
  intro e member inView past
  by_contra under
  have late : e ∉ rep.parked := fun parked => by have := none e parked; omega
  by_cases spanned : rep.Over e.slice
  · obtain ⟨r,d,going,covers⟩ := spanned
    obtain ⟨resume,at_,_,tail,visible⟩ := landable r d going
    by_cases beyond : resume.position < e.position
    · exact late (inv.parked_past going at_ tail member covers beyond (by omega))
    · have far := ((inv.downloading r d going).brought resume at_).visible e member covers (by omega)
      omega
  · have reached := inv.applied_le
    exact late ((inv.kept e.slice inView spanned).parked e member rfl (by omega) (by omega))

end Replica

-- The blobs of a land, and the one that wins a slice.
theorem mem_blobsFrom {core : Core V D} {rows : List (Name × BackfillEntry)} {blobs : List Blob}
    (read : core.blobsFrom rows = .ok blobs) (b : Blob) : b ∈ blobs ↔ ∃ row ∈ rows, ∃ resume,
      row.2.record.resume = some resume ∧ b = ⟨row.1,resume.position,core.headerOf row.1⟩ := by
  induction rows generalizing blobs with
  | nil => cases read; simp
  | cons row rest ih =>
    obtain ⟨selector,entry⟩ := row
    simp only [Core.blobsFrom] at read
    cases at_ : entry.record.resume with
    | none => rw [at_] at read; cases read
    | some resume =>
      simp only [at_] at read
      cases tail : core.blobsFrom rest with
      | error reason => rw [tail] at read; cases read
      | ok more =>
        rw [tail] at read
        cases read
        simp [ih tail,at_]

theorem winner_step (best : Option Blob) (blobs : List Blob) (slice : Name)
    (found : ∀ w, best = some w → selectorCovers w.selector slice = true) :
    (∀ w, blobs.foldl (fun best b =>
        if selectorCovers b.selector slice ∧ best.all (·.cut < b.cut) then some b else best) best = some w →
      (best = some w ∨ w ∈ blobs) ∧ selectorCovers w.selector slice = true) ∧
    (blobs.foldl (fun best b =>
        if selectorCovers b.selector slice ∧ best.all (·.cut < b.cut) then some b else best) best = none →
      best = none ∧ ∀ b ∈ blobs, selectorCovers b.selector slice = false) := by
  induction blobs generalizing best with
  | nil => exact ⟨fun w won => ⟨.inl won,found w won⟩,fun none => ⟨none,by simp⟩⟩
  | cons b rest ih =>
    rw [List.foldl_cons]
    by_cases takes : selectorCovers b.selector slice ∧ best.all (·.cut < b.cut)
    · rw [if_pos takes]
      obtain ⟨wins,loses⟩ := ih (some b) (by rintro w ⟨⟩; exact takes.1)
      refine ⟨?_,fun none => by cases (loses none).1⟩
      intro w won
      obtain ⟨from_,covers⟩ := wins w won
      rcases from_ with same | member
      · cases same; exact ⟨.inr List.mem_cons_self,covers⟩
      · exact ⟨.inr (List.mem_cons_of_mem _ member),covers⟩
    · rw [if_neg takes]
      obtain ⟨wins,loses⟩ := ih best found
      refine ⟨?_,?_⟩
      · intro w won
        obtain ⟨from_,covers⟩ := wins w won
        exact ⟨from_.imp id (List.mem_cons_of_mem _),covers⟩
      · intro none
        obtain ⟨empty,others⟩ := loses none
        refine ⟨empty,?_⟩
        intro x member
        rcases List.mem_cons.mp member with rfl | later
        · cases covers : selectorCovers x.selector slice with
          | false => rfl
          | true => exact absurd ⟨covers,by rw [empty]; rfl⟩ takes
        · exact others x later

theorem winner_some {blobs : List Blob} (won : winner blobs slice = some w) :
    w ∈ blobs ∧ selectorCovers w.selector slice = true := by
  obtain ⟨from_,covers⟩ := (winner_step none blobs slice (by simp)).1 w won
  exact ⟨from_.resolve_left (by simp),covers⟩

theorem winner_none {blobs : List Blob} (lost : winner blobs slice = none) :
    ∀ b ∈ blobs, selectorCovers b.selector slice = false :=
  ((winner_step none blobs slice (by simp)).2 lost).2

-- What a plan holds its slice at is the seq its run folds to.
theorem Plan.heldAt_fold (plan : Plan V) {base : Option (SliceState V)} (seq : plan.seq = base.map SliceState.seq) :
    plan.heldAt = (plan.run.foldl (fun s e => e.apply s) base).map SliceState.seq := by
  unfold heldAt
  rcases List.eq_nil_or_concat' plan.run with none | ⟨front,e,joined⟩
  · rw [none]; exact seq
  · rw [joined,List.getLast?_concat,List.foldl_append,List.foldl_cons,List.foldl_nil,WireEdit.apply_seq]

namespace Core

structure Blobs (core : Core V D) (blobs : List Blob) : Prop where
  -- each in-flight download's blob is there, as its resume record has it
  going : ∀ r d, core.replica.inflight r = some d → ∀ resume, d.resume = some resume →
    ∃ b ∈ blobs, b.selector = r
  real : ∀ b ∈ blobs, ∃ d resume, core.replica.inflight b.selector = some d ∧ d.resume = some resume ∧
    b.cut = resume.position ∧ ∀ slice, b.header.get slice = core.replica.header b.selector slice

theorem blobs_ok {core : Core V D} {blobs : List Blob} (read : core.blobs = .ok blobs) : core.Blobs blobs where
  going := by
    intro r d going resume at_
    obtain ⟨entry,held,rfl⟩ := Option.map_eq_some_iff.mp going
    exact ⟨⟨r,resume.position,core.headerOf r⟩,
      (mem_blobsFrom read _).mpr ⟨(r,entry),(core.backfills.mem_entries r entry).mpr held,resume,at_,rfl⟩,rfl⟩
  real := by
    intro b member
    obtain ⟨⟨r,entry⟩,held,resume,at_,rfl⟩ := (mem_blobsFrom read b).mp member
    have got := (core.backfills.mem_entries r entry).mp held
    exact ⟨downloadOf entry,resume,by simp [replica,got],at_,rfl,fun _ => rfl⟩

theorem parkedOf_run {core : Core V D} (mirrors : core.Mirrors) (genuine : ∀ e ∈ core.replica.parked, e ∈ db.log)
    (slice : Name) : Run db.log slice (core.store.parkedOf slice) ∧
      ∀ e, e ∈ core.store.parkedOf slice ↔ e ∈ core.replica.parked ∧ e.slice = slice := by
  have members : ∀ e, e ∈ core.store.parkedOf slice ↔ e ∈ core.replica.parked ∧ e.slice = slice := by
    intro e
    rw [Store.mem_parkedOf]
    constructor
    · rintro ⟨seq,held⟩
      obtain ⟨rfl,rfl⟩ := mirrors.genuine slice seq e held
      exact ⟨held,rfl⟩
    · rintro ⟨parked,rfl⟩
      exact ⟨e.seq,parked⟩
  exact ⟨⟨Store.parkedOf_sorted _ mirrors.genuine slice,fun e member =>
    ⟨genuine e ((members e).mp member).1,((members e).mp member).2⟩⟩,members⟩

-- A plan stands on a state of the log, the blob's or the base's own, and unless a
-- gap broke it its run takes that to the state at the cursor.
structure Sound (core : Core V D) (log : List (WireEdit V)) (blobs : List Blob) (plan : Plan V)
    (base : Option (SliceState V)) : Prop where
  seq : plan.seq = base.map SliceState.seq
  folds : plan.gap = false → plan.run.foldl (fun s e => e.apply s) base = serverState log plan.slice core.cursor
  suffix : ∃ front, core.store.parkedOf plan.slice = front++plan.run
  own : plan.blob = false → core.replica.keys plan.slice = keysOf base
  won : plan.blob = true → ∃ w, winner blobs plan.slice = some w ∧ base = serverState log plan.slice w.cut

theorem planOf_slice (core : Core V D) (blobs : List Blob) (slice : Name) : (core.planOf blobs slice).slice = slice := by
  unfold planOf
  dsimp only

theorem planOf_own {core : Core V D} {blobs : List Blob}
    (own : winner blobs slice = none ∨ ∃ w, winner blobs slice = some w ∧ core.newer w slice = true) :
    core.planOf blobs slice =
      let chain := (core.store.parkedOf slice).foldl (Chain.step (-1)) ⟨core.slices.get slice,[],false⟩
      ⟨slice,false,core.slices.get slice,chain.run,chain.gap⟩ := by
  unfold planOf
  rcases own with none | ⟨w,won,newer⟩
  · rw [none]
  · rw [won]; dsimp only; rw [if_pos newer]

theorem planOf_blob {core : Core V D} {blobs : List Blob} (won : winner blobs slice = some w)
    (older : core.newer w slice = false) :
    core.planOf blobs slice =
      let chain := (core.store.parkedOf slice).foldl (Chain.step w.cut) ⟨w.header.get slice,[],false⟩
      ⟨slice,true,w.header.get slice,chain.run,chain.gap⟩ := by
  unfold planOf
  rw [won]
  dsimp only
  rw [if_neg (by rw [older]; simp)]

theorem planOf_sound {core : Core V D} {blobs : List Blob} (mirrors : core.Mirrors)
    (inv : core.replica.Accounted db sent) (landable : core.replica.Landable)
    (none : ∀ e ∈ core.replica.parked, e.position ≤ core.cursor) (read : core.Blobs blobs)
    (inView : core.replica.InView slice) : ∃ base, core.Sound db.log blobs (core.planOf blobs slice) base := by
  obtain ⟨run,members⟩ := parkedOf_run mirrors inv.genuine slice
  have under : ∀ e ∈ core.store.parkedOf slice, e.position ≤ core.cursor := fun e member => none e ((members e).mp member).1
  have reached : core.applied ≤ core.cursor := inv.applied_le
  have sentPast : core.cursor ≤ sent := inv.cursor_le
  have positive : ∀ e ∈ core.store.parkedOf slice, (-1 : Int) < e.position := by
    intro e member
    have := db.valid.positive e (run.logged e member).1
    omega
  -- over the slice's own base
  have own : core.replica.At db.log slice core.applied →
      (∀ e ∈ db.log, e.slice = slice → core.applied < e.position → e.position ≤ core.cursor → e ∈ core.store.parkedOf slice) →
      (∀ e ∈ core.store.parkedOf slice, e.position ≤ core.applied →
        (e.position ≤ -1 ∨ ((serverState db.log slice core.applied).map SliceState.seq).any (e.seq ≤ ·) = true) ∨
        e.lifecycle = .death ∧ ∀ d ∈ db.log, d.slice = slice → d.lifecycle = .death → e.position < d.position →
          core.applied < d.position) →
      (winner blobs slice = .none ∨ ∃ w, winner blobs slice = some w ∧ core.newer w slice = true) →
      ∃ base, core.Sound db.log blobs (core.planOf blobs slice) base := by
    intro at_ whole old kind
    have low : (-1 : Int) ≤ core.applied := inv.low
    obtain ⟨ends,front,joined⟩ := chain_lands db.valid run under whole low old
    have seq : core.slices.get slice = (serverState db.log slice core.applied).map SliceState.seq := at_.1
    rw [← seq] at ends joined
    rw [planOf_own kind]
    refine ⟨serverState db.log slice core.applied,⟨seq,?_,⟨front,joined⟩,fun _ => at_.2,by simp⟩⟩
    intro whole
    have folded := ends.folds whole
    rwa [max_eq_right reached] at folded
  cases won : winner blobs slice with
  | none =>
    have clear : ¬core.replica.Over slice := by
      rintro ⟨r,d,going,covers⟩
      obtain ⟨resume,at_,_⟩ := landable r d going
      obtain ⟨b,member,rfl⟩ := read.going r d going resume at_
      rw [winner_none won b member] at covers
      cases covers
    have kept := inv.kept slice inView clear
    refine own kept.base ?_ ?_ (.inl won)
    · intro e member same past below
      exact (members e).mpr ⟨kept.parked e member same past (below.trans sentPast),same⟩
    · intro e member early
      obtain ⟨parked,same⟩ := (members e).mp member
      have logged := (run.logged e member).1
      cases state : serverState db.log slice core.applied with
      | some s =>
        have seq := (serverState_some db.valid state logged same).mpr early
        exact .inl (.inr (by simpa using seq))
      | none =>
        -- the slice is dead there, and no death follows the edit, so it is the death
        obtain ⟨death,inLog,sameSlice,dead,after,before⟩ := serverState_none db.valid state logged same early
        have alive := kept.alive e parked same early
        have equal : death = e := by
          refine db.valid.position_eq inLog logged (sameSlice.trans same.symm) ?_
          by_contra differ
          have far := alive death inLog sameSlice dead (by omega)
          have here : core.replica.applied = core.applied := rfl
          omega
        exact .inr ⟨equal ▸ dead,fun d inLog' same' dead' past => alive d inLog' same' dead' past⟩
  | some w =>
    obtain ⟨member,covers⟩ := winner_some won
    obtain ⟨d,resume,going,at_,cut,header⟩ := read.real w member
    obtain ⟨resume',at_',_,tail,visible⟩ := landable w.selector d going
    have same : resume' = resume := Option.some.inj (at_'.symm.trans at_)
    subst same
    have brought := (inv.downloading w.selector d going).brought resume' at_
    have named : w.header.get slice = (serverState db.log slice w.cut).map SliceState.seq := by
      rw [header slice,brought.header slice,db.named,if_pos covers,cut]
    have past : ∀ e ∈ db.log, e.slice = slice → w.cut < e.position → e.position ≤ core.cursor → e ∈ core.store.parkedOf slice := by
      intro e logged equal beyond below
      exact (members e).mpr ⟨inv.parked_past going at_ tail logged (by rw [equal]; exact covers) (by omega)
        (below.trans sentPast),equal⟩
    cases kind : core.newer w slice with
    | true =>
      -- a held slice that keeps its own state, at or past the blob's
      unfold newer at kind
      cases held : core.slices.get slice with
      | none => rw [held] at kind; cases kind
      | some n =>
        have at_n : core.replica.At db.log slice core.applied := inv.held slice n held
        have seq : (serverState db.log slice core.applied).map SliceState.seq = some n := by
          rw [← at_n.1]; exact held
        obtain ⟨s,live,rfl⟩ := Option.map_eq_some_iff.mp seq
        rw [held] at kind
        simp only [decide_eq_true_eq] at kind
        refine own at_n ?_ ?_ (.inr ⟨w,won,by unfold newer; rw [held]; simpa using kind⟩)
        · intro e logged equal beyond below
          by_cases spanned : w.cut < e.position
          · exact past e logged equal spanned below
          · rcases kind with early | named'
            · omega
            · -- the blob's seq is the slice's own, so nothing stands between the base and the cut
              obtain ⟨m,found,le⟩ := Option.any_eq_true _ _ |>.mp named'
              have found : w.header.get slice = some m := found
              rw [named] at found
              obtain ⟨s',live',rfl⟩ := Option.map_eq_some_iff.mp found
              simp only [decide_eq_true_eq] at le
              have inBlob := (serverState_some db.valid live' logged equal).mpr (by omega)
              have inBase := (serverState_some db.valid live logged equal).mp (by omega)
              omega
        · intro e member' early
          have seq' := (serverState_some db.valid live (run.logged e member').1 (run.logged e member').2).mpr early
          exact .inl (.inr (by rw [live]; simpa using seq'))
    | false =>
      obtain ⟨ends,front,joined⟩ := chain_lands db.valid run under past (le_refl w.cut)
        (fun e _ early => .inl (.inl early))
      rw [← named] at ends joined
      rw [planOf_blob won kind]
      refine ⟨serverState db.log slice w.cut,⟨named,?_,⟨front,joined⟩,by simp,fun _ => ⟨w,won,rfl⟩⟩⟩
      intro whole
      have folded := ends.folds whole
      by_cases order : w.cut ≤ core.cursor
      · rwa [max_eq_right order] at folded
      · rw [max_eq_left (by omega)] at folded
        rw [← serverState_quiet db.valid (by omega : core.cursor ≤ w.cut) ?_]
        · exact folded
        · intro e logged equal beyond
          have here : core.replica.cursor = core.cursor := rfl
          have far := brought.visible e logged (by rw [equal]; exact covers) (by omega)
          omega

-- Steps of a land: they change slices' keys and seqs, and nothing else.
def Slices (rep after : Replica V) : Prop := after = {rep with keys:=after.keys,held:=after.held}

theorem Slices.trans {a b c : Replica V} (first : Slices a b) (second : Slices b c) : Slices a c := by
  unfold Slices at *
  rw [second,first]

-- They leave the parked rows as they are.
structure Rows (core after : Core V D) : Prop where
  pages : after.store.parkedPages = core.store.parkedPages
  edits : after.store.parkedEdits = core.store.parkedEdits

theorem Rows.trans {a b c : Core V D} (first : a.Rows b) (second : b.Rows c) : a.Rows c :=
  ⟨second.pages.trans first.pages,second.edits.trans first.edits⟩

theorem Rows.parkedOf {core after : Core V D} (rows : core.Rows after) (slice : Name) :
    after.store.parkedOf slice = core.store.parkedOf slice := by
  unfold Store.parkedOf; rw [rows.edits]

theorem Rows.paged {core after : Core V D} {b : Blob} {db : Database V} (rows : core.Rows after)
    (paged : ∀ op, (∃ page ∈ core.store.pagesOf b.selector, op ∈ page) ↔ ∃ row ∈ db.blob b.selector b.cut, row.2 = op) :
    ∀ op, (∃ page ∈ after.store.pagesOf b.selector, op ∈ page) ↔ ∃ row ∈ db.blob b.selector b.cut, row.2 = op := by
  intro op
  have before := paged op
  simp only [Store.mem_pagesOf] at before ⊢
  rw [rows.pages]
  exact before

theorem clears_rows (core : Core V D) (plans : List (Plan V)) :
    core.Rows (plans.foldl (fun core plan => core.clearIn plan.slice) core) :=
  foldl_invariant (fun _ _ _ rows => ⟨rows.pages,rows.edits⟩) ⟨rfl,rfl⟩

theorem clears_replica (core : Core V D) (plans : List (Plan V)) (plain : ∀ plan ∈ plans, '!' ∉ plan.slice) :
    (plans.foldl (fun core plan => core.clearIn plan.slice) core).replica =
      {core.replica with keys:=fun slice => if slice ∈ plans.map Plan.slice then fun _ => none else core.replica.keys slice} := by
  induction plans generalizing core with
  | nil => simp
  | cons plan rest ih =>
    rw [List.foldl_cons,ih _ (fun x member => plain x (List.mem_cons_of_mem _ member)),
      clearIn_replica core (plain plan List.mem_cons_self)]
    refine Replica.ext ?_ rfl rfl rfl rfl rfl rfl rfl rfl
    funext slice
    by_cases later : slice ∈ rest.map Plan.slice
    · simp [later]
    · by_cases here : slice = plan.slice
      · subst here; simp
      · simp [later,here]

theorem clears_mirrors {core : Core V D} (mirrors : core.Mirrors) (plans : List (Plan V))
    (plain : ∀ plan ∈ plans, '!' ∉ plan.slice) : (plans.foldl (fun core plan => core.clearIn plan.slice) core).Mirrors :=
  foldl_invariant (fun _ plan member held => clearIn_mirrors held (plain plan member)) mirrors

-- What a blob holds of a slice.
def blobKeys (db : Database V) (b : Blob) (slice : Name) : Key → Option V :=
  if selectorCovers b.selector slice = true then keysOf (serverState db.log slice b.cut) else fun _ => none

-- A blob's pages, all of them in.
def Paged (db : Database V) (core : Core V D) (b : Blob) : Prop :=
  ∀ op, (∃ page ∈ core.store.pagesOf b.selector, op ∈ page) ↔ ∃ row ∈ db.blob b.selector b.cut, row.2 = op

theorem paged_keys {core : Core V D} {b : Blob} (paged : Paged db core b) (key : Key) (value : V) :
    (key,value) ∈ (core.store.pagesOf b.selector).flatten ↔ ∃ slice, sliceOf key = some slice ∧ blobKeys db b slice key = some value := by
  rw [List.mem_flatten,paged (key,value)]
  have rows : (∃ row ∈ db.blob b.selector b.cut, row.2 = (key,value)) ↔
      ∃ stop, (stop,(key,value)) ∈ db.blob b.selector b.cut := by
    constructor
    · rintro ⟨⟨stop,op⟩,member,rfl⟩; exact ⟨stop,member⟩
    · rintro ⟨stop,member⟩; exact ⟨_,member,rfl⟩
  rw [rows,db.folded]
  unfold blobKeys
  constructor
  · rintro ⟨slice,under,covers,held⟩; exact ⟨slice,under,by rw [if_pos covers]; exact held⟩
  · rintro ⟨slice,under,held⟩
    by_cases covers : selectorCovers b.selector slice = true
    · rw [if_pos covers] at held; exact ⟨slice,under,covers,held⟩
    · rw [if_neg covers] at held; cases held

theorem writeBlobIn_replica {core after : Core V D} {b : Blob} {skip : List Name} (paged : Paged db core b)
    (ran : core.writeBlobIn b skip = .ok after) :
    (∀ slice k, after.replica.keys slice k =
      if slice ∈ skip then core.replica.keys slice k else (blobKeys db b slice k).or (core.replica.keys slice k)) ∧
    Slices core.replica after.replica ∧ after.replica.held = core.replica.held ∧ core.Rows after ∧
    (core.Mirrors → after.Mirrors) := by
  obtain ⟨⟨store,changed⟩,snapshot,done⟩ := bind_ok.mp ran
  cases done
  obtain ⟨⟨base,keys⟩,wrote,done⟩ := bind_ok.mp snapshot
  cases done
  rw [Base.writePages] at wrote
  obtain ⟨got,owners⟩ := Base.writePage_get wrote
  refine ⟨?_,rfl,rfl,⟨rfl,rfl⟩,?_⟩
  · intro slice k
    show Base.sliceKeys base slice k = if slice ∈ skip then Base.sliceKeys core.store.base slice k else
      (blobKeys db b slice k).or (Base.sliceKeys core.store.base slice k)
    unfold Base.sliceKeys
    by_cases under : sliceOf k = some slice
    · rw [if_pos under,if_pos under,got k]
      by_cases skipped : slice ∈ skip
      · rw [if_pos skipped]
        refine Base.writes_other _ _ _ ?_
        intro op member same
        obtain ⟨x,inside,rfl⟩ := List.mem_map.mp member
        have free := (List.mem_filter.mp inside).2
        have same : x.1 = k := same
        rw [same,under] at free
        simp [skipped] at free
      · rw [if_neg skipped]
        cases held : blobKeys db b slice k with
        | some v =>
          refine Base.writes_wrote (List.mem_map.mpr ⟨(k,v),List.mem_filter.mpr ⟨?_,?_⟩,rfl⟩) ?_
          · exact (paged_keys paged k v).mpr ⟨slice,under,held⟩
          · simp [under,skipped]
          · rintro op member same
            obtain ⟨⟨key,value⟩,inside,rfl⟩ := List.mem_map.mp member
            have same : key = k := same
            subst same
            obtain ⟨slice',under',held'⟩ := (paged_keys paged key value).mp (List.mem_filter.mp inside).1
            rw [under] at under'
            cases under'
            exact held'.symm.trans held
        | none =>
          refine Base.writes_other _ _ _ ?_
          rintro op member same
          obtain ⟨⟨key,value⟩,inside,rfl⟩ := List.mem_map.mp member
          have same : key = k := same
          subst same
          obtain ⟨slice',under',held'⟩ := (paged_keys paged key value).mp (List.mem_filter.mp inside).1
          rw [under] at under'
          cases under'
          rw [held] at held'
          cases held'
    · rw [if_neg under,if_neg under]
      by_cases skipped : slice ∈ skip
      · rw [if_pos skipped]
      · rw [if_neg skipped,Option.or_none]
        cases held : blobKeys db b slice k with
        | none => rfl
        | some v =>
          unfold blobKeys at held
          split at held
          · exact absurd (serverState_under db.valid k v held) under
          · cases held
  · intro mirrors
    exact {mirrors with
      owned := by
        intro k v held
        have held : base.get k = some v := held
        rw [got k] at held
        by_cases written : ∃ op ∈ Base.kept skip (core.store.pagesOf b.selector).flatten, op.1 = k
        · obtain ⟨op,member,rfl⟩ := written
          obtain ⟨x,inside,rfl⟩ := List.mem_map.mp member
          exact owners x (List.mem_filter.mp inside).1
        · rw [Base.writes_other _ _ _ (fun op member same => written ⟨op,member,same⟩)] at held
          exact mirrors.owned k v held}

-- What a fold of blobs leaves of a key, when one value at most is brought to it.
theorem or_fold {α : Type} {brings : Blob → Option α} {blobs : List Blob} {first value : Option α}
    (one : ∀ b ∈ blobs, brings b = none ∨ brings b = value) (start : first = none ∨ first = value)
    (some_ : first = value ∨ ∃ b ∈ blobs, brings b = value) :
    blobs.foldl (fun held b => (brings b).or held) first = value := by
  induction blobs generalizing first with
  | nil => exact some_.resolve_right (by simp)
  | cons b rest ih =>
    rw [List.foldl_cons]
    refine ih (fun x member => one x (List.mem_cons_of_mem _ member)) ?_ ?_
    · rcases one b List.mem_cons_self with none | brought
      · rw [none,Option.none_or]; exact start
      · rw [brought]
        rcases start with none | same
        · rw [none,Option.or_none]; exact .inr rfl
        · rw [same,Option.or_self]; exact .inr rfl
    · rcases one b List.mem_cons_self with none | brought
      · rw [none,Option.none_or]
        rcases some_ with same | ⟨x,member,brings'⟩
        · exact .inl same
        · rcases List.mem_cons.mp member with rfl | later
          · rcases start with empty | same
            · exact .inl (by rw [empty,← brings',none])
            · exact .inl same
          · exact .inr ⟨x,later,brings'⟩
      · rw [brought]
        rcases start with none | same
        · rw [none,Option.or_none]; exact .inl rfl
        · rw [same,Option.or_self]; exact .inl rfl

theorem writeBlobs_replica {core after : Core V D} {blobs : List Blob} {skip : Blob → List Name}
    (paged : ∀ b ∈ blobs, Paged db core b)
    (ran : blobs.foldlM (fun core b => core.writeBlobIn b (skip b)) core = .ok after) :
    (∀ slice k, after.replica.keys slice k = blobs.foldl
      (fun held b => (if slice ∈ skip b then none else blobKeys db b slice k).or held) (core.replica.keys slice k)) ∧
    Slices core.replica after.replica ∧ after.replica.held = core.replica.held ∧ core.Rows after ∧
    (core.Mirrors → after.Mirrors) := by
  induction blobs generalizing core with
  | nil => cases ran; exact ⟨fun _ _ => rfl,rfl,rfl,⟨rfl,rfl⟩,id⟩
  | cons b rest ih =>
    obtain ⟨middle,one,more⟩ := foldlM_ok.mp ran
    obtain ⟨keys,slices,held,rows,mirrors⟩ := writeBlobIn_replica (paged b List.mem_cons_self) one
    obtain ⟨keys',slices',held',rows',mirrors'⟩ := ih (fun x member => rows.paged (paged x (List.mem_cons_of_mem _ member))) more
    refine ⟨?_,slices.trans slices',held'.trans held,rows.trans rows',fun first => mirrors' (mirrors first)⟩
    intro slice k
    rw [keys' slice k,keys slice k,List.foldl_cons]
    congr 1
    split
    · rw [Option.none_or]
    · rfl

-- A land's plan for a slice takes it from the state it stands on to the cursor's.
theorem applyRunIn_replica {core after : Core V D} {plan : Plan V} (mirrors : core.Mirrors) (plain : '!' ∉ plan.slice)
    (sorted : (core.store.parkedOf plan.slice).Pairwise (fun a b => a.seq < b.seq))
    (suffix : ∃ front, core.store.parkedOf plan.slice = front++plan.run) (base : Option (SliceState V))
    (start : core.replica.keys plan.slice = keysOf base) (ran : core.applyRunIn plan = .ok after) :
    after.replica = {core.replica with
      keys:=Function.update core.replica.keys plan.slice (keysOf (plan.run.foldl (fun s e => e.apply s) base))} ∧
    after.Mirrors ∧ core.Rows after := by
  unfold applyRunIn at ran
  cases run : plan.run with
  | nil =>
    rw [run] at ran
    cases ran
    refine ⟨?_,mirrors,⟨rfl,rfl⟩⟩
    have same : Function.update core.replica.keys plan.slice (keysOf base) = core.replica.keys := by
      rw [Function.update_eq_self_iff]; exact start.symm
    rw [List.foldl_nil,same]
  | cons first more =>
    rw [run] at ran
    obtain ⟨⟨store,changed⟩,parked,done⟩ := bind_ok.mp ran
    cases done
    obtain ⟨⟨base',changed'⟩,applied,done⟩ := bind_ok.mp parked
    cases done
    -- the parked edits from the run's first seq on are the run
    have rows : (core.store.parkedOf plan.slice).filter (fun e => first.seq ≤ e.seq) = first :: more := by
      obtain ⟨front,joined⟩ := suffix
      rw [run] at joined
      rw [joined] at sorted ⊢
      rw [List.filter_append]
      have before : front.filter (fun e => first.seq ≤ e.seq) = [] := by
        rw [List.filter_eq_nil_iff]
        intro e member
        have less := (List.pairwise_append.mp sorted).2.2 e member first List.mem_cons_self
        simp only [decide_eq_true_eq]
        omega
      have from_ : (first :: more).filter (fun e => first.seq ≤ e.seq) = first :: more := by
        rw [List.filter_eq_self]
        intro e member
        rcases List.mem_cons.mp member with rfl | later
        · simp
        · have less := (List.pairwise_cons.mp (List.pairwise_append.mp sorted).2.1).1 e later
          simp only [decide_eq_true_eq]
          omega
      rw [before,from_,List.nil_append]
    rw [rows] at applied
    obtain ⟨keys,others,owned⟩ := Base.applyRun plain base start applied
    let written : Core V D := ({core with store:={core.store with base:=base'}} : Core V D).markDirty changed
    have writtenMirrors : written.Mirrors := {mirrors with owned := owned mirrors.owned}
    have beside : written.Beside ((first :: more).foldl (fun core e => core.roundTrip e.id) written) :=
      beside_roundTrips written (first :: more)
    refine ⟨?_,beside.mirrors writtenMirrors,?_⟩
    · show ((first :: more).foldl (fun core e => core.roundTrip e.id) written).replica = _
      rw [beside.replica]
      refine Replica.ext ?_ rfl rfl rfl rfl rfl rfl rfl rfl
      funext slice
      show base'.sliceKeys slice = Function.update core.replica.keys plan.slice _ slice
      by_cases same : slice = plan.slice
      · subst same; rw [keys,Function.update_self]
      · rw [others slice same,Function.update_of_ne same]; rfl
    · show core.Rows ((first :: more).foldl (fun core e => core.roundTrip e.id) written)
      obtain ⟨m,o,d,equal⟩ := beside
      rw [equal]
      exact ⟨rfl,rfl⟩

theorem settleIn_rows (core : Core V D) (slice : Name) (seq : Option Nat) : core.Rows (core.settleIn slice seq) := by
  cases seq <;> exact ⟨rfl,rfl⟩

theorem settlePlanIn_replica {core after : Core V D} {plan : Plan V} (mirrors : core.Mirrors) (plain : '!' ∉ plan.slice)
    (sorted : (core.store.parkedOf plan.slice).Pairwise (fun a b => a.seq < b.seq))
    (suffix : ∃ front, core.store.parkedOf plan.slice = front++plan.run) (base : Option (SliceState V))
    (start : core.replica.keys plan.slice = keysOf base) (ran : core.settlePlanIn plan = .ok after) :
    after.replica = {core.replica with
      keys:=Function.update core.replica.keys plan.slice (keysOf (plan.run.foldl (fun s e => e.apply s) base))
      held:=Function.update core.replica.held plan.slice plan.heldAt} ∧ after.Mirrors ∧ core.Rows after := by
  obtain ⟨middle,applied,done⟩ := bind_ok.mp ran
  cases done
  obtain ⟨replica,kept,rows⟩ := applyRunIn_replica mirrors plain sorted suffix base start applied
  refine ⟨?_,settleIn_mirrors kept _ _,rows.trans (settleIn_rows ..)⟩
  rw [settleIn_replica,replica]

theorem settlePlans_replica {core after : Core V D} {plans : List (Plan V)} (mirrors : core.Mirrors)
    (distinct : (plans.map Plan.slice).Nodup) (plain : ∀ plan ∈ plans, '!' ∉ plan.slice) (base : Plan V → Option (SliceState V))
    (suffix : ∀ plan ∈ plans, ∃ front, core.store.parkedOf plan.slice = front++plan.run)
    (start : ∀ plan ∈ plans, core.replica.keys plan.slice = keysOf (base plan))
    (ran : plans.foldlM settlePlanIn core = .ok after) :
    (∀ plan ∈ plans, after.replica.keys plan.slice = keysOf (plan.run.foldl (fun s e => e.apply s) (base plan)) ∧
      after.replica.held plan.slice = plan.heldAt) ∧
    (∀ slice, slice ∉ plans.map Plan.slice → after.replica.keys slice = core.replica.keys slice ∧
      after.replica.held slice = core.replica.held slice) ∧ Slices core.replica after.replica ∧ after.Mirrors := by
  induction plans generalizing core with
  | nil => cases ran; exact ⟨by simp,fun _ _ => ⟨rfl,rfl⟩,rfl,mirrors⟩
  | cons plan rest ih =>
    obtain ⟨middle,one,more⟩ := foldlM_ok.mp ran
    obtain ⟨fresh,distinct⟩ := List.nodup_cons.mp distinct
    have here := plain plan List.mem_cons_self
    obtain ⟨replica,kept,rows⟩ := settlePlanIn_replica mirrors here (Store.parkedOf_sorted _ mirrors.genuine _)
      (suffix plan List.mem_cons_self) (base plan) (start plan List.mem_cons_self) one
    have others : ∀ x ∈ rest, x.slice ≠ plan.slice := by
      intro x member same
      exact fresh (same ▸ List.mem_map_of_mem member)
    obtain ⟨inside,outside,slices,mirrors'⟩ := ih kept distinct (fun x member => plain x (List.mem_cons_of_mem _ member))
      (fun x member => by rw [rows.parkedOf]; exact suffix x (List.mem_cons_of_mem _ member))
      (by
        intro x member
        rw [replica]
        exact (Function.update_of_ne (others x member) ..).trans (start x (List.mem_cons_of_mem _ member)))
      more
    have first : Slices core.replica middle.replica := by unfold Slices; rw [replica]
    refine ⟨?_,?_,first.trans slices,mirrors'⟩
    · intro x member
      rcases List.mem_cons.mp member with rfl | later
      · obtain ⟨keys,held⟩ := outside x.slice fresh
        rw [keys,held,replica]
        exact ⟨Function.update_self ..,Function.update_self ..⟩
      · exact inside x later
    · intro slice absent
      simp only [List.map_cons,List.mem_cons,not_or] at absent
      obtain ⟨keys,held⟩ := outside slice absent.2
      rw [keys,held,replica]
      exact ⟨Function.update_of_ne absent.1 ..,Function.update_of_ne absent.1 ..⟩

-- The blobs of finished downloads have all their pages.
theorem landable_paged {core : Core V D} {blobs : List Blob} (inv : core.replica.Accounted db sent)
    (landable : core.replica.Landable) (read : core.Blobs blobs) : ∀ b ∈ blobs, Paged db core b := by
  intro b member op
  obtain ⟨d,resume,going,at_,cut,_⟩ := read.real b member
  obtain ⟨resume',at_',done,_⟩ := landable b.selector d going
  have same : resume' = resume := Option.some.inj (at_'.symm.trans at_)
  subst same
  have brought := (inv.downloading b.selector d going).brought resume' at_
  rw [cut]
  have pages := brought.pages op
  constructor
  · rintro ⟨page,inside,held⟩
    obtain ⟨start,found⟩ := (Store.mem_pagesOf _ _ _).mp inside
    obtain ⟨row,stands,_,same⟩ := pages.mp ⟨start,page,found,held⟩
    exact ⟨row,stands,same⟩
  · rintro ⟨row,stands,same⟩
    obtain ⟨start,page,found,held⟩ := pages.mpr ⟨row,stands,brought.done done row stands,same⟩
    exact ⟨page,(Store.mem_pagesOf _ _ _).mpr ⟨start,found⟩,held⟩

theorem blob_header {core : Core V D} {blobs : List Blob} (inv : core.replica.Accounted db sent) (read : core.Blobs blobs)
    {b : Blob} (member : b ∈ blobs) (slice : Name) : b.header.get slice =
      if selectorCovers b.selector slice = true then (serverState db.log slice b.cut).map SliceState.seq else none := by
  obtain ⟨d,resume,going,at_,cut,header⟩ := read.real b member
  rw [header slice,((inv.downloading b.selector d going).brought resume at_).header slice,db.named,cut]

-- A slice a blob does not name has no keys in it.
theorem unnamed_keys {core : Core V D} {blobs : List Blob} (inv : core.replica.Accounted db sent) (read : core.Blobs blobs)
    {b : Blob} (member : b ∈ blobs) (unnamed : b.header.get slice = none) (k : Key) : blobKeys db b slice k = none := by
  rw [blob_header inv read member slice] at unnamed
  unfold blobKeys
  split at unnamed
  · rename_i covers
    rw [if_pos covers,Option.map_eq_none_iff.mp unnamed]
    rfl
  · rename_i outside
    rw [if_neg outside]

-- A slice the land does not touch is as the log has it at the cursor already.
theorem untouched_at {core : Core V D} {blobs : List Blob} (inv : core.replica.Accounted db sent)
    (landable : core.replica.Landable) (read : core.Blobs blobs) (inView : core.replica.InView slice)
    (untouched : slice ∉ core.touched blobs) : core.replica.At db.log slice core.cursor := by
  simp only [touched,List.mem_dedup,List.mem_append,List.mem_flatMap,List.mem_filter,not_or,not_exists,not_and] at untouched
  obtain ⟨⟨unparked,unnamed⟩,unwon⟩ := untouched
  have none : ∀ e ∈ core.replica.parked, e.slice ≠ slice := by
    intro e parked same
    exact unparked ((Store.mem_parkedSlices _ _).mpr ⟨e.seq,e,same ▸ parked⟩)
  have reached : core.applied ≤ core.cursor := inv.applied_le
  have sentPast : core.cursor ≤ sent := inv.cursor_le
  cases won : winner blobs slice with
  | none =>
    have clear : ¬core.replica.Over slice := by
      rintro ⟨r,d,going,covers⟩
      obtain ⟨resume,at_,_⟩ := landable r d going
      obtain ⟨b,member,rfl⟩ := read.going r d going resume at_
      rw [winner_none won b member] at covers
      cases covers
    have kept := inv.kept slice inView clear
    have quiet : ∀ e ∈ db.log, e.slice = slice → core.applied < e.position → core.cursor < e.position := by
      intro e member same past
      by_contra under
      exact none e (kept.parked e member same past (by omega)) same
    unfold Replica.At
    rw [serverState_quiet db.valid reached quiet]
    exact kept.base
  | some w =>
    obtain ⟨member,covers⟩ := winner_some won
    obtain ⟨d,resume,going,at_,cut,_⟩ := read.real w member
    obtain ⟨resume',at_',_,tail,visible⟩ := landable w.selector d going
    have same : resume' = resume := Option.some.inj (at_'.symm.trans at_)
    subst same
    have brought := (inv.downloading w.selector d going).brought resume' at_
    have unheld : core.slices.get slice = .none := by
      rw [← OrderedMap.not_mem_keys]
      exact fun held => unwon held (by rw [won]; rfl)
    have absent : w.header.get slice = .none := by
      rw [← OrderedMap.not_mem_keys]
      exact unnamed w member
    rw [blob_header inv read member slice,if_pos covers] at absent
    have dead := Option.map_eq_none_iff.mp absent
    -- between the cut and the cursor, in either order, the slice has no edits
    have gone : serverState db.log slice core.cursor = .none := by
      rw [← dead]
      by_cases order : w.cut ≤ core.cursor
      · refine serverState_quiet db.valid order ?_
        intro e logged same past
        by_contra under
        exact none e (inv.parked_past going at_ tail logged (by rw [same]; exact covers) (by omega) (by omega)) same
      · refine (serverState_quiet db.valid (by omega) ?_).symm
        intro e logged same past
        have here : core.replica.cursor = core.cursor := rfl
        have far := brought.visible e logged (by rw [same]; exact covers) (by omega)
        omega
    refine ⟨?_,?_⟩
    · rw [gone]; exact unheld
    · rw [gone]; exact inv.empty slice unheld

theorem held_plain {core : Core V D} (inv : core.replica.Accounted db sent) (held : core.slices.get slice = some n) :
    '!' ∉ slice := by
  have base : core.replica.At db.log slice core.applied := inv.held slice n held
  have live : (serverState db.log slice core.applied).map SliceState.seq = some n := by rw [← base.1]; exact held
  obtain ⟨state,live,_⟩ := Option.map_eq_some_iff.mp live
  exact (serverState_plain db.valid live).1

theorem touched_plain {core : Core V D} {blobs : List Blob} (inv : core.replica.Accounted db sent) (mirrors : core.Mirrors)
    (read : core.Blobs blobs) (touched : slice ∈ core.touched blobs) : '!' ∉ slice := by
  simp only [Core.touched,List.mem_dedup,List.mem_append,List.mem_flatMap,List.mem_filter] at touched
  rcases touched with (parked | ⟨b,member,named⟩) | ⟨held,_⟩
  · obtain ⟨seq,e,at_⟩ := (Store.mem_parkedSlices _ _).mp parked
    obtain ⟨rfl,rfl⟩ := mirrors.genuine slice seq e at_
    exact (db.valid.plain e (inv.genuine e at_)).1
  · obtain ⟨n,at_⟩ := (OrderedMap.mem_keys _ _).mp named
    rw [blob_header inv read member slice] at at_
    split at at_
    · obtain ⟨state,live,_⟩ := Option.map_eq_some_iff.mp at_
      exact (serverState_plain db.valid live).1
    · cases at_
  · obtain ⟨n,at_⟩ := (OrderedMap.mem_keys _ _).mp held
    exact held_plain inv at_

theorem mem_plansOf (core : Core V D) (blobs : List Blob) (plan : Plan V) :
    plan ∈ core.plansOf blobs ↔ ∃ slice ∈ core.touched blobs, core.inView slice = true ∧ plan = core.planOf blobs slice := by
  simp only [plansOf,List.mem_map,List.mem_filter,and_assoc,eq_comm]

theorem plansOf_slices (core : Core V D) (blobs : List Blob) :
    (core.plansOf blobs).map Plan.slice = (core.touched blobs).filter core.inView := by
  rw [plansOf,List.map_map]
  exact List.map_id'' (fun slice => planOf_slice core blobs slice) _

theorem clearParked_mirrors {core : Core V D} (mirrors : core.Mirrors) : core.clearParked.Mirrors :=
  {mirrors with genuine := by intro name seq e held; cases held}

-- After the blobs, a slice whose plan starts from a blob has that blob's keys, and
-- any other has its own.
theorem blobs_written {core middle : Core V D} {blobs : List Blob} (inv : core.replica.Accounted db sent)
    (read : core.Blobs blobs) (plan : Plan V) (member : plan ∈ core.plansOf blobs)
    (base : Option (SliceState V)) (sound : core.Sound db.log blobs plan base)
    (keys : ∀ slice k, middle.replica.keys slice k = blobs.foldl
      (fun held b => (if slice ∈ skipOf blobs (core.plansOf blobs) b then none else blobKeys db b slice k).or held)
      (if slice ∈ ((core.plansOf blobs).filter (·.blob)).map Plan.slice then none else core.replica.keys slice k)) :
    middle.replica.keys plan.slice = keysOf base := by
  funext k
  rw [keys plan.slice k]
  -- two plans of one slice are one plan
  have alone : ∀ other ∈ core.plansOf blobs, other.slice = plan.slice → other = plan := by
    intro other inside same
    obtain ⟨a,_,_,rfl⟩ := (mem_plansOf core blobs other).mp inside
    obtain ⟨b,_,_,rfl⟩ := (mem_plansOf core blobs plan).mp member
    rw [planOf_slice,planOf_slice] at same
    rw [same]
  have brings : ∀ b ∈ blobs, (if plan.slice ∈ skipOf blobs (core.plansOf blobs) b then none else blobKeys db b plan.slice k) = none ∨
      (plan.blob = true ∧ (winner blobs plan.slice).map Blob.selector = some b.selector) := by
    intro b inside
    by_cases skipped : plan.slice ∈ skipOf blobs (core.plansOf blobs) b
    · rw [if_pos skipped]; exact .inl rfl
    · rw [if_neg skipped]
      by_cases named : plan.slice ∈ b.header.keys
      · have unskipped : ¬((winner blobs plan.slice).map Blob.selector ≠ some b.selector ∨
            ¬(core.plansOf blobs).any (fun other => other.slice = plan.slice ∧ other.blob)) := by
          intro why
          exact skipped (List.mem_filter.mpr ⟨named,by simpa using why⟩)
        simp only [not_or,not_not] at unskipped
        obtain ⟨other,inside',same⟩ := List.any_eq_true.mp unskipped.2
        simp only [decide_eq_true_eq] at same
        rw [alone other inside' same.1] at same
        exact .inr ⟨same.2,unskipped.1⟩
      · exact .inl (unnamed_keys inv read inside ((OrderedMap.not_mem_keys _ _).mp named) k)
  cases kind : plan.blob with
  | false =>
    have outside : plan.slice ∉ ((core.plansOf blobs).filter (·.blob)).map Plan.slice := by
      intro inside
      obtain ⟨other,held,same⟩ := List.mem_map.mp inside
      obtain ⟨there,blob⟩ := List.mem_filter.mp held
      rw [alone other there same,kind] at blob
      cases blob
    rw [if_neg outside]
    refine or_fold (fun b inside => .inl ((brings b inside).resolve_right ?_)) (.inr (congrFun (sound.own kind) k))
      (.inl (congrFun (sound.own kind) k))
    rw [kind]; simp
  | true =>
    obtain ⟨w,won,rfl⟩ := sound.won kind
    obtain ⟨inside,covers⟩ := winner_some won
    have starts : plan.slice ∈ ((core.plansOf blobs).filter (·.blob)).map Plan.slice :=
      List.mem_map_of_mem (List.mem_filter.mpr ⟨member,kind⟩)
    rw [if_pos starts]
    have whole : blobKeys db w plan.slice k = keysOf (serverState db.log plan.slice w.cut) k := by
      unfold blobKeys; rw [if_pos covers]
    have one : ∀ b ∈ blobs, (winner blobs plan.slice).map Blob.selector = some b.selector →
        blobKeys db b plan.slice k = blobKeys db w plan.slice k := by
      intro b there same
      rw [won] at same
      have selector : w.selector = b.selector := Option.some.inj same
      obtain ⟨d,resume,going,at_,cut,_⟩ := read.real w inside
      obtain ⟨d',resume',going',at_',cut',_⟩ := read.real b there
      rw [← selector,going] at going'
      cases going'
      rw [at_] at at_'
      cases at_'
      unfold blobKeys
      rw [selector,cut,cut']
    refine or_fold ?_ (.inl rfl) (.inr ⟨w,inside,?_⟩)
    · intro b there
      rcases brings b there with none | ⟨_,same⟩
      · exact .inl none
      · by_cases skipped : plan.slice ∈ skipOf blobs (core.plansOf blobs) b
        · rw [if_pos skipped]; exact .inl rfl
        · rw [if_neg skipped,one b there same,whole]; exact .inr rfl
    · by_cases skipped : plan.slice ∈ skipOf blobs (core.plansOf blobs) w
      · -- skipped by its own winner only if it is not named there
        have why := (List.mem_filter.mp skipped).2
        simp only [won,Option.map_some,ne_eq,not_true_eq_false,false_or,decide_eq_true_eq,
          List.any_eq_true,not_exists,not_and] at why
        exact absurd kind (why plan member rfl)
      · rw [if_neg skipped,whole]

theorem blobs_unplanned {core : Core V D} {blobs : List Blob} (inv : core.replica.Accounted db sent) (read : core.Blobs blobs)
    (unplanned : slice ∉ (core.plansOf blobs).map Plan.slice) (k : Key) (first : Option V) :
    blobs.foldl (fun held b => (if slice ∈ skipOf blobs (core.plansOf blobs) b then none else blobKeys db b slice k).or held)
      first = first := by
  refine or_fold (fun b inside => .inl ?_) (.inr rfl) (.inl rfl)
  by_cases skipped : slice ∈ skipOf blobs (core.plansOf blobs) b
  · rw [if_pos skipped]
  · rw [if_neg skipped]
    refine unnamed_keys inv read inside ((OrderedMap.not_mem_keys _ _).mp fun named => skipped ?_) k
    have absent : ¬(core.plansOf blobs).any (fun other => other.slice = slice ∧ other.blob) := by
      intro found
      obtain ⟨other,there,same⟩ := List.any_eq_true.mp found
      simp only [decide_eq_true_eq] at same
      exact unplanned (same.1 ▸ List.mem_map_of_mem there)
    exact List.mem_filter.mpr ⟨named,decide_eq_true (.inr absent)⟩

-- What leaves the view and the cursor alone.
def Stands (core after : Core V D) : Prop :=
  after.replica.view = core.replica.view ∧ after.replica.cursor = core.replica.cursor

theorem Stands.trans {a b c : Core V D} (first : a.Stands b) (second : b.Stands c) : a.Stands c :=
  ⟨second.1.trans first.1,second.2.trans first.2⟩

-- What ends a land: the view's drops, and nothing parked or in flight is left.
theorem ends_rests {core : Core V D} (mirrors : core.Mirrors) (orphan : Orphans core.replica)
    (formed : ∀ v ∈ core.replica.view, WellFormed v ∧ ∃ w, SliceType w ∧ selectorCovers w v = true)
    (low : -1 ≤ core.applied) (applied : core.applied ≤ core.cursor)
    (whole : ∀ slice, core.replica.InView slice → core.replica.At db.log slice core.cursor)
    (plain : ∀ slice n, core.slices.get slice = some n → '!' ∉ slice)
    (empty : ∀ slice, core.slices.get slice = none → core.replica.keys slice = fun _ => none) :
    let dropped := (core.dropSlicesIn core.inView).clearParked
    let after := (dropped.dropBackfillsIn dropped.backfills.keys).appliedTo core.cursor
    after.Mirrors ∧ after.replica.Invariant db core.cursor ∧ core.Stands after ∧ ¬after.replica.Frozen := by
  dsimp only
  obtain ⟨cut,gone,drops⟩ := dropSlicesIn_restricted core core.inView plain empty
  have dropMirrors := clearParked_mirrors (dropSlicesIn_mirrors mirrors core.inView plain)
  generalize droppedIs : (core.dropSlicesIn core.inView).clearParked = dropped at dropMirrors ⊢
  have dropped_replica : dropped.replica = {core.replica.drop gone with parked:=∅} := by
    rw [← droppedIs,← drops]
    refine Replica.ext rfl rfl rfl rfl rfl ?_ rfl rfl rfl
    ext e
    show (∅ : OrderedMap (Name × Nat) (WireEdit V)).get (e.slice,e.seq) = some e ↔ e ∈ (∅ : Set (WireEdit V))
    simp
  have orphans : Orphans dropped.replica := by rw [dropped_replica]; exact orphan
  have canceled := dropBackfillsIn_replica orphans dropped.backfills.keys
  have thawed : ∀ r, (dropped.replica.cancel dropped.backfills.keys).inflight r = none := by
    intro r
    simp only [Replica.cancel]
    by_cases member : r ∈ dropped.backfills.keys
    · rw [if_pos member]
    · rw [if_neg member]
      show (dropped.backfills.get r).map downloadOf = none
      rw [(OrderedMap.not_mem_keys _ _).mp member]
      rfl
  have unowned := orphans_cancel orphans dropped.backfills.keys
  have cancelMirrors := dropBackfillsIn_mirrors dropMirrors dropped.backfills.keys
  generalize dropped.dropBackfillsIn dropped.backfills.keys = last at canceled cancelMirrors ⊢
  have lastCursor : last.replica.cursor = core.cursor := by rw [canceled,dropped_replica]; rfl
  have lastApplied : last.replica.applied = core.applied := by rw [canceled,dropped_replica]; rfl
  have lastView : last.replica.view = core.replica.view := by rw [canceled,dropped_replica]; rfl
  have final := appliedTo_replica last core.cursor
  have reached : max core.cursor last.applied = core.cursor := by
    rw [show last.applied = core.applied from lastApplied]
    exact max_eq_left applied
  rw [reached] at final
  refine ⟨?_,?_,?_,?_⟩
  · refine appliedTo_mirrors cancelMirrors ?_
    by_cases none : last.checkpoint = none
    · refine .inl ?_
      have bottom : last.cursor = -1 := by unfold Core.cursor; rw [none]; rfl
      have here : last.cursor = core.cursor := lastCursor
      have there : last.applied = core.applied := lastApplied
      omega
    · exact .inr none
  · rw [final]
    have held : ∀ slice, last.replica.held slice = if core.inView slice then core.replica.held slice else Option.none := by
      intro slice; rw [← cut.held,canceled,dropped_replica,drops]; rfl
    have keys : ∀ slice, last.replica.keys slice = if core.inView slice then core.replica.keys slice else fun _ => Option.none := by
      intro slice; rw [← cut.keys,canceled,dropped_replica,drops]; rfl
    refine Replica.Invariant.rest (by rw [lastView]; exact formed) (le_trans low applied) lastCursor.symm ?_ ?_ ?_ ?_ ?_
    · intro e member
      rw [canceled,dropped_replica] at member
      exact member
    · rintro ⟨r,d,going⟩
      rw [canceled,thawed r] at going
      cases going
    · intro r
      rw [canceled]
      exact unowned r (thawed r)
    · intro slice inView
      have inView : core.inView slice = true := by
        have shown : covered last.replica.view slice = true := inView
        rwa [lastView] at shown
      have at_ := whole slice inView
      refine ⟨?_,?_⟩
      · show last.replica.held slice = _
        rw [held,if_pos inView]; exact at_.1
      · show last.replica.keys slice = _
        rw [keys,if_pos inView]; exact at_.2
    · intro slice outside
      have outside : ¬core.inView slice = true := by
        intro inView
        apply outside
        show covered last.replica.view slice = true
        rw [lastView]
        exact inView
      refine ⟨?_,?_⟩
      · show last.replica.held slice = none
        rw [held,if_neg outside]
      · show last.replica.keys slice = _
        rw [keys,if_neg outside]
  · unfold Stands
    rw [final]
    exact ⟨lastView,lastCursor⟩
  · rw [final]
    rintro ⟨r,d,going⟩
    have going : last.replica.inflight r = some d := going
    rw [canceled,thawed r] at going
    cases going

-- A land none of whose plans is broken ends at rest at the cursor.
theorem landPlansIn_rests {core after : Core V D} {blobs : List Blob} (mirrors : core.Mirrors)
    (inv : core.replica.Accounted db sent) (landable : core.replica.Landable)
    (none : ∀ e ∈ core.replica.parked, e.position ≤ core.cursor) (read : core.Blobs blobs)
    (unbroken : ∀ plan ∈ core.plansOf blobs, plan.gap = false)
    (ran : core.landPlansIn blobs (core.plansOf blobs) core.cursor = .ok after) :
    after.Mirrors ∧ after.replica.Invariant db core.cursor ∧ core.Stands after ∧ ¬after.replica.Frozen := by
  have sound : ∀ plan ∈ core.plansOf blobs, ∃ base, core.Sound db.log blobs plan base := by
    intro plan member
    obtain ⟨slice,_,inView,rfl⟩ := (mem_plansOf core blobs plan).mp member
    exact planOf_sound mirrors inv landable none read inView
  have plain : ∀ plan ∈ core.plansOf blobs, '!' ∉ plan.slice := by
    intro plan member
    obtain ⟨slice,touched,_,rfl⟩ := (mem_plansOf core blobs plan).mp member
    exact touched_plain inv mirrors read touched
  choose! base soundly using sound
  unfold landPlansIn at ran
  dsimp only at ran
  obtain ⟨written,wrote,ran⟩ := bind_ok.mp ran
  obtain ⟨settled,settles,ran⟩ := bind_ok.mp ran
  cases ran
  -- the blobs' slices start empty, and take their blobs' keys
  have plainBlob : ∀ plan ∈ (core.plansOf blobs).filter (·.blob), '!' ∉ plan.slice :=
    fun plan member => plain plan (List.mem_filter.mp member).1
  have cleared := clears_replica core _ plainBlob
  have clearedMirrors := clears_mirrors mirrors _ plainBlob
  have paged := landable_paged inv landable read
  obtain ⟨keys,slices,held,rows,kept⟩ := writeBlobs_replica (fun b member => (clears_rows core _).paged (paged b member)) wrote
  have writtenMirrors := kept clearedMirrors
  rw [cleared] at keys slices held
  have rows := (clears_rows core _).trans rows
  -- each plan's slice stands on its base, and its run takes it to the cursor
  have starts : ∀ plan ∈ core.plansOf blobs, written.replica.keys plan.slice = keysOf (base plan) := by
    intro plan member
    refine blobs_written inv read plan member (base plan) (soundly plan member) ?_
    intro slice k
    rw [keys slice k]
    congr 1
    dsimp only
    split <;> rfl
  have distinct : ((core.plansOf blobs).map Plan.slice).Nodup := by
    rw [plansOf_slices]
    exact (List.nodup_dedup _).filter _
  obtain ⟨inside,outside,slices',settledMirrors⟩ := settlePlans_replica writtenMirrors distinct plain base
    (fun plan member => by rw [rows.parkedOf]; exact (soundly plan member).suffix) starts settles
  have same : Slices core.replica settled.replica := by
    refine Slices.trans ?_ slices'
    unfold Slices at *
    rw [slices]
  have planned : ∀ plan ∈ core.plansOf blobs, settled.replica.At db.log plan.slice core.cursor := by
    intro plan member
    obtain ⟨ended,heldAt⟩ := inside plan member
    have folds := (soundly plan member).folds (unbroken plan member)
    refine ⟨?_,?_⟩
    · rw [heldAt,plan.heldAt_fold (soundly plan member).seq,folds]
    · rw [ended,folds]
  have unplanned : ∀ slice, slice ∉ (core.plansOf blobs).map Plan.slice →
      settled.replica.keys slice = core.replica.keys slice ∧ settled.replica.held slice = core.replica.held slice := by
    intro slice absent
    obtain ⟨left,leftHeld⟩ := outside slice absent
    refine ⟨?_,by rw [leftHeld,held]⟩
    rw [left]
    funext k
    rw [keys slice k,blobs_unplanned inv read absent k]
    dsimp only
    rw [if_neg fun blob => absent (List.mem_map.mpr ?_)]
    obtain ⟨plan,member,rfl⟩ := List.mem_map.mp blob
    exact ⟨plan,(List.mem_filter.mp member).1,rfl⟩
  have views : settled.replica.view = core.replica.view := by rw [same]
  have cursor : settled.cursor = core.cursor := by
    show settled.replica.cursor = core.replica.cursor
    rw [same]
  have applied : settled.applied = core.applied := by
    show settled.replica.applied = core.replica.applied
    rw [same]
  have whole : ∀ slice, settled.replica.InView slice → settled.replica.At db.log slice settled.cursor := by
    intro slice inView
    have inView : core.replica.InView slice := by unfold Replica.InView at *; rwa [views] at inView
    rw [cursor]
    by_cases touched : slice ∈ core.touched blobs
    · have here := planned (core.planOf blobs slice) ((mem_plansOf ..).mpr ⟨slice,touched,inView,rfl⟩)
      rwa [planOf_slice] at here
    · have absent : slice ∉ (core.plansOf blobs).map Plan.slice := by
        rw [plansOf_slices]
        exact fun member => touched (List.mem_filter.mp member).1
      obtain ⟨sameKeys,sameHeld⟩ := unplanned slice absent
      obtain ⟨seq,base⟩ := untouched_at inv landable read inView touched
      exact ⟨by rw [sameHeld]; exact seq,by rw [sameKeys]; exact base⟩
  have stands : ∀ slice, settled.replica.At db.log slice core.cursor ∨
      settled.replica.keys slice = core.replica.keys slice ∧ settled.replica.held slice = core.replica.held slice := by
    intro slice
    by_cases member : slice ∈ (core.plansOf blobs).map Plan.slice
    · obtain ⟨plan,inside,rfl⟩ := List.mem_map.mp member
      exact .inl (planned plan inside)
    · exact .inr (unplanned slice member)
  have ended := ends_rests settledMirrors (by rw [same]; exact inv.orphan) (by rw [views]; exact inv.formed)
    (by rw [applied]; exact inv.low) (by rw [applied,cursor]; exact inv.applied_le) whole
    (by
      intro slice n at_
      rcases stands slice with log | ⟨_,sameHeld⟩
      · have live : (serverState db.log slice core.cursor).map SliceState.seq = some n := by rw [← log.1]; exact at_
        obtain ⟨state,live,_⟩ := Option.map_eq_some_iff.mp live
        exact (serverState_plain db.valid live).1
      · have at_ : core.slices.get slice = some n := sameHeld.symm.trans at_
        exact held_plain inv at_)
    (by
      intro slice unheld
      have unheld : settled.replica.held slice = .none := unheld
      rcases stands slice with log | ⟨sameKeys,sameHeld⟩
      · rw [log.2]
        rw [log.1] at unheld
        rw [Option.map_eq_none_iff.mp unheld]
        rfl
      · rw [sameKeys]
        exact inv.empty slice (sameHeld.symm.trans unheld))
  obtain ⟨mirrors',rests,stood,thawed⟩ := ended
  rw [cursor] at mirrors' rests stood thawed
  exact ⟨mirrors',rests,Stands.trans ⟨views,cursor⟩ stood,thawed⟩

-- A broken slice's download starts over, or starts, past the cursor, where the
-- slice has no edits yet.
theorem mendIn_accounted {core : Core V D} (mirrors : core.Mirrors) (inv : core.replica.Accounted db sent)
    (plain : PlainName slice) (inView : core.replica.InView slice)
    (quiet : Quiet db.log core.replica.view position sent) :
    (mendIn position core slice).Mirrors ∧ (mendIn position core slice).replica.Accounted db sent ∧
      (mendIn position core slice).replica.Frozen ∧ core.Stands (mendIn position core slice) := by
  unfold mendIn
  by_cases going : core.backfills.has slice
  · rw [if_pos going]
    obtain ⟨entry,held⟩ := (OrderedMap.has_iff _ _).mp going
    have flying : core.replica.inflight slice = some (downloadOf entry) := by simp [replica,held]
    have old := inv.downloading slice _ flying
    unfold Stands
    rw [restartIn_replica held]
    refine ⟨restartIn_mirrors mirrors slice,?_,⟨slice,_,Function.update_self ..⟩,rfl,rfl⟩
    refine inv.download flying (by simp) ⟨?_,?_,by simp,by simp⟩
    · intro e member covers from_ under
      exact .inl (old.live e member covers from_ under)
    · intro _ start
      show Function.update core.replica.pages slice (fun _ => none) slice start = none
      rw [Function.update_self]
  · rw [if_neg going]
    have none : core.replica.inflight slice = none := by
      show (core.backfills.get slice).map downloadOf = none
      cases held : core.backfills.get slice with
      | none => rfl
      | some entry => exact absurd ((OrderedMap.has_iff _ _).mpr ⟨entry,held⟩) going
    unfold Stands
    rw [spawnIn_replica]
    refine ⟨spawnIn_mirrors mirrors slice _,inv.spawn none ⟨?_,(covered_iff _ _).mp inView⟩ ?_,
      Replica.spawn_frozen ..,rfl,rfl⟩
    · exact fun star => plain.2 (List.mem_of_mem_dropLast star)
    · intro e member covers from_ under
      rw [covers_plain plain] at covers
      have past := quiet e member (by rw [covers]; exact inView) (by omega)
      omega

theorem mends_accounted {core : Core V D} {slices : List Name} (mirrors : core.Mirrors) (inv : core.replica.Accounted db sent)
    (plain : ∀ slice ∈ slices, PlainName slice) (inView : ∀ slice ∈ slices, core.replica.InView slice)
    (quiet : Quiet db.log core.replica.view position sent) (some_ : slices ≠ []) :
    (slices.foldl (mendIn position) core).Mirrors ∧ (slices.foldl (mendIn position) core).replica.Accounted db sent ∧
      (slices.foldl (mendIn position) core).replica.Frozen ∧ core.Stands (slices.foldl (mendIn position) core) := by
  induction slices generalizing core with
  | nil => exact absurd rfl some_
  | cons slice rest ih =>
    obtain ⟨mirrors',inv',frozen,stood⟩ := mendIn_accounted mirrors inv (plain slice List.mem_cons_self)
      (inView slice List.mem_cons_self) quiet
    rw [List.foldl_cons]
    by_cases more : rest = []
    · subst more; exact ⟨mirrors',inv',frozen,stood⟩
    · obtain ⟨mirrors',inv',frozen,last⟩ := ih mirrors' inv' (fun x member => plain x (List.mem_cons_of_mem _ member))
        (by
          intro x member
          unfold Replica.InView
          rw [stood.1]
          exact inView x (List.mem_cons_of_mem _ member))
        (by rw [stood.1]; exact quiet) more
      exact ⟨mirrors',inv',frozen,stood.trans last⟩

-- Only edits of the log break a run, so a broken slice is one of the log's.
theorem broken_plain {core : Core V D} {blobs : List Blob} (mirrors : core.Mirrors) (inv : core.replica.Accounted db sent)
    (broken : (core.planOf blobs slice).gap = true) : PlainName slice := by
  obtain ⟨run,_⟩ := parkedOf_run mirrors inv.genuine slice
  cases rows : core.store.parkedOf slice with
  | nil =>
    unfold planOf at broken
    dsimp only at broken
    rw [rows] at broken
    cases broken
  | cons e more =>
    rw [rows] at run
    obtain ⟨logged,same⟩ := run.logged e List.mem_cons_self
    exact same ▸ db.valid.plain e logged

-- A land of finished downloads: it waits for an edit parked past the cursor, mends
-- what broke, or brings the base to rest at the cursor.
theorem landIn_accounted {core after : Core V D} (mirrors : core.Mirrors) (inv : core.replica.Accounted db sent)
    (landable : core.replica.Landable) (ran : core.landIn = .ok after) :
    (after = core ∧ ∃ e ∈ core.replica.parked, core.cursor < e.position) ∨
      after.Mirrors ∧ after.replica.Invariant db sent ∧ core.Stands after := by
  obtain ⟨blobs,read,ran⟩ := bind_ok.mp ran
  have read := blobs_ok read
  by_cases past : core.parkedPast core.cursor
  · rw [if_pos past] at ran
    cases ran
    obtain ⟨⟨⟨name,seq⟩,e⟩,member,beyond⟩ := List.any_eq_true.mp past
    simp only [decide_eq_true_eq] at beyond
    have held := (OrderedMap.mem_entries _ _ _).mp member
    obtain ⟨rfl,rfl⟩ := mirrors.genuine name seq e held
    exact .inl ⟨rfl,e,held,beyond⟩
  · rw [if_neg past] at ran
    have none : ∀ e ∈ core.replica.parked, e.position ≤ core.cursor := by
      intro e parked
      by_contra beyond
      refine past (List.any_eq_true.mpr ⟨((e.slice,e.seq),e),(OrderedMap.mem_entries _ _ _).mpr parked,?_⟩)
      simp only [decide_eq_true_eq]
      omega
    have quiet := inv.quiet_past landable none
    refine .inr ?_
    dsimp only at ran
    split at ran
    · rename_i whole
      have unbroken : ∀ plan ∈ core.plansOf blobs, plan.gap = false := by
        intro plan member
        simpa using List.filter_eq_nil_iff.mp whole plan member
      obtain ⟨mirrors',rests,stood,thawed⟩ := landPlansIn_rests mirrors inv landable none read unbroken ran
      refine ⟨mirrors',rests.extend inv.cursor_le ?_,stood⟩
      rw [stood.1]
      exact quiet
    · rename_i some_
      cases ran
      have broken : ∀ slice ∈ (core.plansOf blobs |>.filter (·.gap)).map Plan.slice,
          PlainName slice ∧ core.replica.InView slice := by
        intro slice member
        obtain ⟨plan,inside,rfl⟩ := List.mem_map.mp member
        obtain ⟨there,gap⟩ := List.mem_filter.mp inside
        obtain ⟨slice,_,inView,rfl⟩ := (mem_plansOf ..).mp there
        rw [planOf_slice]
        exact ⟨broken_plain mirrors inv gap,inView⟩
      obtain ⟨mirrors',inv',frozen,stood⟩ := mends_accounted mirrors inv (fun slice member => (broken slice member).1)
        (fun slice member => (broken slice member).2) quiet (by simpa using some_)
      exact ⟨mirrors',⟨inv',fun thawed => absurd frozen thawed⟩,stood⟩

theorem landIn_invariant {core after : Core V D} (mirrors : core.Mirrors) (inv : core.replica.Accounted db sent)
    (landable : core.replica.Landable) (clean : core.frozen = false → ∀ e ∈ core.replica.parked, e.position ≤ core.cursor)
    (ran : core.landIn = .ok after) : after.Mirrors ∧ after.replica.Invariant db sent ∧ core.Stands after := by
  rcases landIn_accounted mirrors inv landable ran with ⟨rfl,e,parked,beyond⟩ | landed
  · refine ⟨mirrors,⟨inv,fun thawed => ?_⟩,rfl,rfl⟩
    have reached := clean ((thawed_iff _).mpr thawed) e parked
    omega
  · exact landed

-- A land is tried once nothing waits.
theorem waits_false {cursor : Int} {rows : List (Name × BackfillEntry)} (ran : waits cursor rows = .ok false) :
    ∀ row ∈ rows, row.2.status = .ready ∧ ∃ resume, row.2.record.resume = some resume ∧ resume.visible ≤ cursor := by
  induction rows with
  | nil => simp
  | cons row rest ih =>
    obtain ⟨selector,entry⟩ := row
    simp only [waits] at ran
    split at ran
    · cases ran
    · rename_i ready
      cases at_ : entry.record.resume with
      | none => rw [at_] at ran; cases ran
      | some resume =>
        simp only [at_] at ran
        split at ran
        · cases ran
        · rename_i reached
          intro row member
          rcases List.mem_cons.mp member with rfl | later
          · exact ⟨not_not.mp ready,resume,at_,by omega⟩
          · exact ih ran row later

theorem tryLandIn_invariant {core after : Core V D} (mirrors : core.Mirrors) (inv : core.replica.Accounted db sent)
    (clean : core.frozen = false → ∀ e ∈ core.replica.parked, e.position ≤ core.cursor)
    (ran : core.tryLandIn = .ok after) : after.Mirrors ∧ after.replica.Invariant db sent ∧ core.Stands after := by
  obtain ⟨waiting,asked,ran⟩ := bind_ok.mp ran
  cases waiting with
  | true =>
    cases ran
    refine ⟨mirrors,⟨inv,fun thawed => absurd asked ?_⟩,rfl,rfl⟩
    have none : core.backfills.entries = [] := by
      have thawed := (thawed_iff core).mpr thawed
      refine List.length_eq_zero_iff.mp (Nat.eq_zero_of_not_pos ?_)
      exact of_decide_eq_false thawed
    rw [none]
    simp [waits]
  | false =>
    refine landIn_invariant mirrors inv ?_ clean ran
    intro r d going
    obtain ⟨entry,held,rfl⟩ := Option.map_eq_some_iff.mp going
    obtain ⟨ready,resume,at_,visible⟩ := waits_false asked (r,entry) ((OrderedMap.mem_entries _ _ _).mpr held)
    obtain ⟨resume',at_',snapshot,tail⟩ := (inv.downloading r _ going).ready (decide_eq_true ready)
    have same : resume' = resume := Option.some.inj (at_'.symm.trans at_)
    subst same
    exact ⟨resume',at_',snapshot,tail,visible⟩

end Core
end PhaseLock
