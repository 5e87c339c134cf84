import PhaseLock.Database
import Mathlib.Data.Set.Basic
import Mathlib.Logic.Function.Basic

namespace PhaseLock

-- A download as the sync's accounting sees it.
structure Download where
  untilPosition : Int
  resume : Option Resume
  ready : Bool

-- What the Engine holds of a log, apart from how it stores it: the base slice by
-- slice, the edits parked, and the blobs downloading.
@[ext]
structure Replica (V : Type) where
  keys : Name → Key → Option V
  held : Name → Option Nat
  view : List Name
  cursor : Int
  applied : Int
  parked : Set (WireEdit V)
  inflight : Name → Option Download
  pages : Name → Nat → Option (List (Key × V))
  header : Name → Name → Option Nat

namespace Replica
variable {V : Type}

def InView (rep : Replica V) (slice : Name) : Prop := covered rep.view slice = true
def Frozen (rep : Replica V) : Prop := ∃ r d, rep.inflight r = some d
def Over (rep : Replica V) (slice : Name) : Prop := ∃ r d, rep.inflight r = some d ∧ selectorCovers r slice = true

-- A slice is as the log has it at a position.
def At (log : List (WireEdit V)) (rep : Replica V) (slice : Name) (p : Int) : Prop :=
  rep.held slice = (serverState log slice p).map SliceState.seq ∧ rep.keys slice = keysOf (serverState log slice p)

-- A slice of the view that no download is over: the base has it, and what the
-- stream has sent of it since is parked.
structure Kept (log : List (WireEdit V)) (rep : Replica V) (sent : Int) (slice : Name) : Prop where
  base : rep.At log slice rep.applied
  parked : ∀ e ∈ log, e.slice = slice → rep.applied < e.position → e.position ≤ sent → e ∈ rep.parked
  alive : ∀ e ∈ rep.parked, e.slice = slice → e.position ≤ rep.applied → ∀ d ∈ log, d.slice = slice →
    d.lifecycle = .death → e.position < d.position → rep.applied < d.position

-- What a download has brought, with its resume record: the blob's header, its
-- pages so far, and the tail's edits so far.
structure Brought (db : Database V) (rep : Replica V) (r : Name) (untilPosition : Int) (resume : Resume) : Prop where
  header : ∀ slice, rep.header r slice = (db.header r resume.position).get slice
  visible : ∀ e ∈ db.log, selectorCovers r e.slice = true → resume.visible < e.position → resume.position < e.position
  tail : ∀ e ∈ db.log, selectorCovers r e.slice = true → resume.position < e.position → e.position < untilPosition →
    e.position ≤ resume.fromPosition ∨ resume.tailDone = true → e ∈ rep.parked
  pages : ∀ op, (∃ start page, rep.pages r start = some page ∧ op ∈ page) ↔
    ∃ row ∈ db.blob r resume.position, row.1 ≤ resume.skipBytes ∧ row.2 = op
  starts : ∀ start page, rep.pages r start = some page → start < resume.skipBytes
  done : resume.snapshotDone = true → ∀ row ∈ db.blob r resume.position, row.1 ≤ resume.skipBytes

structure Downloading (db : Database V) (rep : Replica V) (sent : Int) (r : Name) (d : Download) : Prop where
  -- the stream's share: everything from until on that it has sent
  live : ∀ e ∈ db.log, selectorCovers r e.slice = true → d.untilPosition ≤ e.position → e.position ≤ sent → e ∈ rep.parked
  fresh : d.resume = none → ∀ start, rep.pages r start = none
  brought : ∀ resume, d.resume = some resume → rep.Brought db r d.untilPosition resume
  ready : d.ready = true → ∃ resume, d.resume = some resume ∧ resume.snapshotDone = true ∧ resume.tailDone = true

-- The accounting of the whole replica against the log, for a stream sent so far.
structure Accounted (db : Database V) (rep : Replica V) (sent : Int) : Prop where
  low : -1 ≤ rep.applied
  applied_le : rep.applied ≤ rep.cursor
  cursor_le : rep.cursor ≤ sent
  genuine : ∀ e ∈ rep.parked, e ∈ db.log
  held : ∀ slice n, rep.held slice = some n → rep.At db.log slice rep.applied
  empty : ∀ slice, rep.held slice = none → rep.keys slice = fun _ => none
  formed : ∀ v ∈ rep.view, WellFormed v ∧ ∃ w, SliceType w ∧ selectorCovers w v = true
  inside : ∀ r d, rep.inflight r = some d → WellFormed r ∧ ∃ v ∈ rep.view, selectorCovers v r = true
  kept : ∀ slice, rep.InView slice → ¬rep.Over slice → rep.Kept db.log sent slice
  downloading : ∀ r d, rep.inflight r = some d → rep.Downloading db sent r d
  orphan : ∀ r, rep.inflight r = none → (∀ start, rep.pages r start = none) ∧ ∀ slice, rep.header r slice = none

-- Unfrozen, nothing parked is left, nothing outside the view is held, and the base
-- has reached the cursor, or there is none yet.
structure Thawed (rep : Replica V) : Prop where
  parked : ∀ e, e ∉ rep.parked
  reached : rep.applied = rep.cursor ∨ rep.applied = -1 ∧ rep.view = []
  inside : ∀ slice n, rep.held slice = some n → rep.InView slice

def Invariant (db : Database V) (rep : Replica V) (sent : Int) : Prop :=
  rep.Accounted db sent ∧ (¬rep.Frozen → rep.Thawed)

variable {db : Database V} {rep after : Replica V} {sent later : Int}

theorem Kept.carry {log : List (WireEdit V)} (old : rep.Kept log sent slice) (held : after.held slice = rep.held slice)
    (keys : after.keys slice = rep.keys slice) (applied : after.applied = rep.applied) (more : rep.parked ⊆ after.parked)
    (since : ∀ e ∈ log, e.slice = slice → sent < e.position → e.position ≤ later → e ∈ after.parked)
    (alive : ∀ e ∈ after.parked, e ∉ rep.parked → e.slice = slice → e.position ≤ rep.applied → ∀ d ∈ log, d.slice = slice →
      d.lifecycle = .death → e.position < d.position → rep.applied < d.position) : after.Kept log later slice := by
  refine ⟨?_,?_,?_⟩
  · unfold At; rw [held,keys,applied]; exact old.base
  · rw [applied]
    intro e member same past under
    by_cases earlier : e.position ≤ sent
    · exact more (old.parked e member same past earlier)
    · exact since e member same (by omega) under
  · rw [applied]
    intro e member same early
    by_cases before : e ∈ rep.parked
    · exact old.alive e before same early
    · exact alive e member before same early

theorem Brought.carry {resume : Resume} (old : rep.Brought db r position resume) (more : rep.parked ⊆ after.parked)
    (pages : after.pages r = rep.pages r) (header : after.header r = rep.header r) : after.Brought db r position resume where
  header := by rw [header]; exact old.header
  visible := old.visible
  tail := fun e member covers past below reached => more (old.tail e member covers past below reached)
  pages := by rw [pages]; exact old.pages
  starts := by rw [pages]; exact old.starts
  done := old.done

theorem Downloading.carry (old : rep.Downloading db sent r d) (more : rep.parked ⊆ after.parked)
    (pages : after.pages r = rep.pages r) (header : after.header r = rep.header r)
    (live : ∀ e ∈ db.log, selectorCovers r e.slice = true → d.untilPosition ≤ e.position → sent < e.position →
      e.position ≤ later → e ∈ after.parked) : after.Downloading db later r d where
  live := by
    intro e member covers from_ under
    by_cases earlier : e.position ≤ sent
    · exact more (old.live e member covers from_ earlier)
    · exact live e member covers from_ (by omega) under
  fresh := by rw [pages]; exact old.fresh
  brought := fun resume at_ => (old.brought resume at_).carry more pages header
  ready := old.ready

theorem Accounted.inView (inv : rep.Accounted db sent) (going : rep.inflight r = some d)
    (covers : selectorCovers r slice = true) : rep.InView slice := by
  obtain ⟨_,v,member,spanned⟩ := inv.inside r d going
  exact (covered_iff _ _).mpr ⟨v,member,covers_trans (inv.formed v member).1 spanned covers⟩

-- A stream that has sent less leaves the accounting as good.
theorem Accounted.shrink (inv : rep.Accounted db sent) (above : rep.cursor ≤ later) (le : later ≤ sent) :
    rep.Accounted db later :=
  {inv with
    cursor_le := above
    kept := by
      intro slice inView clear
      obtain ⟨base,parked,alive⟩ := inv.kept slice inView clear
      exact ⟨base,fun e member same past under => parked e member same past (under.trans le),alive⟩
    downloading := by
      intro r d going
      obtain ⟨live,fresh,brought,ready⟩ := inv.downloading r d going
      exact ⟨fun e member covers from_ under => live e member covers from_ (under.trans le),fresh,brought,ready⟩}

-- So does one that has gone on where the view's slices have no edits.
theorem Accounted.extend (inv : rep.Accounted db sent) (le : sent ≤ later) (quiet : Quiet db.log rep.view sent later) :
    rep.Accounted db later :=
  {inv with
    cursor_le := inv.cursor_le.trans le
    kept := by
      intro slice inView clear
      refine (inv.kept slice inView clear).carry rfl rfl rfl (fun _ => id) ?_ (fun e member fresh => absurd member fresh)
      intro e member equal past under
      have above := quiet e member (equal ▸ inView) past
      omega
    downloading := by
      intro r d going
      refine (inv.downloading r d going).carry (fun _ => id) rfl rfl ?_
      intro e member covers _ past under
      have above := quiet e member (inv.inView going covers) past
      omega}

-- The cursor moves on alone, no further than the stream.
theorem Accounted.advance (inv : rep.Accounted db sent) (le : position ≤ sent) :
    Accounted db {rep with cursor:=max position rep.cursor} sent where
  low := inv.low
  applied_le := inv.applied_le.trans (le_max_right _ _)
  cursor_le := max_le le inv.cursor_le
  genuine := inv.genuine
  held := inv.held
  empty := inv.empty
  formed := inv.formed
  inside := inv.inside
  kept := fun slice inView clear => (inv.kept slice inView clear).carry rfl rfl rfl (fun _ => id)
    (fun e _ _ past under => by omega) (fun e member fresh => absurd member fresh)
  downloading := fun r d going => (inv.downloading r d going).carry (fun _ => id) rfl rfl
    (fun e _ _ _ past under => by omega)
  orphan := inv.orphan

-- A frame parks whole.
theorem Accounted.park {s : Stream} {edits : List (WireEdit V)} {last : WireEdit V} (inv : rep.Accounted db s.sent)
    (same : s.selectors = rep.view) (frame : FrameOf db.log s edits) (ends : last ∈ edits.getLast?) :
    Accounted db {rep with parked:=rep.parked ∪ {e | e ∈ edits}} (max s.sent last.position) where
  low := inv.low
  applied_le := inv.applied_le
  cursor_le := inv.cursor_le.trans (le_max_left _ _)
  genuine := by
    rintro e (old | new)
    · exact inv.genuine e old
    · exact (frame.logged e new).1
  held := inv.held
  empty := inv.empty
  formed := inv.formed
  inside := inv.inside
  kept := by
    intro slice inView clear
    refine (inv.kept slice inView clear).carry rfl rfl rfl (fun _ => .inl) ?_ ?_
    · intro e member equal past under
      have covers : covered s.selectors e.slice = true := by rw [equal,same]; exact inView
      exact .inr (frame.whole last ends e member covers past (by omega))
    · rintro e (old | new) fresh equal early d member sameSlice dead before
      · exact absurd old fresh
      · have sentFirst := inv.applied_le.trans inv.cursor_le
        have above := frame.again e new (by omega) d member (sameSlice.trans equal.symm) dead before
        omega
  downloading := by
    intro r d going
    refine (inv.downloading r d going).carry (fun _ => .inl) rfl rfl ?_
    intro e member covers _ past under
    have inside : covered s.selectors e.slice = true := by rw [same]; exact inv.inView going covers
    exact .inr (frame.whole last ends e member inside past (by omega))
  orphan := inv.orphan

def spawn (rep : Replica V) (r : Name) (position : Int) : Replica V :=
  {rep with inflight:=Function.update rep.inflight r (some ⟨position,none,false⟩)}

-- A new backfill: what the stream has sent from its until on is parked already.
theorem Accounted.spawn (inv : rep.Accounted db sent) (new : rep.inflight r = none)
    (inside : WellFormed r ∧ ∃ v ∈ rep.view, selectorCovers v r = true)
    (live : ∀ e ∈ db.log, selectorCovers r e.slice = true → position ≤ e.position → e.position ≤ sent → e ∈ rep.parked) :
    (rep.spawn r position).Accounted db sent where
  low := inv.low
  applied_le := inv.applied_le
  cursor_le := inv.cursor_le
  genuine := inv.genuine
  held := inv.held
  empty := inv.empty
  formed := inv.formed
  inside := by
    intro x d going
    by_cases same : x = r
    · exact same ▸ inside
    · simp only [Replica.spawn,Function.update_of_ne same] at going
      exact inv.inside x d going
  kept := by
    intro slice inView clear
    have before : ¬rep.Over slice := by
      rintro ⟨x,d,going,covers⟩
      have other : x ≠ r := by rintro rfl; rw [new] at going; cases going
      exact clear ⟨x,d,by simpa [Replica.spawn,Function.update_of_ne other] using going,covers⟩
    exact (inv.kept slice inView before).carry rfl rfl rfl (fun _ => id) (fun e _ _ past under => by omega)
      (fun e member fresh => absurd member fresh)
  downloading := by
    intro x d going
    by_cases same : x = r
    · subst same
      simp only [Replica.spawn,Function.update_self,Option.some.injEq] at going
      subst going
      exact ⟨live,fun _ => (inv.orphan x new).1,by simp,by simp⟩
    · simp only [Replica.spawn,Function.update_of_ne same] at going
      exact (inv.downloading x d going).carry (fun _ => id) rfl rfl (fun e _ _ _ past under => by omega)
  orphan := by
    intro x gone
    have other : x ≠ r := by rintro rfl; simp [Replica.spawn] at gone
    simp only [Replica.spawn,Function.update_of_ne other] at gone
    exact inv.orphan x gone

theorem spawn_frozen (rep : Replica V) (r : Name) (position : Int) : (rep.spawn r position).Frozen :=
  ⟨r,_,Function.update_self ..⟩

def download (rep : Replica V) (r : Name) (d : Download) (more : Set (WireEdit V))
    (paged : Nat → Option (List (Key × V))) (headed : Name → Option Nat) : Replica V :=
  {rep with
    parked:=rep.parked ∪ more
    inflight:=Function.update rep.inflight r (some d)
    pages:=Function.update rep.pages r paged
    header:=Function.update rep.header r headed}

-- A download moves: what it brings is of its own slices, and the rest stays.
theorem Accounted.download {more : Set (WireEdit V)} {paged : Nat → Option (List (Key × V))}
    {headed : Name → Option Nat} (inv : rep.Accounted db sent) (going : rep.inflight r = some old)
    (logged : ∀ e ∈ more, e ∈ db.log ∧ selectorCovers r e.slice = true)
    (mine : (rep.download r d more paged headed).Downloading db sent r d) :
    (rep.download r d more paged headed).Accounted db sent where
  low := inv.low
  applied_le := inv.applied_le
  cursor_le := inv.cursor_le
  genuine := by
    rintro e (old | new)
    · exact inv.genuine e old
    · exact (logged e new).1
  held := inv.held
  empty := inv.empty
  formed := inv.formed
  inside := by
    intro x d' going'
    by_cases same : x = r
    · exact inv.inside x old (same ▸ going)
    · simp only [Replica.download,Function.update_of_ne same] at going'
      exact inv.inside x d' going'
  kept := by
    intro slice inView clear
    have elsewhere : selectorCovers r slice = false := by
      rw [Bool.eq_false_iff]
      exact fun covers => clear ⟨r,d,Function.update_self ..,covers⟩
    have before : ¬rep.Over slice := by
      rintro ⟨x,d',going',covers⟩
      have other : x ≠ r := by rintro rfl; rw [elsewhere] at covers; cases covers
      exact clear ⟨x,d',by simpa [Replica.download,Function.update_of_ne other] using going',covers⟩
    refine (inv.kept slice inView before).carry rfl rfl rfl (fun _ => .inl) (fun e _ _ past under => by omega) ?_
    rintro e (old | new) fresh equal
    · exact absurd old fresh
    · have covers := (logged e new).2
      rw [equal,elsewhere] at covers
      cases covers
  downloading := by
    intro x d' going'
    by_cases same : x = r
    · subst same
      simp only [Replica.download,Function.update_self,Option.some.injEq] at going'
      exact going' ▸ mine
    · simp only [Replica.download,Function.update_of_ne same] at going'
      exact (inv.downloading x d' going').carry (fun _ => .inl) (Function.update_of_ne same ..)
        (Function.update_of_ne same ..) (fun e _ _ _ past under => by omega)
  orphan := by
    intro x gone
    have other : x ≠ r := by rintro rfl; simp [Replica.download] at gone
    simp only [Replica.download,Function.update_of_ne other] at gone ⊢
    exact inv.orphan x gone

-- Downloads end, and slices leave.
def cancel (rep : Replica V) (gone : List Name) : Replica V :=
  {rep with
    inflight:=fun r => if r ∈ gone then none else rep.inflight r
    pages:=fun r => if r ∈ gone then fun _ => none else rep.pages r
    header:=fun r => if r ∈ gone then fun _ => none else rep.header r}

def drop (rep : Replica V) (gone : List Name) : Replica V :=
  {rep with
    keys:=fun slice => if slice ∈ gone then fun _ => none else rep.keys slice
    held:=fun slice => if slice ∈ gone then none else rep.held slice
    parked:={e | e ∈ rep.parked ∧ e.slice ∉ gone}}

theorem cancel_nil (rep : Replica V) : rep.cancel [] = rep := by simp [cancel]

theorem cancel_cons (rep : Replica V) (r : Name) (rest : List Name) : (rep.cancel [r]).cancel rest = rep.cancel (r :: rest) := by
  unfold cancel
  congr 1 <;> funext x <;> by_cases inRest : x ∈ rest <;> simp [inRest]

theorem drop_nil (rep : Replica V) : rep.drop [] = rep := by simp [drop]

theorem drop_cons (rep : Replica V) (slice : Name) (rest : List Name) :
    (rep.drop [slice]).drop rest = rep.drop (slice :: rest) := by
  unfold drop
  congr 1
  · funext x; by_cases inRest : x ∈ rest <;> simp [inRest]
  · funext x; by_cases inRest : x ∈ rest <;> simp [inRest]
  · ext e; simp only [List.mem_cons,List.not_mem_nil,or_false,Set.mem_ofPred_eq]; tauto

-- Unfrozen, a view's slice is in the base as it is where the stream has sent to.
theorem Accounted.settled (inv : rep.Accounted db sent) (thawed : ¬rep.Frozen) (none : ∀ e, e ∉ rep.parked)
    (inView : rep.InView slice) :
    (∀ e ∈ db.log, e.slice = slice → rep.applied < e.position → sent < e.position) ∧ rep.At db.log slice sent := by
  have kept := inv.kept slice inView fun ⟨r,d,going,_⟩ => thawed ⟨r,d,going⟩
  have quiet : ∀ e ∈ db.log, e.slice = slice → rep.applied < e.position → sent < e.position := by
    intro e member same past
    by_contra under
    exact none e (kept.parked e member same past (by omega))
  refine ⟨quiet,?_⟩
  have steady := serverState_quiet db.valid (inv.applied_le.trans inv.cursor_le) quiet
  unfold At
  rw [steady]
  exact kept.base

-- At rest: nothing is parked or downloading, the view's slices are as the log has
-- them at one position, and nothing else is held.
theorem Invariant.rest (formed : ∀ v ∈ rep.view, WellFormed v ∧ ∃ w, SliceType w ∧ selectorCovers w v = true)
    (low : -1 ≤ rep.applied) (reached : rep.applied = rep.cursor) (parked : ∀ e, e ∉ rep.parked)
    (inflight : ¬rep.Frozen)
    (orphan : ∀ r, (∀ start, rep.pages r start = none) ∧ ∀ slice, rep.header r slice = none)
    (whole : ∀ slice, rep.InView slice → rep.At db.log slice rep.applied)
    (outside : ∀ slice, ¬rep.InView slice → rep.held slice = none ∧ rep.keys slice = fun _ => none) :
    rep.Invariant db rep.applied := by
  refine ⟨?_,fun _ => ⟨parked,.inl reached,?_⟩⟩
  · exact {
      low
      applied_le := le_of_eq reached
      cursor_le := le_of_eq reached.symm
      genuine := fun e member => absurd member (parked e)
      held := by
        intro slice n held
        by_cases inView : rep.InView slice
        · exact whole slice inView
        · rw [(outside slice inView).1] at held; cases held
      empty := by
        intro slice unheld
        by_cases inView : rep.InView slice
        · obtain ⟨seq,keys⟩ := whole slice inView
          rw [unheld] at seq
          rw [keys,Option.map_eq_none_iff.mp seq.symm]
          rfl
        · exact (outside slice inView).2
      formed
      inside := fun r d going => absurd ⟨r,d,going⟩ inflight
      kept := fun slice inView _ => ⟨whole slice inView,fun e _ _ past under => by omega,
        fun e member => absurd member (parked e)⟩
      downloading := fun r d going => absurd ⟨r,d,going⟩ inflight
      orphan := fun r _ => orphan r}
  · intro slice n held
    by_contra outsider
    rw [(outside slice outsider).1] at held
    cases held

theorem Invariant.shrink (inv : rep.Invariant db sent) (above : rep.cursor ≤ later) (le : later ≤ sent) :
    rep.Invariant db later := ⟨inv.1.shrink above le,inv.2⟩

theorem Invariant.extend (inv : rep.Invariant db sent) (le : sent ≤ later) (quiet : Quiet db.log rep.view sent later) :
    rep.Invariant db later := ⟨inv.1.extend le quiet,inv.2⟩

-- What a view frame does: it cancels the downloads its selectors do not wholly
-- cover, and starts one for every selector that nothing accounts for.
structure Viewed (rep : Replica V) (selectors : List Name) (position : Int) (after : Replica V) : Prop where
  keys : after.keys = rep.keys
  held : after.held = rep.held
  applied : after.applied = rep.applied
  parked : after.parked = rep.parked
  view : after.view = selectors
  cursor : rep.cursor ≤ after.cursor ∧ after.cursor ≤ position
  stays : ∀ r d, rep.inflight r = some d → covered selectors r = true → after.inflight r = some d
  comes : ∀ r d, after.inflight r = some d →
    (rep.inflight r = some d ∧ covered selectors r = true ∧ after.pages r = rep.pages r ∧ after.header r = rep.header r) ∨
      (rep.inflight r = none ∧ r ∈ selectors ∧ d = ⟨position+1,none,false⟩ ∧ after.pages r = fun _ => none)
  granted : ∀ v ∈ selectors, (∃ r d, after.inflight r = some d ∧ selectorCovers r v = true) ∨
    covered rep.view v = true ∧ ∀ r d, rep.inflight r = some d → selectorCovers r v = false
  orphan : ∀ r, after.inflight r = none → (∀ start, after.pages r start = none) ∧ ∀ slice, after.header r slice = none

-- A selector is counted as held only where the base and the parked edits account
-- for every slice under it.
theorem Accounted.view {selectors : List Name} (inv : rep.Accounted db sent) (diff : rep.Viewed selectors position after)
    (formed : ∀ v ∈ selectors, WellFormed v ∧ ∃ w, SliceType w ∧ selectorCovers w v = true)
    (quiet : Quiet db.log rep.view sent position) : after.Accounted db position where
  low := by rw [diff.applied]; exact inv.low
  applied_le := by rw [diff.applied]; exact inv.applied_le.trans diff.cursor.1
  cursor_le := diff.cursor.2
  genuine := by rw [diff.parked]; exact inv.genuine
  held := by
    intro slice n held
    rw [diff.held] at held
    have base := inv.held slice n held
    unfold At at *
    rwa [diff.held,diff.keys,diff.applied]
  empty := by rw [diff.held,diff.keys]; exact inv.empty
  formed := by rw [diff.view]; exact formed
  inside := by
    intro r d going
    rw [diff.view]
    rcases diff.comes r d going with ⟨old,covers,_⟩ | ⟨_,member,_⟩
    · exact ⟨(inv.inside r d old).1,(covered_iff _ _).mp covers⟩
    · exact ⟨(formed r member).1,r,member,covers_refl r⟩
  kept := by
    intro slice inView clear
    unfold InView at inView
    rw [diff.view] at inView
    obtain ⟨v,member,covers⟩ := (covered_iff _ _).mp inView
    rcases diff.granted v member with ⟨r,d,going,spanned⟩ | ⟨old,alone⟩
    · -- a download over the selector is over the slice
      have well : WellFormed r := by
        rcases diff.comes r d going with ⟨before,_⟩ | ⟨_,grant,_⟩
        · exact (inv.inside r d before).1
        · exact (formed r grant).1
      exact absurd ⟨r,d,going,covers_trans well spanned covers⟩ clear
    · obtain ⟨v0,member0,over0⟩ := (covered_iff _ _).mp old
      have inOld : rep.InView slice :=
        (covered_iff _ _).mpr ⟨v0,member0,covers_trans (inv.formed v0 member0).1 over0 covers⟩
      have before : ¬rep.Over slice := by
        rintro ⟨r,d,going,under⟩
        rcases covers_nested under covers with outer | inner
        · rw [alone r d going] at outer; cases outer
        · exact clear ⟨r,d,diff.stays r d going ((covered_iff _ _).mpr ⟨v,member,inner⟩),under⟩
      refine (inv.kept slice inOld before).carry (by rw [diff.held]) (by rw [diff.keys]) diff.applied
        (by rw [diff.parked]) ?_ (fun e member fresh => absurd (diff.parked ▸ member) fresh)
      intro e logged equal past under
      have above := quiet e logged (equal ▸ inOld) past
      omega
  downloading := by
    intro r d going
    rcases diff.comes r d going with ⟨old,_,pages,header⟩ | ⟨_,_,rfl,pages⟩
    · refine (inv.downloading r d old).carry (by rw [diff.parked]) pages header ?_
      intro e member covers _ past under
      have above := quiet e member (inv.inView old covers) past
      omega
    · exact ⟨fun e _ _ from_ under => by dsimp only at from_; omega,fun _ start => by rw [pages],by simp,by simp⟩
  orphan := diff.orphan

-- Slices outside keep leave, with their parked edits.
structure Restricted (rep : Replica V) (keep : Name → Bool) (after : Replica V) : Prop where
  keys : ∀ slice, after.keys slice = if keep slice then rep.keys slice else fun _ => none
  held : ∀ slice, after.held slice = if keep slice then rep.held slice else none
  parked : after.parked ⊆ rep.parked
  stays : ∀ e ∈ rep.parked, keep e.slice = true → e ∈ after.parked

-- What a start's purge does: only what the wants cover stays.
structure Purged (rep : Replica V) (wants : List Name) (after : Replica V) : Prop where
  slices : rep.Restricted (covered wants) after
  wanted : ∀ e ∈ after.parked, covered wants e.slice = true
  applied : after.applied = rep.applied
  cursor : after.cursor = rep.cursor
  view : after.view = rep.view.filter (covered wants)
  stays : ∀ r d, rep.inflight r = some d → covered wants r = true → after.inflight r = some d
  comes : ∀ r d, after.inflight r = some d → rep.inflight r = some d ∧ covered wants r = true ∧
    after.pages r = rep.pages r ∧ after.header r = rep.header r
  orphan : ∀ r, after.inflight r = none → (∀ start, after.pages r start = none) ∧ ∀ slice, after.header r slice = none

theorem At.restrict {keep : Name → Bool} {log : List (WireEdit V)} (held : rep.At log slice p) (kept : keep slice = true)
    (cut : rep.Restricted keep after) : after.At log slice p := by
  unfold At at *
  rw [cut.held,cut.keys,if_pos kept,if_pos kept]
  exact held

-- Slices that are not of the view leave.
theorem Accounted.restrict {keep : Name → Bool} (inv : rep.Accounted db sent) (cut : rep.Restricted keep after)
    (whole : ∀ slice, rep.InView slice → keep slice = true) (applied : after.applied = rep.applied)
    (cursor : after.cursor = rep.cursor) (view : after.view = rep.view) (inflight : after.inflight = rep.inflight)
    (pages : after.pages = rep.pages) (header : after.header = rep.header) : after.Accounted db sent where
  low := by rw [applied]; exact inv.low
  applied_le := by rw [applied,cursor]; exact inv.applied_le
  cursor_le := by rw [cursor]; exact inv.cursor_le
  genuine := fun e member => inv.genuine e (cut.parked member)
  held := by
    intro slice n held
    rw [cut.held] at held
    by_cases kept : keep slice = true
    · rw [if_pos kept] at held
      rw [applied]
      exact (inv.held slice n held).restrict kept cut
    · rw [if_neg kept] at held; cases held
  empty := by
    intro slice unheld
    rw [cut.held] at unheld
    rw [cut.keys]
    by_cases kept : keep slice = true
    · rw [if_pos kept] at unheld ⊢; exact inv.empty slice unheld
    · rw [if_neg kept]
  formed := by rw [view]; exact inv.formed
  inside := by rw [view,inflight]; exact inv.inside
  kept := by
    intro slice inView clear
    unfold InView Over at *
    rw [view] at inView
    rw [inflight] at clear
    obtain ⟨base,parked,alive⟩ := inv.kept slice inView clear
    refine ⟨?_,?_,?_⟩
    · rw [applied]; exact base.restrict (whole slice inView) cut
    · rw [applied]
      intro e member same past under
      exact cut.stays e (parked e member same past under) (same ▸ whole slice inView)
    · rw [applied]
      exact fun e member => alive e (cut.parked member)
  downloading := by
    intro r d going
    rw [inflight] at going
    obtain ⟨live,fresh,brought,ready⟩ := inv.downloading r d going
    have own : ∀ e, selectorCovers r e.slice = true → e ∈ rep.parked → e ∈ after.parked :=
      fun e covers member => cut.stays e member (whole e.slice (inv.inView going covers))
    refine ⟨fun e member covers from_ under => own e covers (live e member covers from_ under),by rw [pages]; exact fresh,?_,ready⟩
    intro resume at_
    obtain ⟨head,visible,tail,paged,starts,done⟩ := brought resume at_
    exact ⟨by rw [header]; exact head,visible,
      fun e member covers past below reached => own e covers (tail e member covers past below reached),
      by rw [pages]; exact paged,by rw [pages]; exact starts,done⟩
  orphan := by rw [inflight,pages,header]; exact inv.orphan

-- Wants that are whole slice types part the replica cleanly.
theorem Accounted.purge {wants : List Name} (inv : rep.Accounted db sent) (types : ∀ w ∈ wants, SliceType w)
    (cut : rep.Purged wants after) : after.Accounted db sent := by
  -- a want covers a selector of the view, or one inside it, exactly when it covers a slice under it
  have apart : ∀ r name, (∃ v ∈ rep.view, selectorCovers v r = true) → selectorCovers r name = true →
      covered wants name = true → covered wants r = true := by
    intro r name ⟨v,member,spanned⟩ below wanted
    obtain ⟨w,want,covers⟩ := (covered_iff _ _).mp wanted
    obtain ⟨_,w0,type0,outer⟩ := inv.formed v member
    have inside := covers_trans type0.wellFormed outer spanned
    exact (covered_iff _ _).mpr ⟨w,want,by rw [(types w want).whole type0 inside below]; exact covers⟩
  have down : ∀ outer name, covered wants outer = true → selectorCovers outer name = true → covered wants name = true := by
    intro outer name wanted below
    obtain ⟨w,want,covers⟩ := (covered_iff _ _).mp wanted
    exact (covered_iff _ _).mpr ⟨w,want,covers_trans (types w want).wellFormed covers below⟩
  have views : ∀ slice, after.InView slice → rep.InView slice ∧ covered wants slice = true := by
    intro slice inView
    unfold InView at inView
    rw [cut.view] at inView
    obtain ⟨v,member,covers⟩ := (covered_iff _ _).mp inView
    obtain ⟨old,wanted⟩ := List.mem_filter.mp member
    exact ⟨(covered_iff _ _).mpr ⟨v,old,covers⟩,down v slice wanted covers⟩
  have own : ∀ r d, after.inflight r = some d → ∀ e, selectorCovers r e.slice = true → e ∈ rep.parked → e ∈ after.parked :=
    fun r d going e covers member => cut.slices.stays e member (down r e.slice (cut.comes r d going).2.1 covers)
  exact {
    low := by rw [cut.applied]; exact inv.low
    applied_le := by rw [cut.applied,cut.cursor]; exact inv.applied_le
    cursor_le := by rw [cut.cursor]; exact inv.cursor_le
    genuine := fun e member => inv.genuine e (cut.slices.parked member)
    held := by
      intro slice n held
      rw [cut.slices.held] at held
      by_cases kept : covered wants slice = true
      · rw [if_pos kept] at held
        rw [cut.applied]
        exact (inv.held slice n held).restrict kept cut.slices
      · rw [if_neg kept] at held; cases held
    empty := by
      intro slice unheld
      rw [cut.slices.held] at unheld
      rw [cut.slices.keys]
      by_cases kept : covered wants slice = true
      · rw [if_pos kept] at unheld ⊢; exact inv.empty slice unheld
      · rw [if_neg kept]
    formed := by
      rw [cut.view]
      exact fun v member => inv.formed v (List.mem_filter.mp member).1
    inside := by
      intro r d going
      obtain ⟨old,wanted,_⟩ := cut.comes r d going
      obtain ⟨well,v,member,covers⟩ := inv.inside r d old
      rw [cut.view]
      exact ⟨well,v,List.mem_filter.mpr ⟨member,apart v r ⟨v,member,covers_refl v⟩ covers wanted⟩,covers⟩
    kept := by
      intro slice inView clear
      obtain ⟨old,wanted⟩ := views slice inView
      have before : ¬rep.Over slice := by
        rintro ⟨r,d,going,covers⟩
        exact clear ⟨r,d,cut.stays r d going (apart r slice (inv.inside r d going).2 covers wanted),covers⟩
      obtain ⟨base,parked,alive⟩ := inv.kept slice old before
      refine ⟨?_,?_,?_⟩
      · rw [cut.applied]; exact base.restrict wanted cut.slices
      · rw [cut.applied]
        intro e member same past under
        exact cut.slices.stays e (parked e member same past under) (same ▸ wanted)
      · rw [cut.applied]
        exact fun e member => alive e (cut.slices.parked member)
    downloading := by
      intro r d going
      obtain ⟨old,wanted,pages,header⟩ := cut.comes r d going
      obtain ⟨live,fresh,brought,ready⟩ := inv.downloading r d old
      refine ⟨fun e member covers from_ under => own r d going e covers (live e member covers from_ under),
        by rw [pages]; exact fresh,?_,ready⟩
      intro resume at_
      obtain ⟨head,visible,tail,paged,starts,done⟩ := brought resume at_
      exact ⟨by rw [header]; exact head,visible,
        fun e member covers past below reached => own r d going e covers (tail e member covers past below reached),
        by rw [pages]; exact paged,by rw [pages]; exact starts,done⟩
    orphan := cut.orphan}

theorem Thawed.purge {wants : List Name} (inv : rep.Accounted db sent) (thawed : rep.Thawed)
    (types : ∀ w ∈ wants, SliceType w) (cut : rep.Purged wants after) : after.Thawed where
  parked := fun e member => thawed.parked e (cut.slices.parked member)
  reached := by
    rw [cut.applied,cut.cursor,cut.view]
    rcases thawed.reached with reached | ⟨never,empty⟩
    · exact .inl reached
    · exact .inr ⟨never,by rw [empty]; rfl⟩
  inside := by
    intro slice n held
    rw [cut.slices.held] at held
    by_cases wanted : covered wants slice = true
    · rw [if_pos wanted] at held
      obtain ⟨v,member,covers⟩ := (covered_iff _ _).mp (thawed.inside slice n held)
      obtain ⟨_,w0,type0,outer⟩ := inv.formed v member
      obtain ⟨w,want,spanned⟩ := (covered_iff _ _).mp wanted
      have keeps : covered wants v = true :=
        (covered_iff _ _).mpr ⟨w,want,by rw [(types w want).whole type0 outer covers]; exact spanned⟩
      unfold InView
      rw [cut.view]
      exact (covered_iff _ _).mpr ⟨v,List.mem_filter.mpr ⟨member,keeps⟩,covers⟩
    · rw [if_neg wanted] at held; cases held

end Replica
end PhaseLock
