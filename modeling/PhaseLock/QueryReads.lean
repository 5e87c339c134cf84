import PhaseLock.BatchedWalks

namespace PhaseLock
variable {V τ : Type}

-- A span runs from a key to one past it.
def ScanSpan.Onward (span : ScanSpan) : Prop := ∀ f ∈ span.from_, ∀ t ∈ span.to_, Walking.Before span.reverse f t

theorem ScanSpan.Onward.past {span : ScanSpan} (onward : span.Onward) {e : Key} (to_ : span.to_ = some e) :
    Walking.past span.reverse span.from_ e = true := by
  cases from_ : span.from_ with
  | none => rfl
  | some f => exact Walking.past_some.mpr (onward f from_ e to_)

namespace ReadDeps

-- What was read stays read, and a batch's end skipped stays skipped.
def Grows (deps after : ReadDeps) : Prop :=
  (∀ key, deps.reads key = true → after.reads key = true) ∧ (deps.skipped = true → after.skipped = true)

theorem Grows.refl (deps : ReadDeps) : deps.Grows deps := ⟨fun _ => id,id⟩

theorem Grows.trans {a b c : ReadDeps} (first : a.Grows b) (second : b.Grows c) : a.Grows c :=
  ⟨fun key read => second.1 key (first.1 key read),fun skipped => second.2 (first.2 skipped)⟩

theorem Grows.plain {deps after : ReadDeps} (grows : deps.Grows after) (plain : after.skipped = false) : deps.skipped = false := by
  cases skipped : deps.skipped with
  | false => rfl
  | true => rw [grows.2 skipped] at plain; cases plain

theorem reads_iff (deps : ReadDeps) (key : Key) : deps.reads key = true ↔ key ∈ deps.keys ∨ ∃ span ∈ deps.spans, span.covers key = true := by
  simp [reads]

-- A span that reaches further reads all it read.
theorem cut_grows {deps : ReadDeps} {h : Nat} {span : ScanSpan} {e : Key} {to_ : Option Key} (held : deps.spans[h]? = some span)
    (there : span.to_ = some e) (further : Walking.upTo span.reverse to_ e = true) : deps.Grows (deps.cut h to_) := by
  refine ⟨fun key read => ?_,id⟩
  rw [reads_iff] at read ⊢
  refine read.imp id ?_
  rintro ⟨other,member,covers⟩
  obtain ⟨i,at_⟩ := List.mem_iff_getElem?.mp member
  by_cases same : h = i
  · subst same
    rw [held] at at_
    cases at_
    obtain ⟨past,up,picked⟩ := (ScanSpan.covers_iff _ _).mp covers
    rw [there] at up
    refine ⟨{span with to_},List.mem_iff_getElem?.mpr ⟨h,?_⟩,(ScanSpan.covers_iff _ _).mpr ⟨past,Walking.upTo_trans further up,picked⟩⟩
    simp [cut,held]
  · refine ⟨other,List.mem_iff_getElem?.mpr ⟨i,?_⟩,covers⟩
    simp [cut,same,at_]

-- It reads the stretch it came to reach.
theorem cut_reads {deps : ReadDeps} {h : Nat} {span : ScanSpan} {e : Key} {to_ : Option Key} (held : deps.spans[h]? = some span)
    (onward : span.Onward) (there : span.to_ = some e) {key : Key} (picked : span.pattern.picks key = true)
    (past : Walking.Before span.reverse e key) (up : Walking.upTo span.reverse to_ key = true) : (deps.cut h to_).reads key = true := by
  rw [reads_iff]
  refine .inr ⟨{span with to_},List.mem_iff_getElem?.mpr ⟨h,?_⟩,(ScanSpan.covers_iff _ _).mpr ⟨?_,up,picked⟩⟩
  · simp [cut,held]
  · exact Walking.past_before (onward.past there) past

theorem cut_tops {deps : ReadDeps} (tops : deps.last = deps.spans.getLast?.map ScanSpan.pattern) (h : Nat) (to_ : Option Key) :
    (deps.cut h to_).last = (deps.cut h to_).spans.getLast?.map ScanSpan.pattern := by
  have patterns : (deps.cut h to_).spans.map ScanSpan.pattern = deps.spans.map ScanSpan.pattern := by
    refine List.ext_getElem? fun i => ?_
    simp only [cut,List.getElem?_map,List.getElem?_modify]
    cases deps.spans[i]? with
    | none => rfl
    | some span => by_cases same : h = i <;> simp [same]
  rw [← List.getLast?_map,patterns,List.getLast?_map]
  exact tops

theorem cut_onward {deps : ReadDeps} {h : Nat} {span : ScanSpan} {e : Key} {to_ : Option Key} (onward : ∀ span ∈ deps.spans, span.Onward)
    (held : deps.spans[h]? = some span) (there : span.to_ = some e) (further : ∀ t ∈ to_, Walking.Before span.reverse e t) :
    ∀ span ∈ (deps.cut h to_).spans, span.Onward := by
  intro other member
  obtain ⟨i,at_⟩ := List.mem_iff_getElem?.mp member
  simp only [cut,List.getElem?_modify] at at_
  by_cases same : h = i
  · subst same
    rw [held] at at_
    obtain rfl : {span with to_} = other := by simpa using at_
    intro f from_ t is
    exact (onward span (List.mem_iff_getElem?.mpr ⟨h,held⟩) f from_ e there).trans (further t is)
  · obtain ⟨old,found,rfl⟩ := Option.map_eq_some_iff.mp at_
    rw [if_neg same]
    exact onward old (List.mem_iff_getElem?.mpr ⟨i,found⟩)

theorem Opens.grows {before after : ReadDeps} {pattern : ScanPattern} {reverse : Bool} {start : Option Key} {front : List ScanSpan}
    {span : ScanSpan} (opens : before.Opens after pattern reverse start front span)
    (further : ∀ n ∈ start, Walking.upTo reverse span.to_ n = true) : before.Grows after := by
  refine ⟨fun key read => ?_,fun skipped => opens.skipped.trans skipped⟩
  rw [reads_iff] at read ⊢
  rw [opens.keys,opens.spans]
  refine read.imp id ?_
  rintro ⟨other,member,covers⟩
  rcases opens.begins with ⟨same,_⟩ | ⟨n,is,same,_⟩
  · rw [same] at member
    exact ⟨other,List.mem_append_left _ member,covers⟩
  · rw [same] at member
    rcases List.mem_append.mp member with old | last
    · exact ⟨other,List.mem_append_left _ old,covers⟩
    · rw [List.mem_singleton.mp last] at covers
      obtain ⟨past,up,picked⟩ := (ScanSpan.covers_iff _ _).mp covers
      have far := further n is
      rw [← opens.way] at far
      exact ⟨span,by simp,(ScanSpan.covers_iff _ _).mpr ⟨past,Walking.upTo_trans far up,picked⟩⟩

-- The stretch fetched is read, up to what was handed out of it.
theorem Opens.reads {before after : ReadDeps} {pattern : ScanPattern} {reverse : Bool} {start : Option Key} {front : List ScanSpan}
    {span : ScanSpan} (opens : before.Opens after pattern reverse start front span) (onward : ∀ span ∈ before.spans, span.Onward)
    {key : Key} (picked : pattern.picks key = true) (past : Walking.past reverse start key = true)
    (up : Walking.upTo reverse span.to_ key = true) : after.reads key = true := by
  rw [reads_iff,opens.spans]
  refine .inr ⟨span,by simp,(ScanSpan.covers_iff _ _).mpr ⟨?_,by rw [opens.way]; exact up,by rw [opens.along]; exact picked⟩⟩
  rw [opens.way]
  rcases opens.begins with ⟨_,from_⟩ | ⟨n,is,same,_⟩
  · rw [from_]
    exact past
  · have old := onward {span with to_:=some n} (by rw [same]; simp)
    have early := old.past rfl
    dsimp only at early
    rw [opens.way] at early
    rw [is] at past
    exact Walking.past_before early (Walking.past_some.mp past)

theorem Opens.onward {before after : ReadDeps} {pattern : ScanPattern} {reverse : Bool} {start : Option Key} {front : List ScanSpan}
    {span : ScanSpan} (opens : before.Opens after pattern reverse start front span) (onward : ∀ span ∈ before.spans, span.Onward)
    (past : ∀ t ∈ span.to_, Walking.past reverse start t = true) : ∀ span ∈ after.spans, span.Onward := by
  intro other member
  rw [opens.spans] at member
  rcases List.mem_append.mp member with old | last
  · refine onward other ?_
    rcases opens.begins with ⟨same,_⟩ | ⟨n,_,same,_⟩
    · rw [same]
      exact old
    · rw [same]
      exact List.mem_append_left _ old
  · rw [List.mem_singleton.mp last]
    intro f from_ t to_
    have there := past t to_
    rcases opens.begins with ⟨_,start_⟩ | ⟨n,is,same,_⟩
    · rw [← start_,← opens.way] at there
      rw [Option.mem_def.mp from_] at there
      exact Walking.past_some.mp there
    · have old := onward {span with to_:=some n} (by rw [same]; simp) f from_ n rfl
      rw [is,← opens.way] at there
      exact old.trans (Walking.past_some.mp there)

end ReadDeps
namespace Batches
variable {view : QueryView V} {w x : Batches V} {b c : Fetched V} {front front' : List (Key × V)} {row other : Key × V}

-- A batch with rows to hand out, or the last of its walk: its span is still to move.
def Going (w : Batches V) (b : Fetched V) : Prop := w.batch = some b ∧ w.ended = false ∧ (b.rows ≠ [] ∨ b.next = none)

theorem At.unique (one : At view w b front row) (two : At view w c front' other) : b = c ∧ row = other := by
  obtain rfl : b = c := Option.some.inj (one.batch.symm.trans two.batch)
  have same := one.entries.symm.trans two.entries
  rw [List.append_cons,List.append_cons front'] at same
  exact ⟨rfl,List.singleton_inj.mp (List.append_inj' (List.append_inj' same rfl).1 rfl).2⟩

theorem At.within (at_ : At view w b front row) : ∀ e ∈ front++row :: b.rows,
    Walking.past w.reverse w.after e.1 = true ∧ Walking.upTo w.reverse b.next e.1 = true := by
  intro e member
  obtain ⟨i,starts⟩ := at_.starts
  have entries := (startOf_scan at_.untangled starts).1
  have next : (OverlayTxn.scan view.base view.overlay w.pattern w.reverse w.after w.limit).next = b.next := at_.next
  rw [next] at entries
  rw [← at_.entries] at member
  have inside : e ∈ (OverlayTxn.scan view.base view.overlay w.pattern w.reverse w.after w.limit).entries := member
  rw [entries] at inside
  exact Bool.and_eq_true_iff.mp (List.mem_filter.mp inside).2

theorem At.ordered (at_ : At view w b front row) : Walking.Ordered w.reverse (front++row :: b.rows) := by
  obtain ⟨i,starts⟩ := at_.starts
  have entries := (startOf_scan at_.untangled starts).1
  rw [← at_.entries]
  unfold page
  rw [entries]
  exact (w.whole_ordered view).filter _

-- Batches of one pattern end at the same keys, so no walk within a batch stands where another's
-- batch ended.
theorem At.boundary (at_ : At view w b front row) (n : Key) (ends : b.next = some n) (here : At view x c front' other) (going : c.rows ≠ [] ∨ c.next = none)
    (along : x.pattern = w.pattern) (way : x.reverse = w.reverse) : other.1 ≠ n := by
  rintro rfl
  obtain ⟨i,starts⟩ := at_.starts
  obtain ⟨j,begins⟩ := here.starts
  rw [along,way] at begins
  have away := fun e member => (here.within e member).1
  have under := fun e member => (here.within e member).2
  have own : other ∈ front'++other :: c.rows := by simp
  have next : (OverlayTxn.scan view.base view.overlay w.pattern w.reverse w.after w.limit).next = b.next := at_.next
  have next' : (OverlayTxn.scan view.base view.overlay w.pattern w.reverse x.after x.limit).next = c.next := by
    rw [← along,← way]
    exact here.next
  rcases Nat.lt_trichotomy i j with less | rfl | more
  · obtain ⟨n',m,one,two,upward⟩ := startOf_later at_.untangled starts begins less
    obtain rfl : other.1 = n' := Option.some.inj (ends.symm.trans (next.symm.trans one))
    have further := away other own
    rw [show x.after = some m from two,way] at further
    exact upward (Walking.past_some.mp further)
  · obtain ⟨after,limit⟩ := Prod.mk.inj (Option.some.inj (starts.symm.trans begins))
    rw [← after,← limit] at next'
    have same : c.next = some other.1 := by rw [← next',next,ends]
    rcases going with rows | none_
    · obtain ⟨first,rest,is⟩ := List.exists_cons_of_ne_nil rows
      have ordered := here.ordered
      rw [is] at ordered under
      have ahead := (List.pairwise_cons.mp (List.pairwise_append.mp ordered).2.1).1 first List.mem_cons_self
      have low := under first (by simp)
      rw [same] at low
      exact Walking.upTo_some.mp low ahead
    · rw [none_] at same
      cases same
  · obtain ⟨n',m,one,two,upward⟩ := startOf_later at_.untangled begins starts more
    obtain ⟨i',starts'⟩ := at_.starts
    have low := under other own
    rw [← next',show _ = some n' from one,way] at low
    have further := ((startOf_scan at_.untangled starts).2 other.1 (next.trans ends)).1
    rw [show w.after = some m from two] at further
    have before := Walking.past_some.mp further
    rcases Walking.upTo_cases low with same | ahead
    · rw [same] at before
      exact upward before
    · exact upward (before.trans ahead)

-- What is still to come of a walk, its batches past and to come put end to end.
def left (view : QueryView V) (w : Batches V) : List (Key × V) :=
  if w.ended then [] else match w.batch with
    | none => w.whole view
    | some b => b.rows++w.behind view b.next

def Standing (view : QueryView V) (w : Batches V) : Prop :=
  (w.batch = none ∧ w.ended = false ∧ w.after = none ∧ w.limit = 16) ∨ (∃ b front row, At view w b front row) ∨ w.ended = true

end Batches

namespace QueryRunning
open Batches

-- What holds of a run's record and of the walks it has opened.
structure Sound (view : QueryView V) (s : QueryRunning V) : Prop where
  tops : s.deps.last = s.deps.spans.getLast?.map ScanSpan.pattern
  onward : ∀ span ∈ s.deps.spans, span.Onward
  stands : ∀ w ∈ s.walks, w.Standing view
  spans : ∀ w ∈ s.walks, ∀ b front row, At view w b front row → w.Going b →
    ∃ span, s.deps.spans[b.span]? = some span ∧ span.pattern = w.pattern ∧ span.reverse = w.reverse ∧ span.to_ = some row.1
  apart : ∀ (i j : Nat) (w x : Batches V) (b c : Fetched V), s.walks[i]? = some w → s.walks[j]? = some x → i ≠ j → w.Going b → x.Going c → b.span ≠ c.span
  reads : s.deps.skipped = false → ∀ w ∈ s.walks, ∀ key, w.pattern.picks key = true →
    (∀ b front row, At view w b front row → Walking.upTo w.reverse (some row.1) key = true → s.deps.reads key = true) ∧
      (w.ended = true → s.deps.reads key = true)

variable {view : QueryView V} {s : QueryRunning V} {i : Nat} {w : Batches V}

theorem member_ (found : s.walks[i]? = some w) : w ∈ s.walks := List.mem_iff_getElem?.mpr ⟨i,found⟩

theorem Sound.going_at (sound : Sound view s) (found : s.walks[i]? = some w) {b : Fetched V} (going : w.Going b) :
    ∃ front row, At view w b front row := by
  rcases sound.stands w (member_ found) with ⟨none_,_⟩ | ⟨c,front,row,at_⟩ | ended
  · have batch := going.1
    rw [none_] at batch
    cases batch
  · obtain rfl : c = b := Option.some.inj (at_.batch.symm.trans going.1)
    exact ⟨front,row,at_⟩
  · have still := going.2.1
    rw [ended] at still
    cases still

-- A walk moves, and the others' spans stay.
theorem Sound.moved (sound : Sound view s) {deps : ReadDeps} {w' : Batches V} (found : s.walks[i]? = some w)
    (tops : deps.last = deps.spans.getLast?.map ScanSpan.pattern) (onward : ∀ span ∈ deps.spans, span.Onward) (grows : s.deps.Grows deps)
    (stands : w'.Standing view)
    (own : ∀ b front row, At view w' b front row → w'.Going b →
      ∃ span, deps.spans[b.span]? = some span ∧ span.pattern = w'.pattern ∧ span.reverse = w'.reverse ∧ span.to_ = some row.1)
    (others : ∀ (j : Nat) (x : Batches V) (c : Fetched V), j ≠ i → s.walks[j]? = some x → x.Going c → ∀ front row, At view x c front row →
      deps.spans[c.span]? = s.deps.spans[c.span]?)
    (apart : ∀ b, w'.Going b → ∀ (j : Nat) (x : Batches V) (c : Fetched V), j ≠ i → s.walks[j]? = some x → x.Going c → b.span ≠ c.span)
    (reads : deps.skipped = false → ∀ key, w'.pattern.picks key = true →
      (∀ b front row, At view w' b front row → Walking.upTo w'.reverse (some row.1) key = true → deps.reads key = true) ∧
        (w'.ended = true → deps.reads key = true)) :
    Sound view ⟨deps,s.walks.set i w'⟩ := by
  have inside : i < s.walks.length := (List.getElem?_eq_some_iff.mp found).1
  have at_ : ∀ (j : Nat) x, (s.walks.set i w')[j]? = some x → (j = i ∧ x = w') ∨ (j ≠ i ∧ s.walks[j]? = some x) := by
    intro j x held
    rw [List.getElem?_set] at held
    split at held
    · rename_i same
      subst same
      exact .inl ⟨rfl,(Option.some.inj held).symm⟩
    · rename_i other
      exact .inr ⟨fun same => other same.symm,held⟩
  have each : ∀ x ∈ s.walks.set i w', x = w' ∨ ∃ j, j ≠ i ∧ s.walks[j]? = some x := by
    intro x member
    obtain ⟨j,held⟩ := List.mem_iff_getElem?.mp member
    exact (at_ j x held).imp And.right fun rest => ⟨j,rest⟩
  refine ⟨tops,onward,fun x member => ?_,fun x member => ?_,fun j k x y b c first second other gb gc => ?_,fun plain x member => ?_⟩
  · rcases each x member with rfl | ⟨j,_,held⟩
    · exact stands
    · exact sound.stands x (member_ held)
  · rcases each x member with rfl | ⟨j,other,held⟩
    · exact own
    · intro c front row at' going
      obtain ⟨span,old,rest⟩ := sound.spans x (member_ held) c front row at' going
      exact ⟨span,(others j x c other held going front row at').trans old,rest⟩
  · rcases at_ j x first with ⟨rfl,rfl⟩ | ⟨away,held⟩
    · rcases at_ k y second with ⟨rfl,_⟩ | ⟨away,held⟩
      · exact absurd rfl other
      · exact apart b gb k y c away held gc
    · rcases at_ k y second with ⟨rfl,rfl⟩ | ⟨away',held'⟩
      · exact (apart c gc j x b away held gb).symm
      · exact sound.apart j k x y b c held held' other gb gc
  · rcases each x member with rfl | ⟨j,_,held⟩
    · exact reads plain
    · intro key picked
      obtain ⟨upward,whole⟩ := sound.reads (grows.plain plain) x (member_ held) key picked
      exact ⟨fun b front row at' up => grows.1 key (upward b front row at' up),fun ended => grows.1 key (whole ended)⟩

-- A walk that hands out the next row of its batch reads up to it.
theorem Sound.hands {b : Fetched V} {front : List (Key × V)} {row next : Key × V} {rows : List (Key × V)} (sound : Sound view s)
    (found : s.walks[i]? = some w) (at_ : At view w b front row) (is : b.rows = next :: rows) :
    Sound view ⟨s.deps.cut b.span (some next.1),s.walks.set i {w with batch:=some {b with rows}}⟩ ∧
      s.deps.Grows (s.deps.cut b.span (some next.1)) ∧ At view {w with batch:=some {b with rows}} {b with rows} (front++[row]) next := by
  have going : w.Going b := ⟨at_.batch,at_.going,.inl (by rw [is]; exact List.cons_ne_nil _ _)⟩
  obtain ⟨span,held,along,way,there⟩ := sound.spans w (member_ found) b front row at_ going
  have ahead : Walking.Before w.reverse row.1 next.1 := by
    have ordered := at_.ordered
    rw [is] at ordered
    exact (List.pairwise_cons.mp (List.pairwise_append.mp ordered).2.1).1 next List.mem_cons_self
  have further : Walking.Before span.reverse row.1 next.1 := by rw [way]; exact ahead
  have grows := ReadDeps.cut_grows held there (Walking.upTo_some.mpr further.asymm)
  have moved : At view {w with batch:=some {b with rows}} {b with rows} (front++[row]) next := by
    refine ⟨rfl,at_.going,at_.untangled,at_.starts,?_,at_.next,at_.skips⟩
    show (w.page view).entries = _
    rw [at_.entries,is]
    simp
  have same : ∀ c, ({w with batch:=some {b with rows}} : Batches V).Going c → c = {b with rows} := fun c going =>
    (Option.some.inj going.1).symm
  refine ⟨sound.moved found (ReadDeps.cut_tops sound.tops _ _) (ReadDeps.cut_onward sound.onward held there fun t is => ?_) grows
    (.inr (.inl ⟨_,_,_,moved⟩)) (fun c front' row' here going => ?_) (fun j x c away walk other front' row' here => ?_)
    (fun c own j x d away walk other => ?_) (fun plain key picked => ⟨fun c front' row' here up => ?_,fun ended => ?_⟩),grows,moved⟩
  · cases is
    exact further
  · obtain ⟨rfl,rfl⟩ := here.unique moved
    refine ⟨{span with to_:=some row'.1},?_,along,way,rfl⟩
    simp [ReadDeps.cut,held]
  · have apart := sound.apart i j w x b c found walk (Ne.symm away) going other
    simp [ReadDeps.cut,apart]
  · rw [same c own]
    exact sound.apart i j w x b d found walk (Ne.symm away) going other
  · obtain ⟨rfl,rfl⟩ := here.unique moved
    by_cases old : Walking.upTo w.reverse (some row.1) key = true
    · exact grows.1 key ((sound.reads (grows.plain plain) w (member_ found) key picked).1 b front row at_ old)
    · have past : Walking.Before w.reverse row.1 key := by
        by_contra not_
        exact old (Walking.upTo_some.mpr not_)
      refine ReadDeps.cut_reads held (sound.onward span (List.mem_iff_getElem?.mpr ⟨_,held⟩)) there ?_ ?_ ?_
      · rw [along]
        exact picked
      · rw [way]
        exact past
      · rw [way]
        exact up
  · exact absurd (at_.going.symm.trans ended) (by simp)

-- A walk asked past its last row reads to its end.
theorem Sound.finishes {b : Fetched V} {front : List (Key × V)} {row : Key × V} (sound : Sound view s)
    (found : s.walks[i]? = some w) (at_ : At view w b front row) (last : b.next = none) :
    Sound view ⟨s.deps.cut b.span none,s.walks.set i {w with ended:=true}⟩ ∧ s.deps.Grows (s.deps.cut b.span none) := by
  have going : w.Going b := ⟨at_.batch,at_.going,.inr last⟩
  obtain ⟨span,held,along,way,there⟩ := sound.spans w (member_ found) b front row at_ going
  have grows : s.deps.Grows (s.deps.cut b.span none) := ReadDeps.cut_grows held there rfl
  have over_ : ∀ {c front row}, ¬At view {w with ended:=true} c front row := fun here => by cases here.going
  refine ⟨sound.moved found (ReadDeps.cut_tops sound.tops _ _) (ReadDeps.cut_onward sound.onward held there fun t is => by cases is) grows
    (.inr (.inr rfl)) (fun c front' row' here _ => absurd here over_) (fun j x c away walk other front' row' here => ?_)
    (fun c own => by cases own.2.1) (fun plain key picked => ⟨fun c front' row' here _ => absurd here over_,fun _ => ?_⟩),grows⟩
  · have apart := sound.apart i j w x b c found walk (Ne.symm away) going other
    simp [ReadDeps.cut,apart]
  · by_cases old : Walking.upTo w.reverse (some row.1) key = true
    · exact grows.1 key ((sound.reads (grows.plain plain) w (member_ found) key picked).1 b front row at_ old)
    · have past : Walking.Before w.reverse row.1 key := by
        by_contra not_
        exact old (Walking.upTo_some.mpr not_)
      refine ReadDeps.cut_reads held (sound.onward span (List.mem_iff_getElem?.mpr ⟨_,held⟩)) there ?_ ?_ rfl
      · rw [along]
        exact picked
      · rw [way]
        exact past

-- A walk that fetches: from its start, or from where its batch ended, with no row left of it.
def Resumes (view : QueryView V) (w : Batches V) (start : Option Key) (skips : Bool) : Prop :=
  (w.batch = none ∧ w.after = none ∧ start = none ∧ skips = false) ∨
    ∃ b front row n, At view w b front row ∧ b.rows = [] ∧ b.next = some n ∧ start = some n ∧ skips = b.skips

-- A walk that fetches goes on to its next live row, or to its end, and reads what lies between.
theorem Sound.fetches {start : Option Key} {skips : Bool} {deps : ReadDeps} {front : List ScanSpan} {span : ScanSpan} {w' : Batches V}
    {row : Option (Key × V)} (sound : Sound view s) (found : s.walks[i]? = some w) (resumes : Resumes view w start skips)
    (opens : ReadDeps.Opens {s.deps with skipped:=s.deps.skipped || skips} deps w.pattern w.reverse start front span)
    (reach : span.to_ = row.map Prod.fst) (along : w'.pattern = w.pattern) (way : w'.reverse = w.reverse)
    (past : ∀ e ∈ row, Walking.past w.reverse start e.1 = true)
    (stands : (row = none ∧ w'.ended = true) ∨ ∃ e b, row = some e ∧ At view w' b [] e ∧ b.span = front.length) :
    Sound view ⟨deps,s.walks.set i w'⟩ ∧ s.deps.Grows deps := by
  have past_to : ∀ t ∈ span.to_, Walking.past w.reverse start t = true := by
    intro t is
    rw [reach] at is
    obtain ⟨e,some_,rfl⟩ := Option.map_eq_some_iff.mp is
    exact past e some_
  have grown := opens.grows fun n is => by
    cases to_ : span.to_ with
    | none => rfl
    | some t =>
      have there := past_to t to_
      rw [is] at there
      exact Walking.upTo_some.mpr (Walking.past_some.mp there).asymm
  have grows : s.deps.Grows deps := ⟨grown.1,fun skipped => grown.2 (by simp [skipped])⟩
  -- no other walk moves the span this one takes over
  have elsewhere : ∀ (j : Nat) (x : Batches V) (c : Fetched V), s.walks[j]? = some x → x.Going c → c.span < front.length := by
    intro j x c walk other
    obtain ⟨front',row',here⟩ := sound.going_at walk other
    obtain ⟨old,held,along',way',there⟩ := sound.spans x (member_ walk) c front' row' here other
    have length := (List.getElem?_eq_some_iff.mp held).1
    rcases opens.begins with ⟨same,_⟩ | ⟨n,is,same,_⟩
    · rw [← same]
      exact length
    · have same : s.deps.spans = front++[{span with to_:=some n}] := same
      rw [same] at held length
      rcases Nat.lt_or_ge c.span front.length with less | more
      · exact less
      · have last : c.span = front.length := by
          rw [List.length_append,List.length_singleton] at length
          omega
        rw [last] at held
        obtain rfl : {span with to_:=some n} = old := by simpa using held
        rcases resumes with ⟨_,_,none_,_⟩ | ⟨b,front'',row'',n',at_,_,ends,start_,_⟩
        · rw [none_] at is
          cases is
        · obtain rfl : n = n' := Option.some.inj (is.symm.trans start_)
          exact absurd (Option.some.inj there).symm
            (at_.boundary n ends here other.2.2 (along'.symm.trans opens.along) (way'.symm.trans opens.way))
  have all : deps.skipped = false → ∀ key, w.pattern.picks key = true → Walking.upTo w.reverse (row.map Prod.fst) key = true →
      deps.reads key = true := by
    intro plain key picked up
    rw [← reach] at up
    have fetched : Walking.past w.reverse start key = true → deps.reads key = true := fun there => opens.reads sound.onward picked there up
    rcases resumes with ⟨_,_,rfl,_⟩ | ⟨b,front',row',n,at_,empty,ends,rfl,rfl⟩
    · exact fetched rfl
    · have skips : (s.deps.skipped || b.skips) = false := opens.skipped.symm.trans plain
      obtain ⟨plain',whole⟩ := Bool.or_eq_false_iff.mp skips
      have last := at_.skips whole n ends
      rw [at_.entries,empty] at last
      have here : row'.1 = n := by simpa using last
      by_cases old : Walking.upTo w.reverse (some n) key = true
      · rw [← here] at old
        exact grows.1 key ((sound.reads plain' w (member_ found) key picked).1 b front' row' at_ old)
      · refine fetched (Walking.past_some.mpr ?_)
        by_contra not_
        exact old (Walking.upTo_some.mpr not_)
  have own : ∀ {c front' row'}, At view w' c front' row' → row = some row' ∧ c.span = front.length := by
    intro c front' row' here
    rcases stands with ⟨_,ended⟩ | ⟨e,b,is,at_,place⟩
    · rw [here.going] at ended
      cases ended
    · obtain ⟨rfl,rfl⟩ := at_.unique here
      exact ⟨is,place⟩
  refine ⟨sound.moved found ?_ (opens.onward sound.onward past_to) grows ?_ (fun c front' row' here _ => ?_)
    (fun j x c _ walk other _ _ _ => ?_) (fun c mine j x d _ walk other => ?_) (fun plain key picked => ⟨fun c front' row' here up => ?_,fun ended => ?_⟩),
    grows⟩
  · rw [opens.last,opens.spans]
    simp [opens.along]
  · rcases stands with ⟨_,ended⟩ | ⟨e,b,_,at_,_⟩
    · exact .inr (.inr ended)
    · exact .inr (.inl ⟨_,_,_,at_⟩)
  · obtain ⟨is,place⟩ := own here
    refine ⟨span,?_,opens.along.trans along.symm,opens.way.trans way.symm,?_⟩
    · rw [place,opens.spans]
      simp
    · rw [reach,is]
      rfl
  · have less := elsewhere j x c walk other
    rw [opens.spans,List.getElem?_append_left less]
    rcases opens.begins with ⟨same,_⟩ | ⟨n,_,same,_⟩
    · exact (congrArg (·[c.span]?) same).symm
    · have same : s.deps.spans = front++[{span with to_:=some n}] := same
      rw [same,List.getElem?_append_left less]
  · have less := elsewhere j x d walk other
    rcases stands with ⟨_,ended⟩ | ⟨e,b,_,at_,place⟩
    · rw [mine.2.1] at ended
      cases ended
    · obtain rfl : b = c := Option.some.inj (at_.batch.symm.trans mine.1)
      omega
  · obtain ⟨is,_⟩ := own here
    rw [along] at picked
    rw [way] at up
    exact all plain key picked (by rw [is]; exact up)
  · rw [along] at picked
    refine all plain key picked ?_
    rcases stands with ⟨is,_⟩ | ⟨e,b,_,at_,_⟩
    · rw [is]
      rfl
    · rw [at_.going] at ended
      cases ended

theorem left_at {b : Fetched V} {front : List (Key × V)} {row : Key × V} (at_ : At view w b front row) : left view w = b.rows++w.behind view b.next := by
  unfold left
  rw [at_.going,at_.batch]
  rfl

theorem Sound.resumed {start : Option Key} {skips : Bool} {limit : Nat} (sound : Sound view s) (found : s.walks[i]? = some w)
    (going : w.ended = false) (untangled : view.base.Untangled w.pattern w.reverse) (resumes : Resumes view w start skips)
    (starts : ∃ j, startOf view w.pattern w.reverse j = some (start,limit)) (rest : left view w = w.since view start) {fuel : Nat}
    (enough : view.base.size < fuel) :
    ∃ row deps w', Batches.take view fuel (fetch view {s.deps with skipped:=s.deps.skipped || skips} {w with after:=start,limit}).1
        (fetch view {s.deps with skipped:=s.deps.skipped || skips} {w with after:=start,limit}).2 = (row,deps,w') ∧
      Sound view ⟨deps,s.walks.set i w'⟩ ∧ s.deps.Grows deps ∧ w'.pattern = w.pattern ∧ w'.reverse = w.reverse ∧
      ((row = none ∧ left view w = [] ∧ w'.ended = true) ∨
        ∃ e b front, row = some e ∧ left view w = e :: left view w' ∧ At view w' b front e) := by
  have room : remaining view {w with after:=start,limit} < fuel := lt_of_le_of_lt (remaining_le view _) enough
  have tops : ({s.deps with skipped:=s.deps.skipped || skips} : ReadDeps).last =
      ({s.deps with skipped:=s.deps.skipped || skips} : ReadDeps).spans.getLast?.map ScanSpan.pattern := sound.tops
  obtain ⟨row,deps,w',front,span,took,opens,reach,along,way,cases_⟩ := take_fetch (w := {w with after:=start,limit}) tops going untangled starts room
  have rows : ({w with after:=start,limit} : Batches V).since view start = w.since view start := rfl
  dsimp only at opens along way cases_
  rw [rows] at cases_
  have past : ∀ e ∈ row, Walking.past w.reverse start e.1 = true := by
    intro e is
    rcases cases_ with ⟨none_,_⟩ | ⟨e',b,some_,_,_,parts⟩
    · rw [none_] at is
      cases is
    · rw [some_] at is
      cases is
      have member : e ∈ w.since view start := by rw [parts]; exact List.mem_cons_self
      exact (List.mem_filter.mp member).2
  have stands : (row = none ∧ w'.ended = true) ∨ ∃ e b, row = some e ∧ At view w' b [] e ∧ b.span = front.length := by
    rcases cases_ with ⟨none_,ended,_⟩ | ⟨e,b,some_,at_,place,_⟩
    · exact .inl ⟨none_,ended⟩
    · exact .inr ⟨e,b,some_,at_,place⟩
  obtain ⟨sound',grows⟩ := sound.fetches found resumes opens reach along way past stands
  refine ⟨row,deps,w',took,sound',grows,along,way,?_⟩
  rcases cases_ with ⟨none_,ended,empty⟩ | ⟨e,b,some_,at_,_,parts⟩
  · exact .inl ⟨none_,rest.trans empty,ended⟩
  · refine .inr ⟨e,b,[],some_,?_,at_⟩
    rw [rest,parts,left_at at_]
    have same : w'.behind view b.next = w.behind view b.next := by
      cases b.next with
      | none => rfl
      | some n => simp only [behind,since,whole,along,way]
    rw [same]
    rfl

-- What a walk hands out is the next of its rows, read with all before it; or, with none left, it
-- ends, read whole.
theorem Sound.takes (sound : Sound view s) (found : s.walks[i]? = some w) (going : w.ended = false)
    (untangled : view.base.Untangled w.pattern w.reverse) :
    ∃ row deps w', w.take view (fuel view) s.deps = (row,deps,w') ∧ Sound view ⟨deps,s.walks.set i w'⟩ ∧ s.deps.Grows deps ∧
      w'.pattern = w.pattern ∧ w'.reverse = w.reverse ∧
      ((row = none ∧ left view w = [] ∧ w'.ended = true) ∨
        ∃ e b front, row = some e ∧ left view w = e :: left view w' ∧ At view w' b front e) := by
  rcases sound.stands w (member_ found) with ⟨unopened,_,after,limit⟩ | ⟨b,front,row,at_⟩ | ended
  · have rest : left view w = w.since view none := by
      rw [left,going,unopened]
      simp [since,Walking.past]
    have made := sound.resumed found going untangled (.inl ⟨unopened,after,rfl,rfl⟩) ⟨0,rfl⟩ rest (Nat.lt_succ_self _)
    have same : ({w with after:=none,limit:=16} : Batches V) = w := by rw [← after,← limit]
    rw [same] at made
    simpa only [fuel,Batches.take,unopened,Bool.or_false] using made
  · simp only [fuel,Batches.take,at_.batch]
    cases rows : b.rows with
    | cons next rest =>
      obtain ⟨sound',grows,moved⟩ := sound.hands found at_ rows
      refine ⟨some next,_,_,rfl,sound',grows,rfl,rfl,.inr ⟨next,_,_,rfl,?_,moved⟩⟩
      rw [left_at at_,left_at moved,rows]
      rfl
    | nil =>
      cases ends : b.next with
      | none =>
        obtain ⟨sound',grows⟩ := sound.finishes found at_ ends
        rw [at_.batch] at sound'
        refine ⟨none,_,_,rfl,sound',grows,rfl,rfl,.inl ⟨rfl,?_,rfl⟩⟩
        rw [left_at at_,rows,ends]
        rfl
      | some n =>
        obtain ⟨j,starts⟩ := at_.starts
        have next : (OverlayTxn.scan view.base view.overlay w.pattern w.reverse w.after w.limit).next = some n := at_.next.trans ends
        have onward : startOf view w.pattern w.reverse (j+1) = some (some n,min (w.limit*2) 256) := by
          simp only [startOf,starts,Option.bind_some,next,Option.map_some]
        have rest : left view w = w.since view (some n) := by
          rw [left_at at_,rows,ends]
          rfl
        have made := sound.resumed found going untangled (.inr ⟨b,front,row,n,at_,rows,ends,rfl,rfl⟩) ⟨j+1,onward⟩ rest (Nat.lt_succ_self _)
        rw [at_.batch] at made
        exact made
  · rw [going] at ended
    cases ended

end QueryRunning
end PhaseLock
