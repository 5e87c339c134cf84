import PhaseLock.OverlayScans

namespace PhaseLock
variable {V τ : Type}

namespace ReadDeps

-- The record goes on from where a walk's batches began to be fetched: its last span is the
-- walk's, new from there, or the last one of before where that ended there.
structure Opens (before after : ReadDeps) (pattern : ScanPattern) (reverse : Bool) (start : Option Key) (front : List ScanSpan) (span : ScanSpan) :
    Prop where
  spans : after.spans = front++[span]
  along : span.pattern = pattern
  way : span.reverse = reverse
  begins : (before.spans = front ∧ span.from_ = start) ∨
    ∃ n, start = some n ∧ before.spans = front++[{span with to_:=some n}] ∧ before.last = some pattern
  last : after.last = some pattern
  keys : after.keys = before.keys
  held : after.held = before.held
  skipped : after.skipped = before.skipped

theorem modify_last (front : List ScanSpan) (span : ScanSpan) (f : ScanSpan → ScanSpan) :
    (front++[span]).modify ((front++[span]).length-1) f = front++[f span] := by
  induction front with
  | nil => rfl
  | cons head rest ih =>
    cases rest with
    | nil => rfl
    | cons next rest => simpa using ih

theorem record_extends {deps : ReadDeps} {front : List ScanSpan} {span : ScanSpan} {pattern : ScanPattern} {n : Key} (next : Option Key)
    (spans : deps.spans = front++[span]) (to_ : span.to_ = some n) (last : deps.last = some pattern) :
    deps.record pattern span.reverse (some n) next = {deps with spans:=front++[{span with to_:=next}]} := by
  have ends : deps.spans.getLast? = some span := by rw [spans]; simp
  unfold record
  rw [if_pos (by rw [ends]; simp [to_,last]),spans,modify_last]

-- A fetch opens a span, or goes on with the last.
theorem record_opens {deps : ReadDeps} (tops : deps.last = deps.spans.getLast?.map ScanSpan.pattern) (pattern : ScanPattern) (reverse : Bool)
    (after next : Option Key) : ∃ front span, Opens deps (deps.record pattern reverse after next) pattern reverse after front span ∧
      span.to_ = next := by
  by_cases resumes : (deps.spans.getLast?.any fun last => last.to_.isSome && last.to_ = after && last.reverse = reverse && deps.last = some pattern) = true
  · obtain ⟨span,ends,same⟩ := (Option.any_eq_true _ _).mp resumes
    simp only [Bool.and_eq_true,decide_eq_true_eq] at same
    obtain ⟨⟨⟨some_,there⟩,way⟩,text⟩ := same
    obtain ⟨n,to_⟩ := Option.isSome_iff_exists.mp some_
    obtain ⟨front,spans⟩ := List.getLast?_eq_some_iff.mp ends
    rw [← there,to_,← way,record_extends next spans to_ text]
    refine ⟨front,{span with to_:=next},⟨rfl,?_,rfl,.inr ⟨n,rfl,?_,text⟩,text,rfl,rfl,rfl⟩,rfl⟩
    · rw [ends,text] at tops
      exact (Option.some.inj tops).symm
    · rw [spans,← to_]
  · unfold record
    rw [if_neg resumes]
    exact ⟨deps.spans,⟨pattern,reverse,after,next⟩,⟨rfl,rfl,rfl,.inl ⟨rfl,rfl⟩,rfl,rfl,rfl,rfl⟩,rfl⟩

-- The next fetch of the same walk goes on with its span.
theorem Opens.again {before after : ReadDeps} {pattern : ScanPattern} {reverse : Bool} {start : Option Key} {front : List ScanSpan}
    {span : ScanSpan} (opens : Opens before after pattern reverse start front span) {n : Key} (to_ : span.to_ = some n) (next : Option Key) :
    Opens before (after.record pattern reverse (some n) next) pattern reverse start front {span with to_:=next} := by
  rw [← opens.way,record_extends next opens.spans to_ opens.last]
  exact ⟨rfl,opens.along,rfl,opens.begins,opens.last,opens.keys,opens.held,opens.skipped⟩

theorem Opens.cut {before after : ReadDeps} {pattern : ScanPattern} {reverse : Bool} {start : Option Key} {front : List ScanSpan}
    {span : ScanSpan} (opens : Opens before after pattern reverse start front span) (to_ : Option Key) :
    Opens before (after.cut front.length to_) pattern reverse start front {span with to_} := by
  refine ⟨?_,opens.along,opens.way,opens.begins,opens.last,opens.keys,opens.held,opens.skipped⟩
  show after.spans.modify front.length _ = _
  rw [opens.spans]
  have place : front.length = (front++[span]).length-1 := by simp
  rw [place,modify_last]

end ReadDeps

namespace Batches

def page (view : QueryView V) (w : Batches V) : StoreScan V := OverlayTxn.scan view.base view.overlay w.pattern w.reverse w.after w.limit

-- Every live row a walk comes to, and those of it past a key.
def whole (view : QueryView V) (w : Batches V) : List (Key × V) := view.sight.walk ScanPattern.picks w.pattern w.reverse
def since (view : QueryView V) (w : Batches V) (after : Option Key) : List (Key × V) :=
  (w.whole view).filter fun row => Walking.past w.reverse after row.1

-- What is still to come behind a batch.
def behind (view : QueryView V) (w : Batches V) : Option Key → List (Key × V)
  | none => []
  | some n => w.since view (some n)

theorem whole_ordered (view : QueryView V) (w : Batches V) : Walking.Ordered w.reverse (w.whole view) :=
  view.sight.walk_ordered ScanPattern.picks w.pattern w.reverse

-- Where each batch of a walk starts, and how many it takes.
def startOf (view : QueryView V) (pattern : ScanPattern) (reverse : Bool) : Nat → Option (Option Key × Nat)
  | 0 => some (none,16)
  | i+1 => (startOf view pattern reverse i).bind fun at_ =>
    (OverlayTxn.scan view.base view.overlay pattern reverse at_.1 at_.2).next.map fun n => (some n,min (at_.2*2) 256)

theorem startOf_positive {view : QueryView V} {pattern : ScanPattern} {reverse : Bool} {i : Nat} {at_ : Option Key × Nat}
    (starts : startOf view pattern reverse i = some at_) : 0 < at_.2 := by
  induction i generalizing at_ with
  | zero =>
    cases starts
    decide
  | succ i ih =>
    obtain ⟨earlier,before,made⟩ := Option.bind_eq_some_iff.mp starts
    obtain ⟨n,_,rfl⟩ := Option.map_eq_some_iff.mp made
    have := ih before
    dsimp only
    omega

section
variable {view : QueryView V} {pattern : ScanPattern} {reverse : Bool} {i : Nat} {at_ : Option Key × Nat}
  (untangled : view.base.Untangled pattern reverse)
include untangled

-- A batch of an untangled base starts past one of its pattern's keys.
theorem startOf_from (starts : startOf view pattern reverse i = some at_) : ∀ a ∈ at_.1, pattern.picks a = true := by
  induction i generalizing at_ with
  | zero =>
    cases starts
    exact fun a none => by cases none
  | succ i ih =>
    obtain ⟨earlier,before,made⟩ := Option.bind_eq_some_iff.mp starts
    obtain ⟨n,ends,rfl⟩ := Option.map_eq_some_iff.mp made
    rintro a ⟨⟩
    exact ((OverlayTxn.scan_spec untangled (ih before) (startOf_positive before)).2 n ends).2.1

theorem startOf_scan (starts : startOf view pattern reverse i = some at_) :
    (OverlayTxn.scan view.base view.overlay pattern reverse at_.1 at_.2).entries =
      (view.sight.walk ScanPattern.picks pattern reverse).filter (fun row => Walking.past reverse at_.1 row.1 &&
        Walking.upTo reverse (OverlayTxn.scan view.base view.overlay pattern reverse at_.1 at_.2).next row.1) ∧
    (∀ n ∈ (OverlayTxn.scan view.base view.overlay pattern reverse at_.1 at_.2).next, Walking.past reverse at_.1 n = true ∧
      pattern.picks n = true ∧ ((OverlayTxn.scan view.base view.overlay pattern reverse at_.1 at_.2).entries = [] → view.base.has n = true)) :=
  OverlayTxn.scan_spec untangled (startOf_from untangled starts) (startOf_positive starts)

-- A later batch starts where an earlier one ends, or past it.
theorem startOf_later {j : Nat} {later : Option Key × Nat}
    (starts : startOf view pattern reverse i = some at_) (follows : startOf view pattern reverse j = some later) (order : i < j) :
    ∃ n m, (OverlayTxn.scan view.base view.overlay pattern reverse at_.1 at_.2).next = some n ∧ later.1 = some m ∧
      ¬Walking.Before reverse m n := by
  induction j generalizing later with
  | zero => omega
  | succ j ih =>
    obtain ⟨earlier,before,made⟩ := Option.bind_eq_some_iff.mp follows
    obtain ⟨m,ends,rfl⟩ := Option.map_eq_some_iff.mp made
    rcases Nat.lt_succ_iff_lt_or_eq.mp order with less | rfl
    · obtain ⟨n,m',first,at',upward⟩ := ih before less
      refine ⟨n,m,first,rfl,fun below => upward ?_⟩
      have further := ((startOf_scan untangled before).2 m ends).1
      rw [at'] at further
      exact (Walking.past_some.mp further).trans below
    · rw [starts] at before
      cases before
      exact ⟨m,m,ends,rfl,Walking.Before.irrefl _ _⟩

end

theorem since_page {view : QueryView V} {w : Batches V} (untangled : view.base.Untangled w.pattern w.reverse)
    (starts : startOf view w.pattern w.reverse i = some (w.after,w.limit)) :
    w.since view w.after = (w.page view).entries++w.behind view (w.page view).next := by
  obtain ⟨entries,further⟩ := startOf_scan untangled starts
  unfold page
  rw [entries]
  cases ends : (OverlayTxn.scan view.base view.overlay w.pattern w.reverse w.after w.limit).next with
  | none => simp [since,behind,whole,Walking.upTo]
  | some n => exact (w.whole_ordered view).split (further n ends).1

-- A walk within a batch: it has handed out the batch's rows through one.
structure At (view : QueryView V) (w : Batches V) (b : Fetched V) (front : List (Key × V)) (row : Key × V) : Prop where
  batch : w.batch = some b
  going : w.ended = false
  untangled : view.base.Untangled w.pattern w.reverse
  starts : ∃ i, startOf view w.pattern w.reverse i = some (w.after,w.limit)
  entries : (w.page view).entries = front++row :: b.rows
  next : (w.page view).next = b.next
  skips : b.skips = false → ∀ n ∈ b.next, (w.page view).entries.getLast?.map Prod.fst = some n

-- A batch fetched, of which nothing is handed out.
structure Fresh (view : QueryView V) (w : Batches V) (b : Fetched V) : Prop where
  batch : w.batch = some b
  going : w.ended = false
  untangled : view.base.Untangled w.pattern w.reverse
  starts : ∃ i, startOf view w.pattern w.reverse i = some (w.after,w.limit)
  entries : (w.page view).entries = b.rows
  next : (w.page view).next = b.next
  skips : b.skips = (b.next.isSome && b.rows ≠ [] && b.rows.getLast?.map Prod.fst ≠ b.next)

-- The base's keys a walk is still to come to.
def remaining (view : QueryView V) (w : Batches V) : Nat := (view.base.keys.filter fun key => Walking.past w.reverse w.after key).length

theorem remaining_less {view : QueryView V} {w : Batches V} {n : Key} (away : Walking.past w.reverse w.after n = true) (held : view.base.has n = true)
    (limit : Nat) : remaining view {w with after:=some n,limit} < remaining view w := by
  have member : n ∈ view.base.keys := (OrderedMap.mem_keys _ _).mpr ((OrderedMap.has_iff _ _).mp held)
  unfold remaining
  dsimp only
  have sub : (view.base.keys.filter fun key => Walking.past w.reverse (some n) key).Sublist
      (view.base.keys.filter fun key => Walking.past w.reverse w.after key) := by
    refine List.monotone_filter_right _ fun key further => ?_
    exact Walking.past_before away (Walking.past_some.mp further)
  refine lt_of_le_of_ne sub.length_le fun same => ?_
  have own : n ∈ view.base.keys.filter fun key => Walking.past w.reverse w.after key := List.mem_filter.mpr ⟨member,away⟩
  rw [← sub.eq_of_length same] at own
  exact Walking.Before.irrefl _ _ (Walking.past_some.mp (List.mem_filter.mp own).2)

-- A fetch of an untangled base records the batch alone.
theorem fetch_untangled {view : QueryView V} {w : Batches V} (untangled : view.base.Untangled w.pattern w.reverse) (deps : ReadDeps) :
    (w.fetch view deps).1 = deps.record w.pattern w.reverse w.after (w.page view).next := by
  obtain ⟨_,_,_,tangled⟩ := record_keeps deps w.pattern w.reverse w.after (w.page view).next
  have kept : (deps.tangled || !decide (view.base.Untangled w.pattern w.reverse)) =
      (deps.record w.pattern w.reverse w.after (w.page view).next).tangled := by simp [untangled,tangled]
  show {deps.record w.pattern w.reverse w.after (w.page view).next with
    tangled:=deps.tangled || !decide (view.base.Untangled w.pattern w.reverse)} = _
  rw [kept]

theorem fetch_fresh {view : QueryView V} {w : Batches V} (going : w.ended = false) (untangled : view.base.Untangled w.pattern w.reverse)
    (starts : ∃ i, startOf view w.pattern w.reverse i = some (w.after,w.limit)) (deps : ReadDeps) :
    ∃ b, Fresh view (w.fetch view deps).2 b ∧ (w.fetch view deps).1 = deps.record w.pattern w.reverse w.after b.next ∧
      (w.fetch view deps).2 = {w with batch:=some b} ∧ b.span = (deps.record w.pattern w.reverse w.after b.next).spans.length-1 :=
  ⟨_,⟨rfl,going,untangled,starts,rfl,rfl,rfl⟩,fetch_untangled untangled deps,rfl,rfl⟩

theorem Fresh.since {view : QueryView V} {w : Batches V} {b : Fetched V} (fresh : Fresh view w b) :
    w.since view w.after = b.rows++w.behind view b.next := by
  obtain ⟨i,starts⟩ := fresh.starts
  have parts := since_page fresh.untangled starts
  rw [fresh.entries,fresh.next] at parts
  exact parts

-- From a fetched batch a walk hands out the next live row there is, past batches without any,
-- its last span reaching just that row; or, with none, it ends.
theorem take_fetched {view : QueryView V} {before : ReadDeps} {start : Option Key} {front : List ScanSpan} (fuel : Nat) :
    ∀ {after : ReadDeps} {span : ScanSpan} {w : Batches V} {b : Fetched V}, before.Opens after w.pattern w.reverse start front span →
    Fresh view w b → b.span = front.length → span.to_ = b.next → remaining view w < fuel →
    ∃ row after' w' span', take view fuel after w = (row,after',w') ∧ before.Opens after' w.pattern w.reverse start front span' ∧
      span'.to_ = row.map Prod.fst ∧ w'.pattern = w.pattern ∧ w'.reverse = w.reverse ∧
      ((row = none ∧ w'.ended = true ∧ w.since view w.after = []) ∨
        ∃ e b', row = some e ∧ At view w' b' [] e ∧ b'.span = front.length ∧ w.since view w.after = e :: b'.rows++w.behind view b'.next) := by
  induction fuel with
  | zero => intro after span w b _ _ _ _ enough; omega
  | succ fuel ih =>
    intro after span w b opens fresh place to_ enough
    have parts := fresh.since
    simp only [take,fresh.batch]
    cases rows : b.rows with
    | cons row rest =>
      have reached := opens.cut (some row.1)
      rw [← place] at reached
      refine ⟨_,_,_,_,rfl,reached,rfl,rfl,rfl,.inr ⟨row,{b with rows:=rest},rfl,?_,place,?_⟩⟩
      · refine ⟨rfl,fresh.going,fresh.untangled,fresh.starts,?_,fresh.next,fun plain n is => ?_⟩
        · show (w.page view).entries = _
          rw [fresh.entries,rows]
          rfl
        · show (w.page view).entries.getLast?.map Prod.fst = some n
          have skips := fresh.skips
          have plain : b.skips = false := plain
          have is : b.next = some n := is
          rw [plain,is] at skips
          rw [fresh.entries]
          simpa [rows] using skips
      · rw [parts,rows]
    | nil =>
      rw [rows] at parts
      cases ends : b.next with
      | none =>
        have reached := opens.cut none
        rw [← place] at reached
        rw [ends] at parts
        exact ⟨_,_,_,_,rfl,reached,rfl,rfl,rfl,.inl ⟨rfl,rfl,parts⟩⟩
      | some n =>
        -- an empty batch ends at a key of the base, and the next one goes on with its span
        have plain : b.skips = false := by simp [fresh.skips,rows]
        obtain ⟨i,starts⟩ := fresh.starts
        have next : (OverlayTxn.scan view.base view.overlay w.pattern w.reverse w.after w.limit).next = some n := fresh.next.trans ends
        have empty : (OverlayTxn.scan view.base view.overlay w.pattern w.reverse w.after w.limit).entries = [] := fresh.entries.trans rows
        obtain ⟨away,_,held⟩ := (startOf_scan fresh.untangled starts).2 n next
        have same : ({after with skipped:=after.skipped || b.skips} : ReadDeps) = after := by rw [plain,Bool.or_false]
        have onward : startOf view w.pattern w.reverse (i+1) = some (some n,min (w.limit*2) 256) := by
          simp only [startOf,starts,Option.bind_some,next,Option.map_some]
        have going : ({w with after:=some n,limit:=min (w.limit*2) 256,batch:=some b} : Batches V).ended = false := fresh.going
        have fetched := fetch_fresh going fresh.untangled ⟨i+1,onward⟩ after
        rw [← same] at fetched
        dsimp only
        generalize fetch view {after with skipped:=after.skipped || b.skips} {w with after:=some n,limit:=min (w.limit*2) 256,batch:=some b} = made
          at fetched ⊢
        obtain ⟨deps,w₂⟩ := made
        obtain ⟨b',fresh',recorded,walk,place'⟩ := fetched
        dsimp only at fresh' recorded walk place'
        rw [same] at recorded place'
        subst walk
        have again := opens.again (to_.trans ends) b'.next
        have spot : b'.span = front.length := by
          rw [place',again.spans]
          simp
        rw [← recorded] at again
        obtain ⟨row,after',w',span',took,opened,reach,along,way,cases_⟩ :=
          ih (w := {w with after:=some n,limit:=min (w.limit*2) 256,batch:=some b'}) again fresh' spot rfl
            (lt_of_lt_of_le (remaining_less away (held empty) (min (w.limit*2) 256)) (Nat.lt_succ_iff.mp enough))
        refine ⟨row,after',w',span',took,opened,reach,along,way,?_⟩
        have rest : w.since view w.after = w.since view (some n) := by
          rw [parts,ends]
          rfl
        rw [rest]
        exact cases_

-- So does a walk that fetches, its span new or gone on with.
theorem take_fetch {view : QueryView V} {deps : ReadDeps} {w : Batches V} {fuel : Nat} (tops : deps.last = deps.spans.getLast?.map ScanSpan.pattern)
    (going : w.ended = false) (untangled : view.base.Untangled w.pattern w.reverse)
    (starts : ∃ i, startOf view w.pattern w.reverse i = some (w.after,w.limit)) (enough : remaining view w < fuel) :
    ∃ row after' w' front span, take view fuel (w.fetch view deps).1 (w.fetch view deps).2 = (row,after',w') ∧
      deps.Opens after' w.pattern w.reverse w.after front span ∧ span.to_ = row.map Prod.fst ∧ w'.pattern = w.pattern ∧ w'.reverse = w.reverse ∧
      ((row = none ∧ w'.ended = true ∧ w.since view w.after = []) ∨
        ∃ e b', row = some e ∧ At view w' b' [] e ∧ b'.span = front.length ∧ w.since view w.after = e :: b'.rows++w.behind view b'.next) := by
  obtain ⟨b,fresh,recorded,walk,place⟩ := fetch_fresh going untangled starts deps
  obtain ⟨front,span,opens,to_⟩ := ReadDeps.record_opens tops w.pattern w.reverse w.after b.next
  rw [← recorded] at opens
  rw [← recorded,opens.spans] at place
  have spot : b.span = front.length := by simpa using place
  rw [walk] at fresh ⊢
  obtain ⟨row,after',w',span',rest⟩ := take_fetched fuel (w := {w with batch:=some b}) opens fresh spot to_ enough
  exact ⟨row,after',w',front,span',rest⟩

theorem remaining_le (view : QueryView V) (w : Batches V) : remaining view w ≤ view.base.size := by
  unfold remaining OrderedMap.size
  refine (List.length_filter_le _ _).trans ?_
  simp [OrderedMap.keys]

end Batches
end PhaseLock
