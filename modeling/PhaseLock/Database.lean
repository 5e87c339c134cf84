import PhaseLock.Frames
import PhaseLock.Downloads
import Mathlib.Data.Fintype.Defs

namespace PhaseLock

-- What one database serves: its log, and for each selector and cut a blob, the
-- header naming the slices live there with their seqs, and the body's operations
-- with the offset each ends at, which together are the fold of the log.
structure Database (V : Type) where
  epoch : Name
  log : List (WireEdit V)
  valid : ValidLog log
  header : Name → Int → OrderedMap Name Nat
  blob : Name → Int → List (Nat × (Key × V))
  named : ∀ selector cut slice, (header selector cut).get slice =
    if selectorCovers selector slice = true then (serverState log slice cut).map SliceState.seq else none
  folded : ∀ selector cut key value, (∃ stop, (stop,(key,value)) ∈ blob selector cut) ↔
    ∃ slice, sliceOf key = some slice ∧ selectorCovers selector slice = true ∧
      keysOf (serverState log slice cut) key = some value
  offset : ∀ selector cut, ∀ row ∈ blob selector cut, 0 < row.1

-- One connection's stream: how far its edits have gone under which selectors, and
-- whether those are known to be the session's, by a current token or a view frame.
structure Stream where
  opened : Bool
  closed : Bool
  sent : Int
  selectors : List Name
  current : Bool
deriving DecidableEq

variable {V : Type}

-- No edit of a slice the selectors cover stands in a stretch of the log.
def Quiet (log : List (WireEdit V)) (selectors : List Name) (p q : Int) : Prop :=
  ∀ e ∈ log, covered selectors e.slice = true → p < e.position → q < e.position

-- A frame's edits: of covered slices, in position order, all there are since the
-- last frame; and an edit sent again belongs to a slice that has not died since.
structure FrameOf (log : List (WireEdit V)) (s : Stream) (edits : List (WireEdit V)) : Prop where
  logged : ∀ e ∈ edits, e ∈ log ∧ covered s.selectors e.slice = true
  ordered : edits.Pairwise (fun a b => a.position ≤ b.position)
  whole : ∀ last ∈ edits.getLast?, ∀ e ∈ log, covered s.selectors e.slice = true →
    s.sent < e.position → e.position ≤ last.position → e ∈ edits
  again : ∀ e ∈ edits, e.position ≤ s.sent → ∀ d ∈ log, d.slice = e.slice → d.lifecycle = .death →
    e.position < d.position → s.sent < d.position

def Stream.Sends (db : Database V) (wants : List Name) (s : Stream) : Inbound V → Prop
  | .opened epoch _ => s.opened = false ∧ epoch = db.epoch
  | .view record => s.opened = true ∧ s.sent ≤ record.position ∧ 0 ≤ record.position ∧
      (∀ v ∈ record.selectors, WellFormed v ∧ ∃ w ∈ wants, selectorCovers w v = true) ∧
      Quiet db.log s.selectors s.sent record.position
  | .edits edits => s.opened = true ∧ s.current = true ∧ FrameOf db.log s edits
  | .live position => s.opened = true ∧ s.current = true ∧ s.sent ≤ position ∧
      Quiet db.log s.selectors s.sent position
  | .vouch position => s.opened = true ∧ s.current = true ∧ s.sent ≤ position ∧
      Quiet db.log s.selectors s.sent position
  | .ended _ => True

def Stream.after (s : Stream) : Inbound V → Stream
  | .opened _ _ => {s with opened:=true}
  | .view record => {s with sent:=record.position,selectors:=record.selectors,current:=true}
  | .edits edits => {s with sent:=edits.getLast?.elim s.sent (fun last => max s.sent last.position)}
  | .live position => {s with sent:=position}
  | .vouch position => {s with sent:=position}
  | .ended _ => {s with closed:=true}

-- The selectors the last view frame named, and the highest vouch or live mark.
def namedBy (named : List Name) : Inbound V → List Name
  | .view record => record.selectors
  | _ => named

def vouchedBy (vouched : Int) : Inbound V → Int
  | .live position => max vouched position
  | .vouch position => max vouched position
  | _ => vouched

theorem vouchedBy_mono (item : Inbound V) (le : v ≤ v') : vouchedBy v item ≤ vouchedBy v' item := by
  cases item <;> first | exact le | exact max_le_max_right _ le

theorem vouchedBys_mono (items : List (Inbound V)) (le : v ≤ v') :
    items.foldl vouchedBy v ≤ items.foldl vouchedBy v' := by
  induction items generalizing v v' with
  | nil => exact le
  | cons item rest ih => exact ih (vouchedBy_mono item le)

theorem le_vouchedBys (items : List (Inbound V)) (v : Int) : v ≤ items.foldl vouchedBy v := by
  refine foldl_invariant (P := fun reached => v ≤ reached) ?_ le_rfl
  intro reached item _ le
  cases item <;> first | exact le | exact le_max_of_le_left le

def Stream.reads (s : Stream) (items : List (Inbound V)) : Stream := items.foldl Stream.after s

-- Frames that carry a stream from one point of it to another.
def Stream.Carries (db : Database V) (wants : List Name) : Stream → List (Inbound V) → Stream → Prop
  | s,[],final => s = final
  | s,frame :: rest,final => (s.closed = false ∧ s.Sends db wants frame) ∧
      Carries db wants (s.after frame) rest final

theorem Stream.Carries.append {db : Database V} {wants : List Name} {first : List (Inbound V)}
    {a b c : Stream} (left : a.Carries db wants first b) (right : b.Carries db wants second c) :
    a.Carries db wants (first++second) c := by
  induction first generalizing a with
  | nil => obtain rfl : a = b := left; exact right
  | cons frame rest ih => exact ⟨left.1,ih left.2⟩

theorem Stream.Carries.split {db : Database V} {wants : List Name} {first second : List (Inbound V)} {a c : Stream}
    (carried : a.Carries db wants (first++second) c) :
    a.Carries db wants first (a.reads first) ∧ (a.reads first).Carries db wants second c := by
  induction first generalizing a with
  | nil => exact ⟨rfl,carried⟩
  | cons frame rest ih =>
    obtain ⟨head,tail⟩ := carried
    obtain ⟨front,back⟩ := ih tail
    exact ⟨⟨head,front⟩,back⟩

-- A push that continues a download as its record stands: a header where nothing
-- of a blob is parked, nor its end, cut no lower than the last; the blob's next
-- operations; the edits of the tail from where it stands; and each half's end where
-- it ends.
def Database.Pushes (db : Database V) (selector : Name) (record : BackfillRecord) : BackfillItem V → Prop
  | .length _ => True
  | .header position visible seqs =>
      (∀ r ∈ record.resume, r.skipBytes = 0 ∧ r.snapshotDone = false ∧ r.position ≤ position) ∧
      seqs = db.header selector position ∧
      ∀ e ∈ db.log, selectorCovers selector e.slice = true → visible < e.position → position < e.position
  | .page ops skip _ => ∃ r ∈ record.resume, r.skipBytes < skip ∧
      ops = ((db.blob selector r.position).filter (fun row => r.skipBytes < row.1 ∧ row.1 ≤ skip)).map Prod.snd
  | .pagesDone => ∃ r ∈ record.resume, ∀ row ∈ db.blob selector r.position, row.1 ≤ r.skipBytes
  | .edits edits _ => (∀ e ∈ edits, e ∈ db.log ∧ selectorCovers selector e.slice = true) ∧
      ∃ r ∈ record.resume, ∀ e ∈ db.log, selectorCovers selector e.slice = true → r.fromPosition < e.position →
        e.position < record.untilPosition →
        e.position ≤ edits.foldl (fun reached e => max reached e.position) r.fromPosition → e ∈ edits
  | .editsDone => ∃ r ∈ record.resume, ∀ e ∈ db.log, selectorCovers selector e.slice = true →
      r.fromPosition < e.position → record.untilPosition ≤ e.position

-- The contract can be checked on a given log.
section Checks
variable [DecidableEq V]

instance (log : List (WireEdit V)) : Decidable (ValidLog log) :=
  decidable_of_iff (log.Pairwise (fun a b : WireEdit V => a.position ≤ b.position) ∧
      log.Pairwise (fun a b => a.slice = b.slice → a.position < b.position ∧ a.seq < b.seq) ∧
      (∀ e ∈ log, 0 < e.position) ∧ (∀ e ∈ log, PlainName e.slice) ∧ ∀ e ∈ log, ∀ op ∈ e.ops, sliceOf op.1 = some e.slice)
    ⟨fun ⟨a,b,c,d,e⟩ => ⟨a,b,c,d,e⟩,fun ⟨a,b,c,d,e⟩ => ⟨a,b,c,d,e⟩⟩

instance (log : List (WireEdit V)) (selectors : List Name) (p q : Int) : Decidable (Quiet log selectors p q) :=
  inferInstanceAs (Decidable (∀ e ∈ log,_))

set_option synthInstance.maxSize 400 in
instance (log : List (WireEdit V)) (s : Stream) (edits : List (WireEdit V)) : Decidable (FrameOf log s edits) :=
  decidable_of_iff ((∀ e ∈ edits, e ∈ log ∧ covered s.selectors e.slice = true) ∧
      edits.Pairwise (fun a b => a.position ≤ b.position) ∧
      (∀ last ∈ edits.getLast?, ∀ e ∈ log, covered s.selectors e.slice = true →
        s.sent < e.position → e.position ≤ last.position → e ∈ edits) ∧
      ∀ e ∈ edits, e.position ≤ s.sent → ∀ d ∈ log, d.slice = e.slice → d.lifecycle = .death →
        e.position < d.position → s.sent < d.position)
    ⟨fun ⟨a,b,c,d⟩ => ⟨a,b,c,d⟩,fun ⟨a,b,c,d⟩ => ⟨a,b,c,d⟩⟩

instance (db : Database V) (wants : List Name) (s : Stream) (item : Inbound V) : Decidable (s.Sends db wants item) := by
  cases item <;> unfold Stream.Sends <;> infer_instance

instance (db : Database V) (selector : Name) (record : BackfillRecord) (item : BackfillItem V) :
    Decidable (db.Pushes selector record item) := by
  cases item <;> unfold Database.Pushes <;> infer_instance

end Checks

-- What a log serves of itself: a header's slices are those it names, and a body's
-- operations stand each at an offset of its own.
section Serving
variable (log : List (WireEdit V)) (selector : Name) (cut : Int)

def headerRows : List (Name × Nat) :=
  (((log.map WireEdit.slice).dedup).filter (selectorCovers selector ·)).filterMap fun slice =>
    (serverState log slice cut).map fun state => (slice,state.seq)

def bodyRow (key : Key) : Option (Key × V) :=
  match sliceOf key with
  | none => none
  | some slice => if selectorCovers selector slice then (keysOf (serverState log slice cut) key).map fun value => (key,value) else none

def bodyRows : List (Key × V) := ((log.flatMap fun e => e.ops.map Prod.fst).dedup).filterMap (bodyRow log selector cut)

variable {log selector cut}

theorem headerRows_keys : ((headerRows log selector cut).map Prod.fst).Nodup := by
  refine List.Nodup.sublist ?_ ((List.nodup_dedup (log.map WireEdit.slice)).filter (selectorCovers selector ·))
  unfold headerRows
  induction ((log.map WireEdit.slice).dedup).filter (selectorCovers selector ·) with
  | nil => exact .slnil
  | cons slice rest ih =>
    rw [List.filterMap_cons]
    cases serverState log slice cut with
    | none => exact ih.cons slice
    | some state => exact ih.cons_cons slice

theorem mem_headerRows (valid : ValidLog log) : (slice,seq) ∈ headerRows log selector cut ↔
    selectorCovers selector slice = true ∧ (serverState log slice cut).map SliceState.seq = some seq := by
  simp only [headerRows,List.mem_filterMap,List.mem_filter,List.mem_dedup,Option.map_eq_some_iff,Prod.mk.injEq]
  constructor
  · rintro ⟨name,⟨_,covers⟩,state,live,rfl,rfl⟩
    exact ⟨covers,state,live,rfl⟩
  · rintro ⟨covers,state,live,rfl⟩
    obtain ⟨last,member,same,_⟩ := serverState_seq valid live
    exact ⟨slice,⟨List.mem_map.mpr ⟨last,member,same⟩,covers⟩,state,live,rfl,rfl⟩

-- A key the log's fold holds is one an edit wrote.
theorem serverState_wrote {key : Key} {value : V} (held : keysOf (serverState log slice cut) key = some value) :
    ∃ e ∈ log, key ∈ e.ops.map Prod.fst := by
  have wrote : ∀ (ops : List (Key × Option V)) (keys : Key → Option V), (writes ops keys key).isSome →
      (keys key).isSome ∨ key ∈ ops.map Prod.fst := by
    intro ops keys
    unfold writes
    refine foldl_invariant (P := fun now : Key → Option V => (now key).isSome → (keys key).isSome ∨ key ∈ ops.map Prod.fst) ?_ .inl
    intro now op member before some
    by_cases here : op.1 = key
    · exact .inr (List.mem_map.mpr ⟨op,member,here⟩)
    · simp only [if_neg here] at some
      exact before some
  have all : (keysOf (serverState log slice cut) key).isSome → ∃ e ∈ log, key ∈ e.ops.map Prod.fst := by
    refine foldl_invariant (P := fun state : Option (SliceState V) => (keysOf state key).isSome → ∃ e ∈ log, key ∈ e.ops.map Prod.fst)
      ?_ (by intro some; cases some)
    intro state e member before some
    obtain ⟨inLog,_⟩ := mem_editsOf.mp (List.mem_filter.mp member).1
    unfold WireEdit.apply at some
    cases kind : e.lifecycle with
    | normal =>
      rw [kind] at some
      rcases wrote e.ops _ some with old | here
      · exact before old
      · exact ⟨e,inLog,here⟩
    | birth =>
      rw [kind] at some
      rcases wrote e.ops _ some with old | here
      · cases old
      · exact ⟨e,inLog,here⟩
    | death =>
      rw [kind] at some
      cases some
  exact all (by rw [held]; rfl)

theorem bodyRow_some {written key : Key} {value : V} : bodyRow log selector cut written = some (key,value) ↔
    written = key ∧ ∃ slice, sliceOf key = some slice ∧ selectorCovers selector slice = true ∧
      keysOf (serverState log slice cut) key = some value := by
  unfold bodyRow
  cases owned : sliceOf written with
  | none =>
    refine ⟨fun given => (by cases given),?_⟩
    rintro ⟨rfl,slice,named,_⟩
    rw [owned] at named
    cases named
  | some slice =>
    by_cases covers : selectorCovers selector slice = true
    · simp only [covers,if_true,Option.map_eq_some_iff,Prod.mk.injEq]
      constructor
      · rintro ⟨_,held,rfl,rfl⟩
        exact ⟨rfl,slice,owned,covers,held⟩
      · rintro ⟨rfl,name,named,_,held⟩
        rw [owned] at named
        cases named
        exact ⟨value,held,rfl,rfl⟩
    · simp only [if_neg covers]
      refine ⟨fun given => (by cases given),?_⟩
      rintro ⟨rfl,name,named,inside,_⟩
      rw [owned] at named
      cases named
      exact absurd inside covers

theorem mem_bodyRows {key : Key} {value : V} : (key,value) ∈ bodyRows log selector cut ↔
    ∃ slice, sliceOf key = some slice ∧ selectorCovers selector slice = true ∧
      keysOf (serverState log slice cut) key = some value := by
  simp only [bodyRows,List.mem_filterMap,List.mem_dedup,bodyRow_some]
  constructor
  · rintro ⟨written,_,_,held⟩
    exact held
  · rintro ⟨slice,owned,covers,held⟩
    obtain ⟨e,member,wrote⟩ := serverState_wrote held
    exact ⟨key,List.mem_flatMap.mpr ⟨e,member,wrote⟩,rfl,slice,owned,covers,held⟩

end Serving

def Database.serving (epoch : Name) (log : List (WireEdit V)) (valid : ValidLog log) : Database V where
  epoch := epoch
  log := log
  valid := valid
  header := fun selector cut => ⟨headerRows log selector cut,headerRows_keys⟩
  blob := fun selector cut => (bodyRows log selector cut).zipIdx 1 |>.map fun row => (row.2,row.1)
  named := by
    intro selector cut slice
    refine Option.ext fun seq => ?_
    rw [← OrderedMap.mem_entries,mem_headerRows valid]
    by_cases covers : selectorCovers selector slice = true
    · simp [covers]
    · simp [covers]
  folded := by
    intro selector cut key value
    rw [← mem_bodyRows]
    constructor
    · rintro ⟨stop,member⟩
      obtain ⟨row,inside,same⟩ := List.mem_map.mp member
      rw [← (Prod.mk.inj same).2]
      exact List.fst_mem_of_mem_zipIdx inside
    · intro member
      obtain ⟨i,inside,same⟩ := List.mem_iff_getElem.mp member
      refine ⟨1+i,List.mem_map.mpr ⟨((key,value),1+i),?_,rfl⟩⟩
      rw [List.mk_add_mem_zipIdx_iff_getElem?,← same]
      exact List.getElem?_eq_getElem inside
  offset := by
    intro selector cut row member
    obtain ⟨at_,inside,rfl⟩ := List.mem_map.mp member
    exact List.le_snd_of_mem_zipIdx inside

end PhaseLock
