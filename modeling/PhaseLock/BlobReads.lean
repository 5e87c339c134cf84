import PhaseLock.Snapshots
import PhaseLock.ParsedPrefixes
import PhaseLock.Measure

namespace PhaseLock
namespace Snapshots
open Mp

-- A blob as a reader of its layout has it: its header's fields, and its operations.
structure Blob where
  selector : Bytes
  position : Nat
  epoch : Bytes
  slices : List (Bytes × Nat)
  visible : Nat
  stats : Option (Nat × Nat)
  ops : List (Bytes × Bytes)

def fieldOf (entries : List (Node × Node)) (name : String) : Option Node :=
  (entries.find? fun entry => entry.1.asStr = some (utf8 name.toList)).map Prod.snd

def seqOf (entry : Node × Node) : Option (Bytes × Nat) := do return (← entry.1.asStr,← entry.2.asU64)

def statsOf (entries : List (Node × Node)) : Option (Option (Nat × Nat)) :=
  match fieldOf entries "edit_bytes",fieldOf entries "state_bytes" with
  | some editBytes,some stateBytes => do return some (← editBytes.asU64,← stateBytes.asU64)
  | none,none => some none
  | _,_ => none

def readHeader (header : Bytes) (ops : List (Bytes × Bytes)) : Option Blob :=
  match parse header with
  | .ok (.map entries,[]) => do
    return {
      selector := ← (← fieldOf entries "selector").asStr
      position := ← (← fieldOf entries "position").asU64
      epoch := ← (← fieldOf entries "epoch").asStr
      slices := ← (← (← fieldOf entries "slices").entries).mapM seqOf
      visible := ← (← fieldOf entries "visible").asU64
      stats := ← statsOf entries
      ops
    }
  | _ => none

-- One operation: its opcode, its key, and its value's bytes.
def readOp (data : Bytes) : Option ((Bytes × Bytes) × Bytes) :=
  match parse data with
  | .ok (.uint 0,keyed) => match parse keyed with
    | .ok (.str key,valued) => match parse valued with
      | .ok (_,rest) => some ((key,valued.take (valued.length-rest.length)),rest)
      | .error _ => none
    | _ => none
  | _ => none

-- Operations up to the end marker, whose first byte starts none.
def readOps : Nat → Bytes → Option (List (Bytes × Bytes) × Bytes)
  | 0,_ => none
  | fuel+1,data =>
    if data.head? = some 0xff then some ([],data)
    else do
      let (op,rest) ← readOp data
      let (ops,rest) ← readOps fuel rest
      return (op :: ops,rest)

-- The footer: the operations' count, their hash, and its crc.
def footerOk (footer body : Bytes) (count : Nat) : Bool :=
  footer.length = 20 && footer.take 4 = bigEndian 4 0xffffffff && number ((footer.drop 4).take 4) = count &&
    (footer.drop 8).take 8 = bigEndian 8 (fnv1a body).toNat && number (footer.drop 16) = (crc32c ((footer.drop 4).take 12)).toNat

-- A whole blob, read as its layout says.
def readBlob (blob : Bytes) : Option Blob :=
  if blob.take 5 ≠ utf8 "PLSN".toList++[1] then none
  else
    let size := number ((blob.drop 5).take 4)
    let header := (blob.drop 9).take size
    let body := blob.drop (9+size+4)
    if number ((blob.drop (9+size)).take 4) ≠ (crc32c header).toNat then none
    else do
      let (ops,footer) ← readOps (body.length+1) body
      if footerOk footer (body.take (body.length-footer.length)) ops.length then readHeader header ops else none

-- A value that is one whole msgpack value, as every value a write sets is.
def Whole (value : Bytes) : Prop := ∃ node, parse value = .ok (node,[])

-- What a blob has room for: its header and its operations in 32 bits, and each number in 64.
structure Cut.Fits (c : Cut) (epoch selector : Name) : Prop where
  header : (c.header epoch selector).length < 2^32
  ops : c.ops.length < 2^32
  position : c.position < 2^64
  visible : c.visible < 2^64
  seqs : ∀ row ∈ c.slices, row.2 < 2^64
  stats : ∀ stats ∈ c.stats, stats.1 < 2^64 ∧ stats.2 < 2^64

def Cut.read (c : Cut) (epoch selector : Name) : Blob := ⟨utf8 selector,c.position,utf8 epoch,c.slices,c.visible,c.stats,c.ops⟩

def Cut.entries (c : Cut) (epoch selector : Name) : List (Val × Val) :=
  [(.str (utf8 "selector".toList),.str (utf8 selector)),(.str (utf8 "position".toList),.int c.position),
    (.str (utf8 "epoch".toList),.str (utf8 epoch)),
    (.str (utf8 "slices".toList),.map (c.slices.map fun row => (.str row.1,.int row.2))),
    (.str (utf8 "visible".toList),.int c.visible)]++
  match c.stats with
  | some (editBytes,stateBytes) => [(.str (utf8 "edit_bytes".toList),.int editBytes),(.str (utf8 "state_bytes".toList),.int stateBytes)]
  | none => []

theorem int_nat (n : Nat) : Mp.int n = uint n := by
  rw [Mp.int,if_pos (Int.natCast_nonneg n),Int.toNat_natCast]

theorem writeEntries_seqs (rows : List (Bytes × Nat)) :
    Val.writeEntries (rows.map fun row => (.str row.1,.int row.2)) = rows.flatMap fun row => str row.1++uint row.2 := by
  induction rows with
  | nil => rfl
  | cons row rest ih =>
    rw [List.map_cons,Val.writeEntries,List.flatMap_cons,ih,Val.write,Val.write,int_nat,List.append_assoc]

theorem header_write (c : Cut) (epoch selector : Name) : c.header epoch selector = (Val.map (c.entries epoch selector)).write := by
  rw [Val.write,Cut.header,Cut.entries]
  cases c.stats <;>
    simp only [Val.writeEntries,Val.write,int_nat,writeEntries_seqs,List.length_map,List.append_assoc,List.append_nil,List.length_cons,
      List.length_nil,Option.isSome_none,Option.isSome_some,Bool.false_eq_true,if_false,if_true,List.cons_append,List.nil_append,Nat.zero_add,
      Nat.reduceAdd]

theorem entry_within {entries : List (Val × Val)} {entry : Val × Val} (member : entry ∈ entries) :
    entry.1.write.length ≤ (Val.writeEntries entries).length ∧ entry.2.write.length ≤ (Val.writeEntries entries).length := by
  induction entries with
  | nil => cases member
  | cons head rest ih =>
    rw [Val.writeEntries]
    simp only [List.length_append]
    rcases List.mem_cons.mp member with rfl | later
    · omega
    · have := ih later
      omega

theorem str_within (s : Bytes) : s.length ≤ (Val.str s).write.length := by
  rw [Val.write,Mp.str]
  simp only [List.length_append]
  omega

theorem str_fits {s : Bytes} (small : s.length < 2^32) (levels : Nat) : (Val.str s).Fits (levels+1) := small

theorem nat_fits {n : Nat} (small : n < 2^64) (levels : Nat) : (Val.int n).Fits (levels+1) := by
  refine ⟨?_,?_⟩
  · exact le_trans (by decide) (Int.natCast_nonneg n)
  · exact_mod_cast small

theorem entries_fit {c : Cut} {epoch selector : Name} (fits : c.Fits epoch selector) :
    (Val.map (c.entries epoch selector)).Fits (maxParseDepth+1) := by
  have short := fits.header
  rw [header_write,Val.write,List.length_append] at short
  have small : ∀ entry ∈ c.entries epoch selector, entry.1.write.length < 2^32 ∧ entry.2.write.length < 2^32 := by
    intro entry member
    have within := entry_within member
    omega
  have text : ∀ s value, (Val.str s,value) ∈ c.entries epoch selector → (Val.str s).Fits maxParseDepth :=
    fun s value member => str_fits (lt_of_le_of_lt (str_within s) (small _ member).1) _
  have texts : ∀ key s, (key,Val.str s) ∈ c.entries epoch selector → (Val.str s).Fits maxParseDepth :=
    fun key s member => str_fits (lt_of_le_of_lt (str_within s) (small _ member).2) _
  have slices : (Val.map (c.slices.map fun row => (.str row.1,.int row.2))).Fits maxParseDepth := by
    have held : (Val.str (utf8 "slices".toList),Val.map (c.slices.map fun row => (.str row.1,.int row.2))) ∈ c.entries epoch selector := by
      simp [Cut.entries]
    have room := (small _ held).2
    rw [Val.write,List.length_append] at room
    refine ⟨lt_of_le_of_lt ?_ room,fun entry member => ?_⟩
    · have := Val.length_writeEntries (c.slices.map fun row => (Val.str row.1,Val.int row.2))
      omega
    · obtain ⟨row,inside,rfl⟩ := List.mem_map.mp member
      have within := (entry_within member).1
      exact ⟨str_fits (lt_of_le_of_lt (le_trans (str_within row.1) within) (by omega)) _,nat_fits (fits.seqs row inside) _⟩
  refine ⟨?_,fun entry member => ?_⟩
  · unfold Cut.entries
    cases c.stats <;> simp
  · have held := member
    simp only [Cut.entries,List.mem_append,List.mem_cons,List.not_mem_nil,or_false] at held
    rcases held with (rfl | rfl | rfl | rfl | rfl) | counted
    · exact ⟨text _ _ member,texts _ _ member⟩
    · exact ⟨text _ _ member,nat_fits fits.position _⟩
    · exact ⟨text _ _ member,texts _ _ member⟩
    · exact ⟨text _ _ member,slices⟩
    · exact ⟨text _ _ member,nat_fits fits.visible _⟩
    · cases stats : c.stats with
      | none =>
        rw [stats] at counted
        cases counted
      | some counters =>
        obtain ⟨edit,state⟩ := fits.stats counters stats
        rw [stats] at counted
        simp only [List.mem_cons,List.not_mem_nil,or_false] at counted
        rcases counted with rfl | rfl
        · exact ⟨text _ _ member,nat_fits edit _⟩
        · exact ⟨text _ _ member,nat_fits state _⟩

theorem node_nat (n : Nat) : (Val.int n).node = .uint n := by
  rw [Val.node,if_pos (Int.natCast_nonneg n),Int.toNat_natCast]

theorem seqOf_nodes (rows : List (Bytes × Nat)) :
    (Val.nodeEntries (rows.map fun row => (.str row.1,.int row.2))).mapM seqOf = some rows := by
  induction rows with
  | nil => rfl
  | cons row rest ih =>
    rw [List.map_cons,Val.nodeEntries,List.mapM_cons,ih,node_nat]
    rfl

theorem fieldOf_here (name : String) (value : Node) (rest : List (Node × Node)) :
    fieldOf ((.str (utf8 name.toList),value) :: rest) name = some value := by
  simp [fieldOf,Node.asStr]

theorem fieldOf_there {name other : String} (apart : utf8 other.toList ≠ utf8 name.toList) (value : Node) (rest : List (Node × Node)) :
    fieldOf ((.str (utf8 other.toList),value) :: rest) name = fieldOf rest name := by
  simp [fieldOf,Node.asStr,apart]

theorem fieldOf_nil (name : String) : fieldOf [] name = none := rfl

theorem readHeader_header {c : Cut} {epoch selector : Name} (fits : c.Fits epoch selector) :
    readHeader (c.header epoch selector) c.ops = some (c.read epoch selector) := by
  have parsed := parse_write (entries_fit fits) []
  rw [List.append_nil,← header_write] at parsed
  have seqs := seqOf_nodes c.slices
  unfold readHeader Cut.read
  rw [parsed]
  unfold Cut.entries
  rw [Val.node]
  have str : ∀ text, (Val.str text).node = .str text := fun _ => by rw [Val.node]
  have map : ∀ entries, (Val.map entries).node = .map (Val.nodeEntries entries) := fun _ => by rw [Val.node]
  cases c.stats <;>
  · simp only [List.append_nil,List.cons_append,List.nil_append,Val.nodeEntries,node_nat,str,map]
    generalize Val.nodeEntries (c.slices.map fun row => (.str row.1,.int row.2)) = slices at seqs ⊢
    simp (disch := decide) only [statsOf,fieldOf_here,fieldOf_there,fieldOf_nil]
    simp [Node.asStr,Node.asU64,Node.entries,seqs]

theorem readOp_written {key value : Bytes} (short : key.length < 2^32) (whole : Whole value) (rest : Bytes) :
    readOp (uint 0++str key++value++rest) = some ((key,value),rest) := by
  obtain ⟨node,reads⟩ := whole
  have code := parse_write (nat_fits (n := 0) (by decide) maxParseDepth) (str key++(value++rest))
  rw [node_nat,Val.write,int_nat] at code
  have text := parse_write (str_fits short maxParseDepth) (value++rest)
  rw [Val.node,Val.write] at text
  have held := parseLimited_append rest reads
  unfold readOp
  rw [List.append_assoc,List.append_assoc,code]
  simp only [text]
  rw [show parse (value++rest) = .ok (node,[]++rest) from held]
  simp

theorem readOps_body {ops : List (Bytes × Bytes)} (sound : ∀ op ∈ ops, op.1.length < 2^32 ∧ Whole op.2) {tail : Bytes}
    (ends : tail.head? = some 0xff) {fuel : Nat} (enough : ops.length < fuel) :
    readOps fuel ((ops.flatMap fun op => uint 0++str op.1++op.2)++tail) = some (ops,tail) := by
  induction ops generalizing fuel with
  | nil =>
    obtain ⟨fuel,rfl⟩ := Nat.exists_eq_succ_of_ne_zero (Nat.ne_zero_of_lt enough)
    rw [List.flatMap_nil,List.nil_append,readOps,if_pos ends]
  | cons op rest ih =>
    obtain ⟨fuel,rfl⟩ := Nat.exists_eq_succ_of_ne_zero (Nat.ne_zero_of_lt enough)
    obtain ⟨short,whole⟩ := sound op List.mem_cons_self
    have read := readOp_written short whole ((rest.flatMap fun op => uint 0++str op.1++op.2)++tail)
    have further := ih (fun op member => sound op (List.mem_cons_of_mem _ member)) (Nat.lt_of_succ_lt_succ enough)
    rw [List.flatMap_cons,List.append_assoc,readOps,if_neg (by simp [uint]),read]
    simp only [further,bind,Option.bind,pure]

theorem body_counts (c : Cut) : c.ops.length ≤ c.body.length := by
  unfold Cut.body
  generalize c.ops = ops
  induction ops with
  | nil => rfl
  | cons op rest ih =>
    have one : 0 < (uint 0).length := by decide
    simp only [List.flatMap_cons,List.length_append,List.length_cons]
    omega

-- What is written is read back.
theorem readBlob_blob {c : Cut} {epoch selector : Name} (fits : c.Fits epoch selector)
    (sound : ∀ op ∈ c.ops, op.1.length < 2^32 ∧ Whole op.2) : readBlob (c.blob epoch selector) = some (c.read epoch selector) := by
  let header := c.header epoch selector
  let footer := bigEndian 4 c.ops.length++bigEndian 8 (fnv1a c.body).toNat
  let tail := bigEndian 4 0xffffffff++(footer++bigEndian 4 (crc32c footer).toNat)
  let body := c.body++tail
  have laid : c.blob epoch selector = utf8 "PLSN".toList++[1]++(bigEndian 4 header.length++(header++(bigEndian 4 (crc32c header).toNat++body))) := by
    simp only [Cut.blob,header,body,tail,footer,List.append_assoc]
  have four : ∀ {n : Nat}, n < 2^32 → number (bigEndian 4 n) = n := fun small => foldl_bigEndian small
  have crc : ∀ data, (crc32c data).toNat < 2^32 := fun data => (crc32c data).toNat_lt
  have wide : ∀ n, (bigEndian 4 n).length = 4 := length_bigEndian 4
  have magic : (utf8 "PLSN".toList++[1]).length = 5 := by decide
  rw [laid]
  generalize bytes : utf8 "PLSN".toList++[1]++(bigEndian 4 header.length++(header++(bigEndian 4 (crc32c header).toNat++body))) = blob
  have first : blob.take 5 = utf8 "PLSN".toList++[1] := by rw [← bytes]; exact List.take_left' magic
  have sized : blob.drop 5 = bigEndian 4 header.length++(header++(bigEndian 4 (crc32c header).toNat++body)) := by
    rw [← bytes]; exact List.drop_left' magic
  have headed : blob.drop 9 = header++(bigEndian 4 (crc32c header).toNat++body) := by
    rw [show 9 = 5+4 from rfl,← List.drop_drop,sized]; exact List.drop_left' (wide _)
  have checked : blob.drop (9+header.length) = bigEndian 4 (crc32c header).toNat++body := by
    rw [← List.drop_drop,headed]; exact List.drop_left' rfl
  have bodied : blob.drop (9+header.length+4) = body := by
    rw [← List.drop_drop,checked]; exact List.drop_left' (wide _)
  have read : readOps (body.length+1) body = some (c.ops,tail) := by
    refine readOps_body sound rfl ?_
    have room := body_counts c
    simp only [body,List.length_append]
    omega
  have marks : tail.length = 20 := by simp [tail,footer,length_bigEndian]
  have ok : footerOk tail (body.take (body.length-tail.length)) c.ops.length = true := by
    have counted : body.take (body.length-tail.length) = c.body := by
      rw [List.length_append,Nat.add_sub_cancel]
      exact List.take_left' rfl
    have ended : tail.take 4 = bigEndian 4 0xffffffff := List.take_left' (wide _)
    have after : tail.drop 4 = footer++bigEndian 4 (crc32c footer).toNat := List.drop_left' (wide _)
    have hashed : tail.drop 8 = bigEndian 8 (fnv1a c.body).toNat++bigEndian 4 (crc32c footer).toNat := by
      rw [show 8 = 4+4 from rfl,← List.drop_drop,after,List.append_assoc]; exact List.drop_left' (wide _)
    have last : tail.drop 16 = bigEndian 4 (crc32c footer).toNat := by
      rw [show 16 = 8+8 from rfl,← List.drop_drop,hashed]; exact List.drop_left' (length_bigEndian 8 _)
    have twelve : footer.length = 12 := by simp [footer,length_bigEndian]
    have count : (tail.drop 4).take 4 = bigEndian 4 c.ops.length := by
      rw [after,List.append_assoc]; exact List.take_left' (wide _)
    unfold footerOk
    rw [counted,ended,count,hashed,last,after,List.take_left' twelve,List.take_left' (length_bigEndian 8 _),four fits.ops,four (crc footer),
      marks]
    simp
  unfold readBlob
  rw [if_neg (not_not.mpr first)]
  dsimp only
  rw [sized,List.take_left' (wide _),four fits.header,headed,List.take_left' rfl,checked,List.take_left' (wide _),four (crc header),
    if_neg (not_not.mpr rfl),bodied,read]
  simp only [bind,Option.bind,ok,if_true]
  exact readHeader_header fits

end Snapshots

def Write.Whole : Write → Prop
  | .set _ value => Snapshots.Whole value
  | .del _ | .deleteSlice _ _ => True

-- The writes an event's mutations ask for.
def DbEvent.writes : DbEvent → List Write
  | .request _ req => req.asks.flatMap Prod.snd
  | .commit => []
  | .restart _ _ ops _ => ops

namespace Natives

-- A store of short keys and whole values.
def Held (kv : OrderedMap Key Bytes) : Prop := ∀ key value, kv.get key = some value → (Mp.utf8 key).length ≤ keyMax ∧ Snapshots.Whole value

theorem Held.write {kv : OrderedMap Key Bytes} (held : Held kv) {w : Write} (whole : w.Whole) : Held (applyWrite kv w) := by
  intro key value has
  cases w with
  | set k v =>
    by_cases writable : keyWritable k = true
    · simp only [applyWrite,if_pos writable,OrderedMap.get_set] at has
      by_cases same : k = key
      · rw [if_pos same] at has
        cases has
        subst same
        unfold keyWritable at writable
        simp only [Bool.and_eq_true,decide_eq_true_eq] at writable
        exact ⟨writable.1.1,whole⟩
      · rw [if_neg same] at has
        exact held key value has
    · simp only [applyWrite,if_neg writable] at has
      exact held key value has
  | del k =>
    by_cases writable : keyWritable k = true
    · simp only [applyWrite,if_pos writable,OrderedMap.get_del] at has
      split at has
      · cases has
      · exact held key value has
    · simp only [applyWrite,if_neg writable] at has
      exact held key value has
  | deleteSlice slice erase =>
    by_cases named : sliceNameOk slice = true
    · simp only [applyWrite,if_pos named,OrderedMap.get_keep] at has
      exact held key value (Option.eq_some_of_filter_eq_some has)
    · simp only [applyWrite,if_neg named] at has
      exact held key value has

theorem Held.writes {kv : OrderedMap Key Bytes} (held : Held kv) {ops : List Write} (whole : ∀ op ∈ ops, op.Whole) :
    Held (applyWrites kv ops) :=
  foldl_invariant (P := Held) (fun _ op member held => held.write (whole op member)) held

end Natives

namespace Snapshots

-- Where all that was decided set whole values, the store holds them.
def Filled (w : Writer) : Prop := (∀ a ∈ w.trace, a.accepted → ∀ op ∈ a.ops, op.Whole) → Natives.Held w.store.kv

theorem Filled.answered {w after : Writer} {a : Answer} (filled : Filled w) (logged : w.Logged) (owned : after.store.Owned)
    (answered : Answered w a after) : Filled after := by
  intro whole
  rw [answered.trace] at whole
  have before := filled fun b member => whole b (List.mem_append_left _ member)
  have faithful := answered.faithful logged
  intro key value has
  by_cases accepted : a.accepted
  · obtain ⟨slice,under⟩ := owned key value has
    rw [answered.store,faithful.writes accepted key slice under,answered.before] at has
    exact before.writes (whole a (List.mem_append_right _ List.mem_cons_self) accepted) key value has
  · rw [answered.store,(faithful.others accepted).2.1,answered.before] at has
    exact before key value has

theorem filled_keeps : Writer.Keeps fun w => (w.Sound ∧ w.store.Owned) ∧ Filled w where
  behind holds _ member := holds.1.1.logged.behind member
  answered holds answered := 
    have owned := owned_keeps.answered holds.1 answered
    ⟨owned,holds.2.answered holds.1.1.logged owned.2 answered⟩
  same holds store position trace := ⟨owned_keeps.same holds.1 store position trace,by unfold Filled; rw [store,trace]; exact holds.2⟩
  armed install entry minute servertime holds := ⟨owned_keeps.armed install entry minute servertime holds.1,holds.2⟩

end Snapshots

namespace Db

theorem asked_of {R : α → β → Prop} {xs : List α} {ys : List β} (all : List.Forall₂ R xs ys) : ∀ x ∈ xs, ∃ y ∈ ys, R x y := by
  induction all with
  | nil => exact fun _ none => (by cases none)
  | cons one _ ih =>
    intro x member
    rcases List.mem_cons.mp member with rfl | later
    · exact ⟨_,List.mem_cons_self,one⟩
    · obtain ⟨y,inside,holds⟩ := ih x later
      exact ⟨y,List.mem_cons_of_mem _ inside,holds⟩

-- What was decided are the writes of the run's events.
theorem decided_asked {events : List DbEvent} {s : Db} (path : machine.Runs {} events s) :
    ∀ a, a ∈ s.answered ∨ a ∈ s.writer.trace → a.how = .decided → ∀ op ∈ a.ops, ∃ event ∈ events, op ∈ event.writes := by
  induction path with
  | nil => rintro a (none | none) <;> cases none
  | @step events s event prior allowed ih =>
    have sound := runs_sound prior
    have old : ∀ a, a ∈ s.answered ∨ a ∈ s.writer.trace → a.how = .decided → ∀ op ∈ a.ops, ∃ e ∈ events++[event], op ∈ e.writes := by
      intro a member how op inside
      obtain ⟨e,earlier,writes⟩ := ih a member how op inside
      exact ⟨e,List.mem_append_left _ earlier,writes⟩
    have new : ∀ op ∈ event.writes, ∃ e ∈ events++[event], op ∈ e.writes := fun op inside => ⟨event,by simp,inside⟩
    intro a member
    cases event with
    | request servertime req =>
      obtain ⟨after,reply,given,made,trace,_,asked⟩ := handle_answers (leads_keeps s.writer) sound.writer.sound.leads servertime req
      have stepped : machine.next s (.request servertime req) = {s with writer:=after} := by simp only [machine,next,made]
      rw [stepped] at member
      rcases member with before | member
      · exact old a (.inl before)
      · rw [show ({s with writer:=after} : Db).writer.trace = _ from trace] at member
        rcases List.mem_append.mp member with before | now
        · exact old a (.inr before)
        · intro how op inside
          obtain ⟨asks,taken,to_⟩ := asked_of asked a now
          rw [to_.2 how] at inside
          exact new op (List.mem_flatMap.mpr ⟨asks,List.mem_of_mem_take taken,inside⟩)
    | commit => exact old a (.inr (or_self_iff.mp member))
    | restart servertime id ops ran =>
      have kept : s.disk.maxPosition = 0 → ran = .carried := allowed
      by_cases empty : s.disk.maxPosition = 0
      · cases kept empty
        obtain ⟨after,given,made,trace,writes⟩ :=
          bootstrap_answers (leads_keeps (Writer.opens s.disk s.answered)) sound.disk.leads servertime id ops
        have stepped : machine.next s (.restart servertime id ops .carried) = ⟨after.store,after.trace,after⟩ := by
          simp only [machine,next]
          rw [if_pos (show (Writer.opens s.disk s.answered).position = 0 from empty),made]
        rw [stepped] at member
        have member : a ∈ after.trace := or_self_iff.mp member
        rw [trace] at member
        rcases List.mem_append.mp member with before | now
        · exact old a (.inl before)
        · intro _ op inside
          have listed := List.mem_map_of_mem (f := fun a : Answer => (a.how,a.ops)) now
          rw [writes] at listed
          split at listed
          · cases listed
          · rw [(Prod.mk.inj (List.mem_singleton.mp listed)).2] at inside
            exact new op inside
      · have stepped : machine.next s (.restart servertime id ops ran) = {s with writer:=Writer.opens s.disk s.answered} := by
          simp only [machine,next]
          rw [if_neg (show (Writer.opens s.disk s.answered).position ≠ 0 from empty)]
        rw [stepped] at member
        exact old a (.inl (or_self_iff.mp member))

-- A snapshot of any selector, in any state a database reaches, describes its cut; and where the
-- run's writes set whole values, its blob reads back as the cut it was made of.
theorem snapshot_describes_its_cut {events : List DbEvent} {s : Db} (path : machine.Runs {} events s) (epoch : Name) {selector : Name}
    (ok : Selectors.validSelector selector = true) :
    Snapshots.Describes s.disk (editsMade s.answered) selector (Snapshots.cut s.disk selector) ∧
    (Snapshots.snapshot s.disk epoch selector).2 = s.disk.maxPosition ∧
    ((∀ event ∈ events, ∀ op ∈ event.writes, op.Whole) → (Snapshots.cut s.disk selector).Fits epoch selector →
      Snapshots.readBlob (Snapshots.snapshot s.disk epoch selector).1 = some ((Snapshots.cut s.disk selector).read epoch selector)) := by
  obtain ⟨⟨⟨sound,owned⟩,filled⟩,_⟩ := runs_keep Snapshots.filled_keeps
    (fun holds => ⟨⟨opens_sound holds.1.1,holds.1.2⟩,holds.2⟩)
    ⟨⟨start_sound.disk,fun key value held => (by cases held)⟩,fun _ key value held => (by cases held)⟩ path
  have describes := Snapshots.cut_describes sound.logged owned ok
  refine ⟨describes,describes.position,fun whole fits => Snapshots.readBlob_blob fits fun op member => ?_⟩
  have held := filled fun a member accepted op inside => by
    obtain ⟨event,here,writes⟩ := decided_asked path a (.inl member) accepted.1 op inside
    exact whole event here op writes
  obtain ⟨k,_,same,has,_⟩ := (describes.ops op.1 op.2).mp member
  obtain ⟨short,one⟩ := held k op.2 has
  exact ⟨same ▸ lt_of_le_of_lt short (by decide),one⟩

-- What the batch wrote, read from the snapshot's bytes.
theorem snapshot_describes_its_cut_reborn : ∃ s, machine.Runs {} reborn s ∧
    Snapshots.Describes s.disk (editsMade s.answered) ['*'] (Snapshots.cut s.disk ['*']) ∧
    ∃ blob, Snapshots.readBlob (Snapshots.snapshot s.disk ['e'] ['*']).1 = some blob ∧
      blob.ops = [(Mp.utf8 ['s','!','j'],[2])] ∧ blob.slices = [(Mp.utf8 ['s'],2)] ∧ blob.visible = 2 := by
  obtain ⟨s,path,found⟩ := machine.follow_finds {} reborn (fun s => decide (
      (Snapshots.cut s.disk ['*']).ops = [(Mp.utf8 ['s','!','j'],[2])] ∧ (Snapshots.cut s.disk ['*']).slices = [(Mp.utf8 ['s'],2)] ∧
      (Snapshots.cut s.disk ['*']).visible = 2 ∧ (Snapshots.cut s.disk ['*']).position = 2 ∧ (Snapshots.cut s.disk ['*']).stats = none ∧
      ((Snapshots.cut s.disk ['*']).header ['e'] ['*']).length < 2^32)) (by decide +kernel)
  obtain ⟨ops,slices,visible,position,stats,header⟩ := of_decide_eq_true found
  obtain ⟨describes,_,reads⟩ := @snapshot_describes_its_cut _ _ path ['e'] ['*'] (by decide)
  refine ⟨s,path,describes,_,reads (fun event member op inside => ?_) ⟨header,by rw [ops]; decide,by rw [position]; decide,
    by rw [visible]; decide,fun row member => ?_,fun pair none => ?_⟩,ops,slices,visible⟩
  · simp only [reborn,List.mem_cons,List.not_mem_nil,or_false] at member
    rcases member with rfl | rfl | rfl
    · rw [List.mem_singleton.mp (show op ∈ [Write.set ['s','!','k'] [1]] from inside)]
      exact ⟨.uint 1,rfl⟩
    · simp only [DbEvent.writes,Writer.Req.asks,plain,if_true,List.map_cons,List.map_nil,List.flatMap_cons,List.flatMap_nil,
        List.append_nil,List.mem_append,or_self,List.mem_cons,List.not_mem_nil,or_false] at inside
      rcases inside with rfl | rfl
      · trivial
      · exact ⟨.uint 2,rfl⟩
    · cases inside
  · rw [slices] at member
    rw [List.mem_singleton.mp member]
    decide
  · rw [stats] at none
    cases none

end Db
end PhaseLock
