import PhaseLock.Answering
import PhaseLock.Writes

namespace PhaseLock

-- An edit's wire encoding, replayed over what the store held of its slice, gives what the
-- mutation's own writes, each applied to the store in turn, leave of it.
def Answer.Replays (a : Answer) (edit : LogRow) : Prop :=
  ∃ wire, readEdit edit.edit = some wire ∧ wire.slice = edit.slice ∧ ∀ key, sliceOf key = some edit.slice →
    keysOf (wire.apply (some ⟨(a.before.part edit.slice).seq,(a.before.part edit.slice).keys⟩)) key = (Natives.applyWrites a.before.kv a.ops).get key

-- An accepted mutation leaves in every slice what its writes leave, and its edits say so; any
-- other leaves the store and the log alone.
structure Answer.Faithful (a : Answer) : Prop where
  writes : a.accepted → ∀ key slice, sliceOf key = some slice → a.after.kv.get key = (Natives.applyWrites a.before.kv a.ops).get key
  replays : a.accepted → ∀ edit ∈ a.items, a.Replays edit
  others : ¬a.accepted → a.items = [] ∧ a.after.kv = a.before.kv ∧ a.after.log = a.before.log ∧ a.after.slices = a.before.slices

theorem WriteBuffer.read_congr (wb : WriteBuffer) {f g : Key → Option Bytes} (same : f key = g key) : wb.read f key = wb.read g key := by
  unfold read
  rw [same]

theorem part_keys (st : Storage) (under : sliceOf key = some name) : (st.part name).keys key = st.kv.get key := if_pos under

theorem Answered.faithful {w after : Writer} (logged : w.Logged) (answered : Answered w a after) : a.Faithful := by
  refine ⟨fun accepted key slice under => ?_,fun accepted edit member => ?_,fun rejected => ?_⟩
  · obtain ⟨ok,id,time,c,mutated,items,kv,log,slices,_⟩ := answered.accepted accepted
    rw [kv,answered.before,← part_keys c.store under,Natives.applyWrites_get]
    have reads := WriteBuffer.reads (logged.good slice).folded.dead under (fun touched busy => (mutated.edited slice ⟨touched,busy⟩).2)
      (fun quiet => mutated.kept slice quiet)
    rw [reads]
    exact a.wb.read_congr (part_keys w.store under)
  · obtain ⟨ok,id,time,c,mutated,items,kv,log,slices,_⟩ := answered.accepted accepted
    rw [items] at member
    obtain ⟨edits,equal⟩ := mutated.items edit member
    obtain ⟨listed,edited⟩ := mutated.edited edit.slice edits
    unfold Answer.Replays
    rw [answered.before]
    have reads := edit_reads (a.wb.part edit.slice) (w.store.part edit.slice) (w.position+1) id time
    rw [show (a.wb.part edit.slice).edit (w.store.part edit.slice) (w.position+1) id time = edit from equal.symm] at reads
    refine ⟨_,reads,rfl,fun key under => ?_⟩
    rw [← Edited.replayed (logged.good edit.slice).folded.dead edits.2 edited]
    have read := WriteBuffer.reads (logged.good edit.slice).folded.dead under (fun touched busy => (mutated.edited edit.slice ⟨touched,busy⟩).2)
      (fun quiet => mutated.kept edit.slice quiet)
    rw [read,Natives.applyWrites_get]
    exact a.wb.read_congr (part_keys w.store under)
  · obtain ⟨none,_,kv,log,slices⟩ := answered.others rejected
    rw [answered.before]
    exact ⟨none,kv,log,slices⟩

-- The log is well formed over every mutation a writer committed, or has in its open batch.
structure Writer.WellFormed (w : Writer) : Prop where
  mutations : ∀ a ∈ w.trace, (∃ position, ∀ edit ∈ a.items, edit.position = position) ∧ (a.items.map LogRow.slice).Nodup
  ordered : (w.trace.map Answer.items).Pairwise (fun a b => ∀ x ∈ a, ∀ y ∈ b, x.position < y.position)
  lives : ∀ name, Lives (madeOf w.trace name)
  kept : w.Erased
  head : w.position = w.store.maxPosition ∧ ∀ edit ∈ editsMade w.trace, 0 < edit.position ∧ edit.position ≤ w.position

theorem Writer.Sound.wellFormed {w : Writer} (sound : w.Sound) : w.WellFormed := by
  refine ⟨fun a member => ?_,sound.ordered,fun name => (sound.logged.good name).lives,sound.erased,sound.logged.head,fun edit member => ?_⟩
  · obtain ⟨before,after,logged,answered⟩ := sound.answers a member
    by_cases accepted : a.accepted
    · obtain ⟨_,id,time,c,mutated,items,_⟩ := answered.accepted accepted
      rw [items]
      refine ⟨⟨before.position+1,fun edit listed => ?_⟩,mutated.distinct⟩
      rw [(mutated.items edit listed).2]
      rfl
    · rw [(answered.others accepted).1]
      exact ⟨⟨0,fun edit listed => (by cases listed)⟩,List.nodup_nil⟩
  · exact ((sound.logged.good edit.slice).wired edit (by simpa [madeOf] using member)).2

namespace Db

-- Every slice's row and keys, on the disk and in the open batch, are the fold of its logged
-- edits, and every mutation's edits replay to what its writes made; and those are the writes each
-- request, or bootstrap, asked for.
structure FoldsItsLog (s : Db) : Prop where
  disk : ∀ name, (s.disk.part name).Folded
  batch : ∀ name, (s.writer.store.part name).Folded
  answers : ∀ a ∈ s.writer.trace, a.Faithful
  asked : ∀ servertime req, ∃ given, (s.next (.request servertime req)).writer.trace = s.writer.trace++given ∧
    List.Forall₂ Answer.To given (req.asks.take given.length)
  begun : ∀ servertime id ops, s.disk.maxPosition = 0 → ∃ given,
    (s.next (.restart servertime id ops .carried)).answered = s.answered++given ∧
      given.map (fun a => (a.how,a.ops)) = if (WriteBuffer.writes ops).isEmpty then [] else [(.decided,ops)]

-- A series' numbers are decided at most once each, and its mark is the largest decided.
structure DedupExact (s : Db) : Prop where
  once : (decidedOf s.writer.trace).Nodup
  mark : ∀ digest, s.writer.store.seriesHwm (.series digest) = (markingOf s.writer.trace (.series digest)).max?
  stored : ∀ digest, s.disk.seriesHwm (.series digest) = (markingOf s.answered (.series digest)).max?
  dedup : ∀ a ∈ s.writer.trace, ∀ digest n, a.series = some (.series digest,n) → a.how ≠ .unreadable →
    (a.how = .deduped ↔ ∃ mark, a.before.seriesHwm (.series digest) = some mark ∧ n ≤ mark)
  deduped : ∀ a ∈ s.writer.trace, ∀ digest n, a.series = some (.series digest,n) → a.how = .deduped →
    a.outcome = some (.ok a.before.maxPosition) ∧ a.after = a.before
  moves : ∀ a ∈ s.writer.trace, ∀ digest n, a.series = some (.series digest,n) → a.how = .decided ∨ a.how = .proof →
    ∃ mark, a.after.seriesHwm (.series digest) = some mark ∧ n ≤ mark
  still : ∀ a ∈ s.writer.trace, a.how = .bounced ∨ a.how = .unreadable → a.after = a.before
  rises : ∀ a ∈ s.writer.trace, a.before.Raised a.after
  refused : ∀ servertime call, call.current = false → ∃ after, s.writer.handle servertime (.submit call) = .ok after ∧
    after.store = s.writer.store ∧ after.trace = s.writer.trace
  replies : ∀ servertime call, call.current = true → ∃ after reply given, s.writer.handle servertime (.submit call) = .ok after ∧
    s.next (.request servertime (.submit call)) = {s with writer:=after} ∧ after.trace = s.writer.trace++given ∧
    after.after = s.writer.after++[reply] ∧ Replied call.mutations given reply

instance (s : Db) (event : DbEvent) : Decidable (machine.allowed s event) :=
  match event with
  | .request _ _ => .isTrue trivial
  | .commit => .isTrue trivial
  | .restart _ _ _ ran => inferInstanceAs (Decidable (s.disk.maxPosition = 0 → ran = .carried))

-- A numbered mutation that names no expectation and proves nothing.
def plain (series : Option (Name × Nat)) (ops : List Write) : Asked := ⟨series,7,.ok (),[],none,.ok [],.ok none,ops,.carried⟩

-- Bootstrap writes a slice, and a batch erases and writes it again, once for two copies.
def reborn : List DbEvent :=
  let again := plain (some (['a'],1)) [.deleteSlice ['s'] true,.set ['s','!','j'] [2]]
  [.restart 0 7 [.set ['s','!','k'] [1]] .carried,.request 5 (.submit ⟨true,0,[again,again]⟩),.commit]

variable {s later : Db} {events more : List DbEvent}

theorem store_is_the_fold (path : machine.Runs {} events s) : s.FoldsItsLog := by
  have sound := runs_sound path
  refine ⟨fun name => (sound.disk.logged.good name).folded,fun name => (sound.writer.sound.logged.good name).folded,fun a member => ?_,
    fun servertime req => ?_,fun servertime id ops first => ?_⟩
  · obtain ⟨before,after,logged,answered⟩ := sound.writer.sound.answers a member
    exact answered.faithful logged
  · obtain ⟨after,reply,given,made,trace,_,asked⟩ := handle_answers (leads_keeps s.writer) sound.writer.sound.leads servertime req
    refine ⟨given,?_,asked⟩
    unfold next
    dsimp only
    rw [made]
    exact trace
  · obtain ⟨after,given,made,trace,writes⟩ :=
      bootstrap_answers (leads_keeps (Writer.opens s.disk s.answered)) sound.disk.leads servertime id ops
    refine ⟨given,?_,writes⟩
    unfold next
    dsimp only
    rw [if_pos (show (Writer.opens s.disk s.answered).position = 0 from first),made]
    exact trace

theorem reborn_runs : ∃ s, machine.Runs {} reborn s ∧
    (s.writer.trace.map Answer.how = [.decided,.decided,.deduped] ∧ s.disk.log.map LogRow.seq = [2]) := by
  obtain ⟨s,path,found⟩ := machine.follow_finds {} reborn
    (fun s => s.writer.trace.map Answer.how = [.decided,.decided,.deduped] ∧ s.disk.log.map LogRow.seq = [2]) (by decide +kernel)
  exact ⟨s,path,of_decide_eq_true found⟩

theorem store_is_the_fold_reborn : ∃ s, machine.Runs {} reborn s ∧ s.FoldsItsLog := by
  obtain ⟨s,path,_⟩ := reborn_runs
  exact ⟨s,path,store_is_the_fold path⟩

theorem log_is_well_formed (path : machine.Runs {} events s) :
    s.writer.WellFormed ∧ (Writer.opens s.disk s.answered).WellFormed ∧ s.answered <+: s.writer.trace :=
  ⟨(runs_sound path).writer.sound.wellFormed,(runs_sound path).disk.wellFormed,(runs_sound path).writer.trace⟩

theorem log_is_well_formed_reborn : ∃ s, machine.Runs {} reborn s ∧ s.writer.WellFormed := by
  obtain ⟨s,path,_⟩ := reborn_runs
  exact ⟨s,path,(log_is_well_formed path).1⟩

theorem dedup_is_exact (path : machine.Runs {} events s) (further : machine.Runs s more later) :
    s.DedupExact ∧ s.disk.Raised later.disk := by
  have whole := runs_sound path
  have sound := whole.writer.sound
  refine ⟨⟨sound.marked.once,sound.marked.largest,whole.disk.marked.largest,?_,?_,?_,?_,?_,?_,?_⟩,(runs_grow whole further).raised⟩
  · intro a member digest n series readable
    obtain ⟨before,after,logged,answered⟩ := sound.answers a member
    rw [answered.dedup,series,answered.before]
    simp [readable,Writer.decidedBefore,Option.any_eq_true]
  · intro a member digest n series how
    obtain ⟨before,after,logged,answered⟩ := sound.answers a member
    rw [answered.before,← logged.head]
    exact ⟨(answered.head how).2 digest n series,answered.still (.inl how)⟩
  · intro a member digest n series decides
    obtain ⟨before,after,logged,answered⟩ := sound.answers a member
    have marks := answered.marks (.series digest)
    rw [answered.store,show marking (.series digest) a = some n by simp [marking,decides,series,Option.filter]] at marks
    rw [marks]
    cases before.store.seriesHwm (.series digest) with
    | none => exact ⟨n,rfl,le_refl _⟩
    | some mark => exact ⟨max mark n,rfl,le_max_right _ _⟩
  · intro a member how
    obtain ⟨before,after,logged,answered⟩ := sound.answers a member
    rw [answered.before]
    exact answered.still (.inr how)
  · intro a member
    obtain ⟨before,after,logged,answered⟩ := sound.answers a member
    rw [answered.before,← answered.store]
    exact answered.raised
  · intro servertime call refused
    refine ⟨s.writer.replies {status:=401},?_,rfl,rfl⟩
    simp only [Writer.handle,Writer.handleSubmit,refused,Bool.not_false,if_true]
  · intro servertime call current
    obtain ⟨after,reply,given,made,trace,replies,replied⟩ := handleSubmit_answers (leads_keeps s.writer) sound.leads servertime current
    refine ⟨after,reply,given,made,?_,trace,replies,replied⟩
    unfold next
    dsimp only
    rw [made]

theorem dedup_is_exact_reborn : ∃ s later, machine.Runs {} reborn s ∧ machine.Runs s [.commit] later ∧
    s.DedupExact ∧ s.disk.Raised later.disk := by
  obtain ⟨s,path,_⟩ := reborn_runs
  have further : machine.Runs s [.commit] (s.next .commit) := .step .nil trivial
  exact ⟨s,_,path,further,dedup_is_exact path further⟩

end Db
end PhaseLock
