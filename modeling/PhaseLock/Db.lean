import PhaseLock.SliceLives

namespace PhaseLock

-- The database's core: what its disk holds and answered by its last commit, and the writer
-- with the batch it has open.
structure Db where
  disk : Storage := {}
  answered : List Answer := []
  writer : Writer := {}

-- A batch is requests in turn, then its commit; a restart loses the open batch, and on an empty
-- log runs bootstrap.
inductive DbEvent where
  | request (servertime : Int) (req : Writer.Req)
  | commit
  | restart (servertime : Int) (id : Nat) (ops : List Write) (ran : Ran)

namespace Db

-- A writer whose store disagrees with itself dies, and leaves what is on the disk.
def next (s : Db) : DbEvent → Db
  | .request servertime req => match s.writer.handle servertime req with
    | .ok writer => {s with writer}
    | .error _ => {s with writer:=Writer.opens s.disk s.answered}
  | .commit => ⟨s.writer.store,s.writer.trace,{s.writer with
      items:=[]
      touches:=[]
      after:=[]}⟩
  | .restart servertime id ops ran =>
    let writer := Writer.opens s.disk s.answered
    if writer.position = 0 then match writer.bootstrap servertime id ops ran with
      | .ok writer => ⟨writer.store,writer.trace,writer⟩
      | .error _ => {s with writer}
    else {s with writer}

-- A bootstrap that throws fails the open.
def machine : Machine Db DbEvent where
  allowed s event := match event with
    | .restart _ _ _ ran => s.disk.maxPosition = 0 → ran = .carried
    | _ => True
  next := next

end Db

-- Every edit the answers made, in commit order, and one slice's.
def editsMade (trace : List Answer) : List LogRow := trace.flatMap Answer.items
def madeOf (trace : List Answer) (name : Name) : List LogRow := (editsMade trace).filter (·.slice = name)

def Outcome.isOk : Outcome → Bool
  | .ok _ => true
  | _ => false

def Answer.accepted (a : Answer) : Prop := a.how = .decided ∧ ∃ position, a.outcome = some (.ok position)

instance (a : Answer) : Decidable a.accepted :=
  decidable_of_iff (a.how = .decided ∧ a.outcome.any Outcome.isOk = true) (by
    refine and_congr_right fun _ => ?_
    cases a.outcome with
    | none => simp
    | some outcome => cases outcome <;> simp [Outcome.isOk])

-- How an answer followed from the writer's state, and what it made of it.
structure Answered (w : Writer) (a : Answer) (after : Writer) : Prop where
  trace : after.trace = w.trace++[a]
  before : a.before = w.store
  store : after.store = a.after
  dedup : a.how = .deduped ↔ a.how ≠ .unreadable ∧ w.decidedBefore a.series = true
  head : a.how = .deduped → a.head = w.position ∧ (∀ digest n, a.series = some (.series digest,n) → a.outcome = some (.ok w.position))
  still : a.how = .deduped ∨ a.how = .bounced ∨ a.how = .unreadable → a.after = w.store
  marked : a.how = .decided ∨ a.how = .proof → ∃ time, a.after.series = match a.series with
    | some (key,n) => (w.store.seriesMark key n time).series
    | none => w.store.series
  accepted : a.accepted → a.wb.Ok ∧ ∃ id time c, Mutated id time w.store w.position a.wb c ∧ a.items = c.items ∧
    a.after.kv = c.store.kv ∧ a.after.log = c.store.log ∧ a.after.slices = c.store.slices ∧ after.position = c.position
  others : ¬a.accepted → a.items = [] ∧ after.position = w.position ∧
    a.after.kv = w.store.kv ∧ a.after.log = w.store.log ∧ a.after.slices = w.store.slices

variable {w : Writer}

theorem commits_ok (behind : ∀ row ∈ w.store.log, row.position ≤ w.position) (id : Nat) (servertime : Int) (ops : List Write) :
    ∃ c, Mutated id servertime w.store w.position (WriteBuffer.writes ops) c ∧
      w.commits id servertime (WriteBuffer.writes ops) = .ok ({w with
        store:=c.store
        position:=c.position
        items:=w.items++c.items
        touches:=w.touches++c.touches},c.items) := by
  obtain ⟨c,ran,mutated⟩ := commitEdits_ok (WriteBuffer.writes_ok ops) behind id servertime
  refine ⟨c,mutated,?_⟩
  unfold Writer.commits
  rw [ran]
  rfl

@[simp] theorem mark_frame (w : Writer) (series : Option (SeriesKey × Nat)) (servertime : Int) :
    (w.mark series servertime).position = w.position ∧ (w.mark series servertime).trace = w.trace ∧
    (w.mark series servertime).store.kv = w.store.kv ∧ (w.mark series servertime).store.log = w.store.log ∧
    (w.mark series servertime).store.slices = w.store.slices := by
  cases series <;> exact ⟨rfl,rfl,rfl,rfl,rfl⟩

theorem mark_series (w : Writer) (series : Option (SeriesKey × Nat)) (servertime : Int) :
    (w.mark series servertime).store.series = match series with
      | some (key,n) => (w.store.seriesMark key n servertime).series
      | none => w.store.series := by
  cases series <;> rfl

-- Deciding a mutation never fails: its edits commit, or nothing changes.
theorem decide_ok (behind : ∀ row ∈ w.store.log, row.position ≤ w.position) (servertime : Int) (m : Asked) :
    ∃ after outcome items, w.decide servertime m = .ok (after,outcome,items) ∧ after.trace = w.trace ∧
      after.store.series = w.store.series ∧
      ((∃ position, outcome = .ok position) → ∃ c, Mutated m.id servertime w.store w.position (WriteBuffer.writes m.ops) c ∧
        items = c.items ∧ after.store = c.store ∧ after.position = c.position) ∧
      ((¬∃ position, outcome = .ok position) → items = [] ∧ after = w) := by
  have refuses : ∀ outcome : Outcome, (¬∃ position, outcome = .ok position) →
      ∃ after outcome' items, (Except.ok (w,outcome,[]) : Except Fatal (Writer × Outcome × List LogRow)) = .ok (after,outcome',items) ∧
      after.trace = w.trace ∧ after.store.series = w.store.series ∧
      ((∃ position, outcome' = .ok position) → ∃ c, Mutated m.id servertime w.store w.position (WriteBuffer.writes m.ops) c ∧
        items = c.items ∧ after.store = c.store ∧ after.position = c.position) ∧
      ((¬∃ position, outcome' = .ok position) → items = [] ∧ after = w) :=
    fun outcome refused => ⟨w,outcome,[],rfl,rfl,rfl,fun ok => absurd ok refused,fun _ => ⟨rfl,rfl⟩⟩
  unfold Writer.decide
  cases checked : Writer.checkExpect w.store m.grant m.expect with
  | some outcome =>
    refine refuses outcome ?_
    rintro ⟨position,rfl⟩
    unfold Writer.checkExpect at checked
    split at checked
    · cases checked
    · split at checked
      · cases checked
      · split at checked
        · cases checked
        · dsimp only at checked
          split at checked <;> cases checked
  | none =>
    cases m.ran with
    | refused why => exact refuses _ (by simp)
    | threw why => exact refuses _ (by simp)
    | carried =>
      obtain ⟨c,mutated,ran⟩ := commits_ok behind m.id servertime m.ops
      dsimp only
      rw [ran]
      exact ⟨_,_,_,rfl,rfl,mutated.series,fun _ => ⟨c,mutated,rfl,rfl,rfl⟩,fun refused => absurd ⟨_,rfl⟩ refused⟩

theorem decidedBefore_none (w : Writer) : w.decidedBefore none = false := rfl

-- A mutation past the dedup check and its proof is decided, and marked.
theorem decided_answered {outcome : Outcome} {ops : List Write} {items : List LogRow} {decided : Writer} {series : Option (SeriesKey × Nat)}
    (id : Nat) (fresh : w.decidedBefore series = false) (trace : decided.trace = w.trace) (frame : decided.store.series = w.store.series)
    (accepts : (∃ position, outcome = .ok position) → ∃ c, Mutated id servertime w.store w.position (WriteBuffer.writes ops) c ∧
      items = c.items ∧ decided.store = c.store ∧ decided.position = c.position)
    (refuses : (¬∃ position, outcome = .ok position) → items = [] ∧ decided = w) :
    Answered w ⟨series,.decided,some outcome,ops,items,w.store,(decided.mark series servertime).store,
        (decided.mark series servertime).position⟩
      ((decided.mark series servertime).answers ⟨series,.decided,some outcome,ops,items,w.store,
        (decided.mark series servertime).store,(decided.mark series servertime).position⟩) := by
  obtain ⟨position,traced,kv,log,slices⟩ := mark_frame decided series servertime
  refine ⟨?_,rfl,rfl,?_,fun how => (by cases how),?_,fun _ => ⟨servertime,?_⟩,?_,?_⟩
  · unfold Writer.answers
    rw [traced,trace]
  · simp [fresh]
  · rintro (how | how | how) <;> cases how
  · dsimp only
    rw [mark_series]
    cases series with
    | none => exact frame
    | some row =>
      simp only [Storage.seriesMark,frame]
  · rintro ⟨_,at_,ok⟩
    obtain ⟨c,mutated,made,store,moved⟩ := accepts ⟨at_,Option.some.inj ok⟩
    refine ⟨WriteBuffer.writes_ok ops,id,servertime,c,mutated,made,?_,?_,?_,position.trans moved⟩
    · dsimp only
      rw [kv,store]
    · dsimp only
      rw [log,store]
    · dsimp only
      rw [slices,store]
  · intro rejected
    obtain ⟨none,same⟩ := refuses fun some_ => rejected ⟨rfl,some_.imp fun _ => congrArg some⟩
    subst same
    exact ⟨none,position,kv,log,slices⟩

-- One mutation never fails, and follows as its answer says.
theorem runMutation_ok (behind : ∀ row ∈ w.store.log, row.position ≤ w.position) (servertime : Int) (attempt : Nat) (m : Asked) :
    ∃ after ran a, w.runMutation servertime attempt m = .ok (after,ran) ∧ Answered w a after := by
  unfold Writer.runMutation
  dsimp only
  generalize (m.series.map fun row => (SeriesKey.series row.1,row.2)) = series
  cases before : w.decidedBefore series with
  | true =>
    refine ⟨_,_,⟨series,.deduped,some (.ok w.position),[],[],w.store,w.store,w.position⟩,rfl,?_⟩
    refine ⟨rfl,rfl,rfl,?_,fun _ => ⟨rfl,fun _ _ _ => rfl⟩,fun _ => rfl,?_,?_,fun _ => ⟨rfl,rfl,rfl,rfl,rfl⟩⟩
    · simp [before]
    · rintro (how | how) <;> cases how
    · rintro ⟨how,_⟩
      cases how
  | false =>
    rw [if_neg Bool.false_ne_true]
    cases Writer.proofOf attempt m with
    | bounced hash =>
      refine ⟨_,_,⟨series,.bounced,none,[],[],w.store,w.store,w.position⟩,rfl,?_⟩
      refine ⟨rfl,rfl,rfl,?_,fun how => (by cases how),fun _ => rfl,?_,?_,fun _ => ⟨rfl,rfl,rfl,rfl,rfl⟩⟩
      · simp [before]
      · rintro (how | how) <;> cases how
      · rintro ⟨how,_⟩
        cases how
    | decided reason =>
      obtain ⟨position,traced,kv,log,slices⟩ := mark_frame w series servertime
      refine ⟨_,_,⟨series,.proof,some (.reject reason),[],[],w.store,(w.mark series servertime).store,w.position⟩,rfl,?_⟩
      refine ⟨?_,rfl,rfl,?_,fun how => (by cases how),?_,fun _ => ⟨servertime,mark_series w series servertime⟩,?_,
        fun _ => ⟨rfl,position,kv,log,slices⟩⟩
      · unfold Writer.answers
        rw [traced]
      · simp [before]
      · rintro (how | how | how) <;> cases how
      · rintro ⟨how,_⟩
        cases how
    | holds =>
      obtain ⟨decided,outcome,items,ran,trace,frame,accepts,refuses⟩ := decide_ok behind servertime m
      dsimp only
      rw [ran]
      exact ⟨_,_,_,rfl,decided_answered m.id before trace frame accepts refuses⟩

end PhaseLock
