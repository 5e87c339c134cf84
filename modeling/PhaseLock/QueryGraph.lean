import PhaseLock.QueryRuns
import PhaseLock.Runs

namespace PhaseLock

-- A query: its function, what its last run read and gave, and what its subscribers were last
-- told; one whose last run made a read the Engine held waits for the next.
structure QueryImpl (V τ : Type) where
  fn : Reader Key V ScanPattern τ
  latest : Option τ := none
  closed : Bool := false
  deps : ReadDeps := {}
  runs : Nat := 0
  result : Option τ := none
  held : Bool := false

-- The app's queries, those added since the last run, and the keys changed since.
structure QueryGraph (V τ : Type) where
  dirty : List Key := []
  queries : List (Nat × QueryImpl V τ) := []
  newQueries : List Nat := []
  nextId : Nat := 0

variable {V τ : Type}

namespace QueryImpl

-- A query that has run and read nothing dirty keeps its result; a held run keeps what it had.
-- A function's throw comes out, and otherwise the run answers whether the result changed.
def run (same : τ → τ → Bool) (view : QueryView V) (dirty : List Key) (q : QueryImpl V τ) : Option (QueryImpl V τ × Bool) :=
  if 0 < q.runs && !q.held && !dirty.any q.deps.reads then some (q,false)
  else
    let (result,deps) := q.fn.run view {}
    if deps.held then some ({q with held:=true},false)
    else match result with
      | none => none
      | some r => some ({q with
          held:=false
          result:=some r
          deps
          runs:=q.runs+1},q.runs = 0 || !(q.result.any (same r)))

-- Subscribers are called with the latest result.
def notify (q : QueryImpl V τ) : QueryImpl V τ := if q.closed then q else {q with latest:=q.result}

end QueryImpl

namespace QueryGraph

def newQuery (fn : Reader Key V ScanPattern τ) (g : QueryGraph V τ) : QueryGraph V τ :=
  {g with
    queries:=g.queries++[(g.nextId,{fn})]
    newQueries:=g.newQueries++[g.nextId]
    nextId:=g.nextId+1}

def close (id : Nat) (g : QueryGraph V τ) : QueryGraph V τ :=
  {g with queries:=g.queries.map fun row => if row.1 = id then (row.1,{row.2 with closed:=true}) else row}

def markDirty (keys : List Key) (g : QueryGraph V τ) : QueryGraph V τ := {g with dirty:=g.dirty++keys}

-- Each query that is to run runs, and then the subscribers of each whose result changed are told.
def execute (same : τ → τ → Bool) (view : QueryView V) (dirty : List Key) (among : Nat → Bool) (queries : List (Nat × QueryImpl V τ)) :
    Option (List (Nat × QueryImpl V τ)) :=
  queries.mapM fun row =>
    if among row.1 then (row.2.run same view dirty).map fun ran => (row.1,if ran.2 then ran.1.notify else ran.1) else some row

-- Every open query whose keys changed runs; closed ones are discarded.
def run (same : τ → τ → Bool) (view : QueryView V) (g : QueryGraph V τ) : Option (QueryGraph V τ) :=
  (execute same view g.dirty (fun _ => true) (g.queries.filter fun row => !row.2.closed)).map fun queries =>
    {g with
      dirty:=[]
      newQueries:=[]
      queries}

-- The queries added since the last run alone run.
def extend (same : τ → τ → Bool) (view : QueryView V) (g : QueryGraph V τ) : Option (QueryGraph V τ) :=
  (execute same view [] (· ∈ g.newQueries) g.queries).map fun queries =>
    {g with
      newQueries:=[]
      queries}

end QueryGraph

namespace QueryImpl
variable {same : τ → τ → Bool} {view view' : QueryView V} {dirty dirty' : List Key} {q after : QueryImpl V τ} {changed : Bool}

-- A query shows a view: its result, which its subscribers were last called with, is what its function gives run on it afresh.
def Shows (view : QueryView V) (q : QueryImpl V τ) : Prop :=
  ∃ r, (q.fn.run view {}).1 = some r ∧ (q.fn.run view {}).2.held = false ∧ q.result = some r ∧ q.latest = some r

-- What a query's record says: its subscribers have its result, and its last run saw a view that is still alike at
-- every key the record covers that is not dirty.
structure Stands (view : QueryView V) (dirty : List Key) (q : QueryImpl V τ) : Prop where
  told : q.closed = false → q.latest = q.result
  seen : 0 < q.runs → q.held = false → ∃ seen r, (view.held = true → seen.held = true) ∧ q.fn.run seen {} = (some r,q.deps) ∧
    q.deps.held = false ∧ q.result = some r ∧ ∀ key, q.deps.reads key = true → key ∉ dirty → seen.Alike view key

-- A query that has answered, or waits for the base.
def Answered (q : QueryImpl V τ) : Prop := 0 < q.runs ∨ q.held = true

theorem Stands.moves (stands : q.Stands view dirty) (later : view'.held = true → view.held = true)
    (alike : ∀ key, key ∉ dirty' → key ∉ dirty ∧ view.Alike view' key) : q.Stands view' dirty' := by
  refine ⟨stands.told,fun ran free => ?_⟩
  obtain ⟨seen,r,held,run,unheld,result,saw⟩ := stands.seen ran free
  refine ⟨seen,r,fun holds => held (later holds),run,unheld,result,fun key read clean => ?_⟩
  obtain ⟨before,still⟩ := alike key clean
  exact (saw key read before).trans still

theorem Stands.shows (stands : q.Stands view []) (open_ : q.closed = false) (ran : 0 < q.runs) (free : q.held = false)
    (plain : q.deps.skipped = false) (calm : q.deps.tangled = false) (calm' : (q.fn.run view {}).2.tangled = false) : q.Shows view := by
  obtain ⟨seen,r,held,run,unheld,result,saw⟩ := stands.seen ran free
  obtain ⟨again,free⟩ := Reader.run_again held q.fn (by rw [run]; exact unheld) (by rw [run]; exact plain) (by rw [run]; exact calm) calm'
    fun key read => saw key (by rw [run] at read; exact read) List.not_mem_nil
  rw [run] at again
  exact ⟨r,again,free,result,(stands.told open_).trans result⟩

-- Its turn in a run of the graph, its subscribers called if it changed.
def turned (ran : QueryImpl V τ × Bool) : QueryImpl V τ := if ran.2 then ran.1.notify else ran.1

theorem turned_same (ran : QueryImpl V τ × Bool) : (turned ran).fn = ran.1.fn ∧ (turned ran).closed = ran.1.closed ∧
    (turned ran).deps = ran.1.deps ∧ (turned ran).runs = ran.1.runs ∧ (turned ran).result = ran.1.result ∧ (turned ran).held = ran.1.held := by
  unfold turned notify
  split
  · split <;> exact ⟨rfl,rfl,rfl,rfl,rfl,rfl⟩
  · exact ⟨rfl,rfl,rfl,rfl,rfl,rfl⟩

-- A query's turn leaves a record that stands at the view it was run on, with nothing dirty.
theorem Stands.turn (lawful : ∀ a b, same a b = true → a = b) (stands : q.Stands view dirty)
    {ran : QueryImpl V τ × Bool} (made : q.run same view dirty = some ran) :
    (turned ran).Stands view [] ∧ (turned ran).Answered ∧ (turned ran).closed = q.closed := by
  unfold run at made
  split at made
  · rename_i rests
    cases made
    rw [Bool.and_eq_true,Bool.and_eq_true,decide_eq_true_eq,Bool.not_eq_true',Bool.not_eq_true'] at rests
    obtain ⟨⟨ran,free⟩,unread⟩ := rests
    refine ⟨⟨stands.told,fun _ _ => ?_⟩,.inl ran,rfl⟩
    obtain ⟨seen,r,held,run,unheld,result,saw⟩ := stands.seen ran free
    refine ⟨seen,r,held,run,unheld,result,fun key read _ => saw key read fun inside => ?_⟩
    exact List.any_eq_false.mp unread key inside read
  · cases run : q.fn.run view {} with
    | mk result deps =>
    rw [run] at made
    dsimp only at made
    split at made
    · cases made
      exact ⟨⟨stands.told,fun _ free => by cases free⟩,.inr rfl,rfl⟩
    · rename_i unheld
      cases result with
      | none => cases made
      | some r =>
        cases made
        obtain ⟨fn,closed,deps',runs,result',held⟩ := turned_same (({q with
          held:=false
          result:=some r
          deps
          runs:=q.runs+1} : QueryImpl V τ),decide (q.runs = 0) || !(q.result.any (same r)))
        refine ⟨⟨fun open_ => ?_,fun _ _ => ?_⟩,.inl ?_,closed⟩
        · rw [closed] at open_
          have open_ : q.closed = false := open_
          rw [result']
          unfold turned notify
          dsimp only
          split
          · rw [if_neg (by simp [open_])]
          · rename_i unchanged
            rw [Bool.or_eq_true,not_or,decide_eq_true_eq] at unchanged
            obtain ⟨_,kept⟩ := unchanged
            obtain ⟨old,is,equal⟩ := (Option.any_eq_true _ _).mp (by simpa using kept)
            show q.latest = some r
            rw [stands.told open_,is,lawful r old equal]
        · refine ⟨view,r,id,?_,?_,result',fun _ _ _ => .refl _ _⟩
          · rw [fn,deps']
            exact run
          · rw [deps']
            simpa using unheld
        · rw [runs]
          exact Nat.succ_pos _

-- Over predictions that delete nothing no record skips.
theorem run_plain (bare : view.Bare) (plain : q.deps.skipped = false) {ran : QueryImpl V τ × Bool}
    (made : q.run same view dirty = some ran) : (turned ran).deps.skipped = false := by
  rw [(turned_same ran).2.2.1]
  unfold run at made
  split at made
  · cases made
    exact plain
  · have clear : (q.fn.run view {}).2.skipped = false := Reader.run_plain bare q.fn rfl fun _ none => by cases none
    cases run : q.fn.run view {} with
    | mk result deps =>
    rw [run] at made clear
    dsimp only at made
    split at made
    · cases made
      exact plain
    · cases result with
      | none => cases made
      | some r =>
        cases made
        exact clear

end QueryImpl

theorem mapM_made {α β : Type} {f : α → Option β} {items : List α} {out : List β} (made : items.mapM f = some out) :
    ∀ b ∈ out, ∃ a ∈ items, f a = some b := by
  induction items generalizing out with
  | nil =>
    cases made
    exact fun _ none => by cases none
  | cons item rest ih =>
    rw [List.mapM_cons] at made
    obtain ⟨first,one,made⟩ := Option.bind_eq_some_iff.mp made
    obtain ⟨others,all,made⟩ := Option.bind_eq_some_iff.mp made
    cases made
    intro b member
    rcases List.mem_cons.mp member with rfl | later
    · exact ⟨item,List.mem_cons_self,one⟩
    · obtain ⟨a,inside,is⟩ := ih all b later
      exact ⟨a,List.mem_cons_of_mem _ inside,is⟩

namespace QueryGraph
variable {same : τ → τ → Bool} {view view' : QueryView V} {g after : QueryGraph V τ}

-- Every record of the graph stands, but for what it has been told is dirty.
def Stands (view : QueryView V) (g : QueryGraph V τ) : Prop := ∀ row ∈ g.queries, row.2.Stands view g.dirty

-- Each query after a run is one before it that has had its turn.
theorem run_rows (ran : g.run same view = some after) : ∀ row ∈ after.queries, ∃ old ∈ g.queries, ∃ turn,
    old.2.run same view g.dirty = some turn ∧ row.2 = QueryImpl.turned turn := by
  unfold QueryGraph.run at ran
  obtain ⟨queries,made,is⟩ := Option.map_eq_some_iff.mp ran
  cases is
  intro row member
  obtain ⟨old,inside,turned⟩ := mapM_made made row member
  rw [if_pos rfl] at turned
  obtain ⟨turn,one,is⟩ := Option.map_eq_some_iff.mp turned
  cases is
  exact ⟨old,(List.mem_filter.mp inside).1,turn,one,rfl⟩

-- Told of every key a view differs at, it stands at the other.
theorem Stands.moves (stands : g.Stands view) (keys : List Key) (later : view'.held = true → view.held = true)
    (alike : ∀ key, key ∉ keys → view.Alike view' key) : (g.markDirty keys).Stands view' := by
  intro row member
  refine (stands row member).moves later fun key clean => ?_
  have clean : key ∉ g.dirty++keys := clean
  rw [List.mem_append,not_or] at clean
  exact ⟨clean.1,alike key clean.2⟩

theorem Stands.run (lawful : ∀ a b, same a b = true → a = b) (stands : g.Stands view) (ran : g.run same view = some after) :
    after.Stands view ∧ after.dirty = [] ∧ ∀ row ∈ after.queries, row.2.Answered := by
  have each : ∀ row ∈ after.queries, row.2.Stands view [] ∧ row.2.Answered := by
    intro row member
    obtain ⟨old,inside,turn,one,is⟩ := run_rows ran row member
    obtain ⟨stood,answered,_⟩ := (stands old inside).turn lawful one
    rw [is]
    exact ⟨stood,answered⟩
  have clean : after.dirty = [] := by
    unfold QueryGraph.run at ran
    obtain ⟨queries,_,is⟩ := Option.map_eq_some_iff.mp ran
    cases is
    rfl
  refine ⟨fun row member => ?_,clean,fun row member => (each row member).2⟩
  rw [clean]
  exact (each row member).1

theorem run_plain (bare : view.Bare) (plain : ∀ row ∈ g.queries, row.2.deps.skipped = false) (ran : g.run same view = some after) :
    ∀ row ∈ after.queries, row.2.deps.skipped = false := by
  intro row member
  obtain ⟨old,inside,turn,one,is⟩ := run_rows ran row member
  rw [is]
  exact old.2.run_plain bare (plain old inside) one

theorem Stands.newQuery (stands : g.Stands view) (fn : Reader Key V ScanPattern τ) : (g.newQuery fn).Stands view := by
  intro row member
  rcases List.mem_append.mp member with old | new
  · exact stands row old
  · rw [List.mem_singleton.mp new]
    exact ⟨fun _ => rfl,fun none => absurd none (Nat.lt_irrefl 0)⟩

theorem Stands.close (stands : g.Stands view) (id : Nat) : (g.close id).Stands view := by
  intro row member
  obtain ⟨old,inside,is⟩ := List.mem_map.mp member
  have before := stands old inside
  split at is
  · cases is
    exact ⟨fun none => (by cases none),before.seen⟩
  · cases is
    exact before

end QueryGraph
end PhaseLock
