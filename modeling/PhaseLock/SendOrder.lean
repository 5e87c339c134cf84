import PhaseLock.Overlays

namespace PhaseLock
variable {V D : Type}

-- When a mutation was minted: its id, its series and its number in it.
abbrev Stamp := Nat × Nat × Nat

def Mutation.stamp (m : Mutation D) : Stamp := (m.id,m.series,m.n)

namespace Stamp

def Before (a b : Stamp) : Prop := a.1 < b.1 ∧ (a.2.1 < b.2.1 ∨ a.2.1 = b.2.1 ∧ a.2.2 < b.2.2)

theorem Before.trans {a b c : Stamp} (first : Before a b) (second : Before b c) : Before a c := by
  unfold Before at first second ⊢
  omega

-- One minted no earlier comes after all that came before.
theorem Before.later {a b c : Stamp} (first : Before a b) (second : b = c ∨ Before b c) : Before a c := by
  rcases second with rfl | second
  · exact first
  · exact first.trans second

end Stamp

namespace Engine
open Stamp

-- The stamp of what the Engine mints next.
def stamp (engine : Engine V D) : Stamp := (engine.nextId,engine.series,engine.nextN)

-- What a connection has been handed, in order.
def sentOn (engine : Engine V D) (conn : Nat) : List (Mutation D) := (engine.sends.filter (·.conn = conn)).flatMap SendCall.wire

-- Rows and calls are in the order their mutations were minted.
structure Lined (engine : Engine V D) : Prop where
  rows : ∀ o m, engine.core.store.mutations.get o = some m → Before m.stamp engine.stamp
  sorted : ∀ o o' m m', engine.core.store.mutations.get o = some m → engine.core.store.mutations.get o' = some m' → o < o' →
    Before m.stamp m'.stamp
  sends : ∀ call ∈ engine.sends, call.conn ≤ engine.conn ∧ ∀ m ∈ call.wire, Before m.stamp engine.stamp
  order : ∀ conn, (engine.sentOn conn).Pairwise fun a b => Before a.stamp b.stamp

-- A connection has been handed nothing before its resend, and after it all of the outbox that is
-- not answered ok.
structure Handed (engine : Engine V D) : Prop where
  fresh : engine.connection = false ∨ engine.resend = true → ∀ call ∈ engine.sends, call.conn < engine.conn
  handed : engine.connection = true → engine.resend = false → ∀ id o, engine.core.outgoing.outbox.get id = some o →
    id ∈ engine.core.outgoing.sent ∨ engine.core.outgoing.acked.get id ≠ none
  sent : ∀ id ∈ engine.core.outgoing.sent, ∃ m ∈ engine.sentOn engine.conn, m.id = id

-- What mints nothing and sends nothing.
structure Calm (engine after : Engine V D) : Prop where
  sends : after.sends = engine.sends
  conn : after.conn = engine.conn
  connection : after.connection = engine.connection
  resend : after.resend = engine.resend
  stamp : after.stamp = engine.stamp
  ended : after.ended = engine.ended
  rows : ∀ o m, after.core.store.mutations.get o = some m → engine.core.store.mutations.get o = some m
  outbox : ∀ id o, after.core.outgoing.outbox.get id = some o → engine.core.outgoing.outbox.get id = some o ∧
    (id ∈ engine.core.outgoing.sent → id ∈ after.core.outgoing.sent) ∧
    (engine.core.outgoing.acked.get id ≠ none → after.core.outgoing.acked.get id ≠ none)
  sent : ∀ id ∈ after.core.outgoing.sent, id ∈ engine.core.outgoing.sent

variable {engine after : Engine V D}

theorem Calm.refl (engine : Engine V D) : Calm engine engine :=
  ⟨rfl,rfl,rfl,rfl,rfl,rfl,fun _ _ => id,fun _ _ held => ⟨held,id,id⟩,fun _ => id⟩

theorem Calm.trans {a b c : Engine V D} (first : Calm a b) (second : Calm b c) : Calm a c where
  sends := second.sends.trans first.sends
  conn := second.conn.trans first.conn
  connection := second.connection.trans first.connection
  resend := second.resend.trans first.resend
  stamp := second.stamp.trans first.stamp
  ended := second.ended.trans first.ended
  rows o m row := first.rows o m (second.rows o m row)
  outbox id o held := by
    obtain ⟨middle,sent,acked⟩ := second.outbox id o held
    obtain ⟨before,sent',acked'⟩ := first.outbox id o middle
    exact ⟨before,fun inside => sent (sent' inside),fun held => acked (acked' held)⟩
  sent id inside := first.sent id (second.sent id inside)

theorem Lined.kept (lined : engine.Lined) (sends : after.sends = engine.sends) (conn : after.conn = engine.conn)
    (stamp : after.stamp = engine.stamp)
    (rows : ∀ o m, after.core.store.mutations.get o = some m → engine.core.store.mutations.get o = some m) : after.Lined := by
  refine ⟨fun o m row => ?_,fun o o' m m' row row' => lined.sorted o o' m m' (rows o m row) (rows o' m' row'),fun call member => ?_,
    fun c => ?_⟩
  · rw [stamp]
    exact lined.rows o m (rows o m row)
  · rw [sends] at member
    rw [conn,stamp]
    exact lined.sends call member
  · unfold sentOn
    rw [sends]
    exact lined.order c

theorem Calm.lined (calm : Calm engine after) (lined : engine.Lined) : after.Lined :=
  lined.kept calm.sends calm.conn calm.stamp calm.rows

theorem Calm.handed (calm : Calm engine after) (held : engine.Handed) : after.Handed where
  fresh := by
    rw [calm.connection,calm.resend,calm.sends,calm.conn]
    exact held.fresh
  handed going done id o inside := by
    rw [calm.connection] at going
    rw [calm.resend] at done
    obtain ⟨before,sent,acked⟩ := calm.outbox id o inside
    exact (held.handed going done id o before).imp sent acked
  sent id inside := by
    unfold sentOn
    rw [calm.sends,calm.conn]
    exact held.sent id (calm.sent id inside)

-- What touches nothing but the @online table, and what was told and settled.
theorem calm_same (sends : after.sends = engine.sends) (conn : after.conn = engine.conn) (connection : after.connection = engine.connection)
    (resend : after.resend = engine.resend) (stamp : after.stamp = engine.stamp) (ended : after.ended = engine.ended)
    (rows : after.core.store.mutations = engine.core.store.mutations) (outbox : after.core.outgoing.outbox = engine.core.outgoing.outbox)
    (sent : after.core.outgoing.sent = engine.core.outgoing.sent) (acked : after.core.outgoing.acked = engine.core.outgoing.acked) :
    Calm engine after := by
  refine ⟨sends,conn,connection,resend,stamp,ended,fun o m row => ?_,fun id o held => ?_,fun id inside => ?_⟩
  · rw [← rows]
    exact row
  · rw [outbox] at held
    rw [sent,acked]
    exact ⟨held,fun inside => inside,fun inside => inside⟩
  · rw [← sent]
    exact inside

theorem moves_calm {seen : List Nat} {gone : Nat → Bool} (moves : Core.Moves seen gone engine.core after.core)
    (sends : after.sends = engine.sends) (conn : after.conn = engine.conn) (connection : after.connection = engine.connection)
    (resend : after.resend = engine.resend) (stamp : after.stamp = engine.stamp) (ended : after.ended = engine.ended) :
    Calm engine after := by
  refine ⟨sends,conn,connection,resend,stamp,ended,fun o m row => ?_,fun id o held => ?_,fun id inside => (moves.sent id).1 inside⟩
  · rw [moves.rows] at row
    exact (Option.filter_eq_some_iff.mp row).1
  · rw [moves.outbox] at held
    split at held
    · cases held
    · rename_i kept
      refine ⟨held,(moves.sent id).2 (by simpa using kept),?_⟩
      rw [moves.acked,if_neg kept]
      exact fun acked => acked

theorem calm_folds {α : Type} {f : Engine V D → α → Engine V D} {items : List α} {engine : Engine V D}
    (each : ∀ engine item, Calm engine (f engine item)) : Calm engine (items.foldl f engine) :=
  foldl_invariant (P := Calm engine) (fun s item _ before => before.trans (each s item)) (.refl engine)

theorem settle_calm (engine : Engine V D) (promise : Nat) (settlement : Settlement) : Calm engine (engine.settle promise settlement) := by
  unfold settle
  split <;> exact calm_same rfl rfl rfl rfl rfl rfl rfl rfl rfl rfl

theorem rejectAll_calm (engine : Engine V D) (promises : List Nat) (reason : Failure) : Calm engine (engine.rejectAll promises reason) :=
  calm_folds fun engine promise => settle_calm engine promise _

theorem dropped_calm (engine : Engine V D) (id promise : Nat) (settlement : Settlement) :
    Calm engine ((engine.out {engine.core.outgoing with online:=engine.core.outgoing.online.del id}).settle promise settlement) := by
  have dropped : Calm engine (engine.out {engine.core.outgoing with online:=engine.core.outgoing.online.del id}) :=
    calm_same rfl rfl rfl rfl rfl rfl rfl rfl rfl rfl
  exact dropped.trans (settle_calm _ promise settlement)

theorem settleOnline_calm (engine : Engine V D) : Calm engine engine.settleOnline := by
  unfold settleOnline
  split
  · exact .refl engine
  · refine calm_folds fun engine row => ?_
    unfold settleOne
    split
    · exact .refl engine
    · exact dropped_calm engine row.1 _ _

theorem rejectOnline_calm (engine : Engine V D) (reason : Failure) : Calm engine (engine.rejectOnline reason) := by
  unfold rejectOnline
  dsimp only
  exact ((rejectAll_calm engine _ reason).trans (rejectAll_calm _ _ reason)).trans (calm_same rfl rfl rfl rfl rfl rfl rfl rfl rfl rfl)

theorem refresh_calm (weather : Weather) (always : Bool) (engine : Engine V D) : Ends (Calm engine) (engine.refresh weather always) := by
  have ran : ∀ {start : Engine V D}, Calm engine start → Ends (Calm engine) (start.runGraph weather) := by
    intro start before
    have same : ∀ after : Engine V D, after = {start with newQueries:=false,runs:=start.runs++[⟨start.core.store.base,start.overlay⟩]} →
        Calm engine after := by
      rintro after rfl
      exact before.trans (calm_same rfl rfl rfl rfl rfl rfl rfl rfl rfl rfl)
    unfold runGraph
    dsimp only
    split <;> exact same _ rfl
  have done : ∀ {ran : Except (Thrown V D) (Engine V D)}, Ends (Calm engine) ran →
      Ends (Calm engine) (ran >>= fun engine => .ok engine.settleOnline) := by
    intro ran ends
    exact ends.bind (fun _ => id) fun after calm => calm.trans (settleOnline_calm after)
  unfold refresh
  dsimp only
  split
  · exact done (ran (calm_same rfl rfl rfl rfl rfl rfl rfl rfl rfl rfl))
  · split
    · exact done (ran (calm_same rfl rfl rfl rfl rfl rfl rfl rfl rfl rfl))
    · exact done (show Ends _ (.ok _) from calm_same rfl rfl rfl rfl rfl rfl rfl rfl rfl rfl)

theorem startCalls_calm (engine : Engine V D) : Calm engine engine.startCalls := by
  obtain ⟨calls,same⟩ := startCalls_only engine
  rw [same]
  exact calm_same rfl rfl rfl rfl rfl rfl rfl rfl rfl rfl

theorem failOne_calm (engine : Engine V D) (id : Nat) : Calm engine (engine.failOne id) := by
  unfold failOne
  split
  · exact .refl engine
  · exact dropped_calm engine id _ _

theorem answer_calm (state : Engine V D × List Nat) (row : Nat × MutationResult) : Calm state.1 (answer state row).1 := by
  obtain ⟨engine,drop⟩ := state
  obtain ⟨id,result⟩ := row
  unfold answer
  dsimp only
  cases engine.core.outgoing.online.get id with
  | some online =>
    cases result with
    | ok position => exact calm_same rfl rfl rfl rfl rfl rfl rfl rfl rfl rfl
    | reject reason => exact dropped_calm engine id _ _
    | conflict current => exact dropped_calm engine id _ _
  | none =>
    dsimp only
    split
    · cases result with
      | reject reason => exact .refl engine
      | conflict current => exact .refl engine
      | ok position =>
        refine ⟨rfl,rfl,rfl,rfl,rfl,rfl,fun _ _ row => row,fun x o held => ⟨held,fun inside => inside,fun acked => ?_⟩,fun _ inside => inside⟩
        show (engine.core.outgoing.acked.set id _).get x ≠ none
        rw [OrderedMap.get_set]
        split
        · exact Option.some_ne_none _
        · exact acked
    · exact .refl engine

theorem outcomes_calm (outcomes : List MutationOutcome) (state : Engine V D × List Nat) :
    Calm state.1 (outcomes.foldl onOutcome state).1 := by
  refine foldl_invariant (P := fun s : Engine V D × List Nat => Calm state.1 s.1) (fun s outcome _ before => before.trans ?_) (.refl _)
  unfold onOutcome
  cases outcome.results with
  | none =>
    have fails : Calm s.1 (outcome.ids.foldl failOne s.1) := calm_folds failOne_calm
    exact fails.trans (calm_same rfl rfl rfl rfl rfl rfl rfl rfl rfl rfl)
  | some results =>
    exact foldl_invariant (P := fun s' : Engine V D × List Nat => Calm s.1 s'.1) (fun s' row _ before => before.trans (answer_calm s' row))
      (.refl s.1)

-- An Engine that ends hands nothing on.
theorem shutdown_lined (lined : engine.Lined) : engine.shutdown.Lined := by
  have stopped : Lined {engine with
      retryTimer:=false
      abortedConns:=engine.abortedConns++[engine.conn]
      connection:=false
      core:={engine.core with starts:=[]}
      backfillWork:=[]} := lined.kept rfl rfl rfl fun _ _ row => row
  exact (rejectOnline_calm _ _).lined stopped

theorem fail_lined (failure : Failure) (lined : engine.Lined) : (engine.fail failure).Lined := by
  have ended : Lined {engine with ended:=true} := lined.kept rfl rfl rfl fun _ _ row => row
  exact shutdown_lined ((rejectOnline_calm _ failure).lined ended)

namespace Minting

def mark (m : Minting V D) (series : Nat) : Stamp := (m.nextId,series,m.nextN)

-- Every mutation of the calls so far, and those of them that are in the outbox.
def wires (m : Minting V D) : List (Mutation D) := m.done.flatMap Prod.fst++m.wire
def boxed (m : Minting V D) : List (Mutation D) := (m.done.filter (·.2.isNone)).flatMap Prod.fst++m.wire

-- The calls so far take up the pending rows, and what is minted from there on, in order.
structure Lines (engine : Engine V D) (pending : List (Mutation D)) (m : Minting V D) : Prop where
  later : engine.stamp = m.mark engine.series ∨ Before engine.stamp (m.mark engine.series)
  rows : ∀ o x, m.core.store.mutations.get o = some x → Before x.stamp (m.mark engine.series)
  ordinals : ∀ o x, m.core.store.mutations.get o = some x → o < m.core.outgoing.nextOrdinal
  sorted : ∀ o o' x x', m.core.store.mutations.get o = some x → m.core.store.mutations.get o' = some x' → o < o' → Before x.stamp x'.stamp
  order : m.wires.Pairwise fun a b => Before a.stamp b.stamp
  below : ∀ x ∈ m.wires, Before x.stamp (m.mark engine.series)
  fresh : ∀ x ∈ m.wires, x ∈ pending ∨ engine.stamp = x.stamp ∨ Before engine.stamp x.stamp
  outbox : ∀ id o, m.core.outgoing.outbox.get id = some o → engine.core.outgoing.outbox.get id = some o ∨ ∃ x ∈ m.boxed, x.id = id
  sent : m.core.outgoing.sent = engine.core.outgoing.sent
  acked : m.core.outgoing.acked = engine.core.outgoing.acked
  boxes : ∀ x ∈ pending, x ∈ m.boxed

variable {pending : List (Mutation D)} {m final : Minting V D}

-- One more mutation, minted now, at the end of the calls.
theorem Lines.grow (lines : Lines engine pending m) {data : D} (x : Mutation D) (is : x = ⟨m.nextId,engine.series,m.nextN,data⟩)
    (id : final.nextId = m.nextId+1) (n : final.nextN = m.nextN+1) (wires : final.wires = m.wires++[x]) :
    (engine.stamp = final.mark engine.series ∨ Before engine.stamp (final.mark engine.series)) ∧
      Before (m.mark engine.series) (final.mark engine.series) ∧ x.stamp = m.mark engine.series ∧
      (final.wires.Pairwise fun a b => Before a.stamp b.stamp) ∧ (∀ y ∈ final.wires, Before y.stamp (final.mark engine.series)) ∧
      ∀ y ∈ final.wires, y ∈ pending ∨ engine.stamp = y.stamp ∨ Before engine.stamp y.stamp := by
  have stamped : x.stamp = m.mark engine.series := by
    rw [is]
    rfl
  have next : Before (m.mark engine.series) (final.mark engine.series) := by
    unfold mark Before
    dsimp only
    omega
  have later : engine.stamp = final.mark engine.series ∨ Before engine.stamp (final.mark engine.series) := by
    rcases lines.later with same | before
    · rw [same]
      exact .inr next
    · exact .inr (before.trans next)
  refine ⟨later,next,stamped,?_,fun y member => ?_,fun y member => ?_⟩
  · rw [wires]
    refine List.pairwise_append.mpr ⟨lines.order,List.pairwise_singleton _ x,fun a old b new => ?_⟩
    cases List.mem_singleton.mp new
    rw [stamped]
    exact lines.below a old
  · rw [wires] at member
    rcases List.mem_append.mp member with old | new
    · exact (lines.below y old).trans next
    · cases List.mem_singleton.mp new
      rw [stamped]
      exact next
  · rw [wires] at member
    rcases List.mem_append.mp member with old | new
    · exact lines.fresh y old
    · cases List.mem_singleton.mp new
      rw [stamped]
      exact .inr lines.later

theorem Lines.mint {submission : Submission D} (lines : Lines engine pending m) (ran : mintIn engine.series m submission = .ok final) :
    Lines engine pending final := by
  cases submission with
  | online data promise =>
    cases data with
    | none => cases ran
    | some data =>
      cases ran
      have wires : (⟨m.core,m.nextN+1,m.nextId+1,m.done++[(m.wire,none),([⟨m.nextId,engine.series,m.nextN,data⟩],some (m.nextId,⟨promise,none,false⟩))],
          [],m.fresh⟩ : Minting V D).wires = m.wires++[⟨m.nextId,engine.series,m.nextN,data⟩] := by
        simp [Minting.wires]
      have boxed : (⟨m.core,m.nextN+1,m.nextId+1,m.done++[(m.wire,none),([⟨m.nextId,engine.series,m.nextN,data⟩],some (m.nextId,⟨promise,none,false⟩))],
          [],m.fresh⟩ : Minting V D).boxed = m.boxed := by
        simp [Minting.boxed]
      obtain ⟨later,next,_,order,below,fresh⟩ := lines.grow _ rfl rfl rfl wires
      refine ⟨later,fun o x row => (lines.rows o x row).trans next,lines.ordinals,lines.sorted,order,below,fresh,?_,lines.sent,lines.acked,?_⟩
      · rw [boxed]
        exact lines.outbox
      · rw [boxed]
        exact lines.boxes
  | outbox data =>
    cases data with
    | none => cases ran
    | some data =>
      cases ran
      let x : Mutation D := ⟨m.nextId,engine.series,m.nextN,data⟩
      let last : Minting V D := {m with
        core:=m.core.withOutgoing (m.core.store.mutations.set m.core.outgoing.nextOrdinal x)
          {m.core.outgoing with outbox:=m.core.outgoing.outbox.set x.id m.core.outgoing.nextOrdinal,nextOrdinal:=m.core.outgoing.nextOrdinal+1}
        nextN:=m.nextN+1
        nextId:=m.nextId+1
        wire:=m.wire++[x]
        fresh:=true}
      have wires : last.wires = m.wires++[x] := by simp [Minting.wires,last]
      have boxed : last.boxed = m.boxed++[x] := by simp [Minting.boxed,last]
      obtain ⟨later,next,stamped,order,below,fresh⟩ := @Lines.grow V D engine pending m last lines _ x rfl rfl rfl wires
      have row : ∀ o, last.core.store.mutations.get o = if m.core.outgoing.nextOrdinal = o then some x else m.core.store.mutations.get o :=
        OrderedMap.get_set _ _ _
      show Lines engine pending last
      refine ⟨later,fun o y held => ?_,fun o y held => ?_,fun o o' y y' held held' less => ?_,order,below,fresh,fun id o held => ?_,
        lines.sent,lines.acked,fun y member => ?_⟩
      · rw [row] at held
        split at held
        · cases held
          rw [stamped]
          exact next
        · exact (lines.rows o y held).trans next
      · rw [row] at held
        show o < m.core.outgoing.nextOrdinal+1
        split at held
        · rename_i here
          omega
        · exact (lines.ordinals o y held).trans (Nat.lt_succ_self _)
      · rw [row] at held held'
        split at held'
        · cases held'
          split at held
          · omega
          · rw [stamped]
            exact lines.rows o y held
        · have low := lines.ordinals o' y' held'
          split at held
          · omega
          · exact lines.sorted o o' y y' held held' less
      · have held : (m.core.outgoing.outbox.set x.id m.core.outgoing.nextOrdinal).get id = some o := held
        rw [OrderedMap.get_set] at held
        rw [boxed]
        split at held
        · rename_i here
          exact .inr ⟨x,List.mem_append_right _ List.mem_cons_self,here⟩
        · rcases lines.outbox id o held with row | minted
          · exact .inl row
          · obtain ⟨y,member,same⟩ := minted
            exact .inr ⟨y,List.mem_append_left _ member,same⟩
      · rw [boxed]
        exact List.mem_append_left _ (lines.boxes y member)

end Minting

-- What is read row by row is what the rows hold.
theorem reads_rows {α β ε : Type} {g : α → Option β} {read : α → Except ε β} (reads : ∀ row m, read row = .ok m → g row = some m)
    {places : List α} {rows : List β} (ran : places.mapM read = .ok rows) : places.map g = rows.map some := by
  induction places generalizing rows with
  | nil =>
    cases ran
    rfl
  | cons row rest ih =>
    rw [List.mapM_cons] at ran
    obtain ⟨m,here,ran⟩ := bind_ok.mp ran
    obtain ⟨later,tail,ran⟩ := bind_ok.mp ran
    cases ran
    rw [List.map_cons,List.map_cons,ih tail,reads row m here]

-- The pending rows are in their order, and every mutation the connection was not handed is one.
theorem pendingRows_lines {rows : List (Mutation D)} (filed : engine.core.Filed) (lined : engine.Lined)
    (ran : pendingRows engine.core = .ok rows) :
    (rows.Pairwise fun a b => Before a.stamp b.stamp) ∧ (∀ m ∈ rows, ∃ o, engine.core.store.mutations.get o = some m) ∧
      ∀ id o, engine.core.outgoing.outbox.get id = some o → id ∉ engine.core.outgoing.sent → engine.core.outgoing.acked.get id = none →
        ∃ m ∈ rows, m.id = id := by
  unfold pendingRows at ran
  have total : Std.Total (fun a b : Nat × Nat => a.2 ≤ b.2) := ⟨fun a b => le_total a.2 b.2⟩
  have chain : IsTrans (Nat × Nat) (fun a b => a.2 ≤ b.2) := ⟨fun _ _ _ => le_trans⟩
  have read := reads_rows (g := fun row : Nat × Nat => engine.core.store.mutations.get row.2) (fun row m here => by
    cases held : engine.core.store.mutations.get row.2 with
    | none =>
      rw [held] at here
      cases here
    | some mutation =>
      rw [held] at here
      cases here
      rfl) ran
  generalize places : engine.core.outgoing.outbox.entries.filter
    (fun row => row.1 ∉ engine.core.outgoing.sent ∧ ¬engine.core.outgoing.acked.has row.1) = kept at read
  have member : ∀ row ∈ kept.insertionSort (fun a b => a.2 ≤ b.2), engine.core.outgoing.outbox.get row.1 = some row.2 := by
    intro row inside
    rw [List.mem_insertionSort,← places] at inside
    exact (engine.core.outgoing.outbox.mem_entries row.1 row.2).mp (List.mem_filter.mp inside).1
  have apart : (kept.insertionSort fun a b => a.2 ≤ b.2).Pairwise fun a b => a.1 ≠ b.1 := by
    have perm := (List.perm_insertionSort (fun a b : Nat × Nat => a.2 ≤ b.2) kept).map Prod.fst
    refine List.pairwise_map.mp (perm.nodup_iff.mpr ?_)
    rw [← places]
    exact (List.filter_sublist.map Prod.fst).nodup engine.core.outgoing.outbox.distinct
  have sorted : (kept.insertionSort fun a b => a.2 ≤ b.2).Pairwise fun a b => a.2 < b.2 := by
    refine ((List.pairwise_insertionSort (fun a b : Nat × Nat => a.2 ≤ b.2) kept).and apart).imp_of_mem fun {a b} left right both => ?_
    refine lt_of_le_of_ne both.1 fun same => both.2 ?_
    -- one row is of one mutation
    obtain ⟨m,row,is⟩ := (filed.rows a.1 a.2).mp (member a left)
    obtain ⟨m',row',is'⟩ := (filed.rows b.1 b.2).mp (member b right)
    rw [← same,row] at row'
    cases row'
    exact is.symm.trans is'
  refine ⟨?_,fun m inside => ?_,fun id o held unsent unacked => ?_⟩
  · have lines : ((kept.insertionSort fun a b => a.2 ≤ b.2).map fun row => engine.core.store.mutations.get row.2).Pairwise
        fun a b => ∀ m m', a = some m → b = some m' → Before m.stamp m'.stamp :=
      List.pairwise_map.mpr (sorted.imp fun less m m' row row' => lined.sorted _ _ m m' row row' less)
    rw [read] at lines
    exact (List.pairwise_map.mp lines).imp fun ordered => ordered _ _ rfl rfl
  · have inside : some m ∈ rows.map some := List.mem_map_of_mem inside
    rw [← read] at inside
    obtain ⟨row,_,is⟩ := List.mem_map.mp inside
    exact ⟨row.2,is⟩
  · have inside : (id,o) ∈ kept.insertionSort fun a b => a.2 ≤ b.2 := by
      rw [List.mem_insertionSort,← places,List.mem_filter]
      refine ⟨(engine.core.outgoing.outbox.mem_entries id o).mpr held,?_⟩
      have absent : ¬engine.core.outgoing.acked.has id = true := by
        rw [engine.core.outgoing.acked.has_iff]
        rintro ⟨position,acked⟩
        rw [unacked] at acked
        cases acked
      simpa using ⟨unsent,by simpa using absent⟩
    obtain ⟨m,row,same⟩ := (filed.rows id o).mp held
    have there : some m ∈ (kept.insertionSort fun a b => a.2 ≤ b.2).map fun row => engine.core.store.mutations.get row.2 :=
      List.mem_map.mpr ⟨(id,o),inside,row⟩
    rw [read] at there
    obtain ⟨m',member,is⟩ := List.mem_map.mp there
    cases is
    exact ⟨m,member,same⟩

-- What sending calls does.
structure Sent (calls : List (List (Mutation D) × Option (Nat × OnlineMutation))) (engine after : Engine V D) : Prop where
  conn : after.conn = engine.conn
  connection : after.connection = engine.connection
  resend : after.resend = engine.resend
  stamp : after.stamp = engine.stamp
  rows : after.core.store.mutations = engine.core.store.mutations
  outbox : after.core.outgoing.outbox = engine.core.outgoing.outbox
  acked : after.core.outgoing.acked = engine.core.outgoing.acked
  sends : ∀ call ∈ after.sends, call ∈ engine.sends ∨ call.conn = engine.conn ∧ ∃ sent ∈ calls, call.wire = sent.1
  on : ∀ conn, after.sentOn conn = engine.sentOn conn++if conn = engine.conn then calls.flatMap Prod.fst else []
  sent : ∀ id, id ∈ after.core.outgoing.sent ↔ id ∈ engine.core.outgoing.sent ∨ ∃ call ∈ calls, call.2 = none ∧ ∃ m ∈ call.1, m.id = id

theorem sendCall_sent (engine : Engine V D) (call : List (Mutation D) × Option (Nat × OnlineMutation)) :
    Sent [call] engine (engine.sendCall call) := by
  obtain ⟨wire,online⟩ := call
  unfold sendCall
  split
  · rename_i empty
    have empty : wire = [] := empty
    subst empty
    exact ⟨rfl,rfl,rfl,rfl,rfl,rfl,rfl,fun _ => .inl,fun conn => by simp,fun id => by simp⟩
  · have on : ∀ conn, ((engine.sends++[(⟨engine.conn,wire⟩ : SendCall D)]).filter (·.conn = conn)).flatMap SendCall.wire =
        engine.sentOn conn++if conn = engine.conn then [(wire,online)].flatMap Prod.fst else [] := by
      intro conn
      unfold sentOn
      rw [List.filter_append,List.flatMap_append]
      congr 1
      by_cases here : conn = engine.conn
      · simp [here]
      · simp [here,Ne.symm here]
    have sends : ∀ call ∈ engine.sends++[(⟨engine.conn,wire⟩ : SendCall D)], call ∈ engine.sends ∨ call.conn = engine.conn ∧
        ∃ sent ∈ [(wire,online)], call.wire = sent.1 := by
      intro call member
      rcases List.mem_append.mp member with old | new
      · exact .inl old
      · cases List.mem_singleton.mp new
        exact .inr ⟨rfl,_,List.mem_cons_self,rfl⟩
    cases online with
    | none =>
      refine ⟨rfl,rfl,rfl,rfl,rfl,rfl,rfl,sends,on,fun id => ?_⟩
      show id ∈ engine.core.outgoing.sent++(wire.map Mutation.id).filter (· ∉ engine.core.outgoing.sent) ↔ _
      rw [List.mem_append,List.mem_filter,List.mem_map,decide_eq_true_eq]
      constructor
      · rintro (old | ⟨⟨m,member,same⟩,_⟩)
        · exact .inl old
        · exact .inr ⟨_,List.mem_cons_self,rfl,m,member,same⟩
      · rintro (old | ⟨call,member,_,m,inside,same⟩)
        · exact .inl old
        · cases List.mem_singleton.mp member
          by_cases before : id ∈ engine.core.outgoing.sent
          · exact .inl before
          · exact .inr ⟨⟨m,inside,same⟩,before⟩
    | some row =>
      refine ⟨rfl,rfl,rfl,rfl,rfl,rfl,rfl,sends,on,fun id => ?_⟩
      show id ∈ engine.core.outgoing.sent ↔ _
      rw [or_iff_left]
      rintro ⟨call,member,none,_⟩
      cases List.mem_singleton.mp member
      cases none

theorem sends_sent (calls : List (List (Mutation D) × Option (Nat × OnlineMutation))) (engine : Engine V D) :
    Sent calls engine (calls.foldl sendCall engine) := by
  induction calls generalizing engine with
  | nil => exact ⟨rfl,rfl,rfl,rfl,rfl,rfl,rfl,fun _ => .inl,fun conn => by simp,fun id => by simp⟩
  | cons call rest ih =>
    have first := sendCall_sent engine call
    have later := ih (engine.sendCall call)
    refine ⟨later.conn.trans first.conn,later.connection.trans first.connection,later.resend.trans first.resend,
      later.stamp.trans first.stamp,later.rows.trans first.rows,later.outbox.trans first.outbox,later.acked.trans first.acked,
      fun sent member => ?_,fun conn => ?_,fun id => ?_⟩
    · rcases later.sends sent member with before | ⟨here,wire,inside,same⟩
      · rcases first.sends sent before with old | ⟨here,wire,inside,same⟩
        · exact .inl old
        · cases List.mem_singleton.mp inside
          exact .inr ⟨here,call,List.mem_cons_self,same⟩
      · exact .inr ⟨here.trans first.conn,wire,List.mem_cons_of_mem _ inside,same⟩
    · have both := later.on conn
      rw [first.on conn,first.conn,List.append_assoc] at both
      rw [List.foldl_cons,both]
      congr 1
      split <;> simp
    · refine (later.sent id).trans ?_
      rw [first.sent id]
      constructor
      · rintro ((old | ⟨sent,member,rest_⟩) | ⟨sent,member,rest_⟩)
        · exact .inl old
        · cases List.mem_singleton.mp member
          exact .inr ⟨call,List.mem_cons_self,rest_⟩
        · exact .inr ⟨sent,List.mem_cons_of_mem _ member,rest_⟩
      · rintro (old | ⟨sent,member,rest_⟩)
        · exact .inl (.inl old)
        · rcases List.mem_cons.mp member with rfl | member
          · exact .inl (.inr ⟨_,List.mem_cons_self,rest_⟩)
          · exact .inr ⟨sent,member,rest_⟩

-- The rows a new connection is resent: all it was not handed and that were not answered ok.
def Pends (engine : Engine V D) (pending : List (Mutation D)) : Prop :=
  (pending = [] ∨ engine.resend = true ∧ engine.connection = true) ∧
    (engine.resend = true → engine.connection = true → ∀ id o, engine.core.outgoing.outbox.get id = some o →
      id ∉ engine.core.outgoing.sent → engine.core.outgoing.acked.get id = none → ∃ x ∈ pending, x.id = id)

theorem submittedIn_lines {m : Minting V D} (filed : engine.core.Filed) (lined : engine.Lined) (made : engine.submittedIn = .ok m) :
    ∃ pending, m.Lines engine pending ∧ engine.Pends pending := by
  have runs : ∀ {pending : List (Mutation D)}, (pending.Pairwise fun a b => Before a.stamp b.stamp) →
      (∀ x ∈ pending, ∃ o, engine.core.store.mutations.get o = some x) →
      engine.submitted.foldlM (mintIn engine.series) {core:=engine.core,nextN:=engine.nextN,nextId:=engine.nextId,wire:=pending} = .ok m →
      m.Lines engine pending := by
    intro pending order rows ran
    refine foldlM_invariant (P := Minting.Lines engine pending) (fun m submission next _ lines minted => lines.mint minted) ?_ ran
    refine ⟨.inl rfl,lined.rows,filed.minted,lined.sorted,order,fun x member => ?_,fun x member => .inl member,fun id o held => .inl held,rfl,rfl,
      fun x member => member⟩
    obtain ⟨o,row⟩ := rows x member
    exact lined.rows o x row
  unfold submittedIn at made
  by_cases resends : engine.resend = true ∧ engine.connection = true
  · rw [if_pos resends] at made
    obtain ⟨pending,read,ran⟩ := bind_ok.mp made
    obtain ⟨order,rows,all⟩ := pendingRows_lines filed lined read
    exact ⟨pending,runs order rows ran,.inr resends,fun _ _ => all⟩
  · rw [if_neg resends] at made
    exact ⟨[],runs .nil (fun _ none => absurd none List.not_mem_nil) made,.inl rfl,fun resend going => absurd ⟨resend,going⟩ resends⟩

-- An Engine that has minted, and sent nothing of it yet.
structure Ready (engine : Engine V D) (m : Minting V D) (mid : Engine V D) : Prop where
  sends : mid.sends = engine.sends
  conn : mid.conn = engine.conn
  connection : mid.connection = engine.connection
  resend : mid.resend = false
  stamp : mid.stamp = m.mark engine.series
  ended : mid.ended = engine.ended
  rows : ∀ o x, mid.core.store.mutations.get o = some x → m.core.store.mutations.get o = some x
  outbox : ∀ id o, mid.core.outgoing.outbox.get id = some o → m.core.outgoing.outbox.get id = some o ∧
    (id ∈ m.core.outgoing.sent → id ∈ mid.core.outgoing.sent) ∧ (m.core.outgoing.acked.get id ≠ none → mid.core.outgoing.acked.get id ≠ none)
  sent : ∀ id ∈ mid.core.outgoing.sent, id ∈ m.core.outgoing.sent

theorem Ready.calm {m : Minting V D} {mid : Engine V D} (ready : Ready engine m mid) (calm : Calm mid after) : Ready engine m after where
  sends := calm.sends.trans ready.sends
  conn := calm.conn.trans ready.conn
  connection := calm.connection.trans ready.connection
  resend := calm.resend.trans ready.resend
  stamp := calm.stamp.trans ready.stamp
  ended := calm.ended.trans ready.ended
  rows o x row := ready.rows o x (calm.rows o x row)
  outbox id o held := by
    obtain ⟨middle,sent,acked⟩ := calm.outbox id o held
    obtain ⟨first,sent',acked'⟩ := ready.outbox id o middle
    exact ⟨first,fun inside => sent (sent' inside),fun held => acked (acked' held)⟩
  sent id inside := ready.sent id (calm.sent id inside)

theorem prepare_ready {mid : Engine V D} (turn : engine.turn = .submitted) (ran : engine.prepare = .ok mid) :
    ∃ m, engine.submittedIn = .ok m ∧ engine.callsOf = m.done++[(m.wire,none)] ∧ Ready engine m mid := by
  unfold prepare at ran
  unfold callsOf
  rw [turn] at ran
  dsimp only at ran
  cases made : engine.submittedIn with
  | error failure =>
    rw [made] at ran
    cases ran
  | ok m =>
    rw [made] at ran
    cases ran
    exact ⟨m,rfl,rfl,rfl,rfl,rfl,rfl,rfl,rfl,fun _ _ row => row,fun _ _ held => ⟨held,fun inside => inside,fun acked => acked⟩,
      fun _ inside => inside⟩

theorem Ready.lined {m : Minting V D} {mid : Engine V D} {pending : List (Mutation D)} (ready : Ready engine m mid)
    (lines : m.Lines engine pending) (lined : engine.Lined) : mid.Lined := by
  refine ⟨fun o x row => ?_,fun o o' x x' row row' => lines.sorted o o' x x' (ready.rows o x row) (ready.rows o' x' row'),
    fun call member => ?_,fun c => ?_⟩
  · rw [ready.stamp]
    exact lines.rows o x (ready.rows o x row)
  · rw [ready.sends] at member
    obtain ⟨low,minted⟩ := lined.sends call member
    refine ⟨by rw [ready.conn]; exact low,fun x inside => ?_⟩
    rw [ready.stamp]
    exact (minted x inside).later lines.later
  · unfold sentOn
    rw [ready.sends]
    exact lined.order c

-- The calls' mutations, all in all, and those of them that the outbox waits for.
theorem wires_calls (m : Minting V D) : (m.done++[(m.wire,none)]).flatMap Prod.fst = m.wires := by
  simp [Minting.wires]

theorem boxed_calls (m : Minting V D) (id : Nat) :
    (∃ call ∈ m.done++[(m.wire,none)], call.2 = none ∧ ∃ x ∈ call.1, x.id = id) ↔ ∃ x ∈ m.boxed, x.id = id := by
  unfold Minting.boxed
  constructor
  · rintro ⟨call,member,quiet,x,inside,same⟩
    refine ⟨x,?_,same⟩
    rcases List.mem_append.mp member with old | last
    · exact List.mem_append_left _ (List.mem_flatMap.mpr ⟨call,List.mem_filter.mpr ⟨old,by simp [quiet]⟩,inside⟩)
    · cases List.mem_singleton.mp last
      exact List.mem_append_right _ inside
  · rintro ⟨x,member,same⟩
    rcases List.mem_append.mp member with old | last
    · obtain ⟨call,member,inside⟩ := List.mem_flatMap.mp old
      obtain ⟨member,quiet⟩ := List.mem_filter.mp member
      exact ⟨call,List.mem_append_left _ member,by simpa using quiet,x,inside,same⟩
    · exact ⟨(m.wire,none),List.mem_append_right _ List.mem_cons_self,rfl,x,last,same⟩

-- What is lined up is handed on as it stands, once the graph has run.
theorem hand_lines {m : Minting V D} {mid : Engine V D} {pending : List (Mutation D)} (lined : engine.Lined) (held : engine.Handed)
    (turn : engine.turn = .submitted) (lines : m.Lines engine pending) (pends : engine.Pends pending)
    (calls : engine.callsOf = m.done++[(m.wire,none)]) (ready : Ready engine m mid) :
    (engine.hand mid).Lined ∧ (engine.hand mid).Handed := by
  have middle := ready.lined lines lined
  unfold hand
  rw [turn]
  dsimp only
  split
  · rename_i going
    rw [calls]
    have handed := sends_sent (m.done++[(m.wire,none)]) mid
    generalize (m.done++[(m.wire,none)]).foldl sendCall mid = after at handed
    have going : engine.connection = true := ready.connection.symm.trans going
    have inside : ∀ call ∈ m.done++[(m.wire,none)], ∀ x ∈ call.1, x ∈ m.wires := by
      intro call member x inside
      rw [← wires_calls]
      exact List.mem_flatMap.mpr ⟨call,member,inside⟩
    -- what this connection was handed before was minted before
    have cross : ∀ a ∈ mid.sentOn mid.conn, ∀ b ∈ m.wires, Before a.stamp b.stamp := by
      intro a old b new
      unfold sentOn at old
      rw [ready.sends,ready.conn] at old
      obtain ⟨call,member,there⟩ := List.mem_flatMap.mp old
      obtain ⟨member,here⟩ := List.mem_filter.mp member
      have minted := (lined.sends call member).2 a there
      rcases lines.fresh b new with resent | later
      · rcases pends.1 with none | ⟨resend,_⟩
        · rw [none] at resent
          exact absurd resent List.not_mem_nil
        · have fresh := held.fresh (.inr resend) call member
          have here : call.conn = engine.conn := by simpa using here
          omega
      · exact minted.later later
    have boxes : ∀ id, (∃ x ∈ m.boxed, x.id = id) → id ∈ after.core.outgoing.sent := fun id box =>
      (handed.sent id).mpr (.inr ((boxed_calls m id).mpr box))
    have kept : ∀ x ∈ mid.sentOn mid.conn, x ∈ after.sentOn after.conn := by
      intro x old
      rw [handed.conn,handed.on]
      exact List.mem_append_left _ old
    refine ⟨⟨fun o x row => ?_,fun o o' x x' row row' => ?_,fun call member => ?_,fun c => ?_⟩,⟨fun fresh => ?_,fun _ _ id o box => ?_,
      fun id sent => ?_⟩⟩
    · rw [handed.rows] at row
      rw [handed.stamp]
      exact middle.rows o x row
    · rw [handed.rows] at row row'
      exact middle.sorted o o' x x' row row'
    · rw [handed.conn,handed.stamp]
      rcases handed.sends call member with old | ⟨here,sent,member,wire⟩
      · exact middle.sends call old
      · refine ⟨le_of_eq here,fun x there => ?_⟩
        rw [wire] at there
        rw [ready.stamp]
        exact lines.below x (inside sent member x there)
    · rw [handed.on]
      split
      · rename_i here
        subst here
        rw [wires_calls]
        exact List.pairwise_append.mpr ⟨middle.order _,lines.order,cross⟩
      · rw [List.append_nil]
        exact middle.order c
    · rw [handed.connection,handed.resend,ready.connection,ready.resend,going] at fresh
      rcases fresh with none | none <;> cases none
    · rw [handed.outbox] at box
      rw [handed.acked]
      obtain ⟨boxed,sent,acked⟩ := ready.outbox id o box
      have passes : id ∈ engine.core.outgoing.sent ∨ engine.core.outgoing.acked.get id ≠ none →
          id ∈ after.core.outgoing.sent ∨ mid.core.outgoing.acked.get id ≠ none := by
        rintro (was | was)
        · exact .inl ((handed.sent id).mpr (.inl (sent (by rw [lines.sent]; exact was))))
        · exact .inr (acked (by rw [lines.acked]; exact was))
      rcases lines.outbox id o boxed with old | new
      · cases resend : engine.resend with
        | false => exact passes (held.handed going resend id o old)
        | true =>
          by_cases was : id ∈ engine.core.outgoing.sent ∨ engine.core.outgoing.acked.get id ≠ none
          · exact passes was
          · rw [not_or,not_not] at was
            obtain ⟨x,member,same⟩ := pends.2 resend going id o old was.1 was.2
            exact .inl (boxes id ⟨x,lines.boxes x member,same⟩)
      · exact .inl (boxes id new)
    · rcases (handed.sent id).mp sent with old | ⟨call,member,_,x,there,same⟩
      · have old := ready.sent id old
        rw [lines.sent] at old
        obtain ⟨x,there,same⟩ := held.sent id old
        refine ⟨x,kept x ?_,same⟩
        unfold sentOn
        rw [ready.sends,ready.conn]
        exact there
      · refine ⟨x,?_,same⟩
        rw [handed.conn,handed.on,if_pos rfl,wires_calls]
        exact List.mem_append_right _ (inside call member x there)
  · rename_i alone
    have alone : engine.connection = false := by
      rw [ready.connection] at alone
      simpa using alone
    have calm := rejectAll_calm mid ((onlines engine.callsOf).map (·.2.promise)) .noConnection
    refine ⟨calm.lined middle,calm.handed ⟨fun _ call member => ?_,fun going => ?_,fun id sent => ?_⟩⟩
    · rw [ready.sends] at member
      rw [ready.conn]
      exact held.fresh (.inl alone) call member
    · rw [ready.connection,alone] at going
      cases going
    · have old := ready.sent id sent
      rw [lines.sent] at old
      unfold sentOn
      rw [ready.sends,ready.conn]
      exact held.sent id old

theorem turn_connect (turn : engine.turn = .connect) : engine.connection = false := by
  unfold Engine.turn at turn
  split at turn
  · cases turn
  split at turn
  · cases turn
  split at turn
  · cases turn
  split at turn
  · cases turn
  split at turn
  · cases turn
  split at turn
  · cases turn
  split at turn
  · rename_i free
    simpa using free.1
  · cases turn

-- The end of a connection leaves the next one with nothing handed to it.
theorem onEnd_sends (lined : engine.Lined) : engine.onEnd.Lined ∧ engine.onEnd.Handed := by
  refine ⟨⟨lined.rows,lined.sorted,fun call member => ?_,lined.order⟩,⟨fun _ call member => ?_,fun none => (by cases none),fun _ none => (by cases none)⟩⟩
  · obtain ⟨low,minted⟩ := lined.sends call member
    exact ⟨low.trans (Nat.le_succ _),minted⟩
  · exact Nat.lt_succ_of_le (lined.sends call member).1

theorem onConnect_sends (lined : engine.Lined) (held : engine.Handed) (free : engine.connection = false) :
    engine.onConnect.Lined ∧ engine.onConnect.Handed := by
  have apart : ∀ names : List Name, engine.core.Apart (names.foldl Core.startBackfill engine.core) :=
    fun names => Core.apart_folds names Core.startBackfill_apart engine.core
  refine ⟨lined.kept rfl rfl rfl fun o m row => ?_,⟨fun _ => held.fresh (.inl free),fun _ none => (by cases none),fun id sent => ?_⟩⟩
  · have row : (List.foldl Core.startBackfill engine.core _).store.mutations.get o = some m := row
    rw [(apart _).rows] at row
    exact row
  · have sent : id ∈ (List.foldl Core.startBackfill engine.core _).outgoing.sent := sent
    rw [(apart _).outgoing] at sent
    exact held.sent id sent

end Engine

namespace Journal
open Engine
variable {filed entered : List Nat} {answers : List (Nat × MutationResult)} {nextId : Nat} {engine : Engine V D}

theorem Outboxed.calms (held : Outboxed filed answers entered nextId engine.core) (lined : engine.Lined) (handed : engine.Handed)
    (other : engine.turn ≠ .submitted) : Ends (fun after => after.Lined ∧ after.Handed ∧ after.ended = engine.ended) engine.prepare := by
  have calm : ∀ {after : Engine V D}, Calm engine after → after.Lined ∧ after.Handed ∧ after.ended = engine.ended :=
    fun calm => ⟨calm.lined lined,calm.handed handed,calm.ended⟩
  unfold Engine.prepare
  cases turn : engine.turn with
  | submitted => exact absurd turn other
  | queries | idle => exact calm (.refl engine)
  | outcomes =>
    have apart := Core.apart_folds engine.backfillOutcomes (Core.onOutcomeIn_apart engine.conn) engine.core
    exact calm (@moves_calm V D engine engine.onBackfillOutcomes _ _ apart.moves rfl rfl rfl rfl rfl rfl)
  | connect =>
    obtain ⟨lines,hands⟩ := onConnect_sends lined handed (turn_connect turn)
    exact ⟨lines,hands,rfl⟩
  | results =>
    dsimp only
    have first : Hearing answers [] engine.core (({engine with mutationOutcomes:=[]} : Engine V D),[]) := held.hearing rfl
    have all := first.outcomes (fun _ inside => held.apart_online inside) engine.mutationOutcomes
    have taken : Calm engine {engine with mutationOutcomes:=[]} := calm_same rfl rfl rfl rfl rfl rfl rfl rfl rfl rfl
    have heard := taken.trans (outcomes_calm engine.mutationOutcomes ({engine with mutationOutcomes:=[]},[]))
    have moves := (Core.releaseIn_moves (all.filed_of held.ledger.toFiled)
      (engine.mutationOutcomes.foldl Engine.onOutcome (({engine with mutationOutcomes:=[]} : Engine V D),[])).2).1
    exact calm (heard.trans (moves_calm moves rfl rfl rfl rfl rfl rfl))
  | inbox =>
    dsimp only
    have reads : ∀ rest items, Ends (fun after => after.Lined ∧ after.Handed ∧ after.ended = engine.ended)
        (do
          let engine ← engine.write (engine.core.onItemsIn items)
          return {engine with inbox:=rest}) := by
      intro rest items
      cases ran : engine.core.onItemsIn items with
      | error failure => exact calm (.refl engine)
      | ok core =>
        have moves := (Core.onItemsIn_enters ran held.ledger).2
        exact calm (moves_calm moves rfl rfl rfl rfl rfl rfl)
    cases queue : engine.inbox with
    | nil => exact reads [] []
    | cons item rest =>
      cases item with
      | opened | view | edits | live | vouch => exact reads _ _
      | ended fatal =>
        cases fatal with
        | true => exact calm (calm_same rfl rfl rfl rfl rfl rfl rfl rfl rfl rfl)
        | false =>
          have taken : Calm engine {engine with inbox:=rest} := calm_same rfl rfl rfl rfl rfl rfl rfl rfl rfl rfl
          obtain ⟨lines,hands⟩ := onEnd_sends (taken.lined lined)
          exact ⟨lines,hands,rfl⟩
  | pushes =>
    dsimp only
    generalize engine.backfillWork.filter (engine.core.accepts engine.conn) = pushes
    cases pushes with
    | nil =>
      rw [if_pos rfl]
      exact calm (calm_same rfl rfl rfl rfl rfl rfl rfl rfl rfl rfl)
    | cons work rest =>
      rw [if_neg (List.cons_ne_nil work rest)]
      cases ran : engine.core.onPushesIn (work :: rest) with
      | error failure => exact calm (calm_same rfl rfl rfl rfl rfl rfl rfl rfl rfl rfl)
      | ok core =>
        have moves := (Core.onPushesIn_enters ran held.ledger).2
        exact calm (moves_calm moves rfl rfl rfl rfl rfl rfl)

-- What an Engine has sent is in order, and while it runs, a connection has been handed its outbox.
structure Sending (engine : Engine V D) : Prop where
  lined : engine.Lined
  handed : engine.ended = false → engine.Handed

theorem Outboxed.pass_sends (weather : Weather) (held : Outboxed filed answers entered nextId engine.core) (sending : Sending engine) :
    Sending (engine.pass weather) := by
  have fails : ∀ {after : Engine V D} (failure : Failure), after.Lined → Sending (after.fail failure) := fun failure lined =>
    ⟨fail_lined failure lined,fun running => by rw [fail_ended] at running; cases running⟩
  cases taken : engine.takes with
  | none =>
    unfold Engine.takes at taken
    unfold Engine.pass
    split
    · exact sending
    · rename_i going
      split
      · have down := shutdown_lined sending.lined
        exact ⟨⟨down.rows,down.sorted,down.sends,down.order⟩,fun running => absurd running (by simp)⟩
      · rename_i free
        rw [if_neg (by simp [going,free])] at taken
        cases taken
  | some turn =>
    have began := startCalls_calm engine
    have started := held.quiet (startCalls_rests engine)
    have lined := began.lined sending.lined
    have handed := began.handed (sending.handed (takes_running taken))
    rw [(pass_takes weather taken).1,handle_parts]
    generalize engine.startCalls = engine at started lined handed
    by_cases submits : engine.turn = .submitted
    · cases ran : engine.prepare with
      | error thrown =>
        obtain ⟨failure,after⟩ := thrown
        refine fails failure ?_
        unfold Engine.prepare at ran
        rw [submits] at ran
        dsimp only at ran
        cases made : engine.submittedIn with
        | error reason =>
          rw [made] at ran
          cases ran
          have taken : Lined {engine with
              submitted:=[]
              resend:=false} := lined.kept rfl rfl rfl fun _ _ row => row
          exact (rejectAll_calm _ _ _).lined taken
        | ok m =>
          rw [made] at ran
          cases ran
      | ok mid =>
        obtain ⟨m,made,calls,ready⟩ := prepare_ready submits ran
        obtain ⟨pending,lines,pends⟩ := submittedIn_lines started.ledger.toFiled lined made
        have shows : engine.shows = true := by
          unfold Engine.shows
          rw [submits]
        have refreshed := refresh_calm weather false mid
        simp only [bind,Except.bind,shows,if_true]
        cases done : mid.refresh weather false with
        | error thrown =>
          obtain ⟨failure,after⟩ := thrown
          rw [done] at refreshed
          exact fails failure ((ready.calm refreshed).lined lines lined)
        | ok after =>
          rw [done] at refreshed
          obtain ⟨last,hands⟩ := hand_lines lined handed submits lines pends calls (ready.calm refreshed)
          exact ⟨last,fun _ => hands⟩
    · have calms := started.calms lined handed submits
      cases ran : engine.prepare with
      | error thrown =>
        obtain ⟨failure,after⟩ := thrown
        rw [ran] at calms
        exact fails failure calms.1
      | ok mid =>
        rw [ran] at calms
        obtain ⟨lines,hands,_⟩ := calms
        simp only [bind,Except.bind]
        split
        · have refreshed := refresh_calm weather false mid
          cases done : mid.refresh weather false with
          | error thrown =>
            obtain ⟨failure,after⟩ := thrown
            rw [done] at refreshed
            exact fails failure (Calm.lined refreshed lines)
          | ok after =>
            rw [done] at refreshed
            have same : engine.hand after = after := by
              unfold hand
              split
              · rename_i turn
                exact absurd turn submits
              · rfl
            show Sending (engine.hand after)
            rw [same]
            exact ⟨Calm.lined refreshed lines,fun _ => Calm.handed refreshed hands⟩
        · exact ⟨lines,fun _ => hands⟩

theorem react_calm {engine : Engine V D} {event : Engine.Event V D} (other : ∀ weather, event ≠ .pass weather) :
    Calm engine (engine.react event) := by
  obtain ⟨apart,_,_,_,_,ended⟩ := @react_quiet V D engine event other
  have same : (engine.react event).sends = engine.sends → (engine.react event).conn = engine.conn →
      (engine.react event).connection = engine.connection → (engine.react event).resend = engine.resend →
      (engine.react event).stamp = engine.stamp → Calm engine (engine.react event) := fun sends conn connection resend stamp =>
    moves_calm apart.moves sends conn connection resend stamp ended
  cases event with
  | pass weather => exact absurd rfl (other weather)
  | hook | push | backoff =>
    refine same ?_ ?_ ?_ ?_ ?_ <;>
    · unfold Engine.react
      dsimp only
      split <;> rfl
  | sendOnlineMutation data promise =>
    unfold Engine.react
    dsimp only
    split
    · exact settle_calm engine promise _
    · exact calm_same rfl rfl rfl rfl rfl rfl rfl rfl rfl rfl
  | outcome | results | retry | sendMutation | newQuery | reconnectNow | abort => exact same rfl rfl rfl rfl rfl

-- A new Engine starts a new series behind every row there is.
theorem start_sends {core : Core V D} {series : Nat} (held : Outboxed filed answers entered nextId core) (wants : List Name)
    (predictor : Option (Predictor V D)) (nextEntry : Nat) (weather : Weather)
    (rows : ∀ o m, core.store.mutations.get o = some m → m.series < series)
    (sorted : ∀ o o' m m', core.store.mutations.get o = some m → core.store.mutations.get o' = some m' → o < o' →
      Stamp.Before m.stamp m'.stamp) : Sending (Engine.start wants predictor core.store series nextId nextEntry weather) := by
  have loaded := loads_outboxed held nextEntry
  have start : ∀ core' : Core V D, (∀ o m, core'.store.mutations.get o = some m → core.store.mutations.get o = some m) →
      core'.outgoing.sent = [] → Engine.Lined {core:=core',predictor,series,nextId} ∧ Engine.Handed {core:=core',predictor,series,nextId} := by
    intro core' less unsent
    refine ⟨⟨fun o m row => ⟨?_,.inl (rows o m (less o m row))⟩,fun o o' m m' row row' => sorted o o' m m' (less o m row) (less o' m' row'),
      fun _ none => (by cases none),fun _ => .nil⟩,⟨fun _ _ none => (by cases none),fun none => (by cases none),fun id sent => ?_⟩⟩
    · have inside := (held.ledger.rows m.id o).mpr ⟨m,less o m row,rfl⟩
      exact held.filed m.id ((held.stays m.id).mp ⟨o,inside⟩).1
    · rw [unsent] at sent
      cases sent
  have unsent : (Core.load core.store nextEntry : Core V D).outgoing.sent = [] := by
    show (Core.loadOutbox core.store.mutations).sent = []
    unfold Core.loadOutbox
    exact foldl_invariant (P := fun outgoing : Outgoing => outgoing.sent = []) (fun _ _ _ before => before) rfl
  unfold Engine.start
  dsimp only
  cases ran : (Core.load core.store nextEntry : Core V D).purgeIn wants with
  | error failure =>
    refine ⟨fail_lined failure (start (Core.load core.store nextEntry) (fun _ _ row => row) unsent).1,fun running => ?_⟩
    have running : (Engine.fail failure {core:=Core.load core.store nextEntry,predictor,series,nextId}).ended = false := running
    rw [fail_ended] at running
    cases running
  | ok purged =>
    have moves := (Core.purgeIn_enters ran loaded.ledger).2
    have less : ∀ o m, purged.store.mutations.get o = some m → core.store.mutations.get o = some m := by
      intro o m row
      rw [moves.rows] at row
      exact (Option.filter_eq_some_iff.mp row).1
    have quiet : purged.outgoing.sent = [] := by
      refine List.eq_nil_iff_forall_not_mem.mpr fun id sent => ?_
      have before := (moves.sent id).1 sent
      rw [unsent] at before
      cases before
    obtain ⟨lined,handed⟩ := start purged less quiet
    have refreshed := refresh_calm weather true {core:=purged,predictor,series,nextId}
    show Sending (Engine.caught (Engine.refresh weather true {core:=purged,predictor,series,nextId}))
    cases made : Engine.refresh weather true {core:=purged,predictor,series,nextId} with
    | error thrown =>
      obtain ⟨failure,after⟩ := thrown
      rw [made] at refreshed
      refine ⟨fail_lined failure (Calm.lined refreshed lined),fun running => ?_⟩
      have running : (after.fail failure).ended = false := running
      rw [fail_ended] at running
      cases running
    | ok after =>
      rw [made] at refreshed
      exact ⟨Calm.lined refreshed lined,fun _ => Calm.handed refreshed handed⟩

theorem Kept.sends {j : Journal V D} (kept : Kept j) (sending : Sending j.engine) (happening : Happening V D) :
    Sending (j.next happening).engine := by
  cases happening with
  | restart wants weather =>
    refine start_sends kept.outboxed wants _ _ weather (fun o m row => ?_) sending.lined.sorted
    obtain ⟨_,older | ⟨same,_⟩⟩ := sending.lined.rows o m row
    · exact older.trans (Nat.lt_succ_self _)
    · exact Nat.lt_succ_of_le (le_of_eq same)
  | event event =>
    by_cases passes : ∃ weather, event = .pass weather
    · obtain ⟨weather,rfl⟩ := passes
      have sends := kept.outboxed.pass_sends weather sending
      have same : (j.pass weather).engine = j.engine.pass weather := by
        unfold Journal.pass
        cases j.engine.takes <;> rfl
      show Sending (j.pass weather).engine
      rw [same]
      exact sends
    · have other : ∀ weather, event ≠ .pass weather := fun weather is => passes ⟨weather,is⟩
      have calm := @react_calm V D j.engine event other
      have sends : Sending (j.engine.react event) := by
        refine ⟨calm.lined sending.lined,fun running => calm.handed (sending.handed ?_)⟩
        rw [← calm.ended]
        exact running
      cases event with
      | pass weather => exact absurd rfl (other weather)
      | hook | push | outcome | results | backoff | retry | sendMutation | newQuery | reconnectNow | abort | sendOnlineMutation => exact sends

-- In every run each connection is handed each mutation at most once, and those of a series in the
-- order of their numbers; and once a connection has had its resend, every mutation still in the
-- outbox is one it was handed, or one that was answered ok.
theorem sends_in_order {wants : List Name} {predictor : Option (Predictor V D)} {weather : Weather} {j : Journal V D}
    (path : machine.Reaches (first wants predictor weather) j) :
    (∀ conn, (j.engine.sentOn conn).Pairwise fun a b => a.id ≠ b.id ∧ (a.series = b.series → a.n < b.n)) ∧
    (j.engine.ended = false → j.engine.connection = true → j.engine.resend = false →
      ∀ id, (∃ ordinal, j.engine.core.outgoing.outbox.get id = some ordinal) →
        (∃ m ∈ j.engine.sentOn j.engine.conn, m.id = id) ∨ ∃ position, (id,.ok position) ∈ j.answers) := by
  have start : Kept (first wants predictor weather) ∧ Sending (first wants predictor weather).engine :=
    ⟨(first_kept wants predictor weather).1,start_sends first_outboxed wants predictor 0 weather (fun _ _ none => (by cases none))
      (fun _ _ _ _ none => (by cases none))⟩
  have both : Kept j ∧ Sending j.engine := path.invariant (P := fun j => Kept j ∧ Sending j.engine) start
    fun s happening held _ => ⟨(held.1.next happening).1,held.1.sends held.2 happening⟩
  obtain ⟨kept,sending⟩ := both
  refine ⟨fun conn => (sending.lined.order conn).imp fun {a b} before => ?_,fun running going done id inside => ?_⟩
  · unfold Stamp.Before Mutation.stamp at before
    dsimp only at before
    omega
  · obtain ⟨ordinal,box⟩ := inside
    have handed := sending.handed running
    rcases handed.handed going done id ordinal box with sent | acked
    · exact .inl (handed.sent id sent)
    · obtain ⟨position,low⟩ := Option.ne_none_iff_exists'.mp acked
      exact .inr ⟨position,kept.outboxed.told id position low⟩

-- A connection that ends unanswered, and the one after it.
def reconnecting : List (Happening Nat Nat) :=
  [.event (.sendMutation (some 5)),.event (.pass {}),.event (.pass {}),.event (.pass {}),.event (.hook 0 (.ended false)),.event (.pass {}),
    .event .retry,.event (.pass {}),.event (.pass {})]

def reconnected : Journal Nat Nat := reconnecting.foldl next (first [] none {})

theorem reconnected_resends : ∃ m ∈ reconnected.engine.sentOn reconnected.engine.conn, m.id = 0 := by
  have path : machine.Reaches (first [] none {}) reconnected := ⟨_,Machine.Runs.follow reconnecting fun s event member => by
    simp only [reconnecting,List.mem_cons,List.not_mem_nil,or_false] at member
    rcases member with rfl | rfl | rfl | rfl | rfl | rfl | rfl | rfl | rfl <;> exact trivial⟩
  have inside : ∃ ordinal, reconnected.engine.core.outgoing.outbox.get 0 = some ordinal := ⟨0,by decide⟩
  have answers : reconnected.answers = [] := by decide
  refine ((sends_in_order path).2 (by decide) (by decide) (by decide) 0 inside).resolve_right ?_
  rw [answers]
  rintro ⟨_,none⟩
  cases none

end Journal
end PhaseLock
