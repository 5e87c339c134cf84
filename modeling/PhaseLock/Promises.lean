import PhaseLock.Overlays

namespace PhaseLock
variable {V D : Type}

namespace Engine

-- A promise the Engine has not lost: it has settled, or it is queued, or in flight.
def Awaits (engine : Engine V D) (promise : Nat) : Prop :=
  promise ∈ engine.settled.map Prod.fst ∨ promise ∈ engine.submitted.filterMap Submission.promise ∨
    ∃ id online, engine.core.outgoing.online.get id = some online ∧ online.promise = promise

-- Where an ok is due: its mutation was answered so, and an unfrozen base shows its round trip.
def Due (core : Core V D) (row : Nat × Settlement) : Prop :=
  ∀ position, row.2 = .resolved (.ok position) → ∃ id online, core.outgoing.online.get id = some online ∧ online.promise = row.1 ∧
    online.ack = some position ∧ (online.seen = true ∨ position ≤ core.applied) ∧ 0 ≤ core.applied ∧ core.frozen = false

-- A step that loses no promise but those it has in hand, and settles each once, ok where that is due.
structure Minds (core : Core V D) (hand : List Nat) (engine after : Engine V D) : Prop where
  awaits : ∀ promise, engine.Awaits promise → after.Awaits promise ∨ promise ∈ hand
  once : (engine.settled.map Prod.fst).Nodup → (after.settled.map Prod.fst).Nodup
  due : ∀ row ∈ after.settled, row ∈ engine.settled ∨ Due core row
  ended : after.ended = engine.ended

variable {core : Core V D} {hand : List Nat} {engine after a b c : Engine V D} {promise : Nat} {settlement : Settlement}

theorem Minds.refl (engine : Engine V D) : Minds core [] engine engine := ⟨fun _ => .inl,id,fun _ => .inl,rfl⟩

theorem Minds.trans {hand' : List Nat} (first : Minds core hand a b) (second : Minds core hand' b c) : Minds core (hand++hand') a c where
  awaits promise held := by
    rcases first.awaits promise held with middle | lost
    · rcases second.awaits promise middle with last | lost
      · exact .inl last
      · exact .inr (List.mem_append_right _ lost)
    · exact .inr (List.mem_append_left _ lost)
  once apart := second.once (first.once apart)
  due row member := by
    rcases second.due row member with middle | due
    · exact first.due row middle
    · exact .inr due
  ended := second.ended.trans first.ended

-- What leaves the promises alone.
theorem minds_same (settled : after.settled = engine.settled) (submitted : after.submitted = engine.submitted)
    (online : after.core.outgoing.online = engine.core.outgoing.online) (ended : after.ended = engine.ended) :
    Minds core [] engine after := by
  refine ⟨fun promise held => .inl ?_,fun apart => ?_,fun row member => .inl ?_,ended⟩
  · unfold Awaits
    rw [settled,submitted,online]
    exact held
  · rw [settled]
    exact apart
  · rw [← settled]
    exact member

theorem Due.congr {core' : Core V D} {row : Nat × Settlement} (due : Due core row) (online : core'.outgoing.online = core.outgoing.online)
    (applied : core'.applied = core.applied) (backfills : core'.backfills = core.backfills) : Due core' row := by
  unfold Due Core.frozen
  rw [online,applied,backfills]
  exact due

theorem due_refused (refused : ∀ position, settlement ≠ .resolved (.ok position)) : Due core (promise,settlement) :=
  fun position is => absurd is (refused position)

theorem settle_settles (engine : Engine V D) (promise : Nat) (settlement : Settlement) :
    promise ∈ (engine.settle promise settlement).settled.map Prod.fst := by
  unfold settle
  split
  · rename_i before
    exact before
  · simp

theorem settle_keeps (engine : Engine V D) (promise : Nat) (settlement : Settlement) {other : Nat}
    (before : other ∈ engine.settled.map Prod.fst) : other ∈ (engine.settle promise settlement).settled.map Prod.fst := by
  unfold settle
  split
  · exact before
  · rw [List.map_append]
    exact List.mem_append_left _ before

theorem settle_minds (engine : Engine V D) (due : Due core (promise,settlement)) :
    Minds core [] engine (engine.settle promise settlement) := by
  refine ⟨fun other held => .inl ?_,fun apart => ?_,fun row member => ?_,?_⟩
  · rcases held with settled | rest
    · exact .inl (settle_keeps engine promise settlement settled)
    · refine .inr ?_
      unfold settle
      split <;> exact rest
  · unfold settle
    split
    · exact apart
    · rename_i fresh
      rw [List.map_append]
      refine List.Nodup.append apart (List.nodup_singleton promise) fun other before new => ?_
      rw [List.mem_singleton.mp new] at before
      exact fresh before
  · unfold settle at member
    split at member
    · exact .inl member
    · rcases List.mem_append.mp member with old | new
      · exact .inl old
      · cases List.mem_singleton.mp new
        exact .inr due
  · unfold settle
    split <;> rfl

theorem minds_folds {α : Type} {f : Engine V D → α → Engine V D} {items : List α} {engine : Engine V D}
    (each : ∀ engine item, Minds core [] engine (f engine item)) : Minds core [] engine (items.foldl f engine) :=
  foldl_invariant (P := Minds core [] engine) (fun s item _ before => before.trans (each s item)) (.refl engine)

theorem rejectAll_minds (engine : Engine V D) (promises : List Nat) (reason : Failure) :
    Minds core [] engine (engine.rejectAll promises reason) :=
  minds_folds fun engine _ => settle_minds engine (due_refused fun _ is => by cases is)

theorem rejectAll_keeps (engine : Engine V D) (promises : List Nat) (reason : Failure) {other : Nat}
    (before : other ∈ engine.settled.map Prod.fst) : other ∈ (engine.rejectAll promises reason).settled.map Prod.fst :=
  foldl_invariant (P := fun s : Engine V D => other ∈ s.settled.map Prod.fst) (fun s promise _ before => settle_keeps s promise _ before) before

theorem rejectAll_settles (engine : Engine V D) (promises : List Nat) (reason : Failure) :
    ∀ promise ∈ promises, promise ∈ (engine.rejectAll promises reason).settled.map Prod.fst := by
  induction promises generalizing engine with
  | nil => exact fun _ none => absurd none List.not_mem_nil
  | cons first rest ih =>
    intro promise member
    rcases List.mem_cons.mp member with rfl | later
    · exact rejectAll_keeps _ rest reason (settle_settles engine promise _)
    · exact ih _ promise later

-- A promise settles as it leaves the table.
theorem dropped_minds {id : Nat} (alone : ∀ online, engine.core.outgoing.online.get id = some online → online.promise = promise)
    (due : Due core (promise,settlement)) :
    Minds core [] engine ((engine.out {engine.core.outgoing with online:=engine.core.outgoing.online.del id}).settle promise settlement) := by
  have dropped : Minds core [promise] engine (engine.out {engine.core.outgoing with online:=engine.core.outgoing.online.del id}) := by
    refine ⟨fun other held => ?_,fun apart => apart,fun row => .inl,rfl⟩
    rcases held with settled | queued | ⟨x,online,sent,same⟩
    · exact .inl (.inl settled)
    · exact .inl (.inr (.inl queued))
    · by_cases here : id = x
      · subst here
        exact .inr (List.mem_singleton.mpr (same.symm.trans (alone online sent)))
      · refine .inl (.inr (.inr ⟨x,online,?_,same⟩))
        show (engine.core.outgoing.online.del id).get x = some online
        rw [OrderedMap.get_del,if_neg here]
        exact sent
  have settles := settle_minds (engine.out {engine.core.outgoing with online:=engine.core.outgoing.online.del id}) due
  refine ⟨fun other held => .inl ?_,fun apart => settles.once (dropped.once apart),(dropped.trans settles).due,
    (dropped.trans settles).ended⟩
  rcases dropped.awaits other held with kept | lost
  · exact (settles.awaits other kept).resolve_right List.not_mem_nil
  · cases List.mem_singleton.mp lost
    exact .inl (settle_settles _ promise settlement)

-- The Engine's end settles all that is left.
theorem rejectOnline_settles (engine : Engine V D) (reason : Failure) (held : engine.Awaits promise) :
    promise ∈ (engine.rejectOnline reason).settled.map Prod.fst := by
  unfold rejectOnline
  dsimp only
  rcases held with settled | queued | ⟨id,online,sent,rfl⟩
  · exact rejectAll_keeps _ _ reason (rejectAll_keeps engine _ reason settled)
  · exact rejectAll_keeps _ _ reason (rejectAll_settles engine _ reason promise queued)
  · refine rejectAll_settles _ _ reason online.promise (List.mem_map.mpr ⟨(id,online),?_,rfl⟩)
    exact (engine.core.outgoing.online.mem_entries id online).mpr sent

theorem rejectOnline_minds (engine : Engine V D) (reason : Failure) : Minds core [] engine (engine.rejectOnline reason) := by
  have rejected : Minds core [] engine ((engine.rejectAll (engine.submitted.filterMap Submission.promise) reason).rejectAll
      (engine.core.outgoing.online.entries.map (·.2.promise)) reason) :=
    (rejectAll_minds engine _ reason).trans (rejectAll_minds _ _ reason)
  exact ⟨fun promise held => .inl (.inl (rejectOnline_settles engine reason held)),rejected.once,rejected.due,rejected.ended⟩

theorem shutdown_settles (engine : Engine V D) (held : engine.Awaits promise) : promise ∈ engine.shutdown.settled.map Prod.fst := by
  unfold shutdown
  exact rejectOnline_settles _ _ held

theorem shutdown_minds (engine : Engine V D) : Minds core [] engine engine.shutdown := by
  have stopped : Minds core [] engine {engine with
      retryTimer:=false
      abortedConns:=engine.abortedConns++[engine.conn]
      connection:=false
      core:={engine.core with starts:=[]}
      backfillWork:=[]} := minds_same rfl rfl rfl rfl
  exact stopped.trans (rejectOnline_minds _ _)

theorem fail_settles (failure : Failure) (engine : Engine V D) (held : engine.Awaits promise) :
    promise ∈ (engine.fail failure).settled.map Prod.fst := by
  unfold fail
  exact shutdown_settles _ (.inl (rejectOnline_settles _ failure held))

theorem fail_minds (failure : Failure) (engine : Engine V D) : Minds core [] {engine with ended:=true} (engine.fail failure) :=
  (rejectOnline_minds _ failure).trans (shutdown_minds _)

-- The round trips a refresh settles.
theorem settleOnline_minds (engine : Engine V D) : Minds engine.core [] engine engine.settleOnline := by
  unfold settleOnline
  split
  · exact .refl engine
  · rename_i shows
    rw [not_or] at shows
    obtain ⟨based,thawed⟩ := shows
    refine (foldl_invariant (P := fun s : Engine V D => Minds engine.core [] engine s ∧ s.core.applied = engine.core.applied ∧
      ∀ id online, s.core.outgoing.online.get id = some online → engine.core.outgoing.online.get id = some online)
      (fun s row member before => ?_) ⟨.refl engine,rfl,fun _ _ => id⟩).1
    obtain ⟨minds,applied,older⟩ := before
    have sent := (engine.core.outgoing.online.mem_entries row.1 row.2).mp member
    unfold settleOne
    cases trip : roundTripped s.core row.2 with
    | none => exact ⟨minds,applied,older⟩
    | some position =>
      have due : Due engine.core (row.2.promise,.resolved (.ok position)) := by
        intro other is
        cases is
        unfold roundTripped at trip
        split at trip
        · cases trip
        · rename_i acked
          split at trip
          · rename_i shown
            cases trip
            rw [applied] at shown
            exact ⟨row.1,row.2,sent,rfl,acked,shown,not_lt.mp based,by simpa using thawed⟩
          · cases trip
      refine ⟨minds.trans (dropped_minds (fun online here => ?_) due),?_,fun id online here => ?_⟩
      · rw [older row.1 online here] at sent
        cases sent
        rfl
      · rw [Journal.settle_core]
        exact applied
      · rw [Journal.settle_core] at here
        have here : (s.core.outgoing.online.del row.1).get id = some online := here
        rw [OrderedMap.get_del] at here
        split at here
        · cases here
        · exact older id online here

theorem refresh_minds (weather : Weather) (always : Bool) (engine : Engine V D) :
    Ends (Minds engine.core [] engine) (engine.refresh weather always) := by
  have ran : ∀ {start : Engine V D}, start.settled = engine.settled → start.submitted = engine.submitted →
      start.ended = engine.ended → start.core.outgoing.online = engine.core.outgoing.online → start.core.applied = engine.core.applied →
      start.core.backfills = engine.core.backfills → Ends (fun after => Minds engine.core [] engine after ∧
        after.core.outgoing.online = engine.core.outgoing.online ∧ after.core.applied = engine.core.applied ∧
        after.core.backfills = engine.core.backfills) (start.runGraph weather) := by
    intro start settled submitted ended online applied backfills
    unfold runGraph
    dsimp only
    split <;> exact ⟨minds_same settled submitted online ended,online,applied,backfills⟩
  have done : ∀ {ran : Except (Thrown V D) (Engine V D)}, Ends (fun after => Minds engine.core [] engine after ∧
        after.core.outgoing.online = engine.core.outgoing.online ∧ after.core.applied = engine.core.applied ∧
        after.core.backfills = engine.core.backfills) ran →
      Ends (Minds engine.core [] engine) (ran >>= fun engine => .ok engine.settleOnline) := by
    intro ran ends
    refine ends.bind (fun _ => And.left) fun after held => ?_
    obtain ⟨minds,online,applied,backfills⟩ := held
    have settles := settleOnline_minds after
    exact minds.trans ⟨settles.awaits,settles.once,fun row member =>
      (settles.due row member).imp_right fun due => due.congr online.symm applied.symm backfills.symm,settles.ended⟩
  unfold refresh
  dsimp only
  split
  · exact done (ran rfl rfl rfl rfl rfl rfl)
  · split
    · exact done (ran rfl rfl rfl rfl rfl rfl)
    · exact done (show Ends _ (.ok _) from ⟨minds_same rfl rfl rfl rfl,rfl,rfl,rfl⟩)

end Engine
end PhaseLock
