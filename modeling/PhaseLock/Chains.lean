import PhaseLock.Land

namespace PhaseLock
variable {V : Type} {log : List (WireEdit V)} {slice : Name}

-- Edits of one slice in seq order, as a store keeps those it parked.
structure Run (log : List (WireEdit V)) (slice : Name) (edits : List (WireEdit V)) : Prop where
  sorted : edits.Pairwise (fun a b => a.seq < b.seq)
  logged : ∀ e ∈ edits, e ∈ log ∧ e.slice = slice

theorem Run.tail (run : Run log slice (e :: rest)) : Run log slice rest :=
  ⟨(List.pairwise_cons.mp run.sorted).2,fun x member => run.logged x (List.mem_cons_of_mem _ member)⟩

theorem Run.first (run : Run log slice (e :: rest)) (valid : ValidLog log) {x : WireEdit V} (member : x ∈ rest) :
    e.seq < x.seq ∧ e.position < x.position := by
  have later := (List.pairwise_cons.mp run.sorted).1 x member
  obtain ⟨here,same⟩ := run.logged e List.mem_cons_self
  obtain ⟨there,also⟩ := run.logged x (List.mem_cons_of_mem _ member)
  exact ⟨later,(valid.seq_lt here there (same.trans also.symm)).mp later⟩

-- The first edit after a position takes the slice's state there to its own.
theorem serverState_next (valid : ValidLog log) {e : WireEdit V} (member : e ∈ log) (same : e.slice = slice)
    (past : p < e.position) (first : ∀ x ∈ log, x.slice = slice → p < x.position → e.position ≤ x.position) :
    serverState log slice e.position = e.apply (serverState log slice p) := by
  have ordered := valid.edits_ordered slice
  have chained := valid.edits_chained slice
  unfold serverState
  rw [History.stateAt_between ordered (le_of_lt past)]
  have members : ∀ x, x ∈ History.between WireEdit.position (editsOf log slice) p e.position ↔ x = e := by
    intro x
    rw [History.mem_between,mem_editsOf]
    constructor
    · rintro ⟨⟨logged,equal⟩,above,below⟩
      exact valid.position_eq logged member (equal.trans same.symm)
        (le_antisymm below (first x logged equal above))
    · rintro rfl
      exact ⟨⟨member,same⟩,past,le_rfl⟩
  have fresh : (History.between WireEdit.position (editsOf log slice) p e.position).Pairwise
      (fun a b => a.position < b.position ∧ a.seq < b.seq) := chained.filter _
  generalize History.between WireEdit.position (editsOf log slice) p e.position = segment at members fresh
  match segment with
  | [] => exact absurd ((members e).mpr rfl) (by simp)
  | [only] => rw [(members only).mp (by simp)]; rfl
  | a :: b :: rest =>
    have before := (List.pairwise_cons.mp fresh).1 b (by simp)
    rw [(members a).mp (by simp),(members b).mp (by simp)] at before
    omega

-- The edits left of a run from a position on: every one of the log up to the end,
-- each past what the chain has reached.
structure Rest (log : List (WireEdit V)) (slice : Name) (p last : Int) (edits : List (WireEdit V)) : Prop where
  run : Run log slice edits
  past : ∀ e ∈ edits, p < e.position ∧ e.position ≤ last
  whole : ∀ e ∈ log, e.slice = slice → p < e.position → e.position ≤ last → e ∈ edits

theorem Rest.next (rest : Rest log slice p last (e :: more)) (valid : ValidLog log) : Rest log slice e.position last more where
  run := rest.run.tail
  past := fun x member => ⟨(rest.run.first valid member).2,(rest.past x (List.mem_cons_of_mem _ member)).2⟩
  whole := by
    intro x logged same above below
    have here := (rest.past e List.mem_cons_self).1
    rcases List.mem_cons.mp (rest.whole x logged same (by omega) below) with rfl | member
    · omega
    · exact member

theorem Rest.state (rest : Rest log slice p last (e :: more)) (valid : ValidLog log) :
    serverState log slice e.position = e.apply (serverState log slice p) := by
  obtain ⟨logged,same⟩ := rest.run.logged e List.mem_cons_self
  obtain ⟨past,under⟩ := rest.past e List.mem_cons_self
  refine serverState_next valid logged same past ?_
  intro x member equal above
  by_contra below
  rcases List.mem_cons.mp (rest.whole x member equal above (by omega)) with rfl | later
  · omega
  · have order := (rest.run.first valid later).2
    omega

-- What a chain has: unbroken, its run folds the base to the state it has reached.
structure Chains (log : List (WireEdit V)) (slice : Name) (base : Option (SliceState V)) (p : Int) (chain : Chain V) : Prop where
  folds : chain.gap = false → chain.run.foldl (fun s e => e.apply s) base = serverState log slice p
  broken : chain.gap = true → chain.run = []

theorem reset_apply {e : WireEdit V} (reset : e.lifecycle ≠ .normal) (s t : Option (SliceState V)) : e.apply s = e.apply t := by
  unfold WireEdit.apply
  cases kind : e.lifecycle with
  | normal => exact absurd kind reset
  | birth => rfl
  | death => rfl

-- An edit that is not skipped: it resets the run, breaks it, or goes on with it.
theorem Chains.step {chain : Chain V} (chains : Chains log slice base p chain)
    (state : serverState log slice e.position = e.apply (serverState log slice p))
    (skips : ¬(e.position ≤ cut ∨ chain.last.any (e.seq ≤ ·) = true)) :
    Chains log slice base e.position (chain.step cut e) ∧ (chain.step cut e).last = some e.seq ∧
      ∃ front, chain.run++[e] = front++(chain.step cut e).run := by
  unfold Chain.step
  rw [if_neg skips]
  by_cases reset : e.lifecycle ≠ .normal
  · rw [if_pos reset]
    refine ⟨⟨fun _ => ?_,by simp⟩,rfl,chain.run,rfl⟩
    rw [state]
    exact reset_apply reset _ _
  · rw [if_neg reset]
    by_cases gap : chain.gap = true ∨ chain.last.map (·+1) ≠ some e.seq
    · rw [if_pos gap]
      exact ⟨⟨by simp,fun _ => rfl⟩,rfl,chain.run++[e],by simp⟩
    · rw [if_neg gap]
      simp only [not_or,Bool.not_eq_true] at gap
      refine ⟨⟨fun _ => ?_,by simp [gap.1]⟩,rfl,[],by simp⟩
      rw [List.foldl_append,chains.folds gap.1,state]
      rfl

-- A chain over the edits left ends with the state at the end.
theorem Chains.run {chain : Chain V} (valid : ValidLog log) (chains : Chains log slice base p chain)
    (rest : Rest log slice p last edits) (seqs : ∀ n ∈ chain.last, ∀ e ∈ edits, n < e.seq)
    (above : ∀ e ∈ edits, cut < e.position) :
    Chains log slice base (max p last) (edits.foldl (Chain.step cut) chain) ∧
      ∃ front, chain.run++edits = front++(edits.foldl (Chain.step cut) chain).run := by
  induction edits generalizing chain p with
  | nil =>
    refine ⟨⟨?_,chains.broken⟩,[],by simp⟩
    intro whole
    rw [List.foldl_nil,chains.folds whole]
    refine (serverState_quiet valid (le_max_left _ _) ?_).symm
    intro e member same past
    by_contra under
    exact absurd (rest.whole e member same past (by omega)) (by simp)
  | cons e more ih =>
    have skips : ¬(e.position ≤ cut ∨ chain.last.any (e.seq ≤ ·) = true) := by
      rintro (below | early)
      · have spanned := above e List.mem_cons_self; omega
      · obtain ⟨n,held,le⟩ := Option.any_eq_true _ _ |>.mp early
        have spanned := seqs n held e List.mem_cons_self
        simp only [decide_eq_true_eq] at le
        omega
    obtain ⟨stepped,lastSeq,front,joined⟩ := chains.step (rest.state valid) skips
    obtain ⟨ends,front',joined'⟩ := ih stepped (rest.next valid)
      (by rw [lastSeq]; rintro n same x member; cases same; exact (rest.run.first valid member).1)
      (fun x member => above x (List.mem_cons_of_mem _ member))
    obtain ⟨past,under⟩ := rest.past e List.mem_cons_self
    refine ⟨?_,front++front',?_⟩
    · rw [List.foldl_cons,max_eq_right (by omega)]
      rwa [max_eq_right under] at ends
    · rw [List.foldl_cons,List.append_assoc,← joined',← List.append_assoc,← joined]
      simp

-- A slice's parked edits over a base that is the log's state at a position: the
-- edits at or below it skip, or are the death that left the slice as it is there.
theorem chain_lands (valid : ValidLog log) (run : Run log slice edits) (under : ∀ e ∈ edits, e.position ≤ last)
    (whole : ∀ e ∈ log, e.slice = slice → p < e.position → e.position ≤ last → e ∈ edits) (cutLe : cut ≤ p)
    (old : ∀ e ∈ edits, e.position ≤ p →
      (e.position ≤ cut ∨ ((serverState log slice p).map SliceState.seq).any (e.seq ≤ ·) = true) ∨
      e.lifecycle = .death ∧ ∀ d ∈ log, d.slice = slice → d.lifecycle = .death → e.position < d.position → p < d.position) :
    let chain := edits.foldl (Chain.step cut) ⟨(serverState log slice p).map SliceState.seq,[],false⟩
    Chains log slice (serverState log slice p) (max p last) chain ∧ ∃ front, edits = front++chain.run := by
  have start : Chains log slice (serverState log slice p) p ⟨(serverState log slice p).map SliceState.seq,[],false⟩ :=
    ⟨fun _ => rfl,by simp⟩
  have seqs : ∀ e ∈ edits, p < e.position → ∀ n ∈ (serverState log slice p).map SliceState.seq, n < e.seq := by
    intro e member past n held
    obtain ⟨state,live,rfl⟩ := Option.map_eq_some_iff.mp held
    obtain ⟨logged,same⟩ := run.logged e member
    have exact_ := serverState_some valid live logged same
    by_contra less
    have early := exact_.mp (by omega)
    omega
  dsimp only
  induction edits with
  | nil => exact start.run valid ⟨run,by simp,whole⟩ (by simp) (by simp)
  | cons e more ih =>
    obtain ⟨logged,same⟩ := run.logged e List.mem_cons_self
    by_cases skip : e.position ≤ cut ∨ ((serverState log slice p).map SliceState.seq).any (e.seq ≤ ·) = true
    · have stays : Chain.step cut ⟨(serverState log slice p).map SliceState.seq,[],false⟩ e =
          ⟨(serverState log slice p).map SliceState.seq,[],false⟩ := by
        unfold Chain.step; rw [if_pos skip]
      have early : e.position ≤ p := by
        by_contra past
        rcases skip with below | seq
        · omega
        · obtain ⟨n,held,le⟩ := Option.any_eq_true _ _ |>.mp seq
          have spanned := seqs e List.mem_cons_self (by omega) n held
          simp only [decide_eq_true_eq] at le
          omega
      obtain ⟨ends,front,joined⟩ := ih run.tail (fun x member => under x (List.mem_cons_of_mem _ member))
        (by
          intro x member equal past below
          rcases List.mem_cons.mp (whole x member equal past below) with rfl | later
          · omega
          · exact later)
        (fun x member => old x (List.mem_cons_of_mem _ member))
        (fun x member => seqs x (List.mem_cons_of_mem _ member))
      rw [List.foldl_cons,stays]
      exact ⟨ends,e :: front,by rw [List.cons_append,← joined]⟩
    · by_cases early : e.position ≤ p
      · -- the death the base already stands after
        obtain ⟨dead,alone⟩ := (old e List.mem_cons_self early).resolve_left skip
        have gone : serverState log slice p = none := by
          cases state : serverState log slice p with
          | none => rfl
          | some s =>
            have seq := (serverState_some valid state logged same).mpr early
            exact absurd (.inr (by simpa [state] using seq)) skip
        have after : ∀ x ∈ more, p < x.position := by
          intro x member
          by_contra still
          obtain ⟨seqLt,posLt⟩ := run.first valid member
          rcases old x (List.mem_cons_of_mem _ member) (by omega) with (below | seq) | ⟨also,_⟩
          · exact skip (.inl (by omega))
          · simp [gone] at seq
          · obtain ⟨loggedX,sameX⟩ := run.logged x (List.mem_cons_of_mem _ member)
            have far := alone x loggedX sameX also posLt
            omega
        have stepped : Chain.step cut ⟨(serverState log slice p).map SliceState.seq,[],false⟩ e = ⟨some e.seq,[e],false⟩ := by
          unfold Chain.step
          rw [if_neg skip,if_pos (by rw [dead]; decide)]
        have chains : Chains log slice (serverState log slice p) p ⟨some e.seq,[e],false⟩ := by
          refine ⟨fun _ => ?_,by simp⟩
          rw [gone,List.foldl_cons,List.foldl_nil,WireEdit.apply,dead]
        rw [List.foldl_cons,stepped]
        refine chains.run valid ⟨run.tail,fun x member => ⟨after x member,under x (List.mem_cons_of_mem _ member)⟩,?_⟩
          (by rintro n equal x member; cases equal; exact (run.first valid member).1) ?_
        · intro x member equal past below
          rcases List.mem_cons.mp (whole x member equal past below) with rfl | later
          · omega
          · exact later
        · intro x member
          have far := after x member
          omega
      · have after : ∀ x ∈ e :: more, p < x.position := by
          intro x member
          rcases List.mem_cons.mp member with rfl | later
          · omega
          · have far := (run.first valid later).2
            omega
        exact start.run valid ⟨run,fun x member => ⟨after x member,under x member⟩,whole⟩
          (fun n held x member => seqs x member (after x member) n held)
          (fun x member => by have far := after x member; omega)

end PhaseLock
