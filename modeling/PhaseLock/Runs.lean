import Mathlib.Data.List.Basic

namespace PhaseLock

-- A machine: which events a state admits, and the state each leaves.
structure Machine (σ ε : Type) where
  allowed : σ → ε → Prop
  next : σ → ε → σ

namespace Machine
variable {σ ε : Type}

inductive Runs (m : Machine σ ε) : σ → List ε → σ → Prop where
  | nil : Runs m s [] s
  | step : Runs m origin earlier middle → m.allowed middle event →
      Runs m origin (earlier++[event]) (m.next middle event)

def Reaches (m : Machine σ ε) (origin s : σ) : Prop := ∃ events, Runs m origin events s

-- The same machine, admitting only the events a further rule admits too.
def under (m : Machine σ ε) (rule : σ → ε → Prop) : Machine σ ε :=
  ⟨fun s event => m.allowed s event ∧ rule s event,m.next⟩

theorem Runs.append {m : Machine σ ε} (left : Runs m a first b) (right : Runs m b second c) :
    Runs m a (first++second) c := by
  induction right with
  | nil => simpa using left
  | step prior allowed ih => simpa only [List.append_assoc] using Runs.step ih allowed

theorem Runs.cons {m : Machine σ ε} (allowed : m.allowed s event) (rest : Runs m (m.next s event) events final) :
    Runs m s (event :: events) final := (Runs.step .nil allowed).append rest

-- What holds at the start and what every admitted event preserves holds of
-- every state a run reaches.
theorem Runs.invariant {m : Machine σ ε} {P : σ → Prop} (start : P origin)
    (preserved : ∀ s event, P s → m.allowed s event → P (m.next s event))
    (path : Runs m origin events s) : P s := by
  induction path with
  | nil => exact start
  | step prior allowed ih => exact preserved _ _ ih allowed

theorem Reaches.invariant {m : Machine σ ε} {P : σ → Prop} (start : P origin)
    (preserved : ∀ s event, P s → m.allowed s event → P (m.next s event))
    (reached : Reaches m origin s) : P s := by
  obtain ⟨events,path⟩ := reached
  exact path.invariant start preserved

-- A relation every step respects relates the ends of every run.
theorem Runs.related {m : Machine σ ε} {P : σ → Prop} {R : σ → σ → Prop}
    (refl : ∀ s, R s s) (trans : ∀ a b c, R a b → R b c → R a c)
    (preserved : ∀ s event, P s → m.allowed s event → P (m.next s event))
    (steps : ∀ s event, P s → m.allowed s event → R s (m.next s event))
    (start : P origin) (path : Runs m origin events s) : R origin s := by
  induction path with
  | nil => exact refl _
  | step prior allowed ih =>
    exact trans _ _ _ ih (steps _ _ (prior.invariant start preserved) allowed)

theorem Runs.weaken {m : Machine σ ε} {rule : σ → ε → Prop} (path : Runs (m.under rule) origin events s) :
    Runs m origin events s := by
  induction path with
  | nil => exact .nil
  | step prior allowed ih => exact .step ih allowed.1

theorem Runs.under_mono {m : Machine σ ε} {strong weak : σ → ε → Prop}
    (implied : ∀ s event, m.allowed s event → strong s event → weak s event)
    (path : Runs (m.under strong) origin events s) : Runs (m.under weak) origin events s := by
  induction path with
  | nil => exact .nil
  | step prior allowed ih => exact .step ih ⟨allowed.1,implied _ _ allowed.1 allowed.2⟩

-- A run of events that a rule admits everywhere obeys it.
theorem Runs.obeys {m : Machine σ ε} {rule : σ → ε → Prop} (path : Runs m origin events s)
    (admits : ∀ event ∈ events, ∀ s, rule s event) : Runs (m.under rule) origin events s := by
  induction path with
  | nil => exact .nil
  | step prior allowed ih =>
    exact .step (ih fun event member => admits event (List.mem_append_left _ member)) ⟨allowed,admits _ (by simp) _⟩

-- A machine's events determine where they lead.
theorem Runs.unique {m : Machine σ ε} (left : Runs m origin events s) (right : Runs m origin events t) : s = t := by
  induction left generalizing t with
  | nil =>
    generalize whole : ([] : List ε) = events at right
    cases right with
    | nil => rfl
    | step prior allowed => simp at whole
  | step prior allowed ih =>
    rename_i earlier middle event
    generalize whole : earlier++[event] = events at right
    cases right with
    | nil => simp at whole
    | step before _ =>
      obtain ⟨rfl,same⟩ := List.append_inj' whole rfl
      cases same
      rw [ih before]

-- A rule that is exactly when a property goes on: a run obeys it if and only if the property
-- holds in every state the run reaches.
theorem Runs.under_iff {m : Machine σ ε} {rule : σ → ε → Prop} {P : σ → Prop}
    (holds : ∀ {events s}, Runs (m.under rule) origin events s → P s)
    (breaks : ∀ {events s event}, Runs (m.under rule) origin events s → m.allowed s event → ¬rule s event → ¬P (m.next s event))
    (path : Runs m origin events s) :
    Runs (m.under rule) origin events s ↔ ∀ earlier later t, events = earlier++later → Runs m origin earlier t → P t := by
  constructor
  · intro obeys earlier later t split reached
    induction obeys generalizing later with
    | nil =>
      obtain ⟨rfl,rfl⟩ := List.append_eq_nil_iff.mp split.symm
      exact (reached.unique .nil) ▸ holds .nil
    | step prior allowed ih =>
      rcases List.eq_nil_or_concat later with rfl | ⟨front,final,rfl⟩
      · rw [List.append_nil] at split
        subst split
        have here := Runs.step prior allowed
        exact reached.unique here.weaken ▸ holds here
      · rw [List.concat_eq_append,← List.append_assoc] at split
        exact ih prior.weaken front (List.append_inj' split rfl).1
  · intro every
    induction path with
    | nil => exact .nil
    | step prior allowed ih =>
      rename_i earlier middle event
      have obeyed := ih fun before after t split reached => every before (after++[event]) t (by rw [split,List.append_assoc]) reached
      refine .step obeyed ⟨allowed,?_⟩
      by_contra broken
      exact breaks obeyed allowed broken (every (earlier++[event]) [] _ (by simp) (.step prior allowed))

-- A run computed from its events, for a machine whose rule is decidable.
def follow (m : Machine σ ε) [∀ s event, Decidable (m.allowed s event)] : σ → List ε → Option σ
  | s,[] => some s
  | s,event :: rest => if m.allowed s event then follow m (m.next s event) rest else none

theorem follow_runs (m : Machine σ ε) [∀ s event, Decidable (m.allowed s event)]
    (followed : m.follow s events = some final) : Runs m s events final := by
  induction events generalizing s with
  | nil =>
    simp only [follow,Option.some.injEq] at followed
    subst followed
    exact .nil
  | cons event rest ih =>
    simp only [follow] at followed
    split at followed
    · rename_i allowed
      exact (Runs.step Runs.nil allowed).append (ih followed)
    · cases followed

-- The end of a computed run has whatever a check of it finds.
theorem follow_finds (m : Machine σ ε) [∀ s event, Decidable (m.allowed s event)] (s : σ) (events : List ε)
    (check : σ → Bool) (found : (m.follow s events).map check = some true) : ∃ final, Runs m s events final ∧ check final = true := by
  cases followed : m.follow s events with
  | none => simp [followed] at found
  | some final => exact ⟨final,m.follow_runs followed,by simpa [followed] using found⟩

end Machine

-- Fallible steps.  A bind that succeeds is two successes in turn.
theorem bind_ok {α β ε : Type} {x : Except ε α} {f : α → Except ε β} {b : β} :
    (x >>= f) = .ok b ↔ ∃ a, x = .ok a ∧ f a = .ok b := by
  cases x with
  | error e => simp [bind,Except.bind]
  | ok a => simp [bind,Except.bind]

theorem foldlM_ok {α β ε : Type} {f : β → α → Except ε β} {head : α} {rest : List α} {start final : β} :
    (head :: rest).foldlM f start = .ok final ↔ ∃ middle, f start head = .ok middle ∧
      rest.foldlM f middle = .ok final := by
  rw [List.foldlM_cons,bind_ok]

-- What a fallible loop's steps preserve, the loop preserves.
theorem foldlM_invariant {α β ε : Type} {f : β → α → Except ε β} {P : β → Prop} {items : List α}
    {first last : β}
    (preserved : ∀ s item t, item ∈ items → P s → f s item = .ok t → P t)
    (start : P first) (ran : items.foldlM f first = .ok last) : P last := by
  induction items generalizing first with
  | nil =>
    simp only [List.foldlM_nil,pure,Except.pure,Except.ok.injEq] at ran
    exact ran ▸ start
  | cons head rest ih =>
    obtain ⟨middle,stepped,tail⟩ := foldlM_ok.mp ran
    exact ih (fun s item t member => preserved s item t (List.mem_cons_of_mem _ member))
      (preserved first head middle List.mem_cons_self start stepped) tail

theorem foldl_invariant {α β : Type} {f : β → α → β} {P : β → Prop} {items : List α} {first : β}
    (preserved : ∀ s item, item ∈ items → P s → P (f s item)) (start : P first) :
    P (items.foldl f first) := by
  induction items generalizing first with
  | nil => exact start
  | cons head rest ih =>
    exact ih (fun s item member => preserved s item (List.mem_cons_of_mem _ member))
      (preserved first head List.mem_cons_self start)

end PhaseLock
