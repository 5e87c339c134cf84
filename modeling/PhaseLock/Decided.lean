import PhaseLock.Handovers

namespace PhaseLock
variable {V D : Type}

namespace Journal
open Engine
variable {P : WireEdit V → Prop} {j : Journal V D} {event : Engine.Event V D}

theorem next_engine (j : Journal V D) (event : Engine.Event V D) : (j.next (.event event)).engine = j.engine.react event := by
  cases event with
  | pass weather =>
    show (j.pass weather).engine = j.engine.pass weather
    unfold Journal.pass
    cases j.engine.takes <;> rfl
  | hook | push | outcome | results | backoff | retry | sendMutation | newQuery | reconnectNow | abort | sendOnlineMutation => rfl

theorem Kept.advances (kept : Kept j) (sending : Sending j.engine) (event : Engine.Event V D) :
    (∃ wires extra, Advance j.engine (j.engine.react event) wires extra) ∧
      ∀ outcome ∈ (j.engine.react event).mutationOutcomes, outcome ∈ j.engine.mutationOutcomes ∨ event = .results outcome := by
  by_cases passes : ∃ weather, event = .pass weather
  · obtain ⟨weather,rfl⟩ := passes
    obtain ⟨advance,bears⟩ := @Outboxed.pass_advances V D (fun _ => True) _ _ _ _ j.engine weather kept.outboxed sending
    exact ⟨advance,fun outcome member => .inl (bears.2 member)⟩
  · have other : ∀ weather, event ≠ .pass weather := fun weather is => passes ⟨weather,is⟩
    exact ⟨⟨[],[],(react_calm other).silent.advance⟩,react_told other⟩

theorem Kept.carries (kept : Kept j) (sending : Sending j.engine) (held : j.engine.Carries P) (all : ∀ e ∈ event.carried, P e) :
    (j.engine.react event).Carries P := by
  by_cases passes : ∃ weather, event = .pass weather
  · obtain ⟨weather,rfl⟩ := passes
    exact (kept.outboxed.pass_advances weather sending).2.1 held
  · exact react_carries (fun weather is => passes ⟨weather,is⟩) held all

-- What an event adds to what was filed, heard and entered.
theorem next_filed (j : Journal V D) (event : Engine.Event V D) : ∀ id ∈ j.filed, id ∈ (j.next (.event event)).filed := by
  intro id member
  cases event with
  | pass weather =>
    show id ∈ (j.pass weather).filed
    unfold Journal.pass
    cases j.engine.takes with
    | none => exact member
    | some turn => exact List.mem_append_left _ member
  | hook | push | outcome | results | backoff | retry | sendMutation | newQuery | reconnectNow | abort | sendOnlineMutation => exact member

theorem next_answers (j : Journal V D) (event : Engine.Event V D) : ∀ row ∈ (j.next (.event event)).answers, row ∈ j.answers ∨
    ∃ outcome ∈ j.engine.mutationOutcomes, ∃ results, outcome.results = some results ∧ row ∈ outcome.ids.zip results := by
  intro row member
  cases event with
  | pass weather =>
    have member : row ∈ (j.pass weather).answers := member
    unfold Journal.pass at member
    cases taken : j.engine.takes with
    | none =>
      rw [taken] at member
      exact .inl member
    | some turn =>
      rw [taken] at member
      rcases List.mem_append.mp member with old | new
      · exact .inl old
      · refine .inr ?_
        have new := (List.mem_filter.mp new).1
        unfold Engine.heard at new
        split at new
        · obtain ⟨outcome,inside,zipped⟩ := List.mem_flatMap.mp new
          refine ⟨outcome,(startCalls_leaves j.engine).told inside,?_⟩
          cases is : outcome.results with
          | none =>
            rw [is,Option.getD_none,List.zip_nil_right] at zipped
            cases zipped
          | some results =>
            rw [is] at zipped
            exact ⟨results,rfl,zipped⟩
        · cases new
  | hook | push | outcome | results | backoff | retry | sendMutation | newQuery | reconnectNow | abort | sendOnlineMutation => exact .inl member

theorem next_entered (held : j.engine.Carries P) (event : Engine.Event V D) : ∀ id ∈ (j.next (.event event)).entered, id ∈ j.entered ∨
    id < j.engine.nextId ∧ ∃ e, P e ∧ e.id = id := by
  intro id member
  cases event with
  | pass weather =>
    have member : id ∈ (j.pass weather).entered := member
    unfold Journal.pass at member
    cases taken : j.engine.takes with
    | none =>
      rw [taken] at member
      exact .inl member
    | some turn =>
      rw [taken] at member
      rcases List.mem_append.mp member with old | new
      · exact .inl old
      · obtain ⟨new,low⟩ := List.mem_filter.mp new
        obtain ⟨e,inside,is⟩ := List.mem_map.mp new
        exact .inr ⟨by simpa using low,e,((startCalls_leaves j.engine).carries held).entering e inside,is⟩
  | hook | push | outcome | results | backoff | retry | sendMutation | newQuery | reconnectNow | abort | sendOnlineMutation => exact .inl member

end Journal

namespace Exchange
open Stamp Engine
variable {wiring : Wiring} {s after : Exchange V D} {x y : Mutation D}

-- A step of the Engine that mints and sends some mutations behind all there were.
theorem Holds.moves {journal : Journal V D} {pipe : Pipe D} {told : List MutationOutcome} {outbox handed wires : List (Mutation D)}
    (held : s.Holds wiring) (kept : Journal.Kept journal) (sending : Journal.Sending journal.engine) (bound : journal.engine.nextId ≤ wiring.own)
    (grows : s.Grows {s with journal,pipe,told,outbox,handed})
    (new : ∀ x, Known {s with journal,pipe,told,outbox,handed} x → s.Known x ∨ x ∈ wires ∧ ∀ y, s.Known y → Before y.stamp x.stamp)
    (order : wires.Pairwise fun a b => Before a.stamp b.stamp)
    (below : ∀ x, Known {s with journal,pipe,told,outbox,handed} x → Before x.stamp journal.engine.stamp)
    (rows : ∀ o x, journal.engine.core.store.mutations.get o = some x → x ∈ outbox)
    (sends : ∀ call ∈ journal.engine.sends, ∀ x ∈ call.wire, x ∈ handed)
    (sent : ∀ x ∈ journal.engine.sentOn journal.engine.conn, x ∈ s.sent ∨ x ∈ s.outbox ∨ ∀ y, s.Known y → Before y.stamp x.stamp)
    (piped : Piped wiring {s with journal,pipe,told,outbox,handed}) (tells : ∀ outcome ∈ told, outcome ∈ s.told)
    (queued : ∀ outcome ∈ journal.engine.mutationOutcomes, s.Tells wiring outcome)
    (answers : ∀ row ∈ journal.answers, s.Hears wiring row.1 row.2)
    (entered : ∀ id ∈ journal.entered, ∃ x, s.Known x ∧ x.id = id ∧ wiring.Settled s.db.answered x)
    (carries : journal.engine.Carries (wiring.Logged s.db))
    (stays : ∀ o, ∀ x ∈ s.outbox, s.journal.engine.core.store.mutations.get o = some x →
      (∃ o, journal.engine.core.store.mutations.get o = some x) ∨
        Journal.Done journal.answers journal.entered journal.engine.core.applied x.id)
    (files : ∀ x ∈ outbox, x ∈ s.outbox ∨ ∃ o, journal.engine.core.store.mutations.get o = some x) :
    Holds wiring {s with journal,pipe,told,outbox,handed} where
  kept := kept
  sending := sending
  bound := bound
  rows := rows
  sends := sends
  below := below
  linear x y kx ky := by
    rcases new x kx with old | ⟨inside,above⟩
    · rcases new y ky with old' | ⟨_,above'⟩
      · exact held.linear x y old old'
      · exact .inr (.inl (above' x old))
    · rcases new y ky with old' | ⟨inside',_⟩
      · exact .inr (.inr (above y old'))
      · by_cases same : x = y
        · exact .inl same
        · have sym : Std.Symm fun a b : Mutation D => Before a.stamp b.stamp ∨ Before b.stamp a.stamp := ⟨fun _ _ => Or.symm⟩
          have either : wires.Pairwise fun a b => Before a.stamp b.stamp ∨ Before b.stamp a.stamp := order.imp fun before => .inl before
          exact .inr (either.forall inside inside' same)
  posted p member := grows.posts (held.posted p member)
  ahead p member y inside x there before := by
    rcases sent x there with old | stored | above
    · exact (held.ahead p member y inside x old before).imp (grows.outbox x) id
    · exact .inl (grows.outbox x stored)
    · exact absurd (above y ((held.posted p member).of_known inside)) before.asymm
  piped := piped
  path := held.path
  tracks := grows.tracks held.posted held.tracks
  waiting row member := grows.whole held.posted (List.prefix_refl _) (held.waiting row member)
  replied row member := grows.whole held.posted (List.prefix_refl _) (held.replied row member)
  told outcome member := grows.tells (held.told outcome (tells outcome member))
  queued outcome member := grows.tells (queued outcome member)
  answers row member := grows.hears (answers row member)
  entered id member := by
    obtain ⟨x,known,rest⟩ := entered id member
    exact ⟨x,grows.known known,rest⟩
  carries := carries
  left x member := by
    rcases files x member with old | stored
    · rcases held.left x old with row | settled
      · obtain ⟨o,row⟩ := row
        rcases stays o x old row with stored | done
        · exact .inl stored
        · refine .inr ?_
          rcases done with edit | ⟨position,answer,_⟩ | ⟨result,answer,_⟩
          · obtain ⟨y,known,same,settled⟩ := entered x.id edit
            rwa [held.same (.inl old) known same.symm]
          · exact held.settles (.inl old) rfl (answers _ answer)
          · exact held.settles (.inl old) rfl (answers _ answer)
      · exact .inr settled
    · exact .inl stored

-- An edit of this client's that enters its base is of a mutation that was decided.
theorem Holds.enters {id : Nat} {e : WireEdit V} (held : s.Holds wiring) (low : id < s.journal.engine.nextId) (logged : wiring.Logged s.db e)
    (is : e.id = id) : ∃ x, s.Known x ∧ x.id = id ∧ wiring.Settled s.db.answered x := by
  obtain ⟨row,member,edit,read,same⟩ := logged (by rw [is]; exact low.trans_le held.bound)
  obtain ⟨a,inside,listed⟩ := List.mem_flatMap.mp member
  obtain ⟨x,known,named,names,settles⟩ := held.tracks.made a (held.committed.subset inside) row listed edit read
    (by rw [same,is]; exact low.trans_le held.bound)
  exact ⟨x,known,named.trans (same.trans is),a,inside,names,settles⟩

-- The pipe, once the Engine has sent what it lined up.
theorem Piped.sends {journal : Journal V D} {outbox handed : List (Mutation D)} {extra : List (List (Mutation D))} (piped : s.Piped wiring)
    (grows : s.Grows {s with journal,pipe:=s.pipe.sendMutations extra,outbox,handed})
    (more : journal.engine.sentOn journal.engine.conn = s.sent++extra.flatten) :
    Piped wiring {s with journal,pipe:=s.pipe.sendMutations extra,outbox,handed} := by
  obtain ⟨⟨done,lost,parts,settled,open_⟩,idle,first⟩ := piped
  cases ended : s.pipe.ended with
  | true =>
    have same : s.pipe.sendMutations extra = s.pipe := by
      unfold Pipe.sendMutations
      rw [if_pos ended]
    rw [same] at grows ⊢
    refine ⟨⟨done,lost++extra.flatten,?_,settled,fun closed => ?_⟩,idle,fun call rest is => ?_⟩
    · show journal.engine.sentOn journal.engine.conn = _
      rw [more,parts,List.append_assoc]
    · have closed : s.pipe.ended = false := closed
      rw [ended] at closed
      cases closed
    · obtain ⟨size,hears,settled,request⟩ := first call rest is
      exact ⟨size,fun row member => grows.hears (hears row member),settled,request⟩
  | false =>
    have same : s.pipe.sendMutations extra = {s.pipe with calls:=s.pipe.calls++extra} := by
      unfold Pipe.sendMutations
      rw [if_neg (by simp [ended])]
    rw [same] at grows ⊢
    refine ⟨⟨done,[],?_,settled,fun _ => rfl⟩,fun none => idle (List.append_eq_nil_iff.mp none).1,fun call rest is => ?_⟩
    · show journal.engine.sentOn journal.engine.conn = _
      rw [more,parts,open_ ended]
      simp
    · cases calls : s.pipe.calls with
      | nil =>
        obtain ⟨free,empty⟩ := idle calls
        have request : ∀ asked, s.pipe.request ≠ some asked := fun asked is => by
          rw [free] at is
          cases is
        show s.pipe.results.length ≤ call.length ∧ _
        refine ⟨by simp [empty],fun row none => ?_,fun x none => ?_,fun asked is => absurd is (request asked)⟩
        · have none : row ∈ (call.map Mutation.id).zip s.pipe.results := none
          rw [empty,List.zip_nil_right] at none
          cases none
        · have none : x ∈ call.take s.pipe.results.length := none
          rw [empty] at none
          simp at none
      | cons head behind =>
        have is : s.pipe.calls++extra = call :: rest := is
        rw [calls] at is
        cases is
        obtain ⟨size,hears,settled,request⟩ := first _ _ calls
        exact ⟨size,fun row member => grows.hears (hears row member),settled,request⟩

-- A pipe with nothing to send yet.
theorem piped_fresh {journal : Journal V D} {told : List MutationOutcome} {outbox handed : List (Mutation D)}
    (none : journal.engine.sentOn journal.engine.conn = []) : Piped wiring {s with journal,pipe:={},told,outbox,handed} :=
  ⟨⟨[],[],none,fun _ none => (by cases none),fun _ => rfl⟩,fun _ => ⟨rfl,rfl⟩,fun _ _ none => (by cases none)⟩

theorem sentOn_extra {engine next : Engine V D} {extra : List (SendCall D)} (sends : next.sends = engine.sends++extra)
    (here : ∀ call ∈ extra, call.conn = engine.conn) (conn : next.conn = engine.conn) :
    next.sentOn next.conn = engine.sentOn engine.conn++(extra.map SendCall.wire).flatten := by
  have all : extra.filter (·.conn = engine.conn) = extra := List.filter_eq_self.mpr fun call member => by simpa using here call member
  unfold sentOn
  rw [sends,conn,List.filter_append,List.flatMap_append,all,← List.flatMap_def]

theorem Holds.happens {event : Engine.Event V D} (held : s.Holds wiring) (allowed : s.Allowed wiring (.engine (.event event))) :
    Holds wiring (s.engineSteps (.event event)) := by
  obtain ⟨_,bound,brings⟩ := allowed
  have kept := (held.kept.next (.event event)).1
  have sending := held.kept.sends held.sending (.event event)
  have engine := Journal.next_engine s.journal event
  obtain ⟨⟨wires,extra,advance⟩,told⟩ := held.kept.advances held.sending event
  rw [← engine] at advance told
  have carried : ∀ e ∈ event.carried, wiring.Logged s.db e := by
    intro e member
    cases event with
    | hook | push => exact brings e member
    | pass | outcome | results | backoff | retry | sendMutation | newQuery | reconnectNow | abort | sendOnlineMutation => cases member
  have carries := held.kept.carries held.sending held.carries carried
  rw [← engine] at carries
  have answers := Journal.next_answers s.journal event
  have entered := Journal.next_entered held.carries event
  have filed := Journal.next_filed s.journal event
  unfold engineSteps
  dsimp only
  generalize s.journal.next (.event event) = journal at *
  -- what is lined up is of the outbox already, or behind all there is
  have lined : ∀ x ∈ wires, x ∈ s.outbox ∨ s.journal.engine.stamp = x.stamp ∨ Before s.journal.engine.stamp x.stamp := by
    intro x member
    refine (advance.fresh x member).imp (fun stored => ?_) id
    obtain ⟨o,row⟩ := stored
    exact held.rows o x row
  have above : ∀ x : Mutation D, s.journal.engine.stamp = x.stamp ∨ Before s.journal.engine.stamp x.stamp → ∀ y, s.Known y → Before y.stamp x.stamp :=
    fun x later y known => (held.below y known).later later
  have extras : (journal.engine.sends.drop s.journal.engine.sends.length).map SendCall.wire = extra.map SendCall.wire := by
    rw [advance.sends,List.drop_left]
  rw [extras]
  have wired : ∀ x ∈ (extra.map SendCall.wire).flatten, x ∈ wires := by
    intro x member
    obtain ⟨wire,listed,inside⟩ := List.mem_flatten.mp member
    obtain ⟨call,there,rfl⟩ := List.mem_map.mp listed
    exact (advance.calls call there).2.2 x inside
  generalize minted : (journal.engine.core.store.mutations.scan.map Prod.snd).filter (s.journal.engine.nextId ≤ ·.id) = fresh
  have stored : ∀ x ∈ fresh, (∃ o, journal.engine.core.store.mutations.get o = some x) ∧ s.journal.engine.nextId ≤ x.id := by
    intro x member
    rw [← minted] at member
    obtain ⟨member,low⟩ := List.mem_filter.mp member
    obtain ⟨⟨o,m⟩,inside,rfl⟩ := List.mem_map.mp member
    exact ⟨⟨o,(OrderedMap.mem_scan _ _ _).mp inside⟩,by simpa using low⟩
  have new : ∀ x ∈ fresh, x ∈ wires ∧ (s.journal.engine.stamp = x.stamp ∨ Before s.journal.engine.stamp x.stamp) := by
    intro x member
    obtain ⟨⟨o,row⟩,high⟩ := stored x member
    have older : ∀ o, s.journal.engine.core.store.mutations.get o ≠ some x := fun o row => by
      have low : x.id < s.journal.engine.nextId := (held.below x (.inl (held.rows o x row))).1
      omega
    have member := (advance.rows o x row).resolve_left (older o)
    refine ⟨member,(advance.fresh x member).resolve_left ?_⟩
    rintro ⟨o,row⟩
    exact older o row
  have rows : ∀ o x, journal.engine.core.store.mutations.get o = some x → x ∈ s.outbox++fresh := by
    intro o x row
    rcases advance.rows o x row with old | inside
    · exact List.mem_append_left _ (held.rows o x old)
    · rcases lined x inside with old | later
      · exact List.mem_append_left _ old
      · refine List.mem_append_right _ ?_
        rw [← minted]
        refine List.mem_filter.mpr ⟨List.mem_map.mpr ⟨(o,x),(OrderedMap.mem_scan _ _ _).mpr row,rfl⟩,?_⟩
        have high : s.journal.engine.nextId ≤ x.id := by
          rcases later with same | before
          · exact le_of_eq (congrArg Prod.fst same)
          · exact le_of_lt before.1
        simpa using high
  have grows : ∀ pipe : Pipe D, s.Grows {s with
      journal
      pipe
      outbox:=s.outbox++fresh
      handed:=s.handed++(extra.map SendCall.wire).flatten} := fun pipe =>
    ⟨fun _ => List.mem_append_left _,fun _ => List.mem_append_left _,fun _ => id,fun x member =>
      (List.mem_append.mp member).imp id fun made => above x (new x made).2,List.prefix_refl _⟩
  have known : ∀ x, x ∈ s.outbox++fresh ∨ x ∈ s.handed++(extra.map SendCall.wire).flatten → s.Known x ∨
      x ∈ wires ∧ ∀ y, s.Known y → Before y.stamp x.stamp := by
    rintro x (box | hand)
    · rcases List.mem_append.mp box with old | made
      · exact .inl (.inl old)
      · exact .inr ⟨(new x made).1,above x (new x made).2⟩
    · rcases List.mem_append.mp hand with old | made
      · exact .inl (.inr old)
      · rcases lined x (wired x made) with old | later
        · exact .inl (.inl old)
        · exact .inr ⟨wired x made,above x later⟩
  have sent : ∀ x ∈ journal.engine.sentOn journal.engine.conn, x ∈ s.sent ∨ x ∈ s.outbox ∨ ∀ y, s.Known y → Before y.stamp x.stamp := by
    intro x member
    obtain ⟨call,inside,there⟩ := List.mem_flatMap.mp member
    obtain ⟨inside,here⟩ := List.mem_filter.mp inside
    have here : call.conn = journal.engine.conn := by simpa using here
    rw [advance.sends] at inside
    rcases List.mem_append.mp inside with old | made
    · have same : journal.engine.conn = s.journal.engine.conn :=
        le_antisymm (here ▸ (held.sending.lined.sends call old).1) advance.conn
      exact .inl (List.mem_flatMap.mpr ⟨call,List.mem_filter.mpr ⟨old,by simpa [← same] using here⟩,there⟩)
    · exact .inr ((lined x ((advance.calls call made).2.2 x there)).imp id (above x))
  refine held.moves kept sending bound (grows _) known advance.order ?_ rows ?_ sent ?_ (fun _ => id) ?_ ?_ ?_ carries ?_ ?_
  · intro x known_
    rcases known x known_ with old | ⟨inside,_⟩
    · exact (held.below x old).later advance.later
    · exact advance.below x inside
  · intro call member x inside
    rw [advance.sends] at member
    rcases List.mem_append.mp member with old | made
    · exact List.mem_append_left _ (held.sends call old x inside)
    · exact List.mem_append_right _ (List.mem_flatten.mpr ⟨call.wire,List.mem_map_of_mem made,inside⟩)
  · by_cases same : journal.engine.conn = s.journal.engine.conn
    · have grown := grows (s.pipe.sendMutations (extra.map SendCall.wire))
      rw [if_pos same]
      exact held.piped.sends grown (sentOn_extra advance.sends (fun call member => (advance.calls call member).1) same)
    · rw [if_neg same]
      refine piped_fresh (List.eq_nil_iff_forall_not_mem.mpr fun x member => ?_)
      obtain ⟨call,inside,_⟩ := List.mem_flatMap.mp member
      obtain ⟨inside,here⟩ := List.mem_filter.mp inside
      have here : call.conn = journal.engine.conn := by simpa using here
      rw [advance.sends] at inside
      rcases List.mem_append.mp inside with old | made
      · exact same (le_antisymm (here ▸ (held.sending.lined.sends call old).1) advance.conn)
      · exact same (advance.calls call made).2.1
  · intro outcome member
    rcases told outcome member with old | rfl
    · exact held.queued outcome old
    · rcases brings with none | whole
      · intro results is
        rw [none] at is
        cases is
      · exact held.told outcome whole
  · intro row member
    rcases answers row member with old | ⟨outcome,inside,results,is,zipped⟩
    · exact held.answers row old
    · exact held.queued outcome inside results is row zipped
  · intro id member
    rcases entered id member with old | ⟨low,e,logged,is⟩
    · exact held.entered id old
    · exact held.enters low logged is
  · intro o x old row
    by_cases box : ∃ ordinal, journal.engine.core.outgoing.outbox.get x.id = some ordinal
    · obtain ⟨ordinal,inside⟩ := box
      obtain ⟨m,there,same⟩ := (kept.outboxed.ledger.rows x.id ordinal).mp inside
      have is : m = x := by
        rcases List.mem_append.mp (rows ordinal m there) with was | made
        · exact held.same (.inl was) (.inl old) same
        · have low : x.id < s.journal.engine.nextId := (held.below x (.inl old)).1
          have high := (stored m made).2
          omega
      exact .inl ⟨ordinal,is ▸ there⟩
    · refine .inr ?_
      by_contra undone
      have inside := (held.kept.outboxed.ledger.rows x.id o).mpr ⟨x,row,rfl⟩
      have was := ((held.kept.outboxed.stays x.id).mp ⟨o,inside⟩).1
      exact box ((kept.outboxed.stays x.id).mpr ⟨filed x.id was,undone⟩)
  · intro x member
    exact (List.mem_append.mp member).imp id fun made => (stored x made).1

-- A new process knows what the store holds, and has heard and sent nothing.
theorem Holds.restarts {wants : List Name} {weather : Weather} (held : s.Holds wiring)
    (allowed : s.Allowed wiring (.engine (.restart wants weather))) : Holds wiring (s.engineSteps (.restart wants weather)) := by
  obtain ⟨_,bound,_⟩ := allowed
  have kept := (held.kept.next (.restart wants weather)).1
  have sending := held.kept.sends held.sending (.restart wants weather)
  obtain ⟨silent,leaves⟩ := held.kept.outboxed.starts wants s.journal.engine.predictor (s.journal.engine.series+1)
    s.journal.engine.core.nextEntry weather
  have based : Engine.Carries (wiring.Logged s.db) {
      core:=Core.load s.journal.engine.core.store s.journal.engine.core.nextEntry
      predictor:=s.journal.engine.predictor
      series:=s.journal.engine.series+1
      nextId:=s.journal.engine.nextId} :=
    ⟨fun _ none => (by cases none),fun _ none => (by cases none),held.carries.parked⟩
  have carries : (s.journal.next (.restart wants weather)).engine.Carries (wiring.Logged s.db) := leaves.carries based
  have stored : ∀ o x, (s.journal.next (.restart wants weather)).engine.core.store.mutations.get o = some x →
      s.journal.engine.core.store.mutations.get o = some x := silent.rows
  have unsent : (s.journal.next (.restart wants weather)).engine.sends = [] := silent.sends
  have untold : ∀ outcome ∈ (s.journal.next (.restart wants weather)).engine.mutationOutcomes, False := fun outcome member => by cases leaves.told member
  have stamp : (s.journal.next (.restart wants weather)).engine.stamp = (s.journal.engine.nextId,s.journal.engine.series+1,1) := silent.stamp
  have answers : (s.journal.next (.restart wants weather)).answers = [] := rfl
  have entered : ∀ id ∈ (s.journal.next (.restart wants weather)).entered, id < s.journal.engine.nextId ∧
      ∃ e : WireEdit V, wiring.Logged s.db e ∧ e.id = id := by
    intro id member
    obtain ⟨inside,low⟩ := List.mem_filter.mp member
    obtain ⟨e,inside,is⟩ := List.mem_map.mp inside
    refine ⟨by simpa using low,e,?_,is⟩
    unfold Core.ifRan at inside
    split at inside
    · exact Core.purges_parked based.parked e inside
    · cases inside
  have filed : ∀ o x, s.journal.engine.core.store.mutations.get o = some x → x.id ∈ (s.journal.next (.restart wants weather)).filed :=
    fun o x row => List.mem_map.mpr ⟨(o,x),(OrderedMap.mem_scan _ _ _).mpr row,rfl⟩
  unfold engineSteps
  dsimp only
  generalize s.journal.next (.restart wants weather) = journal at *
  generalize minted : (journal.engine.core.store.mutations.scan.map Prod.snd).filter (s.journal.engine.nextId ≤ ·.id) = fresh
  have none : fresh = [] := by
    rw [← minted]
    refine List.filter_eq_nil_iff.mpr fun x member => ?_
    obtain ⟨⟨o,m⟩,inside,rfl⟩ := List.mem_map.mp member
    have low : m.id < s.journal.engine.nextId := (held.below m (.inl (held.rows o m (stored o m ((OrderedMap.mem_scan _ _ _).mp inside))))).1
    simpa using low
  rw [none,List.append_nil]
  have silent_ : journal.engine.sentOn journal.engine.conn = [] := by
    unfold sentOn
    rw [unsent]
    rfl
  refine held.moves kept sending bound ⟨fun _ => id,fun _ => id,fun _ => id,fun _ => .inl,List.prefix_refl _⟩ (fun x => .inl) .nil ?_
    (fun o x row => held.rows o x (stored o x row)) ?_ ?_ (piped_fresh silent_) (fun _ none => (by cases none))
    (fun outcome member => (untold outcome member).elim) ?_ ?_ carries ?_ (fun _ => .inl)
  · intro x known
    rw [stamp]
    have low := held.below x known
    refine ⟨low.1,.inl ?_⟩
    have older : x.series ≤ s.journal.engine.series := by
      rcases low.2 with less | same
      · exact le_of_lt less
      · exact le_of_eq same.1
    exact Nat.lt_succ_of_le older
  · intro call none
    rw [unsent] at none
    cases none
  · intro x none
    rw [silent_] at none
    cases none
  · intro row none
    rw [answers] at none
    cases none
  · intro id member
    obtain ⟨low,e,logged,is⟩ := entered id member
    exact held.enters low logged is
  · intro o x old row
    by_cases box : ∃ ordinal, journal.engine.core.outgoing.outbox.get x.id = some ordinal
    · obtain ⟨ordinal,inside⟩ := box
      obtain ⟨m,there,same⟩ := (kept.outboxed.ledger.rows x.id ordinal).mp inside
      have is : m = x := held.same (.inl (held.rows ordinal m (stored ordinal m there))) (.inl old) same
      exact .inl ⟨ordinal,is ▸ there⟩
    · refine .inr ?_
      by_contra undone
      exact box ((kept.outboxed.stays x.id).mpr ⟨filed o x row,undone⟩)

-- Before anything was filed, sent or answered.
theorem first_holds (wiring : Wiring) (wants : List Name) (predictor : Option (Predictor V D)) (weather : Weather) :
    (first wants predictor weather).Holds wiring := by
  have kept := (Journal.first_kept wants predictor weather).1
  have sending : Journal.Sending (Journal.first wants predictor weather).engine := Journal.start_sends Journal.first_outboxed wants predictor 0 weather
    (fun _ _ none => (by cases none)) (fun _ _ _ _ none => (by cases none))
  obtain ⟨silent,leaves⟩ := @Journal.Outboxed.starts V D [] [] [] 0 (Core.load {} 0) Journal.first_outboxed wants predictor 0 0 weather
  have silent : Silent {core:=Core.load {} 0,predictor,series:=0,nextId:=0} (Journal.first wants predictor weather).engine := silent
  have leaves : Leaves {core:=Core.load {} 0,predictor,series:=0,nextId:=0} (Journal.first wants predictor weather).engine := leaves
  have sends : (Journal.first wants predictor weather).engine.sends = [] := silent.sends
  have unsent : (Journal.first wants predictor weather).engine.sentOn (Journal.first wants predictor weather).engine.conn = [] := by
    unfold sentOn
    rw [sends]
    rfl
  have answers : (Journal.first wants predictor weather).answers = [] := rfl
  have entered : (Journal.first wants predictor weather).entered = [] := List.filter_eq_nil_iff.mpr fun id _ => by simp
  have based : Engine.Carries (wiring.Logged {}) ({core:=Core.load {} 0,predictor,series:=0,nextId:=0} : Engine V D) :=
    ⟨fun _ none => (by cases none),fun _ none => (by cases none),fun _ _ none => (by cases none)⟩
  have carries := leaves.carries based
  have nextId : (Journal.first wants predictor weather).engine.nextId = 0 := congrArg Prod.fst silent.stamp
  unfold first
  generalize Journal.first wants predictor weather = journal at *
  have none : ∀ x, ¬Known ({journal} : Exchange V D) x := fun x known => by rcases known with known | known <;> cases known
  exact {
    kept := kept
    sending := sending
    bound := by rw [nextId]; exact Nat.zero_le _
    rows := fun o x row => by cases silent.rows o x row
    sends := fun call member => by rw [sends] at member; cases member
    below := fun x known => absurd known (none x)
    linear := fun x _ known => absurd known (none x)
    posted := fun _ none => (by cases none)
    ahead := fun _ none => (by cases none)
    piped := ⟨⟨[],[],unsent,fun _ none => (by cases none),fun _ => rfl⟩,fun _ => ⟨rfl,rfl⟩,fun _ _ none => (by cases none)⟩
    path := ⟨[],.nil⟩
    tracks := ⟨.nil,fun _ none => (by cases none)⟩
    waiting := fun _ none => (by cases none)
    replied := fun _ none => (by cases none)
    told := fun _ none => (by cases none)
    queued := fun outcome member => by cases leaves.told member
    answers := fun row member => by rw [answers] at member; cases member
    entered := fun id member => by rw [entered] at member; cases member
    carries := carries
    left := fun _ none => (by cases none)}

theorem Holds.next (inj : Function.Injective wiring.digest) (held : s.Holds wiring) {event : Exchanging V D} (allowed : s.Allowed wiring event) :
    Holds wiring (s.next wiring event) := by
  cases event with
  | engine happening =>
    cases happening with
    | event event => exact held.happens allowed
    | restart wants weather => exact held.restarts allowed
  | post anonymous => exact held.posts allowed
  | respond sub => exact held.responds allowed
  | tooMany anonymous max => exact held.splits
  | fail => exact held.fails
  | close => exact held.closes
  | deliver servertime request call => exact held.delivers inj allowed
  | resubmit servertime sub call => exact held.resubmits inj allowed
  | other event => exact held.others allowed

end Exchange

-- An answer that decides a number no answer before it decided.
def Answer.Anew (before : List Answer) (a : Answer) : Prop :=
  a.decides → ∀ digest n, a.series = some (.series digest,n) → ∀ b ∈ before, b.decides → b.series ≠ a.series

theorem Answered.anew {w after : Writer} {a : Answer} (marked : w.Marked) (answered : Answered w a after) : a.Anew w.trace := by
  intro decides digest n is b member decided same
  have numbered : n ∈ markingOf w.trace (.series digest) := by
    refine List.mem_filterMap.mpr ⟨b,member,?_⟩
    unfold marking
    rw [if_pos (show b.how = .decided ∨ b.how = .proof from decided),same,is]
    simp [Option.filter]
  have before : w.decidedBefore a.series = true := by
    unfold Writer.decidedBefore
    rw [is,Option.any_some,marked.largest]
    obtain ⟨mark,top⟩ := Option.isSome_iff_exists.mp (List.isSome_max?_of_mem numbered)
    have high := (List.max?_eq_some_iff.mp top).2 n numbered
    rw [top]
    simpa using high
  have readable : a.how ≠ .unreadable := by
    rcases decides with how | how <;> rw [how] <;> exact fun same => (by cases same)
  have deduped := answered.dedup.mpr ⟨readable,before⟩
  rcases decides with how | how <;> rw [deduped] at how <;> cases how

theorem Db.decides_anew {events : List DbEvent} {s : Db} (path : machine.Runs {} events s) : Traced (fun before a => a.Anew before) s.answered := by
  have keeps : Writer.Keeps fun w => w.Sound ∧ Traced (fun before a => Answer.Anew before a) w.trace := {
    behind := fun holds _ member => holds.1.logged.behind member
    answered := fun holds answered => ⟨(holds.1.answered answered).sound,by rw [answered.trace]; exact holds.2.concat (answered.anew holds.1.marked)⟩
    same := fun holds store position trace => ⟨holds.1.same store position trace,by rw [trace]; exact holds.2⟩
    armed := fun install entry minute servertime holds => ⟨(holds.1.armed install entry minute servertime).sound,holds.2⟩}
  exact (runs_keep keeps (fun holds => ⟨opens_sound holds.1,holds.2⟩) ⟨start_sound.disk,.nil⟩ path).1.2

namespace Exchange
open Stamp
variable {wiring : Wiring} {s : Exchange V D}

-- A client and its database, after any run: what the store holds is of what the outbox took; each
-- mutation is decided at most once, and one is decided only when every mutation the outbox took
-- before it was decided or refused unread; a mutation leaves the outbox only then too; and an ok
-- the Engine heard is of such a mutation, its edits at or below the position named.
structure DecidedOnce (wiring : Wiring) (s : Exchange V D) : Prop where
  stored : ∀ o x, s.journal.engine.core.store.mutations.get o = some x → x ∈ s.outbox
  once : Traced (fun before a => ∀ x : Mutation D, wiring.Names a x → a.decides → ∀ b ∈ before, wiring.Names b x → ¬b.decides) s.db.answered
  ordered : Traced (fun before a => ∀ y, s.Known y → wiring.Names a y → a.decides → ∀ x ∈ s.outbox, Before x.stamp y.stamp →
    wiring.Settled before x) s.db.answered
  leaves : ∀ x ∈ s.outbox, (∃ o, s.journal.engine.core.store.mutations.get o = some x) ∨ wiring.Settled s.db.answered x
  heard : ∀ id position, (id,.ok position) ∈ s.journal.answers → ∃ x, s.Known x ∧ x.id = id ∧ ∃ a ∈ s.db.answered, wiring.Names a x ∧
    a.settles ∧ ∀ row ∈ a.items, (row.position : Int) ≤ position

theorem decided_once_in_order (inj : Function.Injective wiring.digest) {wants : List Name} {predictor : Option (Predictor V D)} {weather : Weather}
    (path : (machine wiring).Reaches (first wants predictor weather) s) : s.DecidedOnce wiring := by
  have held : s.Holds wiring := path.invariant (P := Holds wiring) (first_holds wiring wants predictor weather)
    fun _ _ held allowed => held.next inj allowed
  obtain ⟨events,runs⟩ := held.path
  refine ⟨held.rows,(Db.decides_anew runs).imp fun before a _ _ anew x names decides b member other decided => ?_,
    (held.tracks.led.of_prefix held.committed).imp fun before a _ _ leads y known names decides x member earlier => ?_,held.left,
    fun id position answer => ?_⟩
  · refine anew decides _ _ names b member decided ?_
    unfold Wiring.Names at names other
    rw [names,other]
  · obtain ⟨p,posted,z,inside,named,each⟩ := leads decides _ _ names
    have same : z = y := by
      unfold Wiring.Names at names named
      rw [names] at named
      have both := Prod.mk.inj (Option.some.inj named)
      have series : y.series = z.series := inj (SeriesKey.series.inj both.1)
      have numbers : y.n = z.n := both.2
      have apart : ∀ {a b : Mutation D}, a.series = b.series → a.n = b.n → ¬Before a.stamp b.stamp := by
        rintro a b series n ⟨_,order⟩
        have order : a.series < b.series ∨ a.series = b.series ∧ a.n < b.n := order
        omega
      rcases held.linear z y ((held.posted p posted).of_known inside) known with is | less | less
      · exact is
      · exact absurd less (apart series.symm numbers.symm)
      · exact absurd less (apart series numbers)
    subst same
    exact (each x (.inl member) earlier).resolve_right fun late => late.1 member
  · obtain ⟨x,known,is,a,inside,names,settles,low⟩ := held.answers _ answer
    exact ⟨x,known,is,a,inside,names,settles,low position rfl⟩

-- A mutation whose submission bounces and is submitted again, whose answer is then lost with its
-- connection, and that is sent again on the next one and answered as decided.
def lost : Mutation Nat := ⟨0,0,1,5⟩

def wires : Wiring := ⟨fun series => List.replicate series 'x',fun _ => [],1⟩

theorem wires_injective : Function.Injective wires.digest := fun a b same => by
  have sizes := congrArg List.length same
  simpa [wires] using sizes

instance (name : Name) : Decidable (∀ series, wires.digest series ≠ name) :=
  decidable_of_iff (wires.digest name.length ≠ name) ⟨fun other series same => other (by rw [← same]; simp [wires]),fun other => other _⟩

instance (s : Exchange Nat Nat) (event : Exchanging Nat Nat) : Decidable ((machine wires).allowed s event) :=
  inferInstanceAs (Decidable (s.Allowed wires event))

def resending : List (Exchanging Nat Nat) :=
  let pass : Exchanging Nat Nat := .engine (.event (.pass {}))
  let call (attempt : Nat) (hash : Name) : Writer.Call :=
    ⟨true,attempt,[⟨some ([],1),0,.ok (),[],some ⟨.passed,some hash⟩,.ok [],.ok (some ['h']),[.set ['s','!','k'] [1]],.carried⟩]⟩
  [.engine (.event (.sendMutation (some 5))),pass,pass,pass,.post false,.deliver 3 [lost] (call 0 ['g']),.other .commit,
    .resubmit 3 ⟨[lost],[],{bounce:=some (some ['h'])}⟩ (call 1 ['h']),.other .commit,
    .engine (.event (.hook 0 (.ended false))),pass,.engine (.event .retry),pass,pass,.post false,.deliver 3 [lost] (call 0 ['h']),
    .other .commit,.respond ⟨[lost],[],{outcomes:=[.ok 1]}⟩,.engine (.event (.results ⟨[0],some [.ok 1],1⟩)),pass]

theorem resent_once : ∃ s : Exchange Nat Nat, s.db.answered.map Answer.how = [.bounced,.decided,.deduped] ∧
    ∃ a ∈ s.db.answered, wires.Names a lost ∧ a.settles ∧ ∀ row ∈ a.items, (row.position : Int) ≤ 1 := by
  obtain ⟨s,runs,found⟩ := (machine wires).follow_finds (first [] none {}) resending
    (fun s => s.db.answered.map Answer.how = [.bounced,.decided,.deduped] ∧ (0,.ok 1) ∈ s.journal.answers ∧ s.outbox = [lost] ∧
      s.handed = [lost,lost]) (by decide +kernel)
  obtain ⟨hows,answer,outbox,handed⟩ := of_decide_eq_true found
  obtain ⟨x,known,_,rest⟩ := (decided_once_in_order wires_injective ⟨resending,runs⟩).heard 0 1 answer
  have is : x = lost := by
    rcases known with member | member
    · rw [outbox] at member
      exact List.mem_singleton.mp member
    · rw [handed] at member
      simpa using member
  rw [is] at rest
  exact ⟨s,hows,rest⟩

end Exchange
end PhaseLock
