import PhaseLock.ViewFrames

namespace PhaseLock

-- The batch a result is of, and the generation it leaves the server with.
def Res.begins : Res → Option Nat
  | .view _ at_ => some at_
  | .commit at_ _ => some at_
  | .registered _ at_ => some at_
  | _ => none

def Res.tells (told : Option Int) : Res → Option Int
  | .account generation => some generation
  | .forgotten => none
  | _ => told

-- Whether a result moves an account away from a generation.
def Res.moves (generation : Int) : Res → Bool
  | .account now => decide (now ≠ generation)
  | _ => false

-- The results on their way to a connection: from its registration on, a batch that left its
-- account at another generation comes behind word that it moved.
def Keeps (sound : Nat → Prop) (generation : Int) : Bool → Bool → List Res → Bool → Bool → Prop
  | moved,known,[],movedLast,knownLast => moved = movedLast ∧ known = knownLast
  | moved,known,.commit at_ _ :: rest,movedLast,knownLast => (known = true → moved = true ∨ sound at_) ∧
      Keeps sound generation moved known rest movedLast knownLast
  | moved,known,.registered grant at_ :: rest,movedLast,knownLast => (grant.isSome = true → moved = true ∨ sound at_) ∧
      Keeps sound generation moved (known || grant.isSome) rest movedLast knownLast
  | moved,known,res :: rest,movedLast,knownLast => Keeps sound generation (moved || res.moves generation) known rest movedLast knownLast

theorem Keeps.append (left : Keeps sound generation moved known channel movedMid knownMid)
    (right : Keeps sound generation movedMid knownMid more movedLast knownLast) :
    Keeps sound generation moved known (channel++more) movedLast knownLast := by
  induction channel generalizing moved known with
  | nil =>
    obtain ⟨rfl,rfl⟩ := left
    exact right
  | cons res rest ih =>
    cases res with
    | commit at_ items => exact ⟨left.1,ih left.2⟩
    | registered grant at_ => exact ⟨left.1,ih left.2⟩
    | account now => exact ih left
    | forgotten => exact ih left
    | view grant at_ => exact ih left
    | shutdown => exact ih left

theorem Keeps.imp (implies : ∀ at_, sound at_ → weaker at_) (keeps : Keeps sound generation moved known channel movedLast knownLast) :
    Keeps weaker generation moved known channel movedLast knownLast := by
  induction channel generalizing moved known with
  | nil => exact keeps
  | cons res rest ih =>
    cases res with
    | commit at_ items => exact ⟨fun on => (keeps.1 on).imp id (implies at_),ih keeps.2⟩
    | registered grant at_ => exact ⟨fun on => (keeps.1 on).imp id (implies at_),ih keeps.2⟩
    | account now => exact ih keeps
    | forgotten => exact ih keeps
    | view grant at_ => exact ih keeps
    | shutdown => exact ih keeps

-- A channel that answers no registration keeps what it is asked to of nothing.
theorem keeps_idle (quiet : ∀ grant at_, .registered grant at_ ∉ channel) (moved : Bool) :
    ∃ movedLast, Keeps sound generation moved false channel movedLast false := by
  induction channel generalizing moved with
  | nil => exact ⟨moved,rfl,rfl⟩
  | cons res rest ih =>
    have fewer : ∀ grant at_, .registered grant at_ ∉ rest := fun grant at_ member => quiet grant at_ (List.mem_cons_of_mem _ member)
    cases res with
    | commit at_ items =>
      obtain ⟨last,keeps⟩ := ih fewer moved
      exact ⟨last,fun on => (by cases on),keeps⟩
    | registered grant at_ => exact absurd (by simp) (quiet grant at_)
    | account now => exact ih fewer _
    | forgotten => exact ih fewer _
    | view grant at_ => exact ih fewer _
    | shutdown => exact ih fewer _

-- Commits on their way are above the position published.
theorem pipes_commits (pipes : Pipes position channel head) (member : .commit at_ items ∈ channel) : position < at_ := by
  induction channel generalizing position with
  | nil => cases member
  | cons res rest ih =>
    cases res with
    | commit first others =>
      obtain ⟨nonempty,last,_,above,after⟩ := pipes
      obtain ⟨final,finalIn,same⟩ := lastPosition_mem last
      have up := above final finalIn
      rcases List.mem_cons.mp member with here | later
      · cases here
        omega
      · have past := ih after later
        omega
    | view grant at_ => exact ih pipes.2.2 (by simpa using member)
    | registered grant at_ => exact ih pipes.2 (by simpa using member)
    | account generation => exact ih pipes (by simpa using member)
    | forgotten => exact ih pipes (by simpa using member)
    | shutdown => exact ih pipes (by simpa using member)

namespace Server
variable {σ : Type} {host : Host σ} {who : Principal} {ask : Ask} {limit : Nat} {s : Server σ} {c : Conn}

-- The stores each batch left, by the head it left: one a head, each published or on its way.
structure Stored (s : Server σ) : Prop where
  held : (s.core.head,s.core.store) ∈ s.core.history
  behind : ∀ entry ∈ s.core.history, entry.1 ≤ s.core.head
  unique : ∀ at_ a b, (at_,a) ∈ s.core.history → (at_,b) ∈ s.core.history → a = b
  placed : ∀ entry ∈ s.core.history, entry.1 ≤ s.dispatcher.position ∨ ∃ items, .commit entry.1 items ∈ s.channel
  ordered : (s.dispatcher.begun :: (s.channel.filterMap Res.begins++[s.core.head])).Pairwise (· ≤ ·)
  replied : s.repliedAt ≤ s.dispatcher.position

theorem batch_stored (stored : s.Stored) {b : Batch σ} (follows : b.Follows s.core) : (s.batch host who b).Stored := by
  have head := batch_head follows
  have empty : b.items = [] → (lastPosition b.items).getD s.core.head = s.core.head := fun none_ => by rw [none_]; rfl
  have fresh : b.items ≠ [] → s.core.head < (lastPosition b.items).getD s.core.head := fun some_ => by
    obtain ⟨top,last⟩ := lastPosition_some some_
    obtain ⟨row,member,rfl⟩ := lastPosition_mem last
    rw [last]
    exact follows.above row member
  have member : ∀ entry, entry ∈ (s.batch host who b).core.history ↔
      entry ∈ s.core.history ∨ entry = ((lastPosition b.items).getD s.core.head,b.store) := fun entry => by
    simp [Server.batch,batchCore]
  -- a batch of no edits leaves the store its head already has
  have again : ∀ a, ((lastPosition b.items).getD s.core.head,a) ∈ s.core.history → a = b.store := by
    intro a before
    by_cases none_ : b.items = []
    · rw [empty none_] at before
      rw [follows.still none_]
      exact stored.unique _ _ _ before stored.held
    · have bound := stored.behind _ before
      have above := fresh none_
      dsimp only at bound
      omega
  refine ⟨(member _).mpr (Or.inr rfl),fun entry inside => ?_,fun at_ x y left right => ?_,fun entry inside => ?_,?_,stored.replied⟩
  · show entry.1 ≤ (lastPosition b.items).getD s.core.head
    rcases (member entry).mp inside with old | rfl
    · exact (stored.behind entry old).trans head
    · exact le_refl _
  · rcases (member _).mp left with old | now <;> rcases (member _).mp right with old' | now'
    · exact stored.unique _ _ _ old old'
    · cases now'
      exact again x old
    · cases now
      exact (again y old').symm
    · cases now
      cases now'
      rfl
  · have appended : ∀ {res}, res ∈ s.channel → res ∈ (s.batch host who b).channel := fun before => List.mem_append_left _ before
    have kept : ∀ entry : Nat × σ, entry ∈ s.core.history → entry.1 ≤ s.dispatcher.position ∨
        ∃ items, .commit entry.1 items ∈ (s.batch host who b).channel := fun entry old =>
      (stored.placed entry old).imp id fun some_ => some_.imp fun _ before => appended before
    rcases (member entry).mp inside with old | rfl
    · exact kept entry old
    · by_cases none_ : b.items = []
      · dsimp only
        rw [empty none_]
        exact kept _ stored.held
      · refine Or.inr ⟨b.items,List.mem_append_right _ ?_⟩
        simp [batchResults,none_]
  · have starts : ∀ at_ ∈ (batchResults host who s.core b).filterMap Res.begins, at_ = (lastPosition b.items).getD s.core.head := by
      intro at_ inside
      obtain ⟨res,resIn,begins⟩ := List.mem_filterMap.mp inside
      simp only [batchResults,accountResults,List.mem_append] at resIn
      rcases resIn with ((account | view) | commit) | reply
      · split at account
        · split at account <;> simp at account
          subst account
          cases begins
        · split at account <;> simp at account
          subst account
          cases begins
      · split at view <;> simp at view
        subst view
        exact (Option.some.inj begins).symm
      · split at commit <;> simp at commit
        subst commit
        exact (Option.some.inj begins).symm
      · split at reply <;> simp at reply
        subst reply
        exact (Option.some.inj begins).symm
    have before := stored.ordered
    have low : ∀ at_ ∈ s.dispatcher.begun :: s.channel.filterMap Res.begins, at_ ≤ s.core.head := fun at_ inside => by
      rw [← List.cons_append] at before
      exact (List.pairwise_append.mp before).2.2 at_ inside _ (by simp)
    show (s.dispatcher.begun :: ((s.channel++batchResults host who s.core b).filterMap Res.begins++
      [(lastPosition b.items).getD s.core.head])).Pairwise (· ≤ ·)
    rw [List.filterMap_append,List.append_assoc,← List.cons_append]
    refine List.pairwise_append.mpr ⟨?_,?_,fun x left y right => ?_⟩
    · rw [← List.cons_append] at before
      exact (List.pairwise_append.mp before).1
    · have all : ∀ at_ ∈ (batchResults host who s.core b).filterMap Res.begins++[(lastPosition b.items).getD s.core.head],
          at_ = (lastPosition b.items).getD s.core.head := by
        intro at_ inside
        rcases List.mem_append.mp inside with results | here
        · exact starts at_ results
        · exact List.mem_singleton.mp here
      exact List.pairwise_of_forall_mem_list fun x left y right => by rw [all x left,all y right]
    · have here : y = (lastPosition b.items).getD s.core.head := by
        rcases List.mem_append.mp right with results | last
        · exact starts y results
        · exact List.mem_singleton.mp last
      rw [here]
      exact (low x left).trans head

theorem dispatch_stored (stored : s.Stored) (piped : s.Piped) : (s.dispatch limit).Stored := by
  unfold Server.dispatch
  cases first : s.channel with
  | nil => exact stored
  | cons res rest =>
    have placed := stored.placed
    have ordered := stored.ordered
    have pipes := piped.pipes
    rw [first] at placed ordered pipes
    refine ⟨stored.held,stored.behind,stored.unique,fun entry inside => ?_,?_,?_⟩
    · rcases placed entry inside with published | ⟨items,member⟩
      · exact Or.inl (published.trans (takes_position pipes))
      · rcases List.mem_cons.mp member with here | later
        · subst here
          exact Or.inl (le_refl _)
        · exact Or.inr ⟨items,later⟩
    · -- the dispatcher begins on the batch its result is of
      have tail := (List.pairwise_cons.mp ordered).2
      cases res with
      | view grant at_ => exact tail
      | commit at_ items => exact tail
      | registered grant at_ => exact tail
      | account generation => exact ordered
      | forgotten => exact ordered
      | shutdown => exact ordered
    · have position := takes_position pipes
      cases res with
      | registered grant at_ => exact Nat.le_of_eq pipes.1.symm
      | _ => exact stored.replied.trans position

theorem Stored.step (stored : s.Stored) (piped : s.Piped) (event : ServerEvent σ) (allowed : s.allowed event) :
    (next host who ask limit s event).Stored := by
  cases event with
  | batch b => exact batch_stored stored allowed.2.1
  | close =>
    refine ⟨stored.held,stored.behind,stored.unique,fun entry inside => ?_,?_,stored.replied⟩
    · exact (stored.placed entry inside).imp id fun ⟨items,before⟩ => ⟨items,List.mem_append_left _ before⟩
    · have ordered := stored.ordered
      show (s.dispatcher.begun :: ((s.channel++[Res.shutdown]).filterMap Res.begins++[s.core.head])).Pairwise (· ≤ ·)
      rwa [List.filterMap_append,show [Res.shutdown].filterMap Res.begins = [] from rfl,List.append_nil]
  | dispatch => exact dispatch_stored stored piped
  | handle =>
    obtain ⟨core,channel,dispatcher⟩ := handle_frame host who ask limit s
    refine ⟨?_,?_,?_,?_,?_,by unfold repliedAt; rw [dispatcher]; exact stored.replied⟩
    · rw [core]; exact stored.held
    · rw [core]; exact stored.behind
    · rw [core]; exact stored.unique
    · rw [core,dispatcher,channel]; exact stored.placed
    · rw [core,dispatcher,channel]; exact stored.ordered
  | tick => exact ⟨stored.held,stored.behind,stored.unique,stored.placed,stored.ordered,stored.replied⟩
  | ends code => exact ⟨stored.held,stored.behind,stored.unique,stored.placed,stored.ordered,stored.replied⟩

theorem opens_stored (d : Opening σ) : (opens d).Stored := by
  refine ⟨by simp [opens],?_,?_,?_,by simp [opens],Nat.zero_le _⟩
  · simp [opens]
  · intro at_ a b left right
    simp only [opens,List.mem_singleton,Prod.mk.injEq] at left right
    rw [left.2,right.2]
  · simp [opens]

-- A batch left its account at the generation of the connection's token.
def Sound (host : Host σ) (who : Principal) (core : DbCore σ) (at_ : Nat) : Prop :=
  ∃ store, (at_,store) ∈ core.history ∧ host.generation store = who.generation

-- A registration granted.
def known (s : Server σ) : Bool := match s.dispatcher.reply with
  | some (some _,_) => true
  | _ => false

-- The account beside a connection: from its registration's batch on, each batch published left
-- the account at its token's generation, or it is revoked.
structure Trusted (host : Host σ) (who : Principal) (s : Server σ) : Prop where
  told : s.channel.foldl Res.tells s.dispatcher.generation = s.core.account
  keeps : ∀ c, s.conn = some c → ∃ moved, Keeps (Sound host who s.core) who.generation c.revoked s.known s.channel moved
    s.core.granted.isSome ∧ (s.core.granted.isSome = true → moved = true ∨ s.core.account = some who.generation)
  published : ∀ c, s.conn = some c → s.known = true → c.revoked = true ∨
    ∀ entry ∈ s.core.history, s.repliedAt ≤ entry.1 → entry.1 ≤ s.dispatcher.position → host.generation entry.2 = who.generation

-- A batch that registers a read leaves its account at the token's generation, or tells the
-- server of the one it leaves.
def Speaks (host : Host σ) (who : Principal) (ask : Ask) (s : Server σ) : ServerEvent σ → Prop
  | .batch b => ask.ephemeral = true → who.user ≠ none → b.register.any (generationOk host who) = true →
      host.generation b.store = who.generation ∨ s.core.account ≠ some (host.generation b.store)
  | _ => True

theorem batch_tells (told : Option Int) (core : DbCore σ) (b : Batch σ) (same : told = core.account) :
    (batchResults host who core b).foldl Res.tells told = (batchCore host who core b).account := by
  have quiet : ∀ (results : List Res) (told : Option Int), (∀ res ∈ results, ∀ told, res.tells told = told) →
      results.foldl Res.tells told = told := by
    intro results
    induction results with
    | nil => exact fun told _ => rfl
    | cons res rest ih =>
      intro told none_
      rw [List.foldl_cons,none_ res (by simp)]
      exact ih told fun other member => none_ other (List.mem_cons_of_mem _ member)
  unfold batchResults batchCore
  dsimp only
  rw [List.foldl_append,List.foldl_append,List.foldl_append]
  rw [quiet (if b.register.isSome = true then _ else _),quiet (if b.items = [] then _ else _),
    quiet (if core.granted.any _ = true then _ else _)]
  · subst same
    unfold accountResults
    cases looked : (who.user.isSome && (core.granted.isSome || b.register.any (generationOk host who) || b.looked)) with
    | true =>
      simp only [if_true]
      split
      · rename_i same
        exact same
      · rfl
    | false =>
      simp only [Bool.false_eq_true,if_false]
      split
      · rfl
      · rename_i none_
        simpa using none_
  · intro res member
    split at member <;> simp at member
    subst member
    exact fun _ => rfl
  · intro res member
    split at member <;> simp at member
    subst member
    exact fun _ => rfl
  · intro res member
    split at member <;> simp at member
    subst member
    exact fun _ => rfl

-- The results of a batch whose user has an account.
theorem batch_keeps {b : Batch σ} (named : who.user ≠ none) (sound : Nat → Prop) {moved : Bool}
    (speaks : b.register.any (generationOk host who) = true → host.generation b.store = who.generation ∨
      s.core.account ≠ some (host.generation b.store))
    (here : host.generation b.store = who.generation → sound ((lastPosition b.items).getD s.core.head))
    (final : s.core.granted.isSome = true → moved = true ∨ s.core.account = some who.generation) :
    ∃ last, Keeps sound who.generation moved s.core.granted.isSome (batchResults host who s.core b) last
      (batchCore host who s.core b).granted.isSome ∧ ((batchCore host who s.core b).granted.isSome = true → last = true ∨
        (batchCore host who s.core b).account = some who.generation) := by
  have user : who.user.isSome = true := Option.isSome_iff_ne_none.mpr named
  -- where the batch's account results leave the connection
  obtain ⟨last,accounts,moves⟩ : ∃ last, Keeps sound who.generation moved s.core.granted.isSome
      (accountResults s.core.account (who.user.isSome && (s.core.granted.isSome || b.register.any (generationOk host who) || b.looked))
        (host.generation b.store)) last s.core.granted.isSome ∧
      ((s.core.granted.isSome || b.register.any (generationOk host who)) = true → last = true ∨ host.generation b.store = who.generation) := by
    unfold accountResults
    rw [user,Bool.true_and]
    cases asked : (s.core.granted.isSome || b.register.any (generationOk host who)) with
    | true =>
      simp only [Bool.true_or,if_true]
      split
      · rename_i same
        refine ⟨moved,⟨rfl,rfl⟩,fun _ => ?_⟩
        rcases Bool.or_eq_true_iff.mp asked with granted | accepts
        · refine (final granted).imp id fun now => ?_
          rw [same,Option.some.injEq] at now
          exact now
        · exact Or.inr ((speaks accepts).resolve_right fun other => other same)
      · refine ⟨moved || decide (host.generation b.store ≠ who.generation),⟨rfl,rfl⟩,fun _ => ?_⟩
        by_cases same : host.generation b.store = who.generation
        · exact Or.inr same
        · exact Or.inl (by simp [same])
    | false =>
      refine (?_ : ∃ last, _).imp fun last keeps => ⟨keeps,fun on => by cases on⟩
      split
      · split
        · exact ⟨moved,rfl,rfl⟩
        · exact ⟨_,rfl,rfl⟩
      · split
        · exact ⟨_,rfl,rfl⟩
        · exact ⟨moved,rfl,rfl⟩
  refine ⟨last,?_,fun granted => ?_⟩
  · have sound_ : (s.core.granted.isSome || b.register.any (generationOk host who)) = true →
        last = true ∨ sound ((lastPosition b.items).getD s.core.head) := fun asked => (moves asked).imp id here
    have views : ∀ change : Bool, Keeps sound who.generation last s.core.granted.isSome
        (if change = true then [Res.view (viewFill (host.grant b.store)) ((lastPosition b.items).getD s.core.head)] else [])
        last s.core.granted.isSome := by
      intro change
      split
      · exact ⟨by simp [Res.moves],rfl⟩
      · exact ⟨rfl,rfl⟩
    have commits : Keeps sound who.generation last s.core.granted.isSome
        (if b.items = [] then [] else [Res.commit ((lastPosition b.items).getD s.core.head) b.items]) last s.core.granted.isSome := by
      split
      · exact ⟨rfl,rfl⟩
      · exact ⟨fun on => sound_ (by rw [on]; rfl),rfl,rfl⟩
    have replies : Keeps sound who.generation last s.core.granted.isSome
        (if b.register.isSome = true then [Res.registered (if b.register.any (generationOk host who) = true then
          some (viewFill (host.grant b.store)) else none) ((lastPosition b.items).getD s.core.head)] else []) last
        (batchCore host who s.core b).granted.isSome := by
      unfold batchCore
      dsimp only
      cases registers : b.register with
      | none => simp [Keeps]; cases s.core.granted <;> rfl
      | some store =>
        simp only [Option.isSome_some,if_true,Option.any_some]
        by_cases accepts : generationOk host who store = true
        · simp only [accepts,if_true,Bool.or_true]
          exact ⟨fun _ => sound_ (by simp [registers,accepts]),rfl,by simp⟩
        · simp only [accepts,Bool.false_eq_true,if_false,Bool.or_false]
          exact ⟨fun on => (by cases on),rfl,by cases s.core.granted <;> rfl⟩
    exact ((accounts.append (views _)).append commits).append replies
  · have asked : (s.core.granted.isSome || b.register.any (generationOk host who)) = true := by
      unfold batchCore at granted
      dsimp only at granted
      by_contra none_
      rw [if_neg none_] at granted
      cases granted
    refine (moves asked).imp id fun same => ?_
    unfold batchCore
    dsimp only
    rw [user,Bool.true_and,asked,Bool.true_or,if_pos rfl,same]

theorem reaches_moved (limit position : Nat) (res : Res) (c : Conn) (named : c.principal.user ≠ none) :
    (res.reaches limit position c).revoked = (c.revoked || res.moves c.principal.generation) := by
  have queued : ∀ (d : Conn) frame, (d.queue limit frame).revoked = d.revoked := by
    intro d frame
    unfold Conn.queue
    split
    · rfl
    · split <;> rfl
  cases res with
  | account now =>
    simp only [Res.reaches,Conn.account,Res.moves,named,false_or]
    by_cases revoked : c.revoked = true
    · simp [revoked]
    · by_cases same : c.principal.generation = now
      · simp [same,revoked]
      · rw [if_neg (by simp [same,revoked])]
        show ({c with revoked:=true}.queue limit (.ends endRevoked)).revoked = _
        rw [queued]
        simp [Ne.symm same]
  | forgotten => simp [Res.reaches,Res.moves]
  | view grant at_ =>
    cases grant with
    | ok granted =>
      simp only [Res.reaches,Conn.view,Res.moves,Bool.or_false]
      split
      · exact queued _ _
      · rfl
    | error why =>
      simp only [Res.reaches,Conn.view,Res.moves,Bool.or_false]
      split
      · exact queued _ _
      · rfl
  | commit at_ items =>
    simp only [Res.reaches,Conn.commit,Res.moves,Bool.or_false]
    split
    · exact queued _ _
    · rfl
  | registered grant at_ => rcases grant with _ | why | granted <;> simp [Res.reaches,Conn.registered,Res.moves]
  | shutdown =>
    simp only [Res.reaches,Conn.stop,Res.moves,Bool.or_false]
    split <;> rfl

theorem Trusted.batch (trusted : s.Trusted host who) (stored : s.Stored) (piped : s.Piped) (named : who.user ≠ none) {b : Batch σ}
    (follows : b.Follows s.core) (speaks : s.Speaks host who ask (.batch b)) (reads : ask.ephemeral = true) :
    (s.batch host who b).Trusted host who := by
  have grows : ∀ at_, Sound host who s.core at_ → Sound host who (s.batch host who b).core at_ := fun at_ ⟨store,member,same⟩ =>
    ⟨store,List.mem_append_left _ member,same⟩
  refine ⟨?_,fun c opened => ?_,fun c opened on => ?_⟩
  · show (s.channel++batchResults host who s.core b).foldl Res.tells s.dispatcher.generation = _
    rw [List.foldl_append]
    exact batch_tells _ _ _ trusted.told
  · obtain ⟨moved,keeps,final⟩ := trusted.keeps c opened
    obtain ⟨last,more,ends⟩ := batch_keeps named (Sound host who (s.batch host who b).core) (speaks reads named)
      (fun same => ⟨b.store,by simp [Server.batch,batchCore],same⟩) final
    exact ⟨last,(keeps.imp grows).append more,ends⟩
  · refine (trusted.published c opened on).imp id fun every entry inside since upTo => ?_
    rcases List.mem_append.mp inside with old | now
    · exact every entry old since upTo
    · -- a batch at a position already published leaves the store it found
      cases List.mem_singleton.mp now
      have head := batch_head follows
      have published := piped.pipes.le
      have upTo_ : (lastPosition b.items).getD s.core.head ≤ s.dispatcher.position := upTo
      have none_ : b.items = [] := by
        by_contra some_
        obtain ⟨top,last⟩ := lastPosition_some some_
        obtain ⟨row,member,same⟩ := lastPosition_mem last
        have above := follows.above row member
        rw [last] at upTo_
        simp only [Option.getD_some] at upTo_
        omega
      have same : (lastPosition b.items).getD s.core.head = s.core.head := by rw [none_]; rfl
      have kept := every (s.core.head,s.core.store) stored.held (by rw [← same]; exact since) (by rw [← same]; exact upTo)
      show host.generation b.store = who.generation
      rw [follows.still none_]
      exact kept

theorem Trusted.dispatch (trusted : s.Trusted host who) (stored : s.Stored) (streams : s.Streams who ask) (named : who.user ≠ none) :
    (s.dispatch limit).Trusted host who := by
  cases first : s.channel with
  | nil =>
    unfold Server.dispatch
    rw [first]
    exact trusted
  | cons res rest =>
    have dispatched : s.dispatch limit = {s with
        channel:=rest
        dispatcher:=s.dispatcher.takes res
        conn:=s.conn.map fun c => res.reaches limit s.dispatcher.position c} := by
      unfold Server.dispatch
      rw [first]
    have told := trusted.told
    have pipes := streams.piped.pipes
    have placed := stored.placed
    rw [first] at told pipes placed
    have revoked : ∀ c, s.conn = some c → (res.reaches limit s.dispatcher.position c).revoked = (c.revoked || res.moves who.generation) :=
      fun c opened => by
        have same := (streams.linked.same c opened).2.1
        rw [reaches_moved limit s.dispatcher.position res c (by rw [same]; exact named),same]
    rw [dispatched]
    by_cases registered : ∃ grant at_, res = .registered grant at_
    · obtain ⟨grant,at_,rfl⟩ := registered
      have unanswered := (streams.linked.unanswered first).1
      have unknown : s.known = false := by
        unfold known
        rw [unanswered]
      have here : s.dispatcher.position = at_ := pipes.1
      refine ⟨told,fun c' mapped => ?_,fun c' mapped on => ?_⟩
      · obtain ⟨c,opened,rfl⟩ := Option.map_eq_some_iff.mp mapped
        obtain ⟨moved,keeps,final⟩ := trusted.keeps c opened
        rw [first,unknown] at keeps
        refine ⟨moved,?_,final⟩
        rw [revoked c opened]
        have after := keeps.2
        cases grant with
        | none => simpa [known,Dispatcher.takes,Res.moves] using after
        | some granted => simpa [known,Dispatcher.takes,Res.moves] using after
      · obtain ⟨c,opened,rfl⟩ := Option.map_eq_some_iff.mp mapped
        obtain ⟨moved,keeps,_⟩ := trusted.keeps c opened
        rw [first,unknown] at keeps
        have granted : grant.isSome = true := by
          cases grant with
          | none => cases on
          | some granted => rfl
        rw [revoked c opened]
        rcases keeps.1 granted with was | ⟨store,inside,same⟩
        · exact Or.inl (by rw [was]; rfl)
        · -- the one batch at the reply's position
          refine Or.inr fun entry member since upTo => ?_
          have low : at_ ≤ entry.1 := since
          have high : entry.1 ≤ s.dispatcher.position := upTo
          have at_same : entry = (at_,entry.2) := Prod.ext (by dsimp only; omega) rfl
          rw [stored.unique at_ entry.2 store (at_same ▸ member) inside]
          exact same
    · have other : ∀ grant at_, res ≠ .registered grant at_ := fun grant at_ is => registered ⟨grant,at_,is⟩
      have reply : (s.dispatcher.takes res).reply = s.dispatcher.reply := by
        cases res <;> first | rfl | exact absurd rfl (other _ _)
      have replied : repliedAt {s with
          channel:=rest
          dispatcher:=s.dispatcher.takes res
          conn:=s.conn.map fun c => res.reaches limit s.dispatcher.position c} = s.repliedAt := by
        unfold repliedAt
        rw [reply]
      have knows : known {s with
          channel:=rest
          dispatcher:=s.dispatcher.takes res
          conn:=s.conn.map fun c => res.reaches limit s.dispatcher.position c} = s.known := by
        unfold known
        rw [reply]
      refine ⟨?_,fun c' mapped => ?_,fun c' mapped on => ?_⟩
      · cases res <;> exact told
      · obtain ⟨c,opened,rfl⟩ := Option.map_eq_some_iff.mp mapped
        obtain ⟨moved,keeps,final⟩ := trusted.keeps c opened
        rw [first] at keeps
        rw [revoked c opened,knows]
        refine ⟨moved,?_,final⟩
        cases res with
        | commit at_ items => simpa [Res.moves] using keeps.2
        | registered grant at_ => exact absurd rfl (other grant at_)
        | _ => exact keeps
      · obtain ⟨c,opened,rfl⟩ := Option.map_eq_some_iff.mp mapped
        rw [knows] at on
        rw [revoked c opened,replied]
        rcases trusted.published c opened on with was | every
        · exact Or.inl (by rw [was]; rfl)
        · obtain ⟨moved,keeps,_⟩ := trusted.keeps c opened
          rw [first] at keeps
          cases res with
          | commit at_ items =>
            rcases keeps.1 on with was | ⟨store,inside,same⟩
            · exact Or.inl (by rw [was]; rfl)
            · refine Or.inr fun entry member since upTo => ?_
              rcases placed entry member with before | ⟨others,waiting⟩
              · exact every entry member since before
              · have high : entry.1 ≤ at_ := upTo
                have here : entry.1 = at_ := by
                  rcases List.mem_cons.mp waiting with now | later
                  · cases now
                    rfl
                  · have above := pipes_commits pipes.2.2.2.2 later
                    omega
                have at_same : entry = (at_,entry.2) := Prod.ext here rfl
                rw [stored.unique at_ entry.2 store (at_same ▸ member) inside]
                exact same
          | registered grant at_ => exact absurd rfl (other grant at_)
          | _ => exact Or.inr every

theorem Trusted.handle (trusted : s.Trusted host who) (linked : s.Linked who ask) (informed : s.Informed host ask) :
    (next host who ask limit s .handle).Trusted host who := by
  obtain ⟨core,channel,dispatcher⟩ := handle_frame host who ask limit s
  have replied : (next host who ask limit s .handle).repliedAt = s.repliedAt := by unfold repliedAt; rw [dispatcher]
  have knows : (next host who ask limit s .handle).known = s.known := by unfold known; rw [dispatcher]
  refine ⟨by rw [core,channel,dispatcher]; exact trusted.told,fun c' opened => ?_,fun c' opened on => ?_⟩
  · rw [core,channel,knows]
    rcases handle_conn opened with ⟨admitted,rfl⟩ | ⟨c,before,same⟩
    · -- a connection just opened has a registration still to ask for
      obtain ⟨unasked,reply,_⟩ := linked.unopened (linked.fresh (by rw [admitted]; rfl))
      have count := linked.replies
      rw [reply,unasked] at count
      have quiet : ∀ grant at_, .registered grant at_ ∉ s.channel := fun grant at_ member => by
        have positive := List.countP_pos_iff.mpr ⟨_,member,show isReply (.registered grant at_) = true from rfl⟩
        simp only [Option.isSome_none,Bool.toNat_false,Nat.add_zero] at count
        omega
      have unknown : s.known = false := by unfold known; rw [reply]
      obtain ⟨last,keeps⟩ : ∃ last, Keeps (Sound host who s.core) who.generation false false s.channel last false := keeps_idle quiet false
      rw [informed.unasked unasked,unknown]
      exact ⟨last,keeps,fun on => (by cases on)⟩
    · rw [same]
      exact trusted.keeps c before
  · rw [knows] at on
    rw [core,replied,dispatcher]
    rcases handle_conn opened with ⟨admitted,_⟩ | ⟨c,before,same⟩
    · obtain ⟨_,reply,_⟩ := linked.unopened (linked.fresh (by rw [admitted]; rfl))
      unfold known at on
      rw [reply] at on
      cases on
    · rw [same]
      exact trusted.published c before on

theorem Trusted.step (trusted : s.Trusted host who) (stored : s.Stored) (streams : s.Streams who ask) (informed : s.Informed host ask)
    (named : who.user ≠ none) (reads : ask.ephemeral = true) (event : ServerEvent σ) (allowed : s.allowed event)
    (speaks : s.Speaks host who ask event) : (next host who ask limit s event).Trusted host who := by
  cases event with
  | batch b => exact trusted.batch stored streams.piped named allowed.2.1 speaks reads
  | close =>
    refine ⟨?_,fun c opened => ?_,trusted.published⟩
    · show (s.channel++[Res.shutdown]).foldl Res.tells s.dispatcher.generation = s.core.account
      rw [List.foldl_append]
      exact trusted.told
    · obtain ⟨moved,keeps,final⟩ := trusted.keeps c opened
      exact ⟨moved,keeps.append ⟨by simp [Res.moves],rfl⟩,final⟩
  | dispatch => exact trusted.dispatch stored streams named
  | handle => exact trusted.handle streams.linked informed
  | tick => exact ⟨trusted.told,trusted.keeps,trusted.published⟩
  | ends code => exact ⟨trusted.told,trusted.keeps,trusted.published⟩

theorem opens_trusted (d : Opening σ) : (opens d).Trusted host who :=
  ⟨rfl,fun c is => (by cases is),fun c is => (by cases is)⟩

-- What a read that answers may show: the last batch it saw left its account at the token's
-- generation, and that batch or a later one dispatched before the answer left a grant that
-- covers its selector.
structure Covers (host : Host σ) (who : Principal) (ask : Ask) (s : Server σ) : Prop where
  current : who.user = none ∨ Sound host who s.core s.seen
  granted : ∃ entry ∈ s.core.history, s.seen ≤ entry.1 ∧ entry.1 ≤ s.dispatcher.begun ∧
    covered (viewOf [] (host.grant entry.2)) ask.selector = true

def Phase.reads : Phase → Bool
  | .cutting => true
  | .heading => true
  | .checking _ => true
  | _ => false

-- A read on its way: granted, and at a head it saw.
structure Reading (host : Host σ) (who : Principal) (ask : Ask) (s : Server σ) : Prop where
  granted : Phase.reads s.phase = true → ask.ephemeral = true ∧ ∃ granted position, s.dispatcher.reply = some (some (.ok granted),position)
  saw : s.phase = .heading ∨ (∃ position, s.phase = .checking position) →
    (∃ store, (s.seen,store) ∈ s.core.history) ∧ s.repliedAt ≤ s.seen ∧ s.seen ≤ s.core.head
  checks : ∀ position, s.phase = .checking position → s.seen ≤ position
  answered : s.phase = .answered 200 → s.Covers host who ask

theorem enter_reads (opening : s.phase = .opening) (cutting : (s.enter ask).phase = .cutting) :
    ask.ephemeral = true ∧ ∃ granted position, s.dispatcher.reply = some (some (.ok granted),position) := by
  unfold enter at cutting
  split at cutting
  · rename_i c granted position opened reply
    refine ⟨?_,granted,position,reply⟩
    split at cutting
    · cases cutting
    · cases ask with
      | stream since presented wants =>
        rw [show Server.phase _ = (s.handler.enters c since presented position).phase from rfl,enters_phase] at cutting
        cases cutting
      | snapshot selector => rfl
      | edits selector => rfl
  · cases cutting
  · cases cutting
  · rw [opening] at cutting
    cases cutting

-- The check: what covers the selector was granted at or past the position it waited for.
theorem check_covers (reading : s.Reading host who ask) (informed : s.Informed host ask) (linked : s.Linked who ask)
    (trusted : who.user ≠ none → ask.ephemeral = true → s.Trusted host who) (checking : s.phase = .checking position)
    (opened : s.conn = some c) (visible : c.visible ask.selector s.dispatcher.position position = 200) : s.Covers host who ask := by
  obtain ⟨ephemeral,granted_,placed,reply⟩ := reading.granted (by rw [checking]; rfl)
  obtain ⟨⟨store,held⟩,replied,_⟩ := reading.saw (Or.inr ⟨position,checking⟩)
  have seen := reading.checks position checking
  unfold Conn.visible at visible
  split at visible
  · cases visible
  rename_i settled
  split at visible
  · cases visible
  rename_i trusts
  split at visible
  · cases visible
  rename_i sound
  split at visible
  · rename_i covers
    obtain ⟨mark,tells⟩ := informed.tells
    obtain ⟨m,is⟩ := Option.ne_none_iff_exists'.mp (tells.answered _ _ reply)
    obtain ⟨granted,rfl,shown⟩ := tells.shown m c is opened (by simpa using sound)
    obtain ⟨at_,low,high,backed⟩ := tells.backed _ is
    have wants : c.wants = [] := by
      rw [(linked.same c opened).1]
      cases ask with
      | stream since presented wants => cases ephemeral
      | snapshot selector => rfl
      | edits selector => rfl
    rw [shown,wants] at covers
    obtain ⟨entry,member,same,shows⟩ := backed.covers covers
    refine ⟨?_,entry,member,by omega,by omega,shows⟩
    by_cases named : who.user = none
    · exact Or.inl named
    · refine Or.inr ⟨store,held,?_⟩
      have known : s.known = true := by unfold known; rw [reply]
      rcases (trusted named ephemeral).published c opened known with revoked | every
      · exact absurd revoked trusts
      · exact every _ held replied (by dsimp only; omega)
  · cases visible

-- A phase that reads nothing and has answered nothing yet.
theorem reading_away (away : Phase.reads s.phase = false) (unanswered : s.phase ≠ .answered 200) : s.Reading host who ask := by
  have left : ∀ {P : Prop}, Phase.reads s.phase = true → P := fun on => by
    rw [away] at on
    cases on
  refine ⟨left,?_,fun position is => left (by rw [is]; rfl),fun is => absurd is unanswered⟩
  rintro (is | ⟨position,is⟩)
  · exact left (by rw [is]; rfl)
  · exact left (by rw [is]; rfl)

theorem entered_away (entered : s.phase.entered = true ∨ s.phase = .gone) : s.Reading host who ask := by
  rcases entered with entered | gone
  · refine reading_away ?_ fun is => (by rw [is] at entered; cases entered)
    cases at_ : s.phase <;> simp_all [Phase.reads,Phase.entered,Phase.streams]
  · exact reading_away (by rw [gone]; rfl) (by rw [gone]; simp)

theorem serves_away (streaming : Bool) (step : Handler → Conn → Handler) {onward : Phase}
    (phase : ∀ c, ∃ h : Handler, (step s.handler c).phase = if (h.drain c).1 then onward else .gone) (on : onward.entered = true)
    (entered : s.phase.entered = true) : (s.serves streaming step).Reading host who ask := by
  refine entered_away ?_
  unfold Server.serves
  split
  · rename_i c opened
    obtain ⟨h,goes⟩ := phase c
    show ((step s.handler c).phase).entered = true ∨ (step s.handler c).phase = .gone
    rw [goes]
    split
    · exact Or.inl on
    · exact Or.inr rfl
  · exact Or.inl entered

theorem Covers.grow (covers : s.Covers host who ask) {t : Server σ} (more : s.core.history.Sublist t.core.history) (seen : t.seen = s.seen)
    (begun : s.dispatcher.begun ≤ t.dispatcher.begun) : t.Covers host who ask := by
  obtain ⟨entry,member,low,high,shows⟩ := covers.granted
  refine ⟨covers.current.imp id ?_,entry,more.subset member,seen ▸ low,high.trans begun,shows⟩
  rintro ⟨store,held,same⟩
  exact ⟨store,more.subset (seen ▸ held),same⟩

theorem Reading.grow (reading : s.Reading host who ask) {t : Server σ} (phase : t.phase = s.phase)
    (more : s.core.history.Sublist t.core.history) (head : s.core.head ≤ t.core.head) (seen : t.seen = s.seen)
    (begun : s.dispatcher.begun ≤ t.dispatcher.begun)
    (reply : Phase.reads s.phase = true → t.dispatcher.reply = s.dispatcher.reply) : t.Reading host who ask := by
  refine ⟨fun on => ?_,fun at_ => ?_,fun position at_ => ?_,fun at_ => ?_⟩
  · rw [phase] at on
    rw [reply on]
    exact reading.granted on
  · rw [phase] at at_
    have on : Phase.reads s.phase = true := by rcases at_ with is | ⟨position,is⟩ <;> rw [is] <;> rfl
    obtain ⟨⟨store,held⟩,replied,bound⟩ := reading.saw at_
    unfold repliedAt at replied ⊢
    rw [seen,reply on]
    exact ⟨⟨store,more.subset held⟩,replied,bound.trans head⟩
  · rw [seen]
    exact reading.checks position (phase ▸ at_)
  · exact (reading.answered (phase ▸ at_)).grow more seen begun

theorem Reading.handle (reading : s.Reading host who ask) (streams : s.Streams who ask) (informed : s.Informed host ask) (stored : s.Stored)
    (trusted : who.user ≠ none → ask.ephemeral = true → s.Trusted host who) : (next host who ask limit s .handle).Reading host who ask := by
  have head := streams.piped.pipes.le
  unfold next
  dsimp only
  cases at_ : s.phase with
  | arriving =>
    dsimp only
    unfold arrive
    split <;> exact reading_away rfl (by simp [goes,phase])
  | admitted => exact reading_away rfl (by simp [Server.insert,goes,phase])
  | opening =>
    dsimp only
    rcases enter_cases s ask with same | ⟨phase_,left,kind⟩ | ⟨c,granted,position,since,presented,wants,opened,reply,trusted,rfl,entered⟩
    · rw [same]
      exact reading
    · rcases kind with ⟨status,other,rfl⟩ | rfl
      · rw [left]
        exact reading_away rfl (by simpa [goes,phase] using other)
      · obtain ⟨ephemeral,granted⟩ := enter_reads at_ (by rw [left]; rfl)
        rw [left]
        refine ⟨fun _ => ⟨ephemeral,granted⟩,?_,fun position is => (by cases is),fun is => (by cases is)⟩
        rintro (is | ⟨position,is⟩) <;> cases is
    · rw [entered]
      have taking : Server.phase {s with handler:=s.handler.enters c since presented position} = .taking := enters_phase _ _ _ _ _
      exact entered_away (Or.inl (by rw [taking]; rfl))
  | taking => exact serves_away false Handler.take (fun c => ⟨s.handler,take_phase _ _⟩) rfl (by rw [at_]; rfl)
  | reading =>
    refine entered_away (Or.inl ?_)
    rcases read_phase s.handler s.core.log with done | more
    · rw [show Server.phase _ = (s.handler.read s.core.log).phase from rfl,done]
      rfl
    · rw [show Server.phase _ = (s.handler.read s.core.log).phase from rfl,more]
      rfl
  | switching =>
    exact serves_away true (fun h c => h.switch c s.dispatcher.position)
      (fun c => ⟨{s.handler with selectors:=c.selectors},switch_phase s.handler c s.dispatcher.position⟩) rfl (by rw [at_]; rfl)
  | hot published => exact entered_away (Or.inl rfl)
  | live => exact serves_away false Handler.wake (fun c => ⟨s.handler,wake_phase _ _⟩) rfl (by rw [at_]; rfl)
  | ticking published =>
    exact serves_away false (fun h c => h.beat c published) (fun c => ⟨s.handler,beat_phase _ _ published⟩) rfl (by rw [at_]; rfl)
  | cutting =>
    have granted := reading.granted (by rw [at_]; rfl)
    have saw := And.intro (⟨s.core.store,stored.held⟩ : ∃ store, (s.core.head,store) ∈ s.core.history)
      (And.intro (stored.replied.trans head) (le_refl s.core.head))
    cases ask with
    | snapshot selector =>
      exact ⟨fun _ => granted,fun _ => saw,fun position is => (by cases is; exact le_refl _),fun is => (by cases is)⟩
    | edits selector => exact ⟨fun _ => granted,fun _ => saw,fun position is => (by cases is),fun is => (by cases is)⟩
    | stream since presented wants => exact ⟨fun _ => granted,fun _ => saw,fun position is => (by cases is),fun is => (by cases is)⟩
  | heading =>
    have granted := reading.granted (by rw [at_]; rfl)
    have saw := reading.saw (Or.inl at_)
    exact ⟨fun _ => granted,fun _ => saw,fun position is => (by cases is; exact saw.2.2),fun is => (by cases is)⟩
  | checking position =>
    dsimp only
    unfold check
    cases opened : s.conn with
    | none => exact reading
    | some c =>
      have covers := check_covers reading informed streams.linked trusted at_ opened
      refine ⟨fun on => (by cases on),?_,fun position is => (by cases is),fun is => ?_⟩
      · rintro (is | ⟨position,is⟩) <;> cases is
      · simp only [goes,phase,Phase.answered.injEq] at is
        exact (covers is).grow (List.Sublist.refl _) rfl (le_refl _)
  | answered status => exact reading
  | gone => exact reading

theorem Reading.step (reading : s.Reading host who ask) (streams : s.Streams who ask) (informed : s.Informed host ask) (stored : s.Stored)
    (trusted : who.user ≠ none → ask.ephemeral = true → s.Trusted host who) (event : ServerEvent σ) (allowed : s.allowed event) :
    (next host who ask limit s event).Reading host who ask := by
  cases event with
  | batch b =>
    exact reading.grow rfl (List.sublist_append_left _ _) (batch_head allowed.2.1) rfl (le_refl _) fun _ => rfl
  | close => exact reading.grow rfl (List.Sublist.refl _) (le_refl _) rfl (le_refl _) fun _ => rfl
  | dispatch =>
    show (s.dispatch limit).Reading host who ask
    unfold Server.dispatch
    cases first : s.channel with
    | nil => exact reading
    | cons res rest =>
      have ordered := stored.ordered
      rw [first] at ordered
      refine reading.grow rfl (List.Sublist.refl _) (le_refl _) rfl ?_ fun on => ?_
      · cases res with
        | view grant at_ => exact (List.pairwise_cons.mp ordered).1 at_ (by simp [Res.begins])
        | commit at_ items => exact (List.pairwise_cons.mp ordered).1 at_ (by simp [Res.begins])
        | registered grant at_ => exact (List.pairwise_cons.mp ordered).1 at_ (by simp [Res.begins])
        | _ => exact le_refl _
      · cases res with
        | registered grant at_ =>
          obtain ⟨_,_,_,reply⟩ := reading.granted on
          rw [(streams.linked.unanswered first).1] at reply
          cases reply
        | _ => rfl
  | handle => exact reading.handle streams informed stored trusted
  | tick => exact reading_away rfl (by simp [next,goes,phase])
  | ends code => exact reading_away (by cases code <;> rfl) (by cases code <;> simp [next,ends,phase])

-- What holds of every server a read is served by.
structure Answerable (host : Host σ) (who : Principal) (ask : Ask) (s : Server σ) : Prop where
  streams : s.Streams who ask
  informed : s.Informed host ask
  stored : s.Stored
  trusted : who.user ≠ none → ask.ephemeral = true → s.Trusted host who
  reading : s.Reading host who ask

theorem Answerable.step (good : s.Answerable host who ask) (event : ServerEvent σ) (allowed : s.allowed event)
    (apart : s.Apart host ask event) (speaks : s.Speaks host who ask event) :
    (next host who ask limit s event).Answerable host who ask :=
  ⟨good.streams.step good.informed event allowed,
    good.informed.step good.streams.piped good.streams.linked event allowed apart,good.stored.step good.streams.piped event allowed,
    fun named reads => (good.trusted named reads).step good.stored good.streams good.informed named reads event allowed speaks,
    good.reading.step good.streams good.informed good.stored good.trusted event allowed⟩

theorem opens_answerable (d : Opening σ) : (opens d).Answerable host who ask :=
  ⟨opens_streams d,opens_informed d,opens_stored d,fun _ _ => opens_trusted d,reading_away rfl (by simp [opens,phase])⟩

theorem reads_pass_no_revocation {d : Opening σ} {run : List (ServerEvent σ)}
    (runs : (((machine host who ask limit).under (Apart host ask)).under (Speaks host who ask)).Runs (opens d) run s) :
    s.phase = .answered 200 → s.Covers host who ask := by
  have good : s.Answerable host who ask := by
    refine runs.invariant (opens_answerable d) ?_
    intro before event good allowed
    exact good.step event allowed.1.1 allowed.1.2 allowed.2
  exact good.reading.answered

instance (s : Server σ) : ∀ event : ServerEvent σ, Decidable (s.Speaks host who ask event)
  | .batch _ => inferInstanceAs (Decidable (_ → _ → _ → _ ∨ _))
  | .handle | .close | .dispatch | .tick | .ends _ => .isTrue trivial

instance [DecidableEq σ] (s : Server σ) (event : ServerEvent σ) :
    Decidable ((((machine host who ask limit).under (Apart host ask)).under (Speaks host who ask)).allowed s event) :=
  inferInstanceAs (Decidable (_ ∧ _))

namespace Sample

def cut : Ask := .snapshot ['s']

-- A snapshot cut at one head and answered at it.
def snapshot : List (ServerEvent (List Name × Int)) := [.handle,.handle,
  .batch {items:=[row 1 ['s'] 1],log:=[row 1 ['s'] 1],store,register:=some store},.dispatch,.dispatch,.dispatch,.handle,.handle,.handle]

-- An account moved, back for the registration's turn, and moved again in the registration's batch.
def flipping : List (ServerEvent (List Name × Int)) := [.handle,
  .batch {items:=[row 1 ['s'] 1],log:=[row 1 ['s'] 1],store:=([['s']],1),looked:=true},.dispatch,.dispatch,.handle,
  .batch {items:=[row 2 ['s'] 2],log:=[row 1 ['s'] 1,row 2 ['s'] 2],store:=([['s']],1),register:=some store},
  .dispatch,.dispatch,.handle,.handle,.handle]

end Sample

theorem reads_pass_no_revocation_sample : ∃ s,
    (((machine Sample.hosted Sample.user Sample.cut 8).under (Apart Sample.hosted Sample.cut)).under
      (Speaks Sample.hosted Sample.user Sample.cut)).Runs (opens Sample.opening) Sample.snapshot s ∧ s.phase = .answered 200 ∧ s.Covers Sample.hosted Sample.user Sample.cut := by
  obtain ⟨s,runs,answered⟩ := Machine.follow_finds
    (((machine Sample.hosted Sample.user Sample.cut 8).under (Apart Sample.hosted Sample.cut)).under
      (Speaks Sample.hosted Sample.user Sample.cut)) (opens Sample.opening) Sample.snapshot (fun s => s.phase = .answered 200) (by decide +kernel)
  have ok : s.phase = .answered 200 := by simpa using answered
  exact ⟨s,runs,ok,reads_pass_no_revocation runs ok⟩

instance (s : Server σ) (at_ : Nat) : Decidable (Sound host who s.core at_) :=
  decidable_of_iff (∃ entry ∈ s.core.history, entry.1 = at_ ∧ host.generation entry.2 = who.generation)
    ⟨fun ⟨entry,member,here,same⟩ => ⟨entry.2,by rw [← here]; exact member,same⟩,fun ⟨store,member,same⟩ => ⟨(at_,store),member,rfl,same⟩⟩

theorem flipped_account_is_read : ∃ s, (machine Sample.hosted Sample.user Sample.cut 8).Runs (opens Sample.opening) Sample.flipping s ∧
    s.phase = .answered 200 ∧ ¬s.Covers Sample.hosted Sample.user Sample.cut := by
  obtain ⟨s,runs,stale⟩ := Machine.follow_finds (machine Sample.hosted Sample.user Sample.cut 8) (opens Sample.opening) Sample.flipping
    (fun s => decide (s.phase = .answered 200 ∧ ¬Sound Sample.hosted Sample.user s.core s.seen)) (by decide +kernel)
  obtain ⟨answered,unsound⟩ := of_decide_eq_true stale
  refine ⟨s,runs,answered,fun covers => ?_⟩
  rcases covers.current with anonymous | sound
  · cases anonymous
  · exact unsound sound

end Server

end PhaseLock

