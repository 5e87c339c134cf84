import PhaseLock.KeySteps
import PhaseLock.Compact

namespace PhaseLock
namespace Keys
variable {ρ π : Type} {jose : Jose ρ π}

-- A token is young while no reading has reached the end of its lifetime.
def Token.Young (token : Token π) (readings : List Int) : Prop :=
  ∀ t ∈ readings, t < token.signed+fromMillis tokenLifetimeMs

theorem Token.Young.earlier {token : Token π} (young : token.Young (now :: readings)) : token.Young readings :=
  fun t member => young t (List.mem_cons_of_mem _ member)

theorem Token.Young.again {token : Token π} (young : token.Young readings) (read : now ∈ readings) :
    token.Young (now :: readings) := by
  intro t member
  rcases List.mem_cons.mp member with rfl | member
  · exact young t read
  · exact young t member

-- What holds of the process: its keyring finds every young token's key, a past process's
-- keys signed no later than the grace past its start, and its own key is held, and stored,
-- until it is too old to sign.
structure Holds (jose : Jose ρ π) (s : State ρ π) (sv : Server ρ π) : Prop where
  ordered : sv.keys.Ordered
  drawn : ∀ k ∈ sv.keys.sorted, s.drawn.get k.kid = some k
  young : ∀ τ ∈ s.tokens, τ.Young s.readings → τ.key ∈ sv.keys.sorted
  past : ∀ τ ∈ s.tokens, τ.key.kid ∈ sv.keys.past → unixMs τ.signed ≤ sv.keys.start+keyGraceMs
  pastDrawn : ∀ kid ∈ sv.keys.past, s.drawn.get kid ≠ none
  signing : ∀ k p, sv.signing = some (k,p) → k.public_ = jose.publicOf p ∧ s.drawn.get k.kid = some k ∧ k.kid ∉ sv.keys.past
  current : ∀ k p, sv.signing = some (k,p) →
    k ∈ sv.keys.sorted ∧ k ∈ s.table ∨ ∃ t ∈ s.readings, k.minted+2*keyGraceMs ≤ unixMs t

structure Inv (jose : Jose ρ π) (s : State ρ π) : Prop where
  table : ∀ k ∈ s.table, s.drawn.get k.kid = some k
  signed : ∀ τ ∈ s.tokens, τ.signed ∈ s.readings
  rotation : ∀ τ ∈ s.tokens, unixMs τ.signed < τ.key.minted+keyRotationMs
  drawn : ∀ τ ∈ s.tokens, s.drawn.get τ.key.kid = some τ.key
  young : ∀ τ ∈ s.tokens, τ.Young s.readings → τ.key ∈ s.table
  made : ∀ τ ∈ s.tokens, ∃ p user generation jti, τ = signToken jose τ.key p τ.signed user generation jti ∧
    τ.key.public_ = jose.publicOf p ∧ 0 ≤ generation
  server : ∀ sv, s.server = some sv → Holds jose s sv

theorem empty_inv : Inv jose State.empty :=
  ⟨fun _ h => (by cases h),fun _ h => (by cases h),fun _ h => (by cases h),fun _ h => (by cases h),fun _ h => (by cases h),
    fun _ h => (by cases h),fun _ h => (by cases h)⟩

-- A clock read makes no token younger.
theorem Inv.tick {s : State ρ π} (inv : Inv jose s) (now : Int) : Inv jose {s with readings:=now :: s.readings} := by
  refine ⟨inv.table,fun τ member => List.mem_cons_of_mem _ (inv.signed τ member),inv.rotation,inv.drawn,
    fun τ member young => inv.young τ member young.earlier,inv.made,fun sv is => ?_⟩
  have holds := inv.server sv is
  refine ⟨holds.ordered,holds.drawn,fun τ member young => holds.young τ member young.earlier,holds.past,holds.pastDrawn,
    holds.signing,fun k p signing => ?_⟩
  rcases holds.current k p signing with here | ⟨t,member,old⟩
  · exact .inl here
  · exact .inr ⟨t,List.mem_cons_of_mem _ member,old⟩

theorem Inv.single {s : State ρ π} (inv : Inv jose s) : Single s.table := by
  intro a inA b inB same
  have one := inv.table a inA
  rw [same,inv.table b inB] at one
  exact (Option.some.inj one).symm

theorem Inv.start {s : State ρ π} (inv : Inv jose s) (now : Int) (steady : s.Steady now) :
    Inv jose (s.next jose (.start now)) := by
  have ticked := inv.tick now
  have held : ∀ k, k ∈ (Keyring.new s.table (unixMs now)).sorted ↔ k ∈ s.table := fun k => List.mem_insertionSort _
  refine ⟨ticked.table,ticked.signed,ticked.rotation,ticked.drawn,ticked.young,ticked.made,fun sv is => ?_⟩
  cases is
  refine ⟨new_ordered inv.single _,fun k member => inv.table k ((held k).mp member),
    fun τ member young => (held _).mpr (ticked.young τ member young),?_,?_,fun k p none => (by cases none),
    fun k p none => (by cases none)⟩
  · -- a token of an earlier process was signed at an earlier reading
    intro τ member _
    have back := unixMs_back (by decide) (steady τ.signed (inv.signed τ member))
    show unixMs τ.signed ≤ unixMs now+keyGraceMs
    omega
  · intro kid member
    obtain ⟨k,inside,rfl⟩ := List.mem_map.mp member
    show s.drawn.get k.kid ≠ none
    rw [inv.table k inside]
    simp

-- What a sweep names has no young token, and no key that could still sign.
theorem Inv.spent {s : State ρ π} (inv : Inv jose s) (is : s.server = some sv) {now : Int}
    (member : kid ∈ sv.keys.swept now now) : ∃ k ∈ sv.keys.sorted, k.kid = kid ∧
      (∀ τ ∈ s.tokens, τ.key.kid = kid → unixMs τ.signed+tokenLifetimeMs < now) ∧
      (kid ∉ sv.keys.past → k.minted+2*keyGraceMs ≤ now) := by
  have holds := inv.server sv is
  obtain ⟨k,inside,rfl,at_,past,retired⟩ := mem_sweptFrom holds.ordered.sorted member
  refine ⟨k,inside,rfl,?_,?_⟩
  · intro τ minted same
    have key : τ.key = k := by
      have one := inv.drawn τ minted
      rw [same,holds.drawn k inside] at one
      exact (Option.some.inj one).symm
    rcases retired with least | ⟨old,rfl⟩
    · have recent := inv.rotation τ minted
      rw [key] at recent
      unfold keyRotationMs at recent
      unfold keyGraceMs at past
      omega
    · have early := holds.past τ minted (same ▸ old)
      omega
  · intro own
    rcases retired with least | ⟨old,_⟩
    · unfold tokenLifetimeMs at past
      unfold keyGraceMs at past ⊢
      omega
    · exact absurd old own

theorem Inv.kept {s : State ρ π} (inv : Inv jose s) (is : s.server = some sv) (member : τ ∈ s.tokens)
    (young : τ.Young (now :: s.readings)) : τ.key.kid ∉ sv.keys.swept (unixMs now) (unixMs now) := by
  intro swept
  obtain ⟨_,_,_,spent,_⟩ := inv.spent is swept
  have late := unixMs_gap (by decide) (spent τ member rfl)
  have := young now List.mem_cons_self
  omega

-- A key too old to sign stays so.
theorem stale_now {readings : List Int} (steady : ∀ t ∈ readings, t-fromMillis keyGraceMs ≤ now) {k : TokenKey π}
    (stale : ∃ t ∈ readings, k.minted+2*keyGraceMs ≤ unixMs t) : ¬unixMs now-k.minted < keyRotationMs := by
  obtain ⟨t,member,old⟩ := stale
  have back := unixMs_back (by decide) (steady t member)
  unfold keyGraceMs at old back
  unfold keyRotationMs
  omega

theorem get_drawn {drawn : OrderedMap Text (TokenKey π)} (fresh : drawn.get kid = none) (k : TokenKey π)
    (held : drawn.get x = some y) : (drawn.set kid k).get x = some y := by
  rw [OrderedMap.get_set_ne]
  · exact held
  · rintro rfl
    rw [fresh] at held
    cases held

section Mint
variable {s : State ρ π} {sv : Server ρ π} {now : Int}

-- A key drawn changes nothing yet.
theorem Inv.draw (inv : Inv jose s) (fresh : s.drawn.get kid = none) (k : TokenKey π) :
    Inv jose {s with drawn:=s.drawn.set kid k} := by
  refine ⟨fun k' member => get_drawn fresh k (inv.table k' member),inv.signed,inv.rotation,
    fun τ member => get_drawn fresh k (inv.drawn τ member),inv.young,inv.made,fun sv is => ?_⟩
  have holds := inv.server sv is
  refine ⟨holds.ordered,fun k' member => get_drawn fresh k (holds.drawn k' member),holds.young,holds.past,?_,?_,holds.current⟩
  · intro kid' member
    obtain ⟨k',is'⟩ := Option.ne_none_iff_exists'.mp (holds.pastDrawn kid' member)
    rw [get_drawn fresh k is']
    simp
  · intro k' p signing
    obtain ⟨own,held,new⟩ := holds.signing k' p signing
    exact ⟨own,get_drawn fresh k held,new⟩

-- The signing key signs one more.
theorem Inv.sign (inv : Inv jose s) (is : s.server = some sv) (signing : sv.signing = some (k,p)) (read : now ∈ s.readings)
    (recent : unixMs now-k.minted < keyRotationMs) (held : k ∈ sv.keys.sorted ∧ k ∈ s.table) (user : Text)
    (fine : 0 ≤ generation) (jti : Text) :
    Inv jose {s with tokens:=s.tokens++[signToken jose k p now user generation jti]} := by
  have holds := inv.server sv is
  obtain ⟨own,drawn,new⟩ := holds.signing k p signing
  have either : ∀ τ ∈ s.tokens++[signToken jose k p now user generation jti],
      τ ∈ s.tokens ∨ τ = signToken jose k p now user generation jti := fun τ member => by simpa using member
  refine ⟨inv.table,?_,?_,?_,?_,?_,fun sv' is' => ?_⟩
  · intro τ member
    rcases either τ member with old | rfl
    · exact inv.signed τ old
    · exact read
  · intro τ member
    rcases either τ member with old | rfl
    · exact inv.rotation τ old
    · show unixMs now < k.minted+keyRotationMs
      omega
  · intro τ member
    rcases either τ member with old | rfl
    · exact inv.drawn τ old
    · exact drawn
  · intro τ member young
    rcases either τ member with old | rfl
    · exact inv.young τ old young
    · exact held.2
  · intro τ member
    rcases either τ member with old | rfl
    · exact inv.made τ old
    · exact ⟨p,user,generation,jti,rfl,own,fine⟩
  · cases is.symm.trans is'
    refine ⟨holds.ordered,holds.drawn,?_,?_,holds.pastDrawn,holds.signing,holds.current⟩
    · intro τ member young
      rcases either τ member with old | rfl
      · exact holds.young τ old young
      · exact held.1
    · intro τ member early
      rcases either τ member with old | rfl
      · exact holds.past τ old early
      · exact absurd early new

-- A key is stored, and what it sweeps deleted.
theorem Inv.store (inv : Inv jose s) (is : s.server = some sv) (read : now ∈ s.readings)
    (drawn : s.drawn.get k.kid = some k) :
    Inv jose {s with table:=State.store s.table (some (k,sv.keys.swept (unixMs now) (unixMs now)))} := by
  have holds := inv.server sv is
  have kept : ∀ x, x ∈ State.store s.table (some (k,sv.keys.swept (unixMs now) (unixMs now))) ↔
      (x ∈ s.table ∨ x = k) ∧ x.kid ∉ sv.keys.swept (unixMs now) (unixMs now) := fun x => by simp [State.store,or_and_right]
  refine ⟨?_,inv.signed,inv.rotation,inv.drawn,?_,inv.made,fun sv' is' => ?_⟩
  · intro x member
    rcases ((kept x).mp member).1 with old | rfl
    · exact inv.table x old
    · exact drawn
  · intro τ member young
    exact (kept _).mpr ⟨.inl (inv.young τ member young),inv.kept is member (young.again read)⟩
  · cases is.symm.trans is'
    refine ⟨holds.ordered,holds.drawn,holds.young,holds.past,holds.pastDrawn,holds.signing,fun k' p signing => ?_⟩
    rcases holds.current k' p signing with ⟨inRing,inTable⟩ | stale
    · by_cases swept : k'.kid ∈ sv.keys.swept (unixMs now) (unixMs now)
      · -- a signing key swept is too old to sign
        obtain ⟨k₂,inside,same,_,old⟩ := inv.spent is swept
        have equal : k₂ = k' := by
          have one := holds.drawn k₂ inside
          rw [same,holds.drawn k' inRing] at one
          exact (Option.some.inj one).symm
        exact .inr ⟨now,read,equal ▸ old (holds.signing k' p signing).2.2⟩
      · exact .inl ⟨inRing,(kept k').mpr ⟨.inl inTable,swept⟩⟩
    · exact .inr stale

-- The process takes the key it stored and signs with it from now on.
theorem Inv.take (inv : Inv jose s) (is : s.server = some sv) (read : now ∈ s.readings) {k : TokenKey π}
    (own : k.public_ = jose.publicOf p) (drawn : s.drawn.get k.kid = some k) (stored : k ∈ s.table)
    (new : k.kid ∉ sv.keys.past) (fresh : sv.keys.key k.kid = none) :
    Inv jose {s with server:=some ⟨sv.keys.add k (sv.keys.swept (unixMs now) (unixMs now)),some (k,p)⟩} ∧
      k ∈ (sv.keys.add k (sv.keys.swept (unixMs now) (unixMs now))).sorted := by
  have holds := inv.server sv is
  have held := add_mem holds.ordered fresh (sv.keys.swept (unixMs now) (unixMs now))
  have staying : k.kid ∉ sv.keys.swept (unixMs now) (unixMs now) := by
    intro swept
    obtain ⟨k',inside,same,_⟩ := inv.spent is swept
    rw [(holds.ordered.found k.kid k').mpr ⟨inside,same⟩] at fresh
    cases fresh
  have inRing := (held k).mpr ⟨.inr rfl,staying⟩
  refine ⟨⟨inv.table,inv.signed,inv.rotation,inv.drawn,inv.young,inv.made,fun sv' is' => ?_⟩,inRing⟩
  cases is'
  have fewer : ∀ kid ∈ (sv.keys.add k (sv.keys.swept (unixMs now) (unixMs now))).past, kid ∈ sv.keys.past :=
    fun kid member => List.mem_of_mem_filter member
  refine ⟨add_ordered holds.ordered fresh _,?_,?_,fun τ member early => holds.past τ member (fewer _ early),
    fun kid member => holds.pastDrawn kid (fewer kid member),?_,?_⟩
  · intro x member
    rcases ((held x).mp member).1 with old | rfl
    · exact holds.drawn x old
    · exact drawn
  · intro τ member young
    exact (held _).mpr ⟨.inl (holds.young τ member young),inv.kept is member (young.again read)⟩
  · rintro k' p' signing
    cases signing
    exact ⟨own,drawn,fun early => new (fewer _ early)⟩
  · rintro k' p' signing
    cases signing
    exact .inl ⟨inRing,stored⟩

end Mint

-- What a mint's id was drawn for is new to the process and the table.
theorem Inv.unheld {s : State ρ π} (inv : Inv jose s) (is : s.server = some sv) (fresh : s.drawn.get kid = none) :
    sv.keys.key kid = none ∧ kid ∉ sv.keys.past ∧ kid ∉ sv.keys.swept now now := by
  have holds := inv.server sv is
  have apart : ∀ k ∈ sv.keys.sorted, k.kid ≠ kid := by
    rintro k inside rfl
    rw [holds.drawn k inside] at fresh
    cases fresh
  refine ⟨?_,fun early => holds.pastDrawn _ early fresh,fun swept => ?_⟩
  · cases found : sv.keys.key kid with
    | none => rfl
    | some k =>
      obtain ⟨inside,same⟩ := (holds.ordered.found _ _).mp found
      exact absurd same (apart k inside)
  · obtain ⟨k,inside,same,_⟩ := inv.spent is swept
    exact apart k inside same

theorem Inv.mint {s : State ρ π} (inv : Inv jose s) (now : Int) (user : Text) (generation : Int) (draw : Draw ρ) (commit : Commit)
    (ok : s.allowed (.mint now user generation draw commit)) : Inv jose (s.next jose (.mint now user generation draw commit)) := by
  obtain ⟨table,server,tokens,keys,readings⟩ := s
  obtain ⟨up,steady,fine,fresh⟩ := ok
  cases server with
  | none => cases up
  | some sv =>
    let k : TokenKey π := ⟨draw.kid,jose.publicOf draw.private_,unixMs now⟩
    have drawn := (inv.tick now).draw (show keys.get draw.kid = none from fresh) k
    have read : now ∈ now :: readings := List.mem_cons_self
    rw [State.next]
    dsimp only
    rw [Keys.mint]
    cases current : sv.signing.filter (fun current => unixMs now-current.1.minted < keyRotationMs) with
    | some signing =>
      obtain ⟨key,p⟩ := signing
      obtain ⟨signing,recent⟩ := Option.filter_eq_some_iff.mp current
      have recent : unixMs now-key.minted < keyRotationMs := by simpa using recent
      have held : key ∈ sv.keys.sorted ∧ key ∈ table := by
        rcases (inv.server sv rfl).current key p signing with held | stale
        · exact held
        · exact absurd recent (stale_now steady stale)
      exact drawn.sign rfl signing read recent held user fine draw.jti
    | none =>
      have fromDrawn : ((keys.set draw.kid k).get k.kid) = some k := OrderedMap.get_set_self _ _ _
      have stored := drawn.store (k:=k) rfl read fromDrawn
      cases commit with
      | failed errmsg => simpa [State.store,Except.toOption] using drawn
      | lost errmsg => simpa [Except.toOption] using stored
      | done =>
        obtain ⟨freshRing,new,kept⟩ : _ ∧ _ ∧ draw.kid ∉ sv.keys.swept (unixMs now) (unixMs now) := inv.unheld rfl fresh
        have member : k ∈ State.store table (some (k,sv.keys.swept (unixMs now) (unixMs now))) := by
          have staying : k.kid ∉ sv.keys.swept (unixMs now) (unixMs now) := kept
          exact List.mem_filter.mpr ⟨List.mem_append_right _ (List.mem_singleton_self k),by simpa using staying⟩
        obtain ⟨taken,inRing⟩ := stored.take rfl read (p:=draw.private_) rfl fromDrawn member new freshRing
        have recent : unixMs now-k.minted < keyRotationMs := by
          show unixMs now-unixMs now < keyRotationMs
          rw [Int.sub_self]
          decide
        exact taken.sign rfl rfl read recent ⟨inRing,member⟩ user fine draw.jti

theorem Inv.next {s : State ρ π} (inv : Inv jose s) (event : Event ρ) (ok : s.allowed event) : Inv jose (s.next jose event) := by
  cases event with
  | start now => exact inv.start now ok
  | mint now user generation draw commit => exact inv.mint now user generation draw commit ok
  | read now => exact inv.tick now

theorem reaches_inv {s : State ρ π} (reached : (machine jose).Reaches State.empty s) : Inv jose s :=
  reached.invariant empty_inv fun _ event inv ok => inv.next event ok

-- A text the server never signed does not verify under a key drawn for it.
def Unforged (jose : Jose ρ π) (s : State ρ π) (token : Text) : Prop :=
  ∀ header payload signature kid k, token.splitOn '.' = [header,payload,signature] → s.drawn.get kid = some k →
    jose.verifies k.public_ (dotted header payload) signature = true →
    ∃ τ ∈ s.tokens, τ.key = k ∧ τ.input = dotted header payload

theorem splitOn_plain (text part : Text) (member : part ∈ text.splitOn '.') : '.' ∉ part := by
  induction text generalizing part with
  | nil =>
    rw [List.splitOn_nil,List.mem_singleton] at member
    simp [member]
  | cons c text ih =>
    rw [List.splitOn_cons_eq_if_modifyHead] at member
    split at member
    · rcases List.mem_cons.mp member with rfl | later
      · simp
      · exact ih part later
    · rename_i other
      cases parts : text.splitOn '.' with
      | nil => rw [parts] at member; cases member
      | cons first rest =>
        rw [parts,List.modifyHead_cons] at member
        rw [parts] at ih
        rcases List.mem_cons.mp member with rfl | later
        · have apart : c ≠ '.' := by simpa using other
          have plain := ih first List.mem_cons_self
          simp [plain,Ne.symm apart]
        · exact ih part (List.mem_cons_of_mem _ later)

-- What verifies is what the server signed, its claims as it made them.
theorem Inv.verified {s : State ρ π} (inv : Inv jose s) (sound : jose.Sound) (is : s.server = some sv)
    (unforged : Unforged jose s token) (ok : verify jose sv.keys v token = .ok c) : ∃ τ ∈ s.tokens, τ.claims = c := by
  obtain ⟨_,header,payload,signature,h,k,parts,_,found,signed,read⟩ := verify_ok ok
  have holds := inv.server sv is
  obtain ⟨held,_⟩ := (holds.ordered.found _ _).mp found
  obtain ⟨τ,member,_,input⟩ := unforged header payload signature k.kid k parts (holds.drawn k held) signed
  obtain ⟨p,user,generation,jti,made,_,_⟩ := inv.made τ member
  refine ⟨τ,member,?_⟩
  have plain : '.' ∉ header := splitOn_plain token header (by rw [parts]; exact List.mem_cons_self)
  rw [made,signToken] at input
  obtain ⟨_,same⟩ := dotted_inj (sound.headerPlain _) plain input
  rw [← same,sound.claims] at read
  rw [made]
  exact Option.some.inj read

-- In every history of starts, mints and clock readings: what a mint sweeps has no token
-- younger than its lifetime; a token verifies, by the process there is, while no reading so
-- far has reached the end of its lifetime; and none verifies past the second its exp names,
-- which, forgery apart, is the one it was minted with.
theorem key_outlives_tokens (sound : jose.Sound) {s : State ρ π} (reached : (machine jose).Reaches State.empty s)
    (is : s.server = some sv) :
    (∀ now user generation draw commit k sweep, (mint jose sv now user generation draw commit).stored = some (k,sweep) →
      ∀ τ ∈ s.tokens, τ.key.kid ∈ sweep → τ.signed+fromMillis tokenLifetimeMs ≤ now) ∧
    (∀ v, ∀ τ ∈ s.tokens, τ.Young (v :: s.readings) → verify jose sv.keys v τ.text = .ok τ.claims) ∧
    ∀ v token c, verify jose sv.keys v token = .ok c → unixS v ≤ c.exp ∧ (Unforged jose s token →
      ∃ τ ∈ s.tokens, τ.claims = c ∧ c.exp = unixS (τ.signed+fromMillis tokenLifetimeMs)) := by
  have inv := reaches_inv reached
  have holds := inv.server sv is
  refine ⟨?_,?_,?_⟩
  · intro now user generation draw commit k sweep stored τ member swept
    have sweeps : sweep = sv.keys.swept (unixMs now) (unixMs now) := by
      unfold mint at stored
      split at stored
      · cases stored
      · cases commit with
        | failed errmsg => cases stored
        | lost errmsg => cases stored; rfl
        | done => cases stored; rfl
    subst sweeps
    obtain ⟨_,_,_,spent,_⟩ := inv.spent is swept
    exact unixMs_gap (by decide) (spent τ member rfl)
  · intro v τ member young
    have held := holds.young τ member young.earlier
    obtain ⟨p,user,generation,jti,made,own,fine⟩ := inv.made τ member
    have fresh := young v List.mem_cons_self
    have verified := verify_signed sound own ((holds.ordered.found _ _).mpr ⟨held,rfl⟩) τ.signed v user fine jti (le_of_lt fresh)
    rwa [← made] at verified
  · intro v token c ok
    refine ⟨(verify_ok ok).1,fun unforged => ?_⟩
    obtain ⟨τ,member,same⟩ := inv.verified sound is unforged ok
    obtain ⟨p,user,generation,jti,made,_,_⟩ := inv.made τ member
    refine ⟨τ,member,same,?_⟩
    rw [← same,made]
    rfl

instance (s : State ρ π) (now : Int) : Decidable (s.Steady now) := inferInstanceAs (Decidable (∀ _ ∈ _, _))

instance [DecidableEq π] (s : State ρ π) (event : Event ρ) : Decidable (s.allowed event) := by
  cases event <;> unfold State.allowed <;> infer_instance

instance [DecidableEq π] (jose : Jose ρ π) : ∀ s event, Decidable ((machine jose).allowed s event) :=
  fun s event => inferInstanceAs (Decidable (s.allowed event))

-- A signature scheme of a byte, its private half one less than its public half.
def sampleJose : Jose UInt8 UInt8 :=
  Compact.jose (· + 1) (fun private_ text => (private_+1) :: text.flatMap String.utf8EncodeChar)
    fun public_ text signature => signature == public_ :: text.flatMap String.utf8EncodeChar

theorem sampleJose_sound : sampleJose.Sound := Compact.jose_sound fun _ _ => beq_self_eq_true _

-- A process mints a key, and a token with it.
theorem key_outlives_tokens_sample : ∃ s sv, (machine sampleJose).Reaches State.empty s ∧ s.server = some sv ∧
    ∃ τ ∈ s.tokens, verify sampleJose sv.keys 1000000 τ.text = .ok τ.claims := by
  obtain ⟨s,path,found⟩ := (machine sampleJose).follow_finds State.empty
    [.start 0,.mint 0 "ann".toList 0 ⟨"a".toList,1,"x".toList⟩ .done]
    (fun s => s.server.isSome && s.tokens.any (fun τ => decide (τ.signed = 0)) && decide (s.readings = [0,0])) (by decide +kernel)
  simp only [Bool.and_eq_true,List.any_eq_true,decide_eq_true_eq,Option.isSome_iff_exists] at found
  obtain ⟨⟨⟨sv,is⟩,τ,member,signed⟩,readings⟩ := found
  refine ⟨s,sv,⟨_,path⟩,is,τ,member,(key_outlives_tokens sampleJose_sound ⟨_,path⟩ is).2.1 1000000 τ member ?_⟩
  unfold Token.Young
  rw [readings,signed]
  decide

-- A clock steps back a day over a restart, and again after the sweep: of two tokens a key
-- signed, one is young again and its key is gone.
theorem swept_key_stranded : ∃ s sv v, (machine sampleJose).Reaches State.empty s ∧ s.server = some sv ∧ s.Steady v ∧
    ∃ τ ∈ s.tokens, v < τ.signed+fromMillis tokenLifetimeMs ∧
      verify sampleJose sv.keys v τ.text = .error "unknown token key" := by
  obtain ⟨s,path,found⟩ := (machine sampleJose).follow_finds State.empty
    [.start 0,.mint 0 "ann".toList 0 ⟨"a".toList,1,"x".toList⟩ .done,
      .mint (fromMillis (keyRotationMs-1)) "ann".toList 0 ⟨"b".toList,2,"y".toList⟩ .done,
      .start 0,.mint 0 "ann".toList 0 ⟨"c".toList,3,"z".toList⟩ .done,
      .mint (fromMillis (tokenLifetimeMs+keyGraceMs+1)) "ann".toList 0 ⟨"d".toList,4,"w".toList⟩ .done]
    (fun s => decide (s.Steady (fromMillis (tokenLifetimeMs+1))) && s.server.any fun sv => s.tokens.any fun τ =>
      decide (τ.signed = fromMillis (keyRotationMs-1)) && (sv.keys.key τ.key.kid).isNone) (by decide +kernel)
  simp only [Bool.and_eq_true,List.any_eq_true,decide_eq_true_eq,Option.any_eq_true,Option.isNone_iff_eq_none] at found
  obtain ⟨steady,sv,is,τ,member,signed,gone⟩ := found
  obtain ⟨p,user,generation,jti,made,_⟩ := (reaches_inv ⟨_,path⟩).made τ member
  refine ⟨s,sv,_,⟨_,path⟩,is,steady,τ,member,?_,?_⟩
  · rw [signed]
    decide
  · rw [made]
    exact verify_swept sampleJose_sound gone p τ.signed _ user generation jti

end Keys
end PhaseLock
