import PhaseLock.Keys
import Mathlib.Data.List.Sort

namespace PhaseLock
namespace Keys
variable {ρ π : Type}

theorem unixMs_back {t now n : Int} (fine : 0 ≤ n) (low : t-fromMillis n ≤ now) : unixMs t-n ≤ unixMs now := by
  unfold fromMillis at low
  unfold unixMs
  split_ifs <;> omega

theorem unixMs_gap {t s n : Int} (fine : 0 ≤ n) (far : unixMs t+n < unixMs s) : t+fromMillis n ≤ s := by
  unfold unixMs at far
  unfold fromMillis
  split_ifs at far <;> omega

theorem unixS_mono {a b : Int} (le : a ≤ b) : unixS a ≤ unixS b := by
  unfold unixS
  split_ifs <;> omega

instance : IsTrans (TokenKey π) older where
  trans a b c ab bc := by
    rcases ab with ab | ⟨ab,kid⟩ <;> rcases bc with bc | ⟨bc,kid'⟩
    · exact .inl (ab.trans bc)
    · exact .inl (bc ▸ ab)
    · exact .inl (ab.symm ▸ bc)
    · exact .inr ⟨ab.trans bc,kid.trans kid'⟩

instance : Std.Total (older : TokenKey π → TokenKey π → Prop) where
  total a b := by
    rcases lt_trichotomy a.minted b.minted with less | same | more
    · exact .inl (.inl less)
    · rcases le_total a.kid b.kid with le | le
      · exact .inl (.inr ⟨same,le⟩)
      · exact .inr (.inr ⟨same.symm,le⟩)
    · exact .inr (.inl more)

theorem older_minted {a b : TokenKey π} (le : older a b) : a.minted ≤ b.minted := by
  rcases le with less | ⟨same,_⟩
  · exact le_of_lt less
  · exact le_of_eq same

-- Keys of one id are one key.
def Single (keys : List (TokenKey π)) : Prop := ∀ a ∈ keys, ∀ b ∈ keys, a.kid = b.kid → a = b

theorem Single.find {keys : List (TokenKey π)} (single : Single keys) (kid : Text) (k : TokenKey π) :
    keys.find? (·.kid = kid) = some k ↔ k ∈ keys ∧ k.kid = kid := by
  constructor
  · intro found
    exact ⟨List.mem_of_find?_eq_some found,by simpa using List.find?_some found⟩
  · rintro ⟨member,is⟩
    cases found : keys.find? (·.kid = kid) with
    | none => exact absurd is (by simpa using List.find?_eq_none.mp found k member)
    | some other =>
      have same : other.kid = kid := by simpa using List.find?_some found
      rw [single other (List.mem_of_find?_eq_some found) k member (same.trans is.symm)]

theorem sets_get {stored : List (TokenKey π)} (single : Single stored) (m : OrderedMap Text (TokenKey π)) (kid : Text) :
    (stored.foldl (fun byKid k => byKid.set k.kid k) m).get kid = (stored.find? (·.kid = kid)).or (m.get kid) := by
  induction stored generalizing m with
  | nil => rfl
  | cons k rest ih =>
    have later : Single rest := fun a inA b inB => single a (List.mem_cons_of_mem _ inA) b (List.mem_cons_of_mem _ inB)
    rw [List.foldl_cons,ih later,OrderedMap.get_set]
    by_cases same : k.kid = kid
    · rw [if_pos same,List.find?_cons_of_pos (by simpa using same)]
      cases found : rest.find? (·.kid = kid) with
      | none => rfl
      | some other =>
        obtain ⟨member,is⟩ := (later.find kid other).mp found
        rw [single other (List.mem_cons_of_mem _ member) k List.mem_cons_self (is.trans same.symm)]
        rfl
    · rw [if_neg same,List.find?_cons_of_neg (by simpa using same)]

theorem dels_get (sweep : List Text) (m : OrderedMap Text (TokenKey π)) (kid : Text) :
    (sweep.foldl (fun byKid kid => byKid.del kid) m).get kid = if kid ∈ sweep then none else m.get kid := by
  induction sweep generalizing m with
  | nil => simp
  | cons first rest ih =>
    rw [List.foldl_cons,ih,OrderedMap.get_del]
    by_cases later : kid ∈ rest
    · simp [later]
    · by_cases here : first = kid
      · simp [here]
      · simp [later,here,Ne.symm here]

-- A keyring in order: what it finds by id is what it holds, the oldest first.
structure Keyring.Ordered (r : Keyring π) : Prop where
  found : ∀ kid k, r.key kid = some k ↔ k ∈ r.sorted ∧ k.kid = kid
  sorted : r.sorted.Pairwise (fun a b => a.minted ≤ b.minted)

theorem sort_minted (keys : List (TokenKey π)) : (keys.insertionSort older).Pairwise (fun a b => a.minted ≤ b.minted) :=
  (List.pairwise_insertionSort older keys).imp older_minted

theorem new_ordered {stored : List (TokenKey π)} (single : Single stored) (start : Int) : (Keyring.new stored start).Ordered := by
  refine ⟨fun kid k => ?_,sort_minted stored⟩
  rw [Keyring.key,Keyring.new,sets_get single,OrderedMap.get_empty,Option.or_none,single.find]
  exact and_congr_left fun _ => (List.mem_insertionSort _).symm

-- A key taken is found; of the others, all but the swept.
theorem add_mem {r : Keyring π} (ordered : r.Ordered) {k : TokenKey π} (fresh : r.key k.kid = none) (sweep : List Text)
    (x : TokenKey π) : x ∈ (r.add k sweep).sorted ↔ (x ∈ r.sorted ∨ x = k) ∧ x.kid ∉ sweep := by
  rw [Keyring.add,List.mem_insertionSort,List.mem_filter,List.mem_append,List.mem_singleton,OrderedMap.has_iff]
  refine and_congr_right fun member => ?_
  rw [dels_get,OrderedMap.get_set]
  by_cases swept : x.kid ∈ sweep
  · simp [swept]
  · rw [if_neg swept]
    refine iff_of_true ?_ swept
    rcases member with held | rfl
    · have apart : k.kid ≠ x.kid := by
        intro same
        rw [same,(ordered.found x.kid x).mpr ⟨held,rfl⟩] at fresh
        cases fresh
      exact ⟨x,by rw [if_neg apart]; exact (ordered.found x.kid x).mpr ⟨held,rfl⟩⟩
    · exact ⟨x,by rw [if_pos rfl]⟩

theorem add_ordered {r : Keyring π} (ordered : r.Ordered) {k : TokenKey π} (fresh : r.key k.kid = none) (sweep : List Text) :
    (r.add k sweep).Ordered := by
  refine ⟨fun kid x => ?_,sort_minted _⟩
  rw [add_mem ordered fresh]
  show (sweep.foldl (fun byKid kid => byKid.del kid) (r.byKid.set k.kid k)).get kid = some x ↔ _
  rw [dels_get,OrderedMap.get_set]
  by_cases swept : kid ∈ sweep
  · rw [if_pos swept]
    refine iff_of_false (by simp) ?_
    rintro ⟨⟨_,kept⟩,rfl⟩
    exact kept swept
  · rw [if_neg swept]
    by_cases same : k.kid = kid
    · rw [if_pos same]
      constructor
      · intro is
        cases is
        exact ⟨⟨.inr rfl,same ▸ swept⟩,same⟩
      · rintro ⟨⟨held | rfl,_⟩,is⟩
        · rw [same,(ordered.found kid x).mpr ⟨held,is⟩] at fresh
          cases fresh
        · rfl
    · rw [if_neg same]
      constructor
      · intro found
        obtain ⟨held,is⟩ := (ordered.found kid x).mp found
        exact ⟨⟨.inl held,is ▸ swept⟩,is⟩
      · rintro ⟨⟨held | rfl,_⟩,is⟩
        · exact (ordered.found kid x).mpr ⟨held,is⟩
        · exact absurd is same

-- A key is swept the lifetime and the grace past a moment that comes, by its minting or by
-- the process's start, after it stopped signing.
theorem mem_sweptFrom {r : Keyring π} {now : Int} {keys : List (TokenKey π)} (sorted : keys.Pairwise (fun a b => a.minted ≤ b.minted))
    (member : kid ∈ r.sweptFrom now now keys) : ∃ k ∈ keys, k.kid = kid ∧
      ∃ at_, at_+tokenLifetimeMs+keyGraceMs < now ∧ (k.minted ≤ at_ ∨ k.kid ∈ r.past ∧ at_ = r.start) := by
  induction keys with
  | nil => cases member
  | cons k rest ih =>
    obtain ⟨least,sorted⟩ := List.pairwise_cons.mp sorted
    have later : kid ∈ r.sweptFrom now now rest → ∃ k' ∈ k :: rest, k'.kid = kid ∧
        ∃ at_, at_+tokenLifetimeMs+keyGraceMs < now ∧ (k'.minted ≤ at_ ∨ k'.kid ∈ r.past ∧ at_ = r.start) := by
      intro member
      obtain ⟨k',inside,found⟩ := ih sorted member
      exact ⟨k',List.mem_cons_of_mem _ inside,found⟩
    rw [Keyring.sweptFrom] at member
    split at member
    · rename_i spent
      rcases List.mem_cons.mp member with rfl | member
      · refine ⟨k,List.mem_cons_self,rfl,_,spent,?_⟩
        unfold Keyring.retired at spent ⊢
        dsimp only at spent ⊢
        split
        · rename_i past
          exact .inr ⟨past.1,rfl⟩
        · rename_i other
          rw [if_neg other] at spent
          cases rest with
          | nil =>
            -- the newest key retires now, so it is not spent
            have spent : now+tokenLifetimeMs+keyGraceMs < now := spent
            unfold tokenLifetimeMs keyGraceMs at spent
            omega
          | cons successor rest => exact .inl (least successor List.mem_cons_self)
      · exact later member
    · exact later member

theorem splitOn_dotted {a b c : Text} (plainA : '.' ∉ a) (plainB : '.' ∉ b) (plainC : '.' ∉ c) :
    (dotted (dotted a b) c).splitOn '.' = [a,b,c] := by
  have whole : dotted (dotted a b) c = ['.'].intercalate [a,b,c] := by simp [dotted,List.intercalate]
  rw [whole]
  refine List.splitOn_intercalate '.' ?_ (by simp)
  intro l member
  simp only [List.mem_cons,List.not_mem_nil,or_false] at member
  rcases member with rfl | rfl | rfl
  · exact plainA
  · exact plainB
  · exact plainC

theorem dotted_inj {a b c d : Text} (plainA : '.' ∉ a) (plainC : '.' ∉ c) (same : dotted a b = dotted c d) : a = c ∧ b = d := by
  induction a generalizing c with
  | nil =>
    cases c with
    | nil => exact ⟨rfl,by simpa [dotted] using same⟩
    | cons y c =>
      simp only [dotted,List.nil_append,List.cons_append,List.cons.injEq] at same
      exact absurd (same.1 ▸ List.mem_cons_self) plainC
  | cons x a ih =>
    cases c with
    | nil =>
      simp only [dotted,List.nil_append,List.cons_append,List.cons.injEq] at same
      exact absurd (same.1 ▸ List.mem_cons_self) plainA
    | cons y c =>
      simp only [dotted,List.cons_append,List.cons.injEq] at same
      obtain ⟨rfl,same⟩ := same
      obtain ⟨rfl,is⟩ := ih (fun inside => plainA (List.mem_cons_of_mem _ inside)) (fun inside => plainC (List.mem_cons_of_mem _ inside)) same
      exact ⟨rfl,is⟩

-- A token its key signed verifies while the key is there and its exp is not past.
theorem verify_signed {jose : Jose ρ π} (sound : jose.Sound) {keys : Keyring π} {key : TokenKey π} {private_ : ρ}
    (own : key.public_ = jose.publicOf private_) (held : keys.key key.kid = some key) (now v : Int) (user : Text)
    (fine : 0 ≤ generation) (jti : Text) (young : v ≤ now+fromMillis tokenLifetimeMs) :
    verify jose keys v (signToken jose key private_ now user generation jti).text =
      .ok (signToken jose key private_ now user generation jti).claims := by
  have parts := splitOn_dotted (sound.headerPlain ⟨"EdDSA".toList,"JWT".toList,key.kid⟩)
    (sound.claimsPlain ⟨user,generation,unixS now,unixS (now+fromMillis tokenLifetimeMs),jti⟩)
    (sound.signPlain private_ (dotted (jose.encodeHeader ⟨"EdDSA".toList,"JWT".toList,key.kid⟩)
      (jose.encodeClaims ⟨user,generation,unixS now,unixS (now+fromMillis tokenLifetimeMs),jti⟩)))
  have fresh := unixS_mono young
  rw [verify,signToken]
  dsimp only
  rw [parts]
  dsimp only
  rw [sound.header]
  dsimp only
  rw [if_neg (by simp),held]
  dsimp only
  rw [own,sound.signed,if_neg (by simp),sound.claims]
  dsimp only
  rw [if_neg (by omega),if_neg (by omega)]

-- Without the key, it is turned away.
theorem verify_swept {jose : Jose ρ π} (sound : jose.Sound) {keys : Keyring π} {key : TokenKey π} (missing : keys.key key.kid = none)
    (private_ : ρ) (now v : Int) (user : Text) (generation : Int) (jti : Text) :
    verify jose keys v (signToken jose key private_ now user generation jti).text = .error "unknown token key" := by
  have parts := splitOn_dotted (sound.headerPlain ⟨"EdDSA".toList,"JWT".toList,key.kid⟩)
    (sound.claimsPlain ⟨user,generation,unixS now,unixS (now+fromMillis tokenLifetimeMs),jti⟩)
    (sound.signPlain private_ (dotted (jose.encodeHeader ⟨"EdDSA".toList,"JWT".toList,key.kid⟩)
      (jose.encodeClaims ⟨user,generation,unixS now,unixS (now+fromMillis tokenLifetimeMs),jti⟩)))
  rw [verify,signToken]
  dsimp only
  rw [parts]
  dsimp only
  rw [sound.header]
  dsimp only
  rw [if_neg (by simp),missing]

-- What verifies was read from a text signed under a key of the keyring, and has not expired.
theorem verify_ok {jose : Jose ρ π} {keys : Keyring π} {v : Int} {token : Text} {c : Claims}
    (ok : verify jose keys v token = .ok c) : unixS v ≤ c.exp ∧ ∃ header payload signature h k,
      token.splitOn '.' = [header,payload,signature] ∧ jose.decodeHeader header = some h ∧ keys.key h.kid = some k ∧
      jose.verifies k.public_ (dotted header payload) signature = true ∧ jose.decodeClaims payload = some c := by
  unfold verify at ok
  split at ok
  · rename_i header payload signature parts
    split at ok
    · cases ok
    · rename_i h headed
      split at ok
      · cases ok
      · split at ok
        · cases ok
        · rename_i k found
          split at ok
          · cases ok
          · rename_i signed
            split at ok
            · cases ok
            · rename_i c' read
              split at ok
              · cases ok
              · rename_i fresh
                split at ok
                · cases ok
                · cases ok
                  exact ⟨not_lt.mp fresh,header,payload,signature,h,k,parts,headed,found,by simpa using signed,read⟩
  · cases ok

end Keys
end PhaseLock
