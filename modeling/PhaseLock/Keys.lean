import PhaseLock.Names
import PhaseLock.OrderedMap
import PhaseLock.Runs
import Mathlib.Data.List.Lex
import Mathlib.Data.Char

namespace PhaseLock
namespace Keys

abbrev Text := List Char

-- A clock's reading, in nanoseconds since the epoch, in Unix milliseconds, toward the
-- epoch, and in Unix seconds, rounded down.
def unixMs (t : Int) : Int := if 0 ≤ t then t/1000000 else -((-t)/1000000)
def unixS (t : Int) : Int :=
  if 0 ≤ t then t/1000000000 else -((-t)/1000000000)-if 0 < (-t)%1000000000 then 1 else 0

def fromMillis (n : Int) : Int := n*1000000

def keyRotationMs : Int := 24*3600*1000
def keyGraceMs : Int := 24*3600*1000
def tokenLifetimeMs : Int := 30*24*3600*1000

-- One stored key: its id, its public half, and when it was minted.
structure TokenKey (π : Type) where
  kid : Text
  public_ : π
  minted : Int
deriving DecidableEq

-- Every stored key, the oldest first, and the ids of those minted before the process started.
structure Keyring (π : Type) where
  byKid : OrderedMap Text (TokenKey π)
  sorted : List (TokenKey π)
  past : List Text
  start : Int

def older {π : Type} (a b : TokenKey π) : Prop := a.minted < b.minted ∨ a.minted = b.minted ∧ a.kid ≤ b.kid

instance {π : Type} (a b : TokenKey π) : Decidable (older a b) := inferInstanceAs (Decidable (_ ∨ _))

namespace Keyring
variable {π : Type}

def new (stored : List (TokenKey π)) (start : Int) : Keyring π :=
  ⟨stored.foldl (fun byKid k => byKid.set k.kid k) ∅,stored.insertionSort older,stored.map TokenKey.kid,start⟩

def key (r : Keyring π) (kid : Text) : Option (TokenKey π) := r.byKid.get kid

-- A key stopped signing when its successor was minted, or, a past process's key, by this
-- process's start.
def retired (r : Keyring π) (minted : Int) (k : TokenKey π) (successor : Option (TokenKey π)) : Int :=
  let at_ := successor.elim minted TokenKey.minted
  if k.kid ∈ r.past ∧ r.start < at_ then r.start else at_

def sweptFrom (r : Keyring π) (minted now : Int) : List (TokenKey π) → List Text
  | [] => []
  | k :: rest =>
    if r.retired minted k rest.head?+tokenLifetimeMs+keyGraceMs < now then k.kid :: sweptFrom r minted now rest
    else sweptFrom r minted now rest

-- The keys whose every token has expired by now, when a key minted at minted succeeds the
-- newest.
def swept (r : Keyring π) (minted now : Int) : List Text := r.sweptFrom minted now r.sorted

def add (r : Keyring π) (k : TokenKey π) (sweep : List Text) : Keyring π :=
  let byKid := sweep.foldl (fun byKid kid => byKid.del kid) (r.byKid.set k.kid k)
  ⟨byKid,((r.sorted++[k]).filter (fun k => byKid.has k.kid)).insertionSort older,r.past.filter (· ∉ sweep),r.start⟩

end Keyring

structure Header where
  alg : Text
  typ : Text
  kid : Text
deriving DecidableEq

structure Claims where
  sub : Text
  generation : Int
  iat : Int
  exp : Int
  jti : Text
deriving DecidableEq

-- What a server has of libraries: base64 of JSON of a token's header and claims, read back
-- as leniently as they read it, and signatures, each as base64 text, over a token's text.
structure Jose (ρ π : Type) where
  encodeHeader : Header → Text
  decodeHeader : Text → Option Header
  encodeClaims : Claims → Text
  decodeClaims : Text → Option Claims
  publicOf : ρ → π
  sign : ρ → Text → Text
  verifies : π → Text → Text → Bool

-- What is written reads back, no base64 text holds a dot, and a key's public half verifies
-- what the key signs.
structure Jose.Sound {ρ π : Type} (jose : Jose ρ π) : Prop where
  header : ∀ h, jose.decodeHeader (jose.encodeHeader h) = some h
  claims : ∀ c, jose.decodeClaims (jose.encodeClaims c) = some c
  headerPlain : ∀ h, '.' ∉ jose.encodeHeader h
  claimsPlain : ∀ c, '.' ∉ jose.encodeClaims c
  signPlain : ∀ p text, '.' ∉ jose.sign p text
  signed : ∀ p text, jose.verifies (jose.publicOf p) text (jose.sign p text) = true

-- What a mint draws at random: a key's id and private half, used when it mints one, and the
-- token's own id.
structure Draw (ρ : Type) where
  kid : Text
  private_ : ρ
  jti : Text

-- What became of the request to store a key: nothing, a commit whose answer never came, or a
-- commit answered.
inductive Commit where
  | failed (errmsg : String)
  | lost (errmsg : String)
  | done
deriving DecidableEq

-- One process: its keyring, and the key it signs with.
structure Server (ρ π : Type) where
  keys : Keyring π
  signing : Option (TokenKey π × ρ)

-- A token as it was minted: the key it is signed with, the reading it was signed at, its
-- claims, the text signed and its own.
structure Token (π : Type) where
  key : TokenKey π
  signed : Int
  claims : Claims
  input : Text
  text : Text

section Tokens
variable {ρ π : Type}

def dotted (a b : Text) : Text := a++ '.' :: b

def signToken (jose : Jose ρ π) (key : TokenKey π) (private_ : ρ) (now : Int) (user : Text) (generation : Int) (jti : Text) :
    Token π :=
  let claims : Claims := ⟨user,generation,unixS now,unixS (now+fromMillis tokenLifetimeMs),jti⟩
  let input := dotted (jose.encodeHeader ⟨"EdDSA".toList,"JWT".toList,key.kid⟩) (jose.encodeClaims claims)
  ⟨key,now,claims,input,dotted input (jose.sign private_ input)⟩

-- What a mint leaves: the server, what it committed of the key table, the key and the keys
-- it swept, and the token or an error.
structure Mint (ρ π : Type) where
  server : Server ρ π
  stored : Option (TokenKey π × List Text)
  answer : Except String (Token π)

-- The key to sign with, minting one when the process has none or the current one has been
-- signing for a day.
def mint (jose : Jose ρ π) (s : Server ρ π) (now : Int) (user : Text) (generation : Int) (draw : Draw ρ) (commit : Commit) :
    Mint ρ π :=
  match s.signing.filter (fun current => unixMs now-current.1.minted < keyRotationMs) with
  | some (key,private_) => ⟨s,none,.ok (signToken jose key private_ now user generation draw.jti)⟩
  | none =>
    let k : TokenKey π := ⟨draw.kid,jose.publicOf draw.private_,unixMs now⟩
    let sweep := s.keys.swept k.minted (unixMs now)
    match commit with
    | .failed errmsg => ⟨s,none,.error ("storing a token key: "++errmsg)⟩
    | .lost errmsg => ⟨s,some (k,sweep),.error ("storing a token key: "++errmsg)⟩
    | .done =>
      ⟨⟨s.keys.add k sweep,some (k,draw.private_)⟩,some (k,sweep),
        .ok (signToken jose k draw.private_ now user generation draw.jti)⟩

def verify (jose : Jose ρ π) (keys : Keyring π) (now : Int) (token : Text) : Except String Claims :=
  match token.splitOn '.' with
  | [header,payload,signature] =>
    match jose.decodeHeader header with
    | none => .error "malformed token"
    | some h =>
      if h.alg ≠ "EdDSA".toList then .error "unsupported token algorithm"
      else match keys.key h.kid with
        | none => .error "unknown token key"
        | some k =>
          if jose.verifies k.public_ (dotted header payload) signature = false then .error "bad signature"
          else match jose.decodeClaims payload with
            | none => .error "malformed token"
            | some c =>
              if c.exp < unixS now then .error "token expired"
              else if c.generation < 0 then .error "malformed token"
              else .ok c
  | _ => .error "malformed token"

end Tokens

-- The token key table, the process over it, and what has been: the tokens minted, the keys
-- drawn and the clock's readings.
structure State (ρ π : Type) where
  table : List (TokenKey π)
  server : Option (Server ρ π)
  tokens : List (Token π)
  drawn : OrderedMap Text (TokenKey π)
  readings : List Int

inductive Event (ρ : Type) where
  | start (now : Int)
  | mint (now : Int) (user : Text) (generation : Int) (draw : Draw ρ) (commit : Commit)
  | read (now : Int)

namespace State
variable {ρ π : Type}

def empty : State ρ π := ⟨[],none,[],∅,[]⟩

-- A key stored deletes the keys it sweeps, in one commit.
def store (table : List (TokenKey π)) : Option (TokenKey π × List Text) → List (TokenKey π)
  | none => table
  | some (k,sweep) => (table++[k]).filter (fun k => k.kid ∉ sweep)

def next (jose : Jose ρ π) (s : State ρ π) : Event ρ → State ρ π
  | .read now => {s with readings:=now :: s.readings}
  | .start now => ⟨s.table,some ⟨.new s.table (unixMs now),none⟩,s.tokens,s.drawn,now :: s.readings⟩
  | .mint now user generation draw commit => match s.server with
    | none => s
    | some server =>
      let m := Keys.mint jose server now user generation draw commit
      ⟨store s.table m.stored,some m.server,s.tokens++m.answer.toOption.toList,
        s.drawn.set draw.kid ⟨draw.kid,jose.publicOf draw.private_,unixMs now⟩,now :: s.readings⟩

-- The clock never falls more than the grace below an earlier reading.
def Steady (s : State ρ π) (now : Int) : Prop := ∀ t ∈ s.readings, t-fromMillis keyGraceMs ≤ now

-- No key's id is drawn twice, and only the generations lookup answers are minted, none of
-- them negative.
def allowed (s : State ρ π) : Event ρ → Prop
  | .read now => s.Steady now
  | .start now => s.Steady now
  | .mint now _ generation draw _ => s.server.isSome ∧ s.Steady now ∧ 0 ≤ generation ∧ s.drawn.get draw.kid = none

end State

def machine {ρ π : Type} (jose : Jose ρ π) : Machine (State ρ π) (Event ρ) := ⟨State.allowed,State.next jose⟩

end Keys
end PhaseLock
