import PhaseLock.Preparations
import PhaseLock.SubmitSteps

namespace PhaseLock
namespace Submits

-- A prepared request over its passing mutations, as they are submitted.
structure Laying (pc : Prepared) (values : List Mp.Val) : Prop where
  body : pc.body = Mp.Val.writes values
  offsets : ∀ i < values.length, pc.offsets[i]? = some (Mp.Val.writes (values.take i)).length
  count : pc.offsets.length = values.length
  proofs : pc.proofs.length = values.length
  fits : ∀ v ∈ values, v.Fits (Mp.maxParseDepth+1)
  asked : ∀ v ∈ values, Submittable v
  few : values.length < 2^32

-- Every verdict is of its own mutation's passwords, or there is none and no passwords.
def Fresh (env : Env) (proofs : List (List Name)) (verdicts : List Verdict) : Prop :=
  verdicts = [] ∧ (∀ passwords ∈ proofs, passwords = []) ∨ List.Forall₂ (Checked env) proofs verdicts

-- What a call's turns were: each of the first mutation undecided then, and a proven one's
-- decider reached only past passwords that match the hash its sender had then.
structure Sound (env : Env) (proofs : List (List Name)) (values : List Mp.Val) (first : Nat) (turns : List Turned) : Prop where
  order : ∀ earlier t later, turns = earlier++t :: later →
    (values[first+(decidedOf earlier).length]?).map Mp.Val.node = some t.value
  proven : ∀ earlier t later passwords, turns = earlier++t :: later → proofs[first+(decidedOf earlier).length]? = some passwords →
    passwords ≠ [] → t.answer.how = .decided →
    ∃ h, t.asked.account = .ok (some h) ∧ ∀ password ∈ passwords, env.verifies h password = true

theorem writes_append (a b : List Mp.Val) : Mp.Val.writes (a++b) = Mp.Val.writes a++Mp.Val.writes b := by
  induction a with
  | nil => rfl
  | cons v a ih => rw [List.cons_append,Mp.Val.writes,ih,Mp.Val.writes,List.append_assoc]

theorem writes_drop (values : List Mp.Val) (i : Nat) :
    (Mp.Val.writes values).drop (Mp.Val.writes (values.take i)).length = Mp.Val.writes (values.drop i) := by
  conv_lhs => rw [← List.take_append_drop i values,writes_append]
  have front : values.take i = (values.take i++values.drop i).take i := by rw [List.take_append_drop]
  rw [← front,List.drop_left]

theorem Sound.cons_append {env : Env} {proofs : List (List Name)} {values : List Mp.Val} {first : Nat} {a b : List Turned}
    (left : Sound env proofs values first a) (right : Sound env proofs values (first+(decidedOf a).length) b) :
    Sound env proofs values first (a++b) := by
  have cut : ∀ earlier t later, a++b = earlier++t :: later →
      (∃ rest, a = earlier++t :: rest) ∨ ∃ front, earlier = a++front ∧ b = front++t :: later := by
    intro earlier t later split
    rcases List.append_eq_append_iff.mp split with ⟨front,is,rest⟩ | ⟨front,is,rest⟩
    · exact .inr ⟨front,is,rest⟩
    · cases front with
      | nil => exact .inr ⟨[],by simpa using is.symm,by simpa using rest.symm⟩
      | cons head front =>
        cases rest
        exact .inl ⟨front,is⟩
  constructor
  · intro earlier t later split
    rcases cut earlier t later split with ⟨rest,is⟩ | ⟨front,rfl,is⟩
    · exact left.order earlier t rest is
    · rw [decidedOf_append,List.length_append,← Nat.add_assoc]
      exact right.order front t later is
  · intro earlier t later passwords split
    rcases cut earlier t later split with ⟨rest,is⟩ | ⟨front,rfl,is⟩
    · exact left.proven earlier t rest passwords is
    · rw [decidedOf_append,List.length_append,← Nat.add_assoc]
      exact right.proven front t later passwords is

theorem Sound.nil {env : Env} {proofs : List (List Name)} {values : List Mp.Val} {first : Nat} : Sound env proofs values first [] :=
  ⟨fun earlier t later split => (by simp at split),fun earlier t later _ split => (by simp at split)⟩

theorem Fresh.held {env : Env} {proofs : List (List Name)} {verdicts : List Verdict} (fresh : Fresh env proofs verdicts)
    {i : Nat} {passwords : List Name} (has : proofs[i]? = some passwords) (some_ : passwords ≠ []) :
    ∃ v, verdicts[i]? = some v ∧ Checked env passwords v := by
  rcases fresh with ⟨_,none⟩ | all
  · exact absurd (none passwords (List.mem_of_getElem? has)) some_
  · obtain ⟨low,is⟩ := List.getElem?_eq_some_iff.mp has
    have bound : i < verdicts.length := all.length_eq ▸ low
    refine ⟨verdicts[i],List.getElem?_eq_getElem bound,?_⟩
    have each := (List.forall₂_iff_get.mp all).2 i low bound
    simp only [List.get_eq_getElem] at each
    rwa [is] at each

-- The turns of one submission.
theorem Turns.sound {env : Env} {pc : Prepared} {values : List Mp.Val} {verdicts : List Verdict} {first : Nat}
    (fresh : Fresh env pc.proofs verdicts) {turn : Nat → Turn} {bounce : Option (Option Name)} {turns : List Turned}
    (ran : Turns env.dev turn (verdicts.drop first) attempt 0 (values.drop first) turns bounce) :
    Sound env pc.proofs values first turns := by
  constructor
  · intro earlier t later split
    obtain ⟨v,held,of⟩ := ran.order split
    rw [List.getElem?_drop] at held
    rw [held,of.value]
    rfl
  · intro earlier t later passwords split has some_ decided
    obtain ⟨v,held,of⟩ := ran.order split
    obtain ⟨verdict,given,none,passed⟩ := fresh.held has some_
    have asked : t.asked.verdict = some verdict := by
      rw [of.verdict,List.getElem?_drop,Nat.zero_add,given]
    obtain ⟨account,state⟩ := proof_holds (of.holds decided) asked (fun is => some_ (none.mp is))
    obtain ⟨h,hash,every⟩ := passed state some_
    exact ⟨h,by rw [account,hash],every⟩

-- After a bounce, the verdicts from the bounced mutation on are checked again.
theorem Fresh.again {env : Env} {proofs : List (List Name)} {verdicts again : List Verdict} (fresh : Fresh env proofs verdicts)
    {first : Nat} (proven : verdicts ≠ []) (ok : List.Forall₂ (Checked env) (proofs.drop first) again) :
    Fresh env proofs (verdicts.take first++again++verdicts.drop (first+again.length)) := by
  rcases fresh with ⟨none,_⟩ | all
  · exact absurd none proven
  · have size := ok.length_eq
    have whole := all.length_eq
    rw [List.length_drop] at size
    have past : verdicts.drop (first+again.length) = [] := List.drop_eq_nil_of_le (by omega)
    rw [past,List.append_nil]
    refine .inr ?_
    have joined := List.rel_append (List.forall₂_take first all) ok
    dsimp only at joined
    rwa [List.take_append_drop] at joined

-- The submissions of a call from its first undecided mutation on: they end, before a bounce
-- past the last that may be, what they die of is the store, and what they answer is what each
-- mutation was decided.
theorem decide_call {env : Env} {pc : Prepared} {values : List Mp.Val} (lay : Laying pc values) {fuel first attempt : Nat}
    (left : fuel+attempt = maxBounces+1) (low : attempt ≤ maxBounces) (inside : first < values.length) {verdicts : List Verdict}
    (fresh : Fresh env pc.proofs verdicts) (outcomes : List Bytes) (db : Db) :
    ∃ call turns, decide env pc fuel first attempt verdicts outcomes db = some call ∧ call.submissions ≤ maxBounces+1 ∧
      call.db.log = db.log++turns ∧ Sound env pc.proofs values first turns ∧ first+(decidedOf turns).length ≤ values.length ∧
      (∀ death, call.ended = .died death → ∃ fatal, death = .store fatal) ∧ ∀ outs, call.ended = .answered outs →
        first+(decidedOf turns).length = values.length ∧ outs = outcomes++(decidedOf turns).map (said env.dev) := by
  induction fuel generalizing first attempt verdicts outcomes db with
  | zero => omega
  | succ fuel ih =>
    rw [decide,lay.offsets first inside]
    dsimp only
    cases lost : env.lost attempt with
    | some why => exact ⟨_,[],rfl,by dsimp only; omega,by simp,.nil,by simp [decidedOf]; omega,fun _ is => (by cases is),fun _ is => (by cases is)⟩
    | none =>
      dsimp only
      rw [lay.body,writes_drop]
      have nothing : ∀ {ended : Ended} {db' : Db}, db'.log = db.log → (∀ death, ended = .died death → ∃ fatal, death = .store fatal) →
          (∀ outs, ended ≠ .answered outs) →
          ∃ call turns, some (⟨ended,db',attempt+1⟩ : Call) = some call ∧ call.submissions ≤ maxBounces+1 ∧
            call.db.log = db.log++turns ∧ Sound env pc.proofs values first turns ∧
            first+(decidedOf turns).length ≤ values.length ∧ (∀ death, call.ended = .died death → ∃ fatal, death = .store fatal) ∧
            ∀ outs, call.ended = .answered outs → first+(decidedOf turns).length = values.length ∧ outs = outcomes++(decidedOf turns).map (said env.dev) := by
        intro ended db' log dies none
        exact ⟨_,[],rfl,by dsimp only; omega,by simp [log],.nil,by simp [decidedOf]; omega,dies,fun outs is => absurd is (none outs)⟩
      cases ran : handleSubmit env.dev (env.servertime attempt) (env.turn attempt) (verdicts.drop first) attempt (env.current attempt)
        {db with writer:=env.before attempt db.writer} (Mp.Val.writes (values.drop first)) with
      | error death =>
        refine nothing rfl (fun death' is => ?_) fun _ is => (by cases is)
        cases is
        unfold handleSubmit at ran
        split at ran
        · cases ran
        · simp only [bind,Except.bind] at ran
          split at ran
          · rename_i walked
            cases ran
            exact walk_dies (fun v member => lay.fits v (List.mem_of_mem_drop member))
              (fun v member => lay.asked v (List.mem_of_mem_drop member)) (Mp.Val.length_writes _) walked
          · cases ran
      | ok result =>
        obtain ⟨after,res⟩ := result
        unfold handleSubmit at ran
        split at ran
        · cases ran
          dsimp only
          rw [if_pos (by decide)]
          exact nothing rfl (fun _ is => (by cases is)) fun _ is => by cases is
        · obtain ⟨s,walked,ran⟩ := bind_ok.mp ran
          cases ran
          obtain ⟨turns,log,of,count,text⟩ := walk_values (fun v member => lay.fits v (List.mem_of_mem_drop member))
            (fun v member => lay.asked v (List.mem_of_mem_drop member)) (Mp.Val.length_writes _) rfl walked
          have sound : Sound env pc.proofs values first turns := of.sound fresh
          obtain ⟨le,whole,short⟩ := of.ends
          rw [List.length_drop] at le whole short
          have few := lay.few
          have parsed : splitArray (Mp.array s.count++s.outcomes) = some ((decidedOf turns).map (said env.dev)) := by
            have each : ∀ out ∈ (decidedOf turns).map (said env.dev), ∃ v : Mp.Val, out = v.write ∧ v.Fits (Mp.maxParseDepth+1) := by
              intro out member
              obtain ⟨t,held,rfl⟩ := List.mem_map.mp member
              exact of.said t held
            have split := splitMany_write each
            rw [List.length_map,← List.flatMap_def] at split
            dsimp only at count text
            rw [Nat.zero_add] at count
            rw [List.nil_append] at text
            rw [count,text,splitArray_array (by omega),split]
          dsimp only
          rw [if_neg (by decide),parsed]
          dsimp only
          cases bounced : s.bounce with
          | none =>
            have all := whole bounced
            rw [if_pos (by rfl)]
            exact ⟨_,turns,rfl,by dsimp only; omega,log,sound,by omega,fun _ is => (by cases is),
              fun outs is => (by cases is; exact ⟨by omega,rfl⟩)⟩
          | some hash =>
            obtain ⟨less,lower,v,given,proven⟩ := short (by rw [bounced]; intro is; cases is)
            rw [if_neg (by simp),List.length_map]
            cases proved : prove env (attempt+1) ((some hash).getD none) 0 (pc.proofs.drop (first+(decidedOf turns).length)) with
            | error e => exact ⟨_,turns,rfl,by dsimp only; omega,log,sound,by omega,fun _ is => (by cases is),fun _ is => (by cases is)⟩
            | ok again =>
              dsimp only
              have some_ : verdicts ≠ [] := by
                rintro rfl
                simp at given
              have left' : fuel+(attempt+1) = maxBounces+1 := by omega
              have low' : attempt+1 ≤ maxBounces := lower
              obtain ⟨call,later,is,bound,log',sound',le',dies,answered⟩ := ih left' low'
                (by omega : first+(decidedOf turns).length < values.length) (fresh.again some_ (prove_ok proved))
                (outcomes++(decidedOf turns).map (said env.dev)) s.db
              refine ⟨call,turns++later,is,bound,?_,sound.cons_append sound',?_,dies,fun outs ended => ?_⟩
              · rw [log',log,List.append_assoc]
              · rw [decidedOf_append,List.length_append]
                omega
              · obtain ⟨end_,outs⟩ := answered outs ended
                rw [decidedOf_append,List.length_append,List.map_append,outs,List.append_assoc]
                exact ⟨by omega,rfl⟩

theorem requested_length {max fuel : Nat} {body : Bytes} {count : Nat} {mutations : List (List Mp.Node)}
    (ok : requested max fuel body count = .ok mutations) : mutations.length ≤ fuel := by
  induction fuel generalizing body count mutations with
  | zero =>
    cases body with
    | nil => cases ok; simp
    | cons b body => cases ok
  | succ fuel ih =>
    cases body with
    | nil => cases ok; simp
    | cons b body =>
      unfold requested at ok
      split at ok
      · cases ok
      · cases ok
      · split at ok
        · cases ok
        · split at ok
          · cases ok
          · obtain ⟨others,read,ok⟩ := bind_ok.mp ok
            cases ok
            exact Nat.succ_le_succ (ih read)

theorem hashAll_length {env : Env} {j : Nat} {passwords : List Name} {hashes : List Short}
    (ok : hashAll env j passwords = .ok hashes) : hashes.length = passwords.length := by
  induction passwords generalizing j hashes with
  | nil => cases ok; rfl
  | cons password rest ih =>
    rw [hashAll] at ok
    obtain ⟨h,_,ok⟩ := bind_ok.mp ok
    obtain ⟨more,hashed,ok⟩ := bind_ok.mp ok
    cases ok
    simp [ih hashed]

-- A request with its hashes filled in, over the values that submit the mutations that pass.
theorem filled_laying {digest : Digest} {sc : Walk.Schema} {mutations : List (List Mp.Node)}
    (asks : ∀ items ∈ mutations, Asks items ∧ (items.getD 3 .nil).Sized) (few : mutations.length < 2^32) {hashes : List Short}
    (enough : hashes.length = (Walk.preparedFrom digest sc {} mutations).passwords.length) :
    ∃ (passing : List (Walk.Passing digest sc)) (values : List Mp.Val),
      Laying ((Walk.preparedFrom digest sc {} mutations).fill hashes) values ∧
      ((Walk.preparedFrom digest sc {} mutations).fill hashes).reasons = mutations.map (Walk.reasonOf digest sc) ∧
      ((Walk.preparedFrom digest sc {} mutations).fill hashes).proofs = Walk.proofsOf digest sc mutations ∧
      passing.map (·.items) = mutations.filter (Walk.passes digest sc) ∧ values.map Mp.Val.write = passing.map (·.bytes) ∧
      (Walk.preparedFrom digest sc {} mutations).passwords = passing.flatMap (fun m => m.own.map fun o => Walk.passwordText o.1) ∧
      hashes = passing.flatMap (fun m => m.own.map (·.2)) := by
  have start : Laid {} [] := ⟨rfl,rfl,rfl,rfl,rfl,rfl⟩
  obtain ⟨passing,all,values,laid,given,wrote,written,fits,poses,kept,own,passwords⟩ :=
    Walk.preparedFrom_laid digest sc start asks hashes (by rw [← enough]; exact Nat.zero_add _)
  rw [List.nil_append] at laid
  obtain ⟨body,offsets,reasons,proofs⟩ := fill_eq laid.body laid.offsets laid.holes
  rw [given] at body offsets reasons proofs
  have writes : all.map full = values.map Mp.Val.write := wrote.trans written
  have size : all.length = values.length := by simpa using congrArg List.length writes
  have count : values.length ≤ mutations.length := by
    rw [← poses.length_eq,← List.length_map (f := fun m : Walk.Passing digest sc => m.items),kept]
    exact List.length_filter_le _ _
  have asked : ∀ v ∈ values, Submittable v := by
    intro v member
    obtain ⟨i,low,rfl⟩ := List.getElem_of_mem member
    obtain ⟨asks,expects,data,is⟩ := (List.forall₂_iff_get.mp poses).2 i (poses.length_eq ▸ low) low
    rw [List.get_eq_getElem] at is
    exact is ▸ submittedAs_submittable asks digest expects data
  refine ⟨passing,values,⟨?_,?_,?_,?_,fits,asked,lt_of_le_of_lt count few⟩,?_,?_,kept,written.symm,passwords,own⟩
  · rw [body,full_flatten,writes,writes_map]
  · intro i inside
    rw [offsets,starts_get all 0 i (by omega),Nat.zero_add,full_flatten,List.map_take,writes,writes_map,List.map_take]
  · rw [offsets,length_starts,size]
  · rw [proofs,laid.proofs,size]
  · rw [reasons,Walk.preparedFrom_reasons]
    rfl
  · rw [proofs,Walk.preparedFrom_proofs]
    rfl

theorem Sound.values {env : Env} {proofs : List (List Name)} {values : List Mp.Val} {turns : List Turned}
    (sound : Sound env proofs values 0 turns) :
    (decidedOf turns).map Turned.value = (values.take (decidedOf turns).length).map Mp.Val.node := by
  have order := sound.order
  clear sound
  induction turns using List.reverseRecOn with
  | nil => simp [decidedOf]
  | append_singleton turns t ih =>
    have before := ih fun earlier t' later split => order earlier t' (later++[t]) (by rw [split]; simp)
    rw [decidedOf_append]
    cases is : t.answer.outcome with
    | none =>
      rw [decidedOf_bounced is,show decidedOf [] = [] from rfl,List.append_nil]
      exact before
    | some outcome =>
      have here := order turns t [] rfl
      rw [Nat.zero_add] at here
      rw [decidedOf_cons is,List.map_append,before,List.length_append]
      show _ = List.map _ (values.take ((decidedOf turns).length+1))
      rw [List.take_add_one,List.map_append]
      congr 1
      cases held : values[(decidedOf turns).length]? with
      | none => rw [held] at here; cases here
      | some v =>
        rw [held] at here
        simpa [decidedOf] using (Option.some.inj here).symm

-- The answers of a request's mutations, each its rejection by the check, or what its own turn
-- decided.
def answersFor (digest : Digest) (sc : Walk.Schema) (dev : Bool) : List (List Mp.Node) → List Turned → List Bytes
  | [],_ => []
  | items :: rest,decided => match Walk.prepareMutation digest sc items with
    | .error why => (rejectVal why).write :: answersFor digest sc dev rest decided
    | .ok _ => ((decided.head?).map (said dev)).getD [] :: answersFor digest sc dev rest decided.tail

theorem merged_answers (digest : Digest) (sc : Walk.Schema) (dev : Bool) (mutations : List (List Mp.Node)) (decided : List Turned) :
    merged (mutations.map (Walk.reasonOf digest sc)) (decided.map (said dev)) = (answersFor digest sc dev mutations decided).flatten := by
  induction mutations generalizing decided with
  | nil => rfl
  | cons items rest ih =>
    rw [List.map_cons,answersFor]
    cases made : Walk.prepareMutation digest sc items with
    | error why =>
      have is : Walk.reasonOf digest sc items = some why := by rw [Walk.reasonOf,made]
      rw [is,merged,ih]
      rfl
    | ok m =>
      have is : Walk.reasonOf digest sc items = none := by rw [Walk.reasonOf,made]
      rw [is,merged]
      cases decided with
      | nil => simpa using ih []
      | cons t decided => simpa using ih decided

theorem answer_outcomes {digest : Digest} {sc : Walk.Schema} (dev : Bool) {pc : Prepared} {mutations : List (List Mp.Node)}
    (reasons : pc.reasons = mutations.map (Walk.reasonOf digest sc)) (decided : List Turned) : answer pc (decided.map (said dev)) =
      .outcomes (Mp.array mutations.length++(answersFor digest sc dev mutations decided).flatten) := by
  rw [answer,reasons,merged_answers,List.length_map]

theorem refuse_error (res : Res) : ∃ status message, refuse res = .error status message := by
  unfold refuse
  split_ifs <;> exact ⟨_,_,rfl⟩

theorem proofsChecked_error {env : Env} {pc : Prepared} {resp : Resp} (checked : proofsChecked env pc = .error resp) :
    ∃ status message, resp = .error status message := by
  unfold proofsChecked at checked
  split at checked
  · cases checked
  · split at checked
    · cases checked
      exact ⟨_,_,rfl⟩
    · split at checked
      · cases checked
        exact ⟨_,_,rfl⟩
      · cases checked

theorem proofsChecked_fresh {env : Env} {pc : Prepared} {verdicts : List Verdict} (checked : proofsChecked env pc = .ok verdicts) :
    Fresh env pc.proofs verdicts := by
  unfold proofsChecked at checked
  split at checked
  · rename_i none
    cases checked
    refine .inl ⟨rfl,fun passwords member => ?_⟩
    simpa using List.any_eq_false.mp none passwords member
  · split at checked
    · cases checked
    · split at checked
      · cases checked
      · rename_i verdicts' proved
        cases checked
        exact .inr (prove_ok proved)

-- What a request's handling comes to: its calls end within the submissions there may be; each
-- turn is of the first passing mutation undecided, so none is decided twice or out of order, with
-- a hash of its own in each of its password fields; a proven mutation reaches its decider only
-- past passwords that match the hash its sender has at its turn; an answer holds one outcome for
-- each mutation, its own; and a core that dies does so of its store, never of an index or a body
-- amiss.
theorem calls_decided_once (env : Env) (digest : Digest) (sc : Walk.Schema) (limit : Nat) (request : Bytes) (db : Db) :
    ∃ handled turns, handleMutations env digest sc limit (maxBounces+1) request db = some handled ∧
      handled.submissions ≤ maxBounces+1 ∧ handled.db.log = db.log++turns ∧
      (∀ death, handled.resp = .died death → ∃ fatal, death = .store fatal) ∧
      match requested limit (request.take maxBody).length (request.take maxBody) 0 with
      | .error _ => turns = [] ∧ ∀ body, handled.resp ≠ .outcomes body
      | .ok mutations => ∃ (passing : List (Walk.Passing digest sc)) (values : List Mp.Val),
        passing.map (·.items) = mutations.filter (Walk.passes digest sc) ∧ values.map Mp.Val.write = passing.map (·.bytes) ∧
        (turns = [] ∨ hashAll env 0 (passing.flatMap fun m => m.own.map fun o => Walk.passwordText o.1) =
          .ok (passing.flatMap fun m => m.own.map (·.2))) ∧
        Sound env (Walk.proofsOf digest sc mutations) values 0 turns ∧
        (decidedOf turns).map Turned.value = (values.take (decidedOf turns).length).map Mp.Val.node ∧
        ∀ body, handled.resp = .outcomes body → (decidedOf turns).length = values.length ∧
          body = Mp.array mutations.length++(answersFor digest sc env.dev mutations (decidedOf turns)).flatten := by
  unfold handleMutations Walk.prepare
  cases asked : requested limit (request.take maxBody).length (request.take maxBody) 0 with
  | error e =>
    cases e with
    | tooMany => exact ⟨_,[],rfl,Nat.zero_le _,by simp,fun _ is => (by cases is),rfl,fun _ is => by cases is⟩
    | malformed why => exact ⟨_,[],rfl,Nat.zero_le _,by simp,fun _ is => (by cases is),rfl,fun _ is => by cases is⟩
  | ok mutations =>
    have asks := Walk.requested_data asked
    have few : mutations.length < 2^32 := by
      have bound : (request.take maxBody).length ≤ maxBody := by rw [List.length_take]; omega
      have read := requested_length asked
      have small : maxBody < 2^32 := by decide
      omega
    show ∃ handled turns, handlePrepared env (maxBounces+1) (Walk.preparedFrom digest sc {} mutations) db = some handled ∧ _
    unfold handlePrepared
    have refused : ∀ {resp : Resp}, (∀ death, resp = .died death → ∃ fatal, death = .store fatal) → (∀ body, resp ≠ .outcomes body) →
        ∃ handled turns, some ({resp,db} : Handled) = some handled ∧ handled.submissions ≤ maxBounces+1 ∧
          handled.db.log = db.log++turns ∧ (∀ death, handled.resp = .died death → ∃ fatal, death = .store fatal) ∧
          ∃ (passing : List (Walk.Passing digest sc)) (values : List Mp.Val),
          passing.map (·.items) = mutations.filter (Walk.passes digest sc) ∧ values.map Mp.Val.write = passing.map (·.bytes) ∧
          (turns = [] ∨ hashAll env 0 (passing.flatMap fun m => m.own.map fun o => Walk.passwordText o.1) =
            .ok (passing.flatMap fun m => m.own.map (·.2))) ∧
          Sound env (Walk.proofsOf digest sc mutations) values 0 turns ∧
          (decidedOf turns).map Turned.value = (values.take (decidedOf turns).length).map Mp.Val.node ∧
          ∀ body, handled.resp = .outcomes body → (decidedOf turns).length = values.length ∧
            body = Mp.array mutations.length++(answersFor digest sc env.dev mutations (decidedOf turns)).flatten := by
      intro resp dies none
      -- no turn is taken, whatever the hashes would be
      obtain ⟨passing,values,_,_,_,kept,written,_,_⟩ := @filled_laying digest sc mutations asks few _
        (List.length_replicate (n := (Walk.preparedFrom digest sc {} mutations).passwords.length) (a := (⟨[],short_nil⟩ : Short)))
      exact ⟨_,[],rfl,Nat.zero_le _,by simp,dies,passing,values,kept,written,.inl rfl,.nil,by simp [decidedOf],
        fun body is => absurd is (none body)⟩
    cases made : hashAll env 0 (Walk.preparedFrom digest sc {} mutations).passwords with
    | error e => exact refused (fun _ is => (by cases is)) fun _ is => by cases is
    | ok hashes =>
      dsimp only
      obtain ⟨passing,values,lay,reasons,proofs,kept,written,passwords,own⟩ := @filled_laying digest sc mutations asks few _ (hashAll_length made)
      rw [passwords,own] at made
      generalize (Walk.preparedFrom digest sc {} mutations).fill hashes = pc at lay reasons proofs ⊢
      cases checked : proofsChecked env pc with
      | error resp =>
        obtain ⟨status,message,rfl⟩ := proofsChecked_error checked
        exact refused (fun _ is => (by cases is)) fun _ is => (by cases is)
      | ok verdicts =>
        have fresh := proofsChecked_fresh checked
        dsimp only
        by_cases none : pc.offsets = []
        · have empty : values.length = 0 := by rw [← lay.count,none,List.length_nil]
          rw [if_pos none]
          refine ⟨_,[],rfl,Nat.zero_le _,by simp,fun _ is => (by cases is),passing,values,kept,written,.inl rfl,.nil,
            by simp [decidedOf],fun body is => ?_⟩
          have own := answer_outcomes env.dev reasons []
          rw [List.map_nil] at own
          dsimp only at is
          rw [own] at is
          cases is
          exact ⟨by rw [empty]; rfl,rfl⟩
        · have inside : 0 < values.length := by
            rw [← lay.count]
            exact List.length_pos_iff.mpr none
          obtain ⟨call,turns,ran,bound,log,sound,le,dies,ends⟩ := decide_call lay (show maxBounces+1+0 = maxBounces+1 from rfl)
            (Nat.zero_le _) inside fresh [] db
          rw [if_neg none,ran,Option.map_some]
          rw [proofs] at sound
          have turned := sound.values
          cases ended : call.ended with
          | answered outs =>
            refine ⟨_,turns,rfl,bound,log,fun _ is => (by cases is),passing,values,kept,written,.inr made,sound,turned,fun body is => ?_⟩
            obtain ⟨all,texts⟩ := ends outs ended
            rw [List.nil_append] at texts
            dsimp only at is
            rw [texts,answer_outcomes env.dev reasons] at is
            cases is
            exact ⟨by omega,rfl⟩
          | refused res =>
            obtain ⟨status,message,is_⟩ := refuse_error res
            dsimp only
            rw [is_]
            exact ⟨_,turns,rfl,bound,log,fun _ is => (by cases is),passing,values,kept,written,.inr made,sound,turned,fun body is => (by cases is)⟩
          | died death =>
            exact ⟨_,turns,rfl,bound,log,fun _ is => (by cases is; exact dies death ended),passing,values,kept,written,.inr made,sound,turned,fun _ is => (by cases is)⟩

end Submits
end PhaseLock
