import PhaseLock.PrepareSteps
import PhaseLock.Submits

namespace PhaseLock
namespace Submits

theorem utf8_length_append (a b : Name) : (Mp.utf8 (a++b)).length = (Mp.utf8 a).length+(Mp.utf8 b).length := by
  rw [Mp.utf8,List.flatMap_append,List.length_append]
  rfl

theorem fromUtf8_length (s : Bytes) : (Mp.utf8 ((fromUtf8 s).getD [])).length ≤ s.length := by
  unfold fromUtf8
  cases read : s.toByteArray.utf8Decode? with
  | none => simp [Mp.utf8]
  | some text =>
    have back : text.toList.utf8Encode = s.toByteArray := by
      have whole := ByteArray.utf8Encode_get_utf8Decode? (b:=s.toByteArray) (h:=by rw [read]; rfl)
      simpa [read] using whole
    have size := congrArg ByteArray.size back
    rw [List.utf8Encode,List.size_toByteArray,List.size_toByteArray] at size
    exact le_of_eq size

-- A mutation whose texts are short: its names are slices', and its host's are JS strings.
structure ShortAsked (m : Asked) : Prop where
  few : m.expect.length ≤ expectMax
  names : ∀ row ∈ m.expect, (Mp.utf8 row.1).length ≤ sliceMax
  texts : ∀ why, m.data = .error why ∨ m.grant = .error why ∨ m.account = .error why ∨ m.ran = .refused why ∨ m.ran = .threw why →
    (Mp.utf8 why).length ≤ 3*2^30

theorem reject_fits {why : Name} (short : (Mp.utf8 why).length < 2^32) : (rejectVal why).Fits 4 := by
  refine ⟨by simp,fun v member => ?_⟩
  simp only [List.mem_cons,List.not_mem_nil,or_false] at member
  rcases member with rfl | rfl
  · show (Mp.utf8 "reject".toList).length < 2^32
    decide +kernel
  · exact short

theorem ok_fits (dev : Bool) (position : Nat) : (outcomeVal dev (.ok position)).Fits 4 := by
  refine ⟨by simp,fun v member => ?_⟩
  simp only [List.mem_cons,List.not_mem_nil,or_false] at member
  rcases member with rfl | rfl
  · show (Mp.utf8 "ok".toList).length < 2^32
    decide +kernel
  · have small := Nat.mod_lt position (show 0 < 2^64 by decide)
    exact ⟨by omega,by show ((position%2^64 : Nat) : Int) < 2^64; omega⟩

theorem conflict_fits (dev : Bool) {slices : List (Name × Nat)} (few : slices.length ≤ expectMax)
    (names : ∀ row ∈ slices, (Mp.utf8 row.1).length ≤ sliceMax) : (outcomeVal dev (.conflict slices)).Fits 4 := by
  refine ⟨by simp,fun v member => ?_⟩
  simp only [List.mem_cons,List.not_mem_nil,or_false] at member
  rcases member with rfl | rfl
  · show (Mp.utf8 "conflict".toList).length < 2^32
    decide +kernel
  · refine ⟨?_,fun entry inside => ?_⟩
    · have bound : expectMax < 2^32 := by decide
      rw [List.length_map]
      omega
    · obtain ⟨row,held,rfl⟩ := List.mem_map.mp inside
      have short := names row held
      have small := Nat.mod_lt row.2 (show 0 < 2^64 by decide)
      unfold sliceMax at short
      refine ⟨?_,by omega,?_⟩
      · show (Mp.utf8 row.1).length < 2^32
        omega
      · show ((row.2%2^64 : Nat) : Int) < 2^64
        omega

-- What a mutation's turn answers.
structure Ruled (dev : Bool) (attempt : Nat) (m : Asked) (answer : Answer) (ran : Except (Option Name) Outcome) : Prop where
  outcome : answer.outcome = ran.toOption
  holds : answer.how = .decided → Writer.proofOf attempt m matches .holds
  bounced : ∀ hash, ran = .error hash → attempt < maxBounces ∧ ∃ v, m.verdict = some v ∧ v.state ≠ .none
  fits : ∀ outcome, ran = .ok outcome → (outcomeVal dev outcome).Fits 4

theorem commits_trace {w w' : Writer} {id : Nat} {items : List LogRow} (ran : w.commits id servertime wb = .ok (w',items)) : w'.trace = w.trace := by
  unfold Writer.commits at ran
  obtain ⟨c,_,ran⟩ := bind_ok.mp ran
  cases ran
  rfl

theorem mark_trace (w : Writer) (series : Option (SeriesKey × Nat)) (servertime : Int) : (w.mark series servertime).trace = w.trace := by
  unfold Writer.mark
  cases series <;> rfl

theorem checkExpect_fits {m : Asked} (short : ShortAsked m) (dev : Bool) {outcome : Outcome}
    (is : Writer.checkExpect store m.grant m.expect = some outcome) : (outcomeVal dev outcome).Fits 4 := by
  unfold Writer.checkExpect at is
  split at is
  · cases is
  · split at is
    · rename_i why granted
      cases is
      have text := short.texts why (.inr (.inl granted))
      exact reject_fits (show (Mp.utf8 why).length < 2^32 by omega)
    · rename_i selectors _
      split at is
      · rename_i name seq found
        cases is
        have text := short.names _ (List.mem_of_find?_eq_some found)
        refine reject_fits ?_
        unfold reasonText sliceMax at *
        rw [utf8_length_append,utf8_length_append]
        have head : (Mp.utf8 "expect: ".toList).length = 8 := by decide +kernel
        have tail : (Mp.utf8 " is not a slice the sender may see".toList).length = 34 := by decide +kernel
        simp only at text
        omega
      · dsimp only at is
        split at is
        · cases is
        · cases is
          refine conflict_fits dev ((List.length_filterMap_le _ _).trans short.few) fun row member => ?_
          obtain ⟨origin,held,made⟩ := List.mem_filterMap.mp member
          split at made
          · cases made
            exact short.names origin held
          · cases made

theorem decide_turn {m : Asked} (short : ShortAsked m) (dev : Bool) {w w' : Writer} {outcome : Outcome} {items : List LogRow}
    (ran : w.decide servertime m = .ok (w',outcome,items)) : w'.trace = w.trace ∧ (outcomeVal dev outcome).Fits 4 := by
  unfold Writer.decide at ran
  split at ran
  · rename_i expected is
    cases ran
    exact ⟨rfl,checkExpect_fits short dev is⟩
  · cases how : m.ran with
    | refused why =>
      rw [how] at ran
      cases ran
      have text := short.texts why (.inr (.inr (.inr (.inl how))))
      exact ⟨rfl,reject_fits (show (Mp.utf8 why).length < 2^32 by omega)⟩
    | threw why =>
      rw [how] at ran
      cases ran
      have text := short.texts why (.inr (.inr (.inr (.inr how))))
      refine ⟨rfl,reject_fits ?_⟩
      show (Mp.utf8 (if dev then "decide error: ".toList++why else "internal error".toList)).length < 2^32
      split
      · rw [utf8_length_append]
        have head : (Mp.utf8 "decide error: ".toList).length = 14 := by decide +kernel
        omega
      · decide +kernel
    | carried =>
      rw [how] at ran
      obtain ⟨⟨after,rows⟩,committed,ran⟩ := bind_ok.mp ran
      cases ran
      exact ⟨commits_trace committed,ok_fits dev _⟩

theorem proof_fits {m : Asked} (short : ShortAsked m) (dev : Bool) {attempt : Nat} {reason : Reason}
    (is : Writer.proofOf attempt m = .decided reason) : (outcomeVal dev (.reject reason)).Fits 4 := by
  unfold Writer.proofOf at is
  split at is
  · split at is
    · unfold Writer.checkProof at is
      split at is
      · rename_i why failed
        cases is
        have text := short.texts why (.inr (.inr (.inl failed)))
        exact reject_fits (show (Mp.utf8 why).length < 2^32 by omega)
      · split at is
        · cases is
        · split at is
          · cases is
            exact reject_fits (by cases dev <;> decide +kernel)
          · split at is
            · cases is
              exact reject_fits (by cases dev <;> decide +kernel)
            · cases is
    · cases is
  · cases is

theorem proof_bounces {m : Asked} {attempt : Nat} {hash : Option Name} (is : Writer.proofOf attempt m = .bounced hash) :
    attempt < maxBounces ∧ ∃ v, m.verdict = some v ∧ v.state ≠ .none := by
  unfold Writer.proofOf at is
  split at is
  · rename_i v proven
    split at is
    · rename_i some_
      unfold Writer.checkProof at is
      split at is
      · cases is
      · split at is
        · rename_i both
          exact ⟨both.2,v,proven,some_⟩
        · split at is
          · cases is
          · split at is <;> cases is
    · cases is
  · cases is

-- A proof that holds passed against the hash its sender has.
theorem proof_holds {m : Asked} {attempt : Nat} (is : Writer.proofOf attempt m matches .holds) {v : Verdict}
    (proven : m.verdict = some v) (some_ : v.state ≠ .none) : m.account = .ok v.hash ∧ v.state = .passed := by
  unfold Writer.proofOf at is
  rw [proven] at is
  dsimp only at is
  rw [if_pos some_] at is
  unfold Writer.checkProof at is
  cases account : m.account with
  | error why => simp [account] at is
  | ok now =>
    rw [account] at is
    dsimp only at is
    split_ifs at is with changed again failed
    refine ⟨by rw [not_not.mp again],?_⟩
    cases state : v.state with
    | none => exact absurd state some_
    | passed => rfl
    | failed => exact absurd state failed

theorem runMutation_turn {m : Asked} (short : ShortAsked m) (dev : Bool) {w w' : Writer} {ran : Except (Option Name) Outcome}
    (ok : w.runMutation servertime attempt m = .ok (w',ran)) :
    ∃ answer, w'.trace = w.trace++[answer] ∧ Ruled dev attempt m answer ran := by
  unfold Writer.runMutation at ok
  dsimp only at ok
  split at ok
  · cases ok
    exact ⟨_,rfl,rfl,nofun,nofun,fun outcome is => (by cases is; exact ok_fits dev _)⟩
  · split at ok
    · rename_i hash is
      cases ok
      exact ⟨_,rfl,rfl,nofun,fun _ _ => proof_bounces is,nofun⟩
    · rename_i reason is
      cases ok
      exact ⟨_,congrArg (· ++ [_]) (mark_trace w _ servertime),rfl,nofun,nofun,
        fun outcome same => (by cases same; exact proof_fits short dev is)⟩
    · rename_i is
      obtain ⟨⟨after,outcome,items⟩,decided,ok⟩ := bind_ok.mp ok
      cases ok
      obtain ⟨trace,fits⟩ := decide_turn short dev decided
      exact ⟨_,congrArg (· ++ [_]) ((mark_trace after _ servertime).trans trace),rfl,fun _ => (by rw [is]),nofun,
        fun outcome same => (by cases same; exact fits)⟩

-- What the writer asks of a value in a body: a mutation's items, its texts short.
def Submittable (v : Mp.Val) : Prop := ∃ items id, v.node = .array items ∧ items[2]? = some (.bin id) ∧
  ∀ verdict t, ShortAsked (askedOf items id verdict t)

theorem nodeEntries_expect (entries : List (Mp.Node × Mp.Node)) :
    Mp.Val.nodeEntries (entries.map fun entry => (Mp.Val.str (entry.1.asStr.getD []),Mp.Val.int (entry.2.asU64.getD 0))) =
      entries.map fun entry => (Mp.Node.str (entry.1.asStr.getD []),Mp.Node.uint (entry.2.asU64.getD 0)) := by
  induction entries with
  | nil => rfl
  | cons entry entries ih => simp [Mp.Val.nodeEntries,Mp.Val.node,ih]

theorem submittedAs_submittable {items : List Mp.Node} (asks : Asks items) (digest : Digest)
    (expects : (items[4]?).bind expectReason = none) (data : Mp.Val) : Submittable (submittedAs digest items data) := by
  obtain ⟨series,n,id,given,rest,rfl,_,_⟩ := asks_iff asks
  refine ⟨_,id,rfl,rfl,fun verdict t => ?_⟩
  cases rest with
  | nil => exact ⟨Nat.zero_le _,fun row member => (by cases member),t.short⟩
  | cons e rest =>
    obtain ⟨m,rfl,few,each⟩ := expectReason_none (show expectReason e = none by simpa using expects)
    have rows : ∀ a b c d, (askedOf (Mp.Val.nodes [a,b,c,d,expectVal (.map m)]) id verdict t).expect =
        m.map fun entry => ((fromUtf8 (entry.1.asStr.getD [])).getD [],entry.2.asU64.getD 0) := by
      intro a b c d
      show (Mp.Val.nodeEntries (m.map fun entry => (Mp.Val.str (entry.1.asStr.getD []),Mp.Val.int (entry.2.asU64.getD 0)))).map _ = _
      rw [nodeEntries_expect,List.map_map]
      rfl
    refine ⟨?_,?_,t.short⟩
    · refine le_of_eq_of_le (congrArg List.length (rows _ _ _ _)) ?_
      rwa [List.length_map]
    · intro row member
      have inside := (congrArg (row ∈ ·) (rows _ _ _ _)).mp member
      obtain ⟨entry,held,rfl⟩ := List.mem_map.mp inside
      obtain ⟨s,is,named,_⟩ := each entry held
      have short := sliceNameOk_short named
      have text := fromUtf8_length s
      simp only [is,Mp.Node.asStr,Option.getD_some]
      omega

-- A turn of a value: the mutation it is, its verdict and its sender's account then, and that a
-- proven one reached its decider only past its proof.
structure TurnOf (dev : Bool) (turn : Nat → Turn) (verdicts : List Verdict) (attempt k : Nat) (v : Mp.Val) (t : Turned) : Prop where
  value : t.value = v.node
  verdict : t.asked.verdict = verdicts[k]?
  holds : t.answer.how = .decided → Writer.proofOf attempt t.asked matches .holds
  fits : ∀ outcome, t.answer.outcome = some outcome → (outcomeVal dev outcome).Fits 4

-- The turns of some values: each decided in order, until one bounces.
inductive Turns (dev : Bool) (turn : Nat → Turn) (verdicts : List Verdict) (attempt : Nat) :
    Nat → List Mp.Val → List Turned → Option (Option Name) → Prop where
  | done : Turns dev turn verdicts attempt k [] [] none
  | decided : TurnOf dev turn verdicts attempt k v t → t.answer.outcome = some outcome →
      Turns dev turn verdicts attempt (k+1) vs ts bounce → Turns dev turn verdicts attempt k (v :: vs) (t :: ts) bounce
  | bounced {hash : Option Name} : TurnOf dev turn verdicts attempt k v t → t.answer.outcome = none →
      (attempt < maxBounces ∧ ∃ v, t.asked.verdict = some v ∧ v.state ≠ .none) → Turns dev turn verdicts attempt k (v :: vs) [t] (some hash)

-- The turns that decided, and what each answered.
def decidedOf (turns : List Turned) : List Turned := turns.filter (·.answer.outcome.isSome)

def said (dev : Bool) (t : Turned) : Bytes := ((t.answer.outcome.map (outcomeVal dev)).map Mp.Val.write).getD []

theorem decidedOf_cons {t : Turned} (is : t.answer.outcome = some outcome) (ts : List Turned) :
    decidedOf (t :: ts) = t :: decidedOf ts := List.filter_cons_of_pos (by simp [is])

theorem decidedOf_bounced {t : Turned} (is : t.answer.outcome = none) (ts : List Turned) :
    decidedOf (t :: ts) = decidedOf ts := List.filter_cons_of_neg (by simp [is])

section Walk
variable {dev : Bool} {servertime : Int} {turn : Nat → Turn} {verdicts : List Verdict} {attempt : Nat}

-- The first of a body's values has its turn, and the rest theirs after it.
theorem walk_cons {v : Mp.Val} {vs : List Mp.Val} (fits : v.Fits (Mp.maxParseDepth+1)) (asked : Submittable v) (fuel k : Nat) (s : Walking) :
    ∃ items id, v.node = .array items ∧ ShortAsked (askedOf items id verdicts[k]? (turn k)) ∧
      (∀ why, (askedOf items id verdicts[k]? (turn k)).data = .error why →
        walkBody dev servertime turn verdicts attempt (fuel+1) k (Mp.Val.writes (v :: vs)) s =
          walkBody dev servertime turn verdicts attempt fuel (k+1) (Mp.Val.writes vs)
            ((s.turns (.array items) (askedOf items id verdicts[k]? (turn k)) (s.db.writer.answers
              ⟨(askedOf items id verdicts[k]? (turn k)).series.map fun row => (.series row.1,row.2),.unreadable,
                some (.reject (.unreadable why)),[],[],s.db.writer.store,s.db.writer.store,s.db.writer.position⟩)).decides dev
              (.reject (.unreadable why)))) ∧
      ((askedOf items id verdicts[k]? (turn k)).data = .ok () →
        (∀ fatal, s.db.writer.runMutation servertime attempt (askedOf items id verdicts[k]? (turn k)) = .error fatal →
          walkBody dev servertime turn verdicts attempt (fuel+1) k (Mp.Val.writes (v :: vs)) s = .error (.store fatal)) ∧
        (∀ writer hash, s.db.writer.runMutation servertime attempt (askedOf items id verdicts[k]? (turn k)) = .ok (writer,.error hash) →
          walkBody dev servertime turn verdicts attempt (fuel+1) k (Mp.Val.writes (v :: vs)) s =
            .ok {s.turns (.array items) (askedOf items id verdicts[k]? (turn k)) writer with bounce:=some hash}) ∧
        ∀ writer outcome, s.db.writer.runMutation servertime attempt (askedOf items id verdicts[k]? (turn k)) = .ok (writer,.ok outcome) →
          walkBody dev servertime turn verdicts attempt (fuel+1) k (Mp.Val.writes (v :: vs)) s =
            walkBody dev servertime turn verdicts attempt fuel (k+1) (Mp.Val.writes vs)
              ((s.turns (.array items) (askedOf items id verdicts[k]? (turn k)) writer).decides dev outcome)) := by
  obtain ⟨items,id,node,has,short⟩ := asked
  have parsed := Mp.parse_write fits (Mp.Val.writes vs)
  have bytes : ∃ b body, v.write++Mp.Val.writes vs = b :: body := by
    cases whole : v.write++Mp.Val.writes vs with
    | nil => exact absurd (List.append_eq_nil_iff.mp whole).1 v.write_ne_nil
    | cons b body => exact ⟨b,body,rfl⟩
  obtain ⟨b,body,whole⟩ := bytes
  rw [whole,node] at parsed
  refine ⟨items,id,node,short verdicts[k]? (turn k),fun why data => ?_,fun data =>
    ⟨fun fatal turned => ?_,fun writer hash turned => ?_,fun writer outcome turned => ?_⟩⟩
  all_goals
    rw [Mp.Val.writes,whole,walkBody,parsed]
    simp only [Mp.Node.items,has,data]
  all_goals rw [turned]

theorem walk_values {vs : List Mp.Val} (fits : ∀ v ∈ vs, v.Fits (Mp.maxParseDepth+1)) (asked : ∀ v ∈ vs, Submittable v)
    {fuel k : Nat} (enough : vs.length ≤ fuel) {s s' : Walking} (unbounced : s.bounce = none)
    (ran : walkBody dev servertime turn verdicts attempt fuel k (Mp.Val.writes vs) s = .ok s') :
    ∃ turns, s'.db.log = s.db.log++turns ∧ Turns dev turn verdicts attempt k vs turns s'.bounce ∧
      s'.count = s.count+(decidedOf turns).length ∧ s'.outcomes = s.outcomes++(decidedOf turns).flatMap (said dev) := by
  induction vs generalizing fuel k s with
  | nil =>
    rw [Mp.Val.writes,walkBody] at ran
    cases ran
    exact ⟨[],by simp,by rw [unbounced]; exact .done,by simp [decidedOf],by simp [decidedOf]⟩
  | cons v vs ih =>
    obtain ⟨fuel,rfl⟩ : ∃ n, fuel = n+1 := ⟨fuel-1,by simp at enough; omega⟩
    obtain ⟨items,id,node,short,unread,read⟩ := @walk_cons dev servertime turn verdicts attempt v vs (fits v List.mem_cons_self)
      (asked v List.mem_cons_self) fuel k s
    have rest : ∀ {s : Walking} {t : Turned} {outcome : Outcome}, TurnOf dev turn verdicts attempt k v t →
        t.answer.outcome = some outcome → walkBody dev servertime turn verdicts attempt fuel (k+1) (Mp.Val.writes vs) s = .ok s' →
        s.bounce = none →
        ∃ turns, s'.db.log = s.db.log++turns ∧ Turns dev turn verdicts attempt k (v :: vs) (t :: turns) s'.bounce ∧
          s'.count = s.count+(decidedOf turns).length ∧ s'.outcomes = s.outcomes++(decidedOf turns).flatMap (said dev) := by
      intro s t outcome of is ran unbounced
      obtain ⟨turns,log,all,count,outcomes⟩ := ih (fun v member => fits v (List.mem_cons_of_mem _ member))
        (fun v member => asked v (List.mem_cons_of_mem _ member)) (by simp at enough; omega) unbounced ran
      exact ⟨turns,log,.decided of is all,count,outcomes⟩
    cases data : (askedOf items id verdicts[k]? (turn k)).data with
    | error why =>
      rw [unread why data] at ran
      have text := short.texts why (.inl data)
      have fit : (outcomeVal dev (.reject (.unreadable why))).Fits 4 := reject_fits (show (Mp.utf8 why).length < 2^32 by omega)
      obtain ⟨turns,log,all,count,outcomes⟩ := rest (t:=⟨.array items,askedOf items id verdicts[k]? (turn k),
        ⟨(askedOf items id verdicts[k]? (turn k)).series.map fun row => (.series row.1,row.2),.unreadable,
          some (.reject (.unreadable why)),[],[],s.db.writer.store,s.db.writer.store,s.db.writer.position⟩⟩)
        ⟨node.symm,rfl,fun is => (by cases is),fun _ is => (by cases is; exact fit)⟩ rfl ran unbounced
      refine ⟨_,?_,all,?_,?_⟩
      · rw [log]
        simp [Walking.decides,Walking.turns,Writer.answers]
      · rw [count,decidedOf_cons rfl]
        simp only [Walking.decides,Walking.turns,List.length_cons]
        omega
      · rw [outcomes,decidedOf_cons rfl]
        simp [Walking.decides,Walking.turns,said]
    | ok _ =>
      obtain ⟨died,bounced,decided⟩ := read data
      cases turned : s.db.writer.runMutation servertime attempt (askedOf items id verdicts[k]? (turn k)) with
      | error fatal =>
        rw [died fatal turned] at ran
        cases ran
      | ok result =>
        obtain ⟨writer,result⟩ := result
        obtain ⟨answer,trace,ruled⟩ := runMutation_turn short dev turned
        have logged : ∀ s : Walking, s.db.writer.trace++[answer] = writer.trace →
            (s.turns (.array items) (askedOf items id verdicts[k]? (turn k)) writer).db.log =
              s.db.log++[⟨.array items,askedOf items id verdicts[k]? (turn k),answer⟩] := by
          intro s is
          simp [Walking.turns,← is]
        have of : TurnOf dev turn verdicts attempt k v ⟨.array items,askedOf items id verdicts[k]? (turn k),answer⟩ :=
          ⟨node.symm,rfl,ruled.holds,fun outcome is => ruled.fits outcome (by
            rw [ruled.outcome] at is
            cases result with
            | error hash => cases is
            | ok other => cases is; rfl)⟩
        cases result with
        | error hash =>
          rw [bounced writer hash turned] at ran
          cases ran
          refine ⟨_,logged s trace.symm,.bounced of ruled.outcome (ruled.bounced hash rfl),?_,?_⟩
          · rw [decidedOf_bounced ruled.outcome]
            rfl
          · rw [decidedOf_bounced ruled.outcome]
            simp [decidedOf,Walking.turns]
        | ok outcome =>
          rw [decided writer outcome turned] at ran
          obtain ⟨turns,log,all,count,outcomes⟩ := rest of ruled.outcome ran unbounced
          refine ⟨_,?_,all,?_,?_⟩
          · rw [log]
            show (s.turns (.array items) _ writer).db.log++turns = _
            rw [logged s trace.symm]
            simp
          · rw [count,decidedOf_cons ruled.outcome]
            simp only [Walking.decides,Walking.turns,List.length_cons]
            omega
          · rw [outcomes,decidedOf_cons ruled.outcome]
            simp [Walking.decides,Walking.turns,said,ruled.outcome,Except.toOption]

-- Such a body never reads amiss: what it dies of is its store.
theorem walk_dies {vs : List Mp.Val} (fits : ∀ v ∈ vs, v.Fits (Mp.maxParseDepth+1)) (asked : ∀ v ∈ vs, Submittable v)
    {fuel k : Nat} (enough : vs.length ≤ fuel) {s : Walking} {death : Death}
    (ran : walkBody dev servertime turn verdicts attempt fuel k (Mp.Val.writes vs) s = .error death) : ∃ fatal, death = .store fatal := by
  induction vs generalizing fuel k s with
  | nil =>
    rw [Mp.Val.writes,walkBody] at ran
    cases ran
  | cons v vs ih =>
    obtain ⟨fuel,rfl⟩ : ∃ n, fuel = n+1 := ⟨fuel-1,by simp at enough; omega⟩
    obtain ⟨items,id,_,_,unread,read⟩ := @walk_cons dev servertime turn verdicts attempt v vs (fits v List.mem_cons_self)
      (asked v List.mem_cons_self) fuel k s
    have rest : ∀ {s : Walking}, walkBody dev servertime turn verdicts attempt fuel (k+1) (Mp.Val.writes vs) s = .error death →
        ∃ fatal, death = .store fatal := fun ran => ih (fun v member => fits v (List.mem_cons_of_mem _ member))
      (fun v member => asked v (List.mem_cons_of_mem _ member)) (by simp at enough; omega) ran
    cases data : (askedOf items id verdicts[k]? (turn k)).data with
    | error why =>
      rw [unread why data] at ran
      exact rest ran
    | ok _ =>
      obtain ⟨died,bounced,decided⟩ := read data
      cases turned : s.db.writer.runMutation servertime attempt (askedOf items id verdicts[k]? (turn k)) with
      | error fatal =>
        rw [died fatal turned] at ran
        cases ran
        exact ⟨fatal,rfl⟩
      | ok result =>
        obtain ⟨writer,result⟩ := result
        cases result with
        | error hash =>
          rw [bounced writer hash turned] at ran
          cases ran
        | ok outcome =>
          rw [decided writer outcome turned] at ran
          exact rest ran

end Walk

theorem Turns.said {dev : Bool} {turn : Nat → Turn} {verdicts : List Verdict} {bounce : Option (Option Name)}
    (turns : Turns dev turn verdicts attempt k vs ts bounce) :
    ∀ t ∈ decidedOf ts, ∃ v : Mp.Val, said dev t = v.write ∧ v.Fits (Mp.maxParseDepth+1) := by
  have one : ∀ {k v t}, TurnOf dev turn verdicts attempt k v t → t.answer.outcome.isSome = true →
      ∃ v : Mp.Val, Submits.said dev t = v.write ∧ v.Fits (Mp.maxParseDepth+1) := by
    intro k v t of is
    obtain ⟨outcome,is⟩ := Option.isSome_iff_exists.mp is
    exact ⟨outcomeVal dev outcome,by simp [Submits.said,is],Fits_mono (of.fits outcome is) (by decide)⟩
  induction turns with
  | done => intro t member; cases member
  | decided of is rest ih =>
    intro t member
    rw [decidedOf_cons is] at member
    rcases List.mem_cons.mp member with rfl | member
    · exact one of (by rw [is]; rfl)
    · exact ih t member
  | bounced of is _ =>
    intro t member
    rw [decidedOf_bounced is] at member
    cases member

-- Each turn is of the first value undecided.
theorem Turns.order {dev : Bool} {turn : Nat → Turn} {verdicts : List Verdict} {bounce : Option (Option Name)}
    (turns : Turns dev turn verdicts attempt k vs ts bounce) (split : ts = earlier++t :: later) :
    ∃ v, vs[(decidedOf earlier).length]? = some v ∧ TurnOf dev turn verdicts attempt (k+(decidedOf earlier).length) v t := by
  induction turns generalizing earlier with
  | done => simp at split
  | decided of is rest ih =>
    cases earlier with
    | nil => cases split; exact ⟨_,rfl,of⟩
    | cons first earlier =>
      cases split
      obtain ⟨v,held,of'⟩ := ih rfl
      rw [decidedOf_cons is,List.length_cons]
      refine ⟨v,by simpa using held,?_⟩
      rwa [Nat.add_assoc,Nat.add_comm 1] at of'
  | bounced of is _ =>
    cases earlier with
    | nil => cases split; exact ⟨_,rfl,of⟩
    | cons first earlier => simp at split

theorem Turns.ends {dev : Bool} {turn : Nat → Turn} {verdicts : List Verdict} {bounce : Option (Option Name)}
    (turns : Turns dev turn verdicts attempt k vs ts bounce) :
    (decidedOf ts).length ≤ vs.length ∧ (bounce = none → (decidedOf ts).length = vs.length) ∧
      (bounce ≠ none → (decidedOf ts).length < vs.length ∧ attempt < maxBounces ∧
        ∃ v, verdicts[k+(decidedOf ts).length]? = some v ∧ v.state ≠ .none) := by
  induction turns with
  | done => exact ⟨le_refl _,fun _ => rfl,fun is => absurd rfl is⟩
  | decided of is rest ih =>
    obtain ⟨le,whole,short⟩ := ih
    rw [decidedOf_cons is,List.length_cons,List.length_cons]
    refine ⟨by omega,fun none => by rw [whole none],fun some_ => ?_⟩
    obtain ⟨less,low,v,held,proven⟩ := short some_
    refine ⟨by omega,low,v,?_,proven⟩
    rwa [Nat.add_assoc,Nat.add_comm 1] at held
  | bounced of is low =>
    rw [decidedOf_bounced is]
    obtain ⟨low,v,held,proven⟩ := low
    exact ⟨Nat.zero_le _,nofun,fun _ => ⟨by simp [decidedOf],low,v,by rw [← held,of.verdict]; rfl,proven⟩⟩

theorem decidedOf_append (a b : List Turned) : decidedOf (a++b) = decidedOf a++decidedOf b := List.filter_append a b

theorem splitMany_write {outs : List Bytes} (each : ∀ out ∈ outs, ∃ v : Mp.Val, out = v.write ∧ v.Fits (Mp.maxParseDepth+1)) :
    splitMany outs.length outs.flatten = some outs := by
  induction outs with
  | nil => rfl
  | cons out outs ih =>
    obtain ⟨v,rfl,fits⟩ := each out List.mem_cons_self
    rw [List.length_cons,List.flatten_cons,splitMany,Mp.parse_write fits]
    dsimp only
    rw [ih fun out member => each out (List.mem_cons_of_mem _ member)]
    simp

theorem splitArray_array {n : Nat} (few : n < 2^32) (buf : Bytes) : splitArray (Mp.array n++buf) = splitMany n buf := by
  unfold Mp.array
  split_ifs with b0 b2
  · show (if 0x90 ≤ UInt8.ofNat (0x90+n) ∧ UInt8.ofNat (0x90+n) ≤ 0x9f then _ else _) = _
    have first : (UInt8.ofNat (0x90+n)).toNat = 0x90+n := UInt8.toNat_ofNat_of_lt' (show 0x90+n < 256 by omega)
    rw [if_pos ⟨by rw [UInt8.le_iff_toNat_le,first]; simp,by rw [UInt8.le_iff_toNat_le,first]; simp; omega⟩,first]
    simp
  · have back : bigEndianOf (Mp.bigEndian 2 n) = n := Mp.foldl_bigEndian (by omega)
    have size := Mp.length_bigEndian 2 n
    show (if (Mp.bigEndian 2 n++buf).length < 2 then none else splitMany (bigEndianOf ((Mp.bigEndian 2 n++buf).take 2))
      ((Mp.bigEndian 2 n++buf).drop 2)) = _
    rw [if_neg (by rw [List.length_append,size]; omega),List.take_left' size,List.drop_left' size,back]
  · have back : bigEndianOf (Mp.bigEndian 4 n) = n := Mp.foldl_bigEndian (by omega)
    have size := Mp.length_bigEndian 4 n
    show (if (Mp.bigEndian 4 n++buf).length < 4 then none else splitMany (bigEndianOf ((Mp.bigEndian 4 n++buf).take 4))
      ((Mp.bigEndian 4 n++buf).drop 4)) = _
    rw [if_neg (by rw [List.length_append,size]; omega),List.take_left' size,List.drop_left' size,back]

-- A verdict on a mutation's passwords: none exactly when there are none, and passed only when
-- every one matches the hash it was checked against.
def Checked (env : Env) (passwords : List Name) (v : Verdict) : Prop :=
  (v.state = .none ↔ passwords = []) ∧ (v.state = .passed → passwords ≠ [] → ∃ h, v.hash = some h ∧
    ∀ password ∈ passwords, env.verifies h password = true)

theorem checkPasswords_ok {env : Env} {attempt i j : Nat} {hash : Option Name} {passwords : List Name} {state : Proof}
    (ok : checkPasswords env attempt i hash j passwords = .ok state) : state ≠ .none ∧
      (state = .passed → passwords ≠ [] → ∃ h, hash = some h ∧ ∀ password ∈ passwords, env.verifies h password = true) := by
  induction passwords generalizing j with
  | nil => cases ok; exact ⟨by decide,fun _ some_ => absurd rfl some_⟩
  | cons password rest ih =>
    unfold checkPasswords at ok
    cases hash with
    | none => cases ok; exact ⟨by decide,nofun⟩
    | some h =>
      dsimp only at ok
      split at ok
      · cases ok
      · split at ok
        · rename_i here
          obtain ⟨some_,passed⟩ := ih ok
          refine ⟨some_,fun is _ => ⟨h,rfl,fun other member => ?_⟩⟩
          rcases List.mem_cons.mp member with rfl | member
          · exact here
          · obtain ⟨_,⟨⟩,every⟩ := passed is (List.ne_nil_of_mem member)
            exact every other member
        · cases ok; exact ⟨by decide,nofun⟩

theorem prove_ok {env : Env} {attempt i : Nat} {hash : Option Name} {proofs : List (List Name)} {verdicts : List Verdict}
    (ok : prove env attempt hash i proofs = .ok verdicts) : List.Forall₂ (Checked env) proofs verdicts := by
  induction proofs generalizing i verdicts with
  | nil => cases ok; exact .nil
  | cons passwords rest ih =>
    unfold prove at ok
    split at ok
    · rename_i none
      obtain ⟨_,checked,ok⟩ := bind_ok.mp ok
      cases checked
      obtain ⟨more,proved,ok⟩ := bind_ok.mp ok
      cases ok
      exact .cons ⟨by simp [none],nofun⟩ (ih proved)
    · rename_i some_
      obtain ⟨state,ran,ok⟩ := bind_ok.mp ok
      obtain ⟨_,checked,ok⟩ := bind_ok.mp ok
      cases checked
      obtain ⟨more,proved,ok⟩ := bind_ok.mp ok
      cases ok
      obtain ⟨held,passed⟩ := checkPasswords_ok ran
      exact .cons ⟨iff_of_false held some_,passed⟩ (ih proved)

end Submits
end PhaseLock
