import PhaseLock.RegistrationSteps

namespace PhaseLock
open Mp

namespace Registrations
open ReadSets

variable {b : Bundle} {kv kv' : OrderedMap Key Bytes} {s : Regs}

theorem Moves.refl (kv : OrderedMap Key Bytes) : Moves [] kv kv := fun _ differ => absurd rfl differ

theorem Moves.append (left : Moves touches kv kv') (right : Moves later kv' last) : Moves (touches++later) kv last := by
  intro key differ
  by_cases same : kv.get key = kv'.get key
  · obtain ⟨t,member,hit⟩ := right key (same ▸ differ)
    exact ⟨t,List.mem_append_right _ member,hit⟩
  · obtain ⟨t,member,hit⟩ := left key same
    exact ⟨t,List.mem_append_left _ member,hit⟩

theorem applies_moves {t : Touched} (plain : '!' ∉ t.name) (st : Storage) (live : Bool) (life : Lifecycle) :
    Moves (touchesOf t live life) st.kv (st.applies t live life).kv := by
  intro key differ
  unfold touchesOf
  by_contra unhit
  have cleared : ((if live ∧ life ≠ .normal then st.delPrefix (slicePrefix t.name) else st) : Storage).kv.get key = st.kv.get key := by
    by_cases reset : live ∧ life ≠ .normal
    · rw [if_pos reset]
      refine Storage.delPrefix_get st fun under => unhit ⟨.cleared (slicePrefix t.name),?_,t.name,plain,rfl,under⟩
      rw [if_pos reset]
      exact List.mem_append_left _ List.mem_cons_self
    · rw [if_neg reset]
  refine differ ?_
  unfold Storage.applies
  dsimp only
  by_cases dead : life = .death
  · rw [if_pos dead]
    exact cleared.symm
  · rw [if_neg dead]
    refine Eq.symm (foldl_invariant (P := fun now : Storage => now.kv.get key = st.kv.get key) ?_ cleared)
    intro now row member kept
    refine (Storage.applyEntry_get life now row fun same applied => unhit ⟨.written row.1,?_,same⟩).trans kept
    rw [if_neg dead]
    exact List.mem_append_right _ (List.mem_map.mpr ⟨row,List.mem_filter.mpr ⟨member,by simpa using applied⟩,rfl⟩)

-- Every key a mutation's edits change was touched.
theorem commitSlice_moves {t : Touched} {c after : Committing} {id : Nat} (plain : '!' ∉ t.name) (moves : Moves c.touches kv c.store.kv)
    (ran : commitSlice id servertime c t = .ok after) : Moves after.touches kv after.store.kv := by
  unfold commitSlice at ran
  dsimp only at ran
  split at ran
  · cases ran
    exact moves
  · obtain ⟨⟨store,edit⟩,logged,done⟩ := bind_ok.mp ran
    cases done
    refine moves.append ?_
    generalize (c.store.sliceState t.name).2 = live at *
    generalize (if c.at_ = 0 then if c.at_ = 0 then c.position+1 else c.position else c.at_) = pos at *
    have entered := applies_moves plain (c.store.enters t (t.life live) pos) live (t.life live)
    rw [Storage.enters_kv] at entered
    rw [Storage.logs_kv logged]
    exact entered

theorem commitEdits_moves {wb : WriteBuffer} {c : Committing} {store : Storage} {id : Nat} (ok : wb.Ok)
    (ran : commitEdits id servertime store position wb = .ok c) : Moves c.touches store.kv c.store.kv := by
  refine foldlM_invariant (P := fun c : Committing => Moves c.touches store.kv c.store.kv) ?_ (Moves.refl store.kv) ran
  intro c t after member moves stepped
  exact commitSlice_moves (sliceNameOk_plain (ok.touched member).1).1 moves stepped

theorem granting_grant (g : Reg) (user : Option Name) : (g.granting b kv user).grant = b.grantOf user kv := by
  unfold Reg.granting
  cases b.grantOf user kv <;> rfl

theorem looking_account (g : Reg) (user : Option Name) : (g.looking b kv user).account = b.accountOf user kv := by
  unfold Reg.looking
  cases b.accountOf user kv <;> rfl

theorem Agree.congr {r r' : ReadSet} (keys : r'.keys = r.keys) (spans : r'.spans = r.spans) (agree : Agree r kv kv') : Agree r' kv kv' := by
  intro key reads
  refine agree key ?_
  unfold ReadSet.Reads at reads ⊢
  rwa [keys,spans] at reads

theorem Sound.regGrant (sound : Sound b kv s) (recorded : b.Recorded) (user : Option Name) :
    Sound b kv (s.regGrant b kv user).2 ∧
    ∃ g, (s.regGrant b kv user).2.reg (s.regGrant b kv user).1 = some g ∧ g.grant = b.grantOf user kv := by
  obtain ⟨sound',g,held,rfl⟩ := sound.regOf user
  unfold Regs.regGrant
  dsimp only
  generalize s.regOf g.user = made at *
  obtain ⟨i,s'⟩ := made
  dsimp only at *
  by_cases stale : (s'.reg i).any (fun g => !g.granted || g.greads.dirty) = true
  · rw [if_pos stale]
    refine ⟨sound'.grantRun i,_,by rw [grantRun_reg held,if_pos rfl],granting_grant _ _⟩
  · rw [if_neg stale]
    refine ⟨sound',g,held,?_⟩
    rw [held,Option.any_some,Bool.or_eq_true,not_or] at stale
    obtain ⟨at_,keys,spans,agree,answer⟩ := (sound'.current i g held).grant (by simpa using stale.1) (by simpa using stale.2)
    rw [answer]
    unfold Bundle.grantOf
    rw [recorded.grant g.user at_ kv (agree.congr keys spans)]

theorem Sound.regAccount (sound : Sound b kv s) (recorded : b.Recorded) (user : Option Name) :
    Sound b kv (s.regAccount b kv user).2 ∧
    ∃ g, (s.regAccount b kv user).2.reg (s.regAccount b kv user).1 = some g ∧ g.account = b.accountOf user kv := by
  obtain ⟨sound',g,held,rfl⟩ := sound.regOf user
  unfold Regs.regAccount
  dsimp only
  generalize s.regOf g.user = made at *
  obtain ⟨i,s'⟩ := made
  dsimp only at *
  by_cases stale : (s'.reg i).any (fun g => !g.looked || g.areads.dirty) = true
  · rw [if_pos stale]
    refine ⟨sound'.accountRun i,_,by rw [accountRun_reg held,if_pos rfl],looking_account _ _⟩
  · rw [if_neg stale]
    refine ⟨sound',g,held,?_⟩
    rw [held,Option.any_some,Bool.or_eq_true,not_or] at stale
    obtain ⟨at_,keys,spans,agree,answer⟩ := (sound'.current i g held).account (by simpa using stale.1) (by simpa using stale.2)
    rw [answer]
    unfold Bundle.accountOf
    rw [recorded.account g.user at_ kv (agree.congr keys spans)]

-- The registrations hold the bundle's answers on the writer's store.
def Turns.Sound (b : Bundle) (s : Turns) : Prop := Registrations.Sound b s.kv s.regs

namespace Turns
variable {s : Turns}

theorem checkExpect_ok (sound : s.Sound b) (recorded : b.Recorded) (user : Option Name) (expect : List (Name × Nat)) :
    (s.checkExpect b user expect).1 = Writer.checkExpect s.w.store (b.grantOf user s.kv) expect ∧
    (s.checkExpect b user expect).2.Sound b ∧ (s.checkExpect b user expect).2.w = s.w := by
  unfold checkExpect
  by_cases empty : expect = []
  · rw [if_pos empty]
    unfold Writer.checkExpect
    rw [if_pos empty]
    exact ⟨rfl,sound,rfl⟩
  · rw [if_neg empty]
    obtain ⟨sound',g,held,answer⟩ := Registrations.Sound.regGrant sound recorded user
    dsimp only
    rw [held,Option.map_some,Option.getD_some,answer]
    exact ⟨rfl,sound',rfl⟩

-- What lookup answers of a principal now: its hash, none for the anonymous one.
def hashOf (b : Bundle) (user : Option Name) (kv : OrderedMap Key Bytes) : Except Name (Option Name) :=
  if user = none then .ok none else (b.accountOf user kv).map Prod.snd

theorem proofOf_ok (sound : s.Sound b) (recorded : b.Recorded) (attempt : Nat) (t : Sent) :
    (s.proofOf b attempt t).1 = Writer.proofOf attempt {t.m with account:=hashOf b t.user s.kv} ∧
    (s.proofOf b attempt t).2.Sound b ∧ (s.proofOf b attempt t).2.w = s.w := by
  unfold proofOf Writer.proofOf
  dsimp only
  cases t.m.verdict with
  | none => exact ⟨rfl,sound,rfl⟩
  | some v =>
    dsimp only
    by_cases proven : v.state ≠ Proof.none
    · rw [if_pos proven,if_pos proven]
      unfold checkProof hashNow hashOf
      cases user : t.user with
      | none => exact ⟨rfl,sound,rfl⟩
      | some name =>
        obtain ⟨sound',g,held,answer⟩ := Registrations.Sound.regAccount sound recorded (some name)
        dsimp only
        rw [held,Option.map_some,Option.getD_some,answer,if_neg nofun]
        exact ⟨rfl,sound',rfl⟩
    · rw [if_neg proven,if_neg proven]
      exact ⟨rfl,sound,rfl⟩

theorem commits_ok {done : Turns × List LogRow} {wb : WriteBuffer} {id : Nat} (sound : s.Sound b) (ok : wb.Ok)
    (ran : s.commits id servertime wb = .ok done) : done.1.Sound b := by
  unfold commits at ran
  obtain ⟨⟨w,items⟩,committed,made⟩ := bind_ok.mp ran
  cases made
  unfold Writer.commits at committed
  obtain ⟨c,edited,made⟩ := bind_ok.mp committed
  cases made
  dsimp only [Turns.Sound,kv]
  rw [List.drop_left]
  exact Registrations.Sound.touches sound (commitEdits_moves ok edited)

-- The writer with its registrations decides as the writer does that is told the bundle's
-- answers on its store.
def asked (b : Bundle) (kv : OrderedMap Key Bytes) (t : Sent) : Asked := {t.m with
  grant:=b.grantOf t.user kv
  account:=hashOf b t.user kv}

theorem commits_writer (s : Turns) (id : Nat) (servertime : Int) (wb : WriteBuffer) :
    (s.commits id servertime wb).map (fun done => (done.1.w,done.2)) = s.w.commits id servertime wb := by
  unfold commits
  cases s.w.commits id servertime wb <;> rfl

theorem decide_ok (sound : s.Sound b) (recorded : b.Recorded) (servertime : Int) (t : Sent) :
    (s.decide b servertime t).map (fun done => (done.1.w,done.2)) = s.w.decide servertime (asked b s.kv t) ∧
    ∀ done, s.decide b servertime t = .ok done → done.1.Sound b := by
  obtain ⟨answer,sound',same⟩ := checkExpect_ok sound recorded t.user t.m.expect
  unfold decide Writer.decide asked
  dsimp only
  rw [answer]
  generalize (s.checkExpect b t.user t.m.expect).2 = s' at *
  cases Writer.checkExpect s.w.store (b.grantOf t.user s.kv) t.m.expect with
  | some outcome =>
    refine ⟨by rw [← same]; rfl,fun done ran => ?_⟩
    cases ran
    exact sound'
  | none =>
    dsimp only
    cases t.m.ran with
    | refused why | threw why =>
      refine ⟨by rw [← same]; rfl,fun done ran => ?_⟩
      cases ran
      exact sound'
    | carried =>
      refine ⟨?_,fun done ran => ?_⟩
      · dsimp only
        rw [← same,← commits_writer]
        cases s'.commits t.m.id servertime (WriteBuffer.writes t.m.ops) <;> rfl
      · obtain ⟨⟨after,items⟩,committed,made⟩ := bind_ok.mp ran
        cases made
        exact commits_ok sound' (WriteBuffer.writes_ok _) committed

theorem Sound.same {w : Writer} (sound : s.Sound b) (kv : w.store.kv = s.kv) : ({s with w} : Turns).Sound b := by
  unfold Turns.Sound Turns.kv
  dsimp only
  rw [kv]
  exact sound

theorem runMutation_ok (sound : s.Sound b) (recorded : b.Recorded) (servertime : Int) (attempt : Nat) (t : Sent) :
    (s.runMutation b servertime attempt t).map (fun done => (done.1.w,done.2)) =
      s.w.runMutation servertime attempt (asked b s.kv t) ∧
    ∀ done, s.runMutation b servertime attempt t = .ok done → done.1.Sound b := by
  obtain ⟨proof,sound',same⟩ := proofOf_ok sound recorded attempt t
  have told : Writer.proofOf attempt (asked b s.kv t) = Writer.proofOf attempt {t.m with account:=hashOf b t.user s.kv} := rfl
  unfold runMutation Writer.runMutation
  dsimp only
  rw [show (asked b s.kv t).series = t.m.series from rfl,told]
  generalize (t.m.series.map fun row => (SeriesKey.series row.1,row.2)) = series
  by_cases before : s.w.decidedBefore series = true
  · rw [if_pos before,if_pos before]
    refine ⟨rfl,fun done ran => ?_⟩
    cases ran
    exact sound.same rfl
  · rw [if_neg before,if_neg before,proof]
    generalize (s.proofOf b attempt t).2 = s' at *
    have there : s'.kv = s.kv := congrArg (fun w : Writer => w.store.kv) same
    cases Writer.proofOf attempt {t.m with account:=hashOf b t.user s.kv} with
    | bounced hash =>
      refine ⟨by rw [← same]; rfl,fun done ran => ?_⟩
      cases ran
      exact sound'.same rfl
    | decided reason =>
      refine ⟨by rw [← same]; rfl,fun done ran => ?_⟩
      cases ran
      exact sound'.same (mark_frame s'.w series servertime).2.2.1
    | holds =>
      obtain ⟨decided,keeps⟩ := decide_ok sound' recorded servertime t
      refine ⟨?_,fun done ran => ?_⟩
      · dsimp only
        rw [← there,← same,← decided]
        cases s'.decide b servertime t <;> rfl
      · obtain ⟨⟨after,outcome,items⟩,made,whole⟩ := bind_ok.mp ran
        cases whole
        exact (keeps _ made).same (mark_frame after.w series servertime).2.2.1

end Turns
end Registrations

namespace Registrations
namespace Turns
variable {b : Bundle} {s s' : Turns}

-- What the check answers at a mutation's turn, which its proof's check comes before.
def expected (b : Bundle) (attempt : Nat) (s : Turns) (t : Sent) : Option Outcome :=
  ((s.proofOf b attempt t).2.checkExpect b t.user t.m.expect).1

-- A bundle that grants slice u while its own key g is there.
def guarded : Bundle where
  grant _ kv := (.ok (if (kv.get "u!g".toList).isSome then ["u!".toList] else []),{keys:=[utf8 "u!g".toList]})
  account _ _ := (.ok (0,none),{})
  dev := false

-- A sender who names a slice it is not granted yet, and then writes the key that grants it.
def refused : TurnEvent := .mutation 0 0 ⟨some "x".toList,⟨none,1,.ok (),[("u".toList,0)],none,.ok [],.ok none,[],.carried⟩⟩
def writes : TurnEvent := .mutation 0 0 ⟨some "x".toList,⟨none,1,.ok (),[],none,.ok [],.ok none,[.set "u!g".toList [1]],.carried⟩⟩

def granting (w : Writer) : Turns := next guarded (next guarded {w} refused) writes

end Turns
end Registrations
end PhaseLock
