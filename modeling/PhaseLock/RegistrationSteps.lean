import PhaseLock.Registrations

namespace PhaseLock
namespace Registrations
open Mp ReadSets

namespace Regs
variable {s : Regs} {i j : Nat} {g : Reg}

theorem reg_some : s.reg i = some g ↔ s.slots[i]? = some (some g) := by
  unfold reg
  rw [Option.join_eq_some_iff]

theorem reg_modify (s : Regs) (i : Nat) (f : Reg → Reg) (j : Nat) :
    (s.modify i f).reg j = if j = i then (s.reg j).map f else s.reg j := by
  unfold modify reg
  dsimp only
  rw [List.getElem?_modify]
  by_cases here : i = j
  · subst here
    cases s.slots[i]? with
    | none => simp
    | some slot => cases slot <;> simp
  · rw [if_neg (Ne.symm here)]
    cases s.slots[j]? <;> simp [here]

theorem modify_none (none : s.reg i = none) (f : Reg → Reg) : s.modify i f = s := by
  have slots : s.slots.modify i (Option.map f) = s.slots := by
    refine List.ext_getElem? fun j => ?_
    rw [List.getElem?_modify]
    by_cases here : i = j
    · subst here
      unfold reg at none
      cases slot : s.slots[i]? with
      | none => rfl
      | some g =>
        rw [slot] at none
        cases g with
        | none => simp
        | some g => cases none
    · cases s.slots[j]? <;> simp [here]
  unfold modify
  rw [slots]

theorem relink_none (none : s.reg i = none) {what : Cached} {next : ReadSet} : s.relink ⟨i,what⟩ next = s := by
  unfold relink linked
  rw [none]
  rfl

theorem reg_set (s : Regs) (below : i < s.slots.length) (slot : Option Reg) (j : Nat) :
    ({s with slots:=s.slots.set i slot} : Regs).reg j = if j = i then slot else s.reg j := by
  unfold reg
  dsimp only
  rw [List.getElem?_set]
  by_cases here : i = j
  · subst here
    simp [below]
  · rw [if_neg here,if_neg (Ne.symm here)]

theorem reg_relink (s : Regs) (c : Call) (next : ReadSet) (j : Nat) :
    (s.relink c next).reg j = if j = c.reg then (s.reg j).map (·.setReads next c.what) else s.reg j := by
  unfold relink
  cases held : s.linked c with
  | none =>
    unfold linked at held
    rw [Option.map_eq_none_iff] at held
    by_cases here : j = c.reg
    · subst here
      rw [if_pos rfl,held]
      rfl
    · rw [if_neg here]
  | some old => exact reg_modify s c.reg _ j

theorem reads_setReads (g : Reg) (r : ReadSet) (what other : Cached) :
    (g.setReads r what).reads other = if other = what then r else g.reads other := by
  cases what <;> cases other <;> rfl

theorem linked_relink (s : Regs) {c : Call} (held : s.linked c = some old) (next : ReadSet) :
    (s.relink c next).linked = Function.update s.linked c (some next) := by
  funext c'
  obtain ⟨slot,what⟩ := c
  obtain ⟨slot',what'⟩ := c'
  unfold linked at held ⊢
  rw [reg_relink,Function.update_apply]
  dsimp only at held ⊢
  by_cases here : slot' = slot
  · subst here
    rw [if_pos rfl]
    cases live : s.reg slot' with
    | none => rw [live] at held; cases held
    | some g =>
      rw [Option.map_some,Option.map_some,reads_setReads]
      by_cases same : what' = what
      · rw [if_pos same,if_pos (by rw [same])]
      · rw [if_neg same,if_neg (fun equal => same (Call.mk.inj equal).2)]
        rfl
  · rw [if_neg here,if_neg (fun equal => here (Call.mk.inj equal).1)]

theorem relink_index (s : Regs) {c : Call} (held : s.linked c = some old) (next : ReadSet) :
    (s.relink c next).index = (s.index.unlink c old).link c next := by
  unfold relink
  rw [held]

theorem relink_indexes (indexes : Indexes s.index s.linked) (c : Call) (next : ReadSet) :
    Indexes (s.relink c next).index (s.relink c next).linked := by
  cases held : s.linked c with
  | none =>
    unfold relink
    rw [held]
    exact indexes
  | some old =>
    rw [relink_index s held,linked_relink s held]
    have linked := (indexes.unlink held).link (Function.update_self c none s.linked) next
    rw [Function.update_idem] at linked
    exact linked

theorem relink_frame (s : Regs) (c : Call) (next : ReadSet) : (s.relink c next).free = s.free ∧ (s.relink c next).byPrincipal = s.byPrincipal ∧
    (s.relink c next).slots.length = s.slots.length := by
  unfold relink
  cases s.linked c with
  | none => exact ⟨rfl,rfl,rfl⟩
  | some old => exact ⟨rfl,rfl,List.length_modify ..⟩

end Regs

-- A registration's clean answers are those the bundle gives on what they read.
structure Current (b : Bundle) (kv : OrderedMap Key Bytes) (g : Reg) : Prop where
  grant : g.granted = true → g.greads.dirty = false → ∃ at_, (b.grant g.user at_).2.keys = g.greads.keys ∧
    (b.grant g.user at_).2.spans = g.greads.spans ∧ Agree g.greads at_ kv ∧ g.grant = b.grantOf g.user at_
  account : g.looked = true → g.areads.dirty = false → ∃ at_, (b.account g.user at_).2.keys = g.areads.keys ∧
    (b.account g.user at_).2.spans = g.areads.spans ∧ Agree g.areads at_ kv ∧ g.account = b.accountOf g.user at_

-- The index holds what the live registrations' calls read, and each principal has its own.
structure Sound (b : Bundle) (kv : OrderedMap Key Bytes) (s : Regs) : Prop where
  indexes : Indexes s.index s.linked
  current : ∀ i g, s.reg i = some g → Current b kv g
  owned : ∀ user i, s.byPrincipal.get user = some i → ∃ g, s.reg i = some g ∧ g.user = user
  free : s.free.Nodup ∧ ∀ i ∈ s.free, s.slots[i]? = some none

variable {b : Bundle} {kv : OrderedMap Key Bytes} {s : Regs} {i : Nat} {g : Reg}

theorem sound_start : Sound b kv {} :=
  ⟨indexes_empty.congr fun c => rfl,fun i g held => (by cases held),fun user i held => (by cases held),List.nodup_nil,fun i member => (by cases member)⟩

theorem Sound.rerun {f : Reg → Reg} (sound : Sound b kv s) (held : s.reg i = some g) (what : Cached) (next : ReadSet)
    (reads : ∀ g what, (f g).reads what = g.reads what) (user : ∀ g, (f g).user = g.user)
    (current : Current b kv (f (g.setReads next what))) : Sound b kv ((s.relink ⟨i,what⟩ next).modify i f) := by
  have owner : ∀ g : Reg, (f (g.setReads next what)).user = g.user := fun g => (user _).trans (by cases what <;> rfl)
  have regs : ∀ j, ((s.relink ⟨i,what⟩ next).modify i f).reg j = if j = i then some (f (g.setReads next what)) else s.reg j := by
    intro j
    rw [Regs.reg_modify,Regs.reg_relink]
    by_cases here : j = i
    · subst here
      rw [if_pos rfl,if_pos rfl,if_pos rfl,held]
      rfl
    · rw [if_neg here,if_neg here,if_neg here]
  have linked : ((s.relink ⟨i,what⟩ next).modify i f).linked = (s.relink ⟨i,what⟩ next).linked := by
    funext c
    unfold Regs.linked
    rw [Regs.reg_modify]
    split
    · rw [Option.map_map]
      exact congrArg (fun reads => Option.map reads _) (funext fun g => reads g c.what)
    · rfl
  obtain ⟨free,principals,size⟩ := s.relink_frame ⟨i,what⟩ next
  refine ⟨?_,fun j g' live => ?_,fun user' j mapped => ?_,?_,fun j member => ?_⟩
  · rw [linked]
    exact Regs.relink_indexes sound.indexes _ _
  · rw [regs] at live
    split at live
    · cases live
      exact current
    · exact sound.current j g' live
  · have mapped : s.byPrincipal.get user' = some j := principals ▸ mapped
    obtain ⟨g',live,same⟩ := sound.owned user' j mapped
    rw [regs]
    by_cases here : j = i
    · rw [if_pos here]
      subst here
      rw [held] at live
      cases live
      exact ⟨_,rfl,(owner g).trans same⟩
    · rw [if_neg here]
      exact ⟨g',live,same⟩
  · exact free ▸ sound.free.1
  · have member : j ∈ s.free := free ▸ member
    have none := sound.free.2 j member
    have apart : j ≠ i := by
      rintro rfl
      rw [Regs.reg_some.mp held] at none
      cases none
    have still : ((s.relink ⟨i,what⟩ next).modify i f).reg j = Option.none := by
      rw [regs,if_neg apart]
      unfold Regs.reg
      rw [none]
      rfl
    have below : j < s.slots.length := (List.getElem?_eq_some_iff.mp none).1
    have there : j < ((s.relink ⟨i,what⟩ next).modify i f).slots.length := by
      unfold Regs.modify
      rw [List.length_modify,size]
      exact below
    unfold Regs.reg at still
    rw [List.getElem?_eq_getElem there] at still ⊢
    exact congrArg some still

-- A registration's other call stands.
theorem Current.of_grant {g' : Reg} (current : Current b kv g) (user : g'.user = g.user) (looked : g'.looked = g.looked)
    (areads : g'.areads = g.areads) (account : g'.account = g.account) (grant : g'.granted = true → g'.greads.dirty = false →
      ∃ at_, (b.grant g'.user at_).2.keys = g'.greads.keys ∧ (b.grant g'.user at_).2.spans = g'.greads.spans ∧
        Agree g'.greads at_ kv ∧ g'.grant = b.grantOf g'.user at_) : Current b kv g' := by
  refine ⟨grant,?_⟩
  rw [user,looked,areads,account]
  exact current.account

theorem Current.of_account {g' : Reg} (current : Current b kv g) (user : g'.user = g.user) (granted : g'.granted = g.granted)
    (greads : g'.greads = g.greads) (grant : g'.grant = g.grant) (account : g'.looked = true → g'.areads.dirty = false →
      ∃ at_, (b.account g'.user at_).2.keys = g'.areads.keys ∧ (b.account g'.user at_).2.spans = g'.areads.spans ∧
        Agree g'.areads at_ kv ∧ g'.account = b.accountOf g'.user at_) : Current b kv g' := by
  refine ⟨?_,account⟩
  rw [user,granted,greads,grant]
  exact current.grant

theorem granting_frame (g : Reg) (user : Option Name) : (g.granting b kv user).user = g.user ∧ (∀ what, (g.granting b kv user).reads what = g.reads what) ∧
    (g.granting b kv user).grant = b.grantOf user kv ∧ (g.granting b kv user).granted = true ∧
    (g.granting b kv user).looked = g.looked ∧ (g.granting b kv user).account = g.account := by
  unfold Reg.granting
  cases answer : b.grantOf user kv with
  | ok selectors => exact ⟨rfl,fun what => (by cases what <;> rfl),rfl,rfl,rfl,rfl⟩
  | error why => exact ⟨rfl,fun what => (by cases what <;> rfl),rfl,rfl,rfl,rfl⟩

theorem looking_frame (g : Reg) (user : Option Name) : (g.looking b kv user).user = g.user ∧ (∀ what, (g.looking b kv user).reads what = g.reads what) ∧
    (g.looking b kv user).account = b.accountOf user kv ∧ (g.looking b kv user).looked = true ∧
    (g.looking b kv user).granted = g.granted ∧ (g.looking b kv user).grant = g.grant := by
  unfold Reg.looking
  cases answer : b.accountOf user kv with
  | ok account => exact ⟨rfl,fun what => (by cases what <;> rfl),rfl,rfl,rfl,rfl⟩
  | error why => exact ⟨rfl,fun what => (by cases what <;> rfl),rfl,rfl,rfl,rfl⟩

theorem grantRun_reg (held : s.reg i = some g) (j : Nat) : (s.grantRun b kv i).reg j =
    if j = i then some (Reg.granting b kv g.user {g with greads:={(b.grant g.user kv).2 with dirty:=false}}) else s.reg j := by
  have ran : s.grantRun b kv i = (s.relink ⟨i,.grant⟩ {(b.grant g.user kv).2 with dirty:=false}).modify i (Reg.granting b kv g.user) := by
    unfold Regs.grantRun
    rw [held]
  rw [ran,Regs.reg_modify,Regs.reg_relink]
  by_cases here : j = i
  · subst here
    rw [if_pos rfl,if_pos rfl,if_pos rfl,held]
    rfl
  · rw [if_neg here,if_neg here,if_neg here]

theorem Sound.grantRun (sound : Sound b kv s) (i : Nat) : Sound b kv (s.grantRun b kv i) := by
  cases held : s.reg i with
  | none =>
    unfold Regs.grantRun
    rw [held]
    exact sound
  | some g =>
    have ran : s.grantRun b kv i = (s.relink ⟨i,.grant⟩ {(b.grant g.user kv).2 with dirty:=false}).modify i (Reg.granting b kv g.user) := by
      unfold Regs.grantRun
      rw [held]
    rw [ran]
    refine sound.rerun held .grant _ (fun g' => (granting_frame g' g.user).2.1) (fun g' => (granting_frame g' g.user).1) ?_
    obtain ⟨user,reads,grant,_,looked,account⟩ := @granting_frame b kv (g.setReads {(b.grant g.user kv).2 with dirty:=false} .grant) g.user
    refine (sound.current i g held).of_grant user looked (reads .account) account fun _ _ => ?_
    have own : (Reg.granting b kv g.user (g.setReads {(b.grant g.user kv).2 with dirty:=false} .grant)).greads =
      {(b.grant g.user kv).2 with dirty:=false} := reads .grant
    rw [own,user,grant]
    exact ⟨kv,rfl,rfl,fun _ _ => rfl,rfl⟩

theorem accountRun_reg (held : s.reg i = some g) (j : Nat) : (s.accountRun b kv i).reg j =
    if j = i then some (Reg.looking b kv g.user {g with areads:={(b.account g.user kv).2 with dirty:=false}}) else s.reg j := by
  have ran : s.accountRun b kv i = (s.relink ⟨i,.account⟩ {(b.account g.user kv).2 with dirty:=false}).modify i (Reg.looking b kv g.user) := by
    unfold Regs.accountRun
    rw [held]
  rw [ran,Regs.reg_modify,Regs.reg_relink]
  by_cases here : j = i
  · subst here
    rw [if_pos rfl,if_pos rfl,if_pos rfl,held]
    rfl
  · rw [if_neg here,if_neg here,if_neg here]

theorem Sound.accountRun (sound : Sound b kv s) (i : Nat) : Sound b kv (s.accountRun b kv i) := by
  cases held : s.reg i with
  | none =>
    unfold Regs.accountRun
    rw [held]
    exact sound
  | some g =>
    have ran : s.accountRun b kv i = (s.relink ⟨i,.account⟩ {(b.account g.user kv).2 with dirty:=false}).modify i (Reg.looking b kv g.user) := by
      unfold Regs.accountRun
      rw [held]
    rw [ran]
    refine sound.rerun held .account _ (fun g' => (looking_frame g' g.user).2.1) (fun g' => (looking_frame g' g.user).1) ?_
    obtain ⟨user,reads,account,_,granted,grant⟩ := @looking_frame b kv (g.setReads {(b.account g.user kv).2 with dirty:=false} .account) g.user
    refine (sound.current i g held).of_account user granted (reads .grant) grant fun _ _ => ?_
    have own : (Reg.looking b kv g.user (g.setReads {(b.account g.user kv).2 with dirty:=false} .account)).areads =
      {(b.account g.user kv).2 with dirty:=false} := reads .account
    rw [own,user,account]
    exact ⟨kv,rfl,rfl,fun _ _ => rfl,rfl⟩

theorem Sound.grantForget (sound : Sound b kv s) (i : Nat) : Sound b kv (s.grantForget i) := by
  cases held : s.reg i with
  | none =>
    have whole : s.grantForget i = s := by
      unfold Regs.grantForget
      rw [Regs.relink_none held,Regs.modify_none held]
    rw [whole]
    exact sound
  | some g =>
    refine sound.rerun held .grant {} (fun g what => (by cases what <;> rfl)) (fun g => rfl) ?_
    exact (sound.current i g held).of_grant rfl rfl rfl rfl nofun

theorem Sound.accountForget (sound : Sound b kv s) (i : Nat) : Sound b kv (s.accountForget i) := by
  cases held : s.reg i with
  | none =>
    have whole : s.accountForget i = s := by
      unfold Regs.accountForget
      rw [Regs.relink_none held,Regs.modify_none held]
    rw [whole]
    exact sound
  | some g =>
    refine sound.rerun held .account {} (fun g what => (by cases what <;> rfl)) (fun g => rfl) ?_
    exact (sound.current i g held).of_account rfl rfl rfl rfl nofun

-- A slot's two calls, linked with nothing read, or not at all.
theorem indexes_slot {ix : ReadIndex} {linked still : Call → Option ReadSet} (indexes : Indexes ix linked) (i : Nat)
    (before : ∀ what, linked ⟨i,what⟩ = none ∨ linked ⟨i,what⟩ = some {}) (after : ∀ what, still ⟨i,what⟩ = none ∨ still ⟨i,what⟩ = some {})
    (others : ∀ c, c.reg ≠ i → still c = linked c) : Indexes ix still := by
  have each : ∀ (P : ReadSet → Prop), ¬P {} → ∀ c, (∃ r, linked c = some r ∧ P r) ↔ ∃ r, still c = some r ∧ P r := by
    intro P empty c
    by_cases here : c.reg = i
    · obtain ⟨slot,what⟩ := c
      dsimp only at here
      subst here
      have none : ∀ held : Option ReadSet, held = none ∨ held = some {} → ¬∃ r, held = some r ∧ P r := by
        rintro held (rfl | rfl) ⟨r,is,reads⟩
        · cases is
        · cases is
          exact empty reads
      exact iff_of_false (none _ (before what)) (none _ (after what))
    · rw [others c here]
  exact ⟨indexes.keys.congr fun k c => each (Got · k) (by simp [Got]) c,
    indexes.slices.congr fun t c => each (ReadSets.Under · t) (by simp [ReadSets.Under]) c,
    indexes.spans.congr fun at_ row => each (At · at_ row.2) (by simp [At]) row.1⟩

theorem current_new (b : Bundle) (kv : OrderedMap Key Bytes) (user : Option Name) : Current b kv {user} := ⟨nofun,nofun⟩

theorem Sound.regOf (sound : Sound b kv s) (user : Option Name) : Sound b kv (s.regOf user).2 ∧
    ∃ g, (s.regOf user).2.reg (s.regOf user).1 = some g ∧ g.user = user := by
  unfold Regs.regOf
  cases mapped : s.byPrincipal.get user with
  | some i => exact ⟨sound,sound.owned user i mapped⟩
  | none =>
    -- a slot that holds no registration gets the new one
    have made : ∀ (i : Nat) (s' : Regs), s.reg i = none → s'.index = s.index → s'.byPrincipal = s.byPrincipal.set user i →
        (∀ j, s'.reg j = if j = i then some {user} else s.reg j) → (s'.free.Nodup ∧ ∀ j ∈ s'.free, s'.slots[j]? = some none) →
        Sound b kv s' ∧ ∃ g, s'.reg i = some g ∧ g.user = user := by
      intro i s' vacant index principals regs free
      refine ⟨⟨?_,fun j g held => ?_,fun user' j mapped => ?_,free⟩,{user},by rw [regs,if_pos rfl],rfl⟩
      · rw [index]
        refine indexes_slot sound.indexes i (fun what => .inl ?_) (fun what => .inr ?_) fun c apart => ?_
        · unfold Regs.linked
          rw [vacant]
          rfl
        · unfold Regs.linked
          rw [regs,if_pos rfl]
          cases what <;> rfl
        · unfold Regs.linked
          rw [regs,if_neg apart]
      · rw [regs] at held
        split at held
        · cases held
          exact current_new b kv user
        · exact sound.current j g held
      · rw [principals,OrderedMap.get_set] at mapped
        rw [regs]
        by_cases here : user = user'
        · rw [if_pos here] at mapped
          cases mapped
          exact ⟨{user},if_pos rfl,here⟩
        · rw [if_neg here] at mapped
          obtain ⟨g,live,same⟩ := sound.owned user' j mapped
          have apart : j ≠ i := by
            rintro rfl
            rw [vacant] at live
            cases live
          exact ⟨g,by rw [if_neg apart]; exact live,same⟩
    cases last : s.free.getLast? with
    | some i =>
      obtain ⟨rest,equal⟩ := List.getLast?_eq_some_iff.mp last
      have slot := sound.free.2 i (by rw [equal]; simp)
      have below : i < s.slots.length := (List.getElem?_eq_some_iff.mp slot).1
      have vacant : s.reg i = none := by
        unfold Regs.reg
        rw [slot]
        rfl
      refine made i _ vacant rfl rfl (Regs.reg_set s below (some {user})) ?_
      have distinct := sound.free.1
      dsimp only
      rw [equal,List.nodup_append] at distinct
      rw [equal,List.dropLast_concat]
      refine ⟨distinct.1,fun j member => ?_⟩
      have apart : i ≠ j := fun same => distinct.2.2 j member i (List.mem_singleton_self i) same.symm
      rw [List.getElem?_set_ne apart]
      exact sound.free.2 j (by rw [equal]; exact List.mem_append_left _ member)
    | none =>
      have vacant : s.reg s.slots.length = none := by
        unfold Regs.reg
        rw [List.getElem?_eq_none (le_refl _)]
        rfl
      refine made s.slots.length _ vacant rfl rfl (fun j => ?_) ⟨sound.free.1,fun j member => ?_⟩
      · unfold Regs.reg
        dsimp only
        by_cases here : j = s.slots.length
        · subst here
          simp
        · rw [if_neg here]
          rcases Nat.lt_or_gt_of_ne here with below | above
          · rw [List.getElem?_append_left below]
          · rw [List.getElem?_eq_none (by simp; omega),List.getElem?_eq_none (by omega)]
      · have slot := sound.free.2 j member
        have below : j < s.slots.length := (List.getElem?_eq_some_iff.mp slot).1
        dsimp only
        rw [List.getElem?_append_left below]
        exact slot

theorem Sound.expire (sound : Sound b kv s) (i : Nat) : Sound b kv (s.expire i) := by
  unfold Regs.expire
  cases held : s.reg i with
  | none => exact sound
  | some g =>
    have below : i < s.slots.length := (List.getElem?_eq_some_iff.mp (Regs.reg_some.mp held)).1
    obtain ⟨free,principals,size⟩ := s.relink_frame ⟨i,.grant⟩ {}
    obtain ⟨free',principals',size'⟩ := (s.relink ⟨i,.grant⟩ {}).relink_frame ⟨i,.account⟩ {}
    have indexes := Regs.relink_indexes (Regs.relink_indexes sound.indexes ⟨i,.grant⟩ {}) ⟨i,.account⟩ {}
    have relinked : ∀ j, ((s.relink ⟨i,.grant⟩ {}).relink ⟨i,.account⟩ {}).reg j =
        if j = i then some {g with
          greads:={}
          areads:={}} else s.reg j := by
      intro j
      rw [Regs.reg_relink,Regs.reg_relink]
      by_cases here : j = i
      · subst here
        rw [if_pos rfl,if_pos rfl,if_pos rfl,held]
        rfl
      · rw [if_neg here,if_neg here,if_neg here]
    dsimp only
    generalize (s.relink ⟨i,.grant⟩ {}).relink ⟨i,.account⟩ {} = s' at *
    have regs : ∀ j, ({s' with
        slots:=s'.slots.set i none
        byPrincipal:=s'.byPrincipal.del g.user
        free:=s'.free++[i]} : Regs).reg j = if j = i then none else s.reg j := by
      intro j
      refine (Regs.reg_set s' (by omega) none j).trans ?_
      by_cases here : j = i
      · rw [if_pos here,if_pos here]
      · rw [if_neg here,if_neg here,relinked,if_neg here]
    refine ⟨?_,fun j g' live => ?_,fun user j mapped => ?_,?_,fun j member => ?_⟩
    · refine indexes_slot indexes i (fun what => .inr ?_) (fun what => .inl ?_) fun c apart => ?_
      · unfold Regs.linked
        rw [relinked,if_pos rfl]
        cases what <;> rfl
      · unfold Regs.linked
        rw [regs,if_pos rfl]
        rfl
      · unfold Regs.linked
        rw [regs,relinked,if_neg apart,if_neg apart]
    · rw [regs] at live
      split at live
      · cases live
      · exact sound.current j g' live
    · dsimp only at mapped
      rw [OrderedMap.get_del,principals',principals] at mapped
      split at mapped
      · cases mapped
      · rename_i other
        obtain ⟨g',live,same⟩ := sound.owned user j mapped
        have apart : j ≠ i := by
          rintro rfl
          rw [held] at live
          cases live
          exact other same
        exact ⟨g',by rw [regs,if_neg apart]; exact live,same⟩
    · dsimp only
      rw [free',free,List.nodup_append]
      refine ⟨sound.free.1,List.nodup_singleton i,fun j member i' single => ?_⟩
      rw [List.mem_singleton.mp single]
      rintro rfl
      have slot := sound.free.2 j member
      rw [Regs.reg_some.mp held] at slot
      cases slot
    · dsimp only at member ⊢
      rw [free',free,List.mem_append,List.mem_singleton] at member
      by_cases here : j = i
      · subst here
        rw [List.getElem?_set_self (by omega)]
      · have slot := sound.free.2 j (member.resolve_right here)
        have there : j < s'.slots.length := by
          have inside : j < s.slots.length := (List.getElem?_eq_some_iff.mp slot).1
          omega
        have still := relinked j
        rw [if_neg here] at still
        unfold Regs.reg at still
        rw [slot,List.getElem?_eq_getElem there] at still
        rw [List.getElem?_set_ne (Ne.symm here),List.getElem?_eq_getElem there]
        exact congrArg some still

-- A key a touch changes, or may.
def Hits (t : Touch) (key : Key) : Prop := match t with
  | .written k => k = key
  | .cleared text => ∃ slice, '!' ∉ slice ∧ text = slicePrefix slice ∧ text <+: key

-- The same registration, but for what is dirty.
structure Alike (g g' : Reg) : Prop where
  user : g'.user = g.user
  granted : g'.granted = g.granted
  looked : g'.looked = g.looked
  grant : g'.grant = g.grant
  account : g'.account = g.account
  keys : ∀ what, (g'.reads what).keys = (g.reads what).keys
  spans : ∀ what, (g'.reads what).spans = (g.reads what).spans

theorem Alike.refl (g : Reg) : Alike g g := ⟨rfl,rfl,rfl,rfl,rfl,fun _ => rfl,fun _ => rfl⟩

theorem Alike.trans {g g' last : Reg} (left : Alike g g') (right : Alike g' last) : Alike g last :=
  ⟨right.user.trans left.user,right.granted.trans left.granted,right.looked.trans left.looked,right.grant.trans left.grant,
    right.account.trans left.account,fun what => (right.keys what).trans (left.keys what),fun what => (right.spans what).trans (left.spans what)⟩

theorem Alike.reads {g g' : Reg} (alike : Alike g g') (what : Cached) (key : Bytes) : (g'.reads what).Reads key ↔ (g.reads what).Reads key := by
  unfold ReadSet.Reads
  rw [alike.keys,alike.spans]

theorem dirtied_alike (g : Reg) (grant account : Bool) : Alike g (g.dirtied grant account) :=
  ⟨rfl,rfl,rfl,rfl,rfl,fun what => (by cases what <;> rfl),fun what => (by cases what <;> rfl)⟩

-- Registrations that differ in what is dirty alone: those clean after were clean before, and
-- read no key of some.
structure Dirties (s s' : Regs) (touched : Key → Prop) : Prop where
  index : s'.index = s.index
  free : s'.free = s.free
  principals : s'.byPrincipal = s.byPrincipal
  vacant : ∀ i : Nat, s.slots[i]? = some none → s'.slots[i]? = some none
  regs : ∀ i, (s'.reg i).isSome = (s.reg i).isSome
  alike : ∀ i g g', s.reg i = some g → s'.reg i = some g' → Alike g g' ∧ ∀ what, (g'.reads what).dirty = false →
    (g.reads what).dirty = false ∧ ∀ key, touched key → ¬(g.reads what).Reads (utf8 key)

theorem Dirties.indexes {s' : Regs} {touched : Key → Prop} (dirties : Dirties s s' touched) (indexes : Indexes s.index s.linked) :
    Indexes s'.index s'.linked := by
  rw [dirties.index]
  refine indexes.congr fun c => ?_
  unfold Regs.linked
  have live := dirties.regs c.reg
  cases held : s.reg c.reg with
  | none =>
    rw [held,Option.isSome_none,Option.isSome_eq_false_iff,Option.isNone_iff_eq_none] at live
    rw [live]
  | some g =>
    rw [held,Option.isSome_some,Option.isSome_iff_exists] at live
    obtain ⟨g',held'⟩ := live
    obtain ⟨alike,_⟩ := dirties.alike c.reg g g' held held'
    rw [held',Option.map_some,Option.map_some,Option.map_some,Option.map_some,alike.keys,alike.spans]

theorem touch_dirties (indexes : Indexes s.index s.linked) (t : Touch) : Dirties s (s.touch t) (Hits t) := by
  obtain ⟨hits,is,found⟩ : ∃ hits : Finset Call, s.touch t = s.dirty hits ∧ ∀ c r, s.clean c = some r → ∀ key, Hits t key →
      r.Reads (utf8 key) → c ∈ hits := by
    have linked : ∀ c r, s.clean c = some r → s.linked c = some r := by
      intro c r clean
      unfold Regs.clean at clean
      exact (Option.filter_eq_some_iff.mp clean).1
    cases t with
    | written key =>
      refine ⟨_,rfl,fun c r clean key' same reads => ?_⟩
      cases same
      exact indexes.written (linked c r clean) clean reads
    | cleared text =>
      refine ⟨_,rfl,fun c r clean key under reads => ?_⟩
      obtain ⟨slice,plain,rfl,starts⟩ := under
      have bytes : utf8 (slicePrefix slice) = utf8 slice++[Scan.bang] := utf8_append slice ['!']
      rw [bytes]
      refine indexes.cleared (linked c r clean) clean ?_ ?_ reads
      · have sign : Texts.Sign String.utf8EncodeChar '!' Scan.bang := @utf8_sign '!' (by decide)
        exact fun member => plain ((sign.mem_iff slice).mp member)
      · rw [← bytes]
        exact (utf8_starts _ _).mpr starts
  have regs : ∀ i, (s.touch t).reg i = (s.reg i).map fun g => g.dirtied (⟨i,.grant⟩ ∈ hits) (⟨i,.account⟩ ∈ hits) := by
    intro i
    rw [is]
    unfold Regs.dirty Regs.reg
    dsimp only
    rw [List.getElem?_mapIdx]
    cases s.slots[i]? with
    | none => rfl
    | some slot => rfl
  refine ⟨by rw [is]; rfl,by rw [is]; rfl,by rw [is]; rfl,fun i vacant => ?_,fun i => ?_,fun i g g' held held' => ?_⟩
  · rw [is]
    unfold Regs.dirty
    dsimp only
    rw [List.getElem?_mapIdx,vacant]
    rfl
  · rw [regs,Option.isSome_map]
  · rw [regs,held] at held'
    cases held'
    refine ⟨dirtied_alike g _ _,fun what clean => ?_⟩
    have both : (g.reads what).dirty = false ∧ (⟨i,what⟩ : Call) ∉ hits := by
      cases what with
      | grant => simpa [Reg.reads,Reg.dirtied] using clean
      | account => simpa [Reg.reads,Reg.dirtied] using clean
    refine ⟨both.1,fun key hit reads => both.2 (found ⟨i,what⟩ (g.reads what) ?_ key hit reads)⟩
    unfold Regs.clean Regs.linked
    rw [held,Option.map_some]
    exact Option.filter_eq_some_iff.mpr ⟨rfl,by simp [both.1]⟩

theorem touches_dirties (indexes : Indexes s.index s.linked) (touches : List Touch) :
    Dirties s (touches.foldl Regs.touch s) fun key => ∃ t ∈ touches, Hits t key := by
  induction touches generalizing s with
  | nil =>
    refine ⟨rfl,rfl,rfl,fun i vacant => vacant,fun i => rfl,fun i g g' held held' => ?_⟩
    have same : g = g' := Option.some.inj (held.symm.trans held')
    subst same
    exact ⟨.refl g,fun what clean => ⟨clean,fun key ⟨t,member,_⟩ => (by cases member)⟩⟩
  | cons t rest ih =>
    have first := touch_dirties indexes t
    have later := ih (first.indexes indexes)
    rw [List.foldl_cons]
    refine ⟨later.index.trans first.index,later.free.trans first.free,later.principals.trans first.principals,
      fun i vacant => later.vacant i (first.vacant i vacant),fun i => (later.regs i).trans (first.regs i),fun i g last held ended => ?_⟩
    obtain ⟨g',held'⟩ : ∃ g', (s.touch t).reg i = some g' := by
      rw [← Option.isSome_iff_exists,first.regs,held]
      rfl
    obtain ⟨alike,cleans⟩ := first.alike i g g' held held'
    obtain ⟨alike',cleans'⟩ := later.alike i g' last held' ended
    refine ⟨alike.trans alike',fun what clean => ?_⟩
    obtain ⟨middle,unread'⟩ := cleans' what clean
    obtain ⟨before,unread⟩ := cleans what middle
    refine ⟨before,fun key ⟨u,member,hit⟩ => ?_⟩
    rcases List.mem_cons.mp member with rfl | tail
    · exact unread key hit
    · exact fun reads => unread' key ⟨u,tail,hit⟩ ((alike.reads what _).mpr reads)

-- Every key a store and the next differ in was touched.
def Moves (touches : List Touch) (kv kv' : OrderedMap Key Bytes) : Prop := ∀ key, kv.get key ≠ kv'.get key → ∃ t ∈ touches, Hits t key

theorem Sound.touches (sound : Sound b kv s) {kv' : OrderedMap Key Bytes} {touches : List Touch} (moves : Moves touches kv kv') :
    Sound b kv' (touches.foldl Regs.touch s) := by
  have dirties := touches_dirties sound.indexes touches
  refine ⟨dirties.indexes sound.indexes,fun i g' held' => ?_,fun user i mapped => ?_,dirties.free ▸ sound.free.1,fun i member => ?_⟩
  · obtain ⟨g,held⟩ : ∃ g, s.reg i = some g := by
      rw [← Option.isSome_iff_exists,← dirties.regs,held']
      rfl
    obtain ⟨alike,cleans⟩ := dirties.alike i g g' held held'
    have agree : ∀ what at_, (g'.reads what).dirty = false → Agree (g.reads what) at_ kv → Agree (g'.reads what) at_ kv' := by
      intro what at_ clean agree key reads
      have reads := (alike.reads what _).mp reads
      rw [agree key reads]
      by_contra differ
      exact (cleans what clean).2 key (moves key differ) reads
    refine ⟨fun granted clean => ?_,fun looked clean => ?_⟩
    · obtain ⟨at_,keys,spans,same,answer⟩ := (sound.current i g held).grant (alike.granted ▸ granted) (cleans .grant clean).1
      rw [alike.user,alike.grant]
      exact ⟨at_,keys.trans (alike.keys .grant).symm,spans.trans (alike.spans .grant).symm,agree .grant at_ clean same,answer⟩
    · obtain ⟨at_,keys,spans,same,answer⟩ := (sound.current i g held).account (alike.looked ▸ looked) (cleans .account clean).1
      rw [alike.user,alike.account]
      exact ⟨at_,keys.trans (alike.keys .account).symm,spans.trans (alike.spans .account).symm,agree .account at_ clean same,answer⟩
  · rw [dirties.principals] at mapped
    obtain ⟨g,held,same⟩ := sound.owned user i mapped
    obtain ⟨g',held'⟩ : ∃ g', (touches.foldl Regs.touch s).reg i = some g' := by
      rw [← Option.isSome_iff_exists,dirties.regs,held]
      rfl
    exact ⟨g',held',(dirties.alike i g g' held held').1.user.trans same⟩
  · rw [dirties.free] at member
    exact dirties.vacant i (sound.free.2 i member)

end Registrations
end PhaseLock
