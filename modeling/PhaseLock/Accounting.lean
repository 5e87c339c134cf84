import PhaseLock.DbPromises
import PhaseLock.KeyCommits

namespace PhaseLock

-- A key's bytes and its value's.
def rowBytes (key : Key) (value : Bytes) : Int := value.length+(Mp.utf8 key).length

namespace Storage

-- The bytes of the keys the store holds under a slice, and of their values.
def heldBytes (st : Storage) (name : Name) : Int := (st.kv.keep fun key _ => sliceOf key = some name).weigh rowBytes

def stateBytes (st : Storage) (name : Name) : Int := ((st.slices.get name).map SliceRow.stateBytes).getD 0

-- Every slice is charged what it holds.
def Charged (st : Storage) : Prop := ∀ name, st.stateBytes name = st.heldBytes name

-- What a slice's keys weigh, as a weight of every key.
def weight (name : Name) (key : Key) (value : Bytes) : Int := if sliceOf key = some name then rowBytes key value else 0

theorem heldBytes_weight (st : Storage) (name : Name) : st.heldBytes name = st.kv.weigh (weight name) := by
  rw [heldBytes,OrderedMap.weigh_keep]
  simp only [decide_eq_true_eq]
  rfl

theorem storedSize_weight (st : Storage) (under : sliceOf key = some slice) (name : Name) :
    (st.kv.get key).elim 0 (weight name key) = if slice = name then (st.storedSize key).getD 0 else 0 := by
  unfold storedSize weight
  rw [under]
  cases st.kv.get key with
  | none => simp
  | some value => simp [rowBytes]

variable {st : Storage} {slice : Name}

-- What an operation charges a slice's row comes of that row alone.
theorem chargeState_stateBytes (st : Storage) (under : sliceOf key = some slice) (born : (st.slices.get slice).isSome = true)
    (delta : Int) (name : Name) :
    (st.chargeState key delta).stateBytes name = st.stateBytes name+if slice = name then delta else 0 := by
  have row := congrArg Part.row (chargeState_part st key delta name)
  have row : (st.chargeState key delta).slices.get name = if sliceOf key = some name then
    (st.slices.get name).map fun row => {row with stateBytes:=row.stateBytes+delta} else st.slices.get name := row
  unfold stateBytes
  rw [row,under]
  by_cases mine : slice = name
  · subst mine
    obtain ⟨held,is⟩ := Option.isSome_iff_exists.mp born
    simp [is]
  · simp [mine]

theorem chargeState_born (st : Storage) (key : Key) (delta : Int) (name : Name) :
    ((st.chargeState key delta).slices.get name).isSome = (st.slices.get name).isSome := by
  have row : (st.chargeState key delta).slices.get name = if sliceOf key = some name then
    (st.slices.get name).map fun row => {row with stateBytes:=row.stateBytes+delta} else st.slices.get name :=
    congrArg Part.row (chargeState_part st key delta name)
  rw [row]
  split
  · rw [Option.isSome_map]
  · rfl

theorem set_charged (charged : st.Charged) (under : sliceOf key = some slice) (born : (st.slices.get slice).isSome = true)
    (value : Bytes) : (st.set key value).Charged := by
  intro name
  have before := charged name
  rw [heldBytes_weight] at before ⊢
  have size := storedSize_weight st under name
  unfold set
  dsimp only
  rw [chargeState_stateBytes {st with kv:=st.kv.set key value} under born,chargeState_kv,OrderedMap.weigh_set]
  have row : ({st with kv:=st.kv.set key value} : Storage).stateBytes name = st.stateBytes name := rfl
  have own : weight name key value = if slice = name then (value.length : Int)+(Mp.utf8 key).length else 0 := by
    unfold weight
    rw [under]
    simp [rowBytes]
  rw [row,size,own]
  by_cases mine : slice = name
  · simp only [if_pos mine]
    omega
  · simp only [if_neg mine]
    omega

theorem del_charged (charged : st.Charged) (under : sliceOf key = some slice) (born : (st.slices.get slice).isSome = true) :
    (st.del key).Charged := by
  intro name
  have before := charged name
  rw [heldBytes_weight] at before ⊢
  have size := storedSize_weight st under name
  have row : ({st with kv:=st.kv.del key} : Storage).stateBytes name = st.stateBytes name := rfl
  have after : ({st with kv:=st.kv.del key} : Storage).kv.weigh (weight name) =
      st.kv.weigh (weight name)-if slice = name then (st.storedSize key).getD 0 else 0 := by
    rw [← size]
    exact OrderedMap.weigh_del (weight name) st.kv key
  unfold del
  dsimp only
  cases held : st.storedSize key with
  | none =>
    dsimp only
    rw [row,after,held]
    simp only [Option.getD_none,ite_self]
    omega
  | some n =>
    dsimp only
    rw [chargeState_stateBytes {st with kv:=st.kv.del key} under born,chargeState_kv,row,after,held]
    by_cases mine : slice = name
    · simp only [if_pos mine,Option.getD_some]
      omega
    · simp only [if_neg mine]
      omega

-- A slice cleared whole is charged nothing.
theorem delPrefix_charged (charged : st.Charged) (plain : '!' ∉ slice) (named : slice ≠ []) :
    (st.delPrefix (slicePrefix slice)).Charged := by
  intro name
  have part : (st.delPrefix (slicePrefix slice)).part name = _ := delPrefix_part plain named name
  have row : (st.delPrefix (slicePrefix slice)).slices.get name = if slice = name then
    (st.slices.get name).map fun row => {row with stateBytes:=0} else st.slices.get name := congrArg Part.row part
  have starts : ∀ key : Key, (slicePrefix slice).isPrefixOf key = true ↔ sliceOf key = some slice := by
    intro key
    rw [List.isPrefixOf_iff_prefix]
    exact slicePrefix_iff plain key
  have weights : (fun key value => if (!(slicePrefix slice).isPrefixOf key) = true then weight name key value else 0) =
      if slice = name then fun _ _ => 0 else weight name := by
    funext key value
    by_cases mine : slice = name
    · subst mine
      rw [if_pos rfl]
      unfold weight
      by_cases under : sliceOf key = some slice
      · simp [(starts key).mpr under]
      · simp [under]
    · rw [if_neg mine]
      unfold weight
      by_cases under : sliceOf key = some name
      · have other : (slicePrefix slice).isPrefixOf key = false := by
          rw [Bool.eq_false_iff,ne_eq,starts,under]
          exact fun same => mine (Option.some.inj same).symm
        simp [other]
      · simp [under]
  have before := charged name
  rw [heldBytes_weight] at before ⊢
  unfold stateBytes at before ⊢
  rw [row,delPrefix_kv,OrderedMap.weigh_keep,weights]
  by_cases mine : slice = name
  · rw [if_pos mine,if_pos mine]
    have nothing : st.kv.weigh (fun _ _ => 0) = 0 := by
      unfold OrderedMap.weigh
      induction st.kv.entries with
      | nil => rfl
      | cons head rest ih => rw [List.map_cons,List.sum_cons,ih]; rfl
    rw [nothing]
    cases st.slices.get name <;> rfl
  · rw [if_neg mine,if_neg mine]
    exact before

-- What changes neither a key nor what a row is charged keeps the charge.
theorem Charged.same {after : Storage} (charged : st.Charged) (kv : after.kv = st.kv)
    (bytes : ∀ name, after.stateBytes name = st.stateBytes name) : after.Charged := by
  intro name
  rw [bytes,charged name,heldBytes,heldBytes,kv]

theorem Charged.of_tables {after : Storage} (charged : st.Charged) (kv : after.kv = st.kv) (slices : after.slices = st.slices) :
    after.Charged := charged.same kv fun name => by rw [stateBytes,stateBytes,slices]

theorem enters_charged (charged : st.Charged) (t : Touched) (life : Lifecycle) (pos : Nat) : (st.enters t life pos).Charged := by
  refine charged.same ?_ fun name => ?_
  · unfold enters
    by_cases erase : t.del = some true
    · simp only [if_pos erase]
      cases life <;> rfl
    · simp only [if_neg erase]
      cases life <;> rfl
  · have row : (st.enters t life pos).slices.get name =
        (if t.name = name then (st.part name).entered t life pos else st.part name).row := congrArg Part.row (enters_part st t life pos name)
    unfold stateBytes
    rw [row]
    by_cases mine : t.name = name
    · rw [if_pos mine,Part.entered,show (st.part name).row = st.slices.get name from rfl]
      cases life <;> cases held : st.slices.get name <;> by_cases erase : t.del = some true <;> simp [Lifecycle.enters,erase]
      all_goals split <;> rfl
    · rw [if_neg mine]
      rfl

theorem entries_charged {life : Lifecycle} {entries : List (Key × Option Bytes)} (under : ∀ row ∈ entries, sliceOf row.1 = some slice)
    (charged : st.Charged) (born : (st.slices.get slice).isSome = true) : (entries.foldl (applyEntry life) st).Charged := by
  have all : (entries.foldl (applyEntry life) st).Charged ∧ ((entries.foldl (applyEntry life) st).slices.get slice).isSome = true := by
    refine foldl_invariant (P := fun st : Storage => st.Charged ∧ (st.slices.get slice).isSome = true) ?_ ⟨charged,born⟩
    rintro s ⟨key,value⟩ member ⟨charged,born⟩
    have owned := under _ member
    unfold applyEntry
    cases value with
    | some value => exact ⟨set_charged charged owned born value,(chargeState_born _ _ _ _).trans born⟩
    | none =>
      dsimp only
      split
      · exact ⟨charged,born⟩
      · refine ⟨del_charged charged owned born,?_⟩
        unfold del
        dsimp only
        cases s.storedSize key with
        | none => exact born
        | some n => exact (chargeState_born _ _ _ _).trans born
  exact all.1

theorem applies_charged {t : Touched} (plain : '!' ∉ t.name) (named : t.name ≠ []) (under : ∀ row ∈ t.entries, sliceOf row.1 = some t.name)
    (charged : st.Charged) (born : (st.slices.get t.name).isSome = true) (live : Bool) (life : Lifecycle) :
    (st.applies t live life).Charged := by
  have cleared : ((if live ∧ life ≠ .normal then st.delPrefix (slicePrefix t.name) else st) : Storage).Charged ∧
      (((if live ∧ life ≠ .normal then st.delPrefix (slicePrefix t.name) else st) : Storage).slices.get t.name).isSome = true := by
    by_cases reset : live ∧ life ≠ .normal
    · rw [if_pos reset]
      have row : (st.delPrefix (slicePrefix t.name)).slices.get t.name = _ := congrArg Part.row
        (show (st.delPrefix (slicePrefix t.name)).part t.name = _ from delPrefix_part plain named t.name)
      refine ⟨delPrefix_charged charged plain named,?_⟩
      rw [row]
      dsimp only
      rw [if_pos rfl,Option.isSome_map]
      exact born
    · rw [if_neg reset]
      exact ⟨charged,born⟩
  unfold applies
  dsimp only
  by_cases dead : life = .death
  · rw [if_pos dead]
    exact cleared.1
  · rw [if_neg dead]
    exact entries_charged under cleared.1 cleared.2

theorem sliceNextSeq_charged {after : Storage} (charged : st.Charged) (ran : st.sliceNextSeq slice nbytes pos = .ok (after,next)) :
    after.Charged := by
  obtain ⟨row,held,_,parts⟩ := sliceNextSeq_part ran
  refine charged.same ?_ fun name => ?_
  · unfold sliceNextSeq at ran
    rw [held] at ran
    cases ran
    rfl
  · have here : after.slices.get name = _ := congrArg Part.row (parts name)
    unfold stateBytes
    rw [here]
    by_cases mine : slice = name
    · subst mine
      simp [held]
    · rw [if_neg mine]
      rfl

theorem logs_charged {t : Touched} {after : Storage} {id : Nat} (charged : st.Charged) (ran : st.logs t life seq pos id servertime = .ok (after,edit)) :
    after.Charged := by
  unfold logs at ran
  dsimp only at ran
  obtain ⟨⟨middle,next⟩,numbered,rest⟩ := bind_ok.mp ran
  dsimp only at rest
  split at rest
  · cases rest
  · obtain ⟨last,appended,done⟩ := bind_ok.mp rest
    cases done
    obtain ⟨kv,slices⟩ := append_kv appended
    exact (sliceNextSeq_charged charged numbered).of_tables kv slices

end Storage

theorem commitSlice_charged {t : Touched} {c after : Committing} {id : Nat} (plain : '!' ∉ t.name) (named : t.name ≠ [])
    (under : ∀ row ∈ t.entries, sliceOf row.1 = some t.name) (charged : c.store.Charged)
    (ran : commitSlice id servertime c t = .ok after) : after.store.Charged := by
  unfold commitSlice at ran
  rw [sliceState_part] at ran
  dsimp only at ran
  split at ran
  · cases ran
    exact charged
  · rename_i busy
    obtain ⟨⟨store,edit⟩,logged,done⟩ := bind_ok.mp ran
    cases done
    refine Storage.logs_charged (Storage.applies_charged plain named under (Storage.enters_charged charged t _ _) ?_ _ _) logged
    have unborn : (c.store.part t.name).live = true ∨ t.life (c.store.part t.name).live = .birth := by
      cases live : (c.store.part t.name).live with
      | true => exact .inl rfl
      | false =>
        rw [live] at busy
        refine .inr ?_
        unfold Touched.life at busy ⊢
        cases t.del with
        | none => rfl
        | some erase => by_cases sets : t.sets = true <;> simp_all
    obtain ⟨row,held,_⟩ := entered_row t (if c.at_ = 0 then if c.at_ = 0 then c.position+1 else c.position else c.at_) unborn
    have mine := congrArg Part.row (Storage.enters_part c.store t (t.life (c.store.part t.name).live)
      (if c.at_ = 0 then if c.at_ = 0 then c.position+1 else c.position else c.at_) t.name)
    rw [if_pos rfl,held] at mine
    exact Option.isSome_iff_exists.mpr ⟨row,mine⟩

theorem commitEdits_charged {wb : WriteBuffer} {c : Committing} {store : Storage} {id : Nat} (ok : wb.Ok) (charged : store.Charged)
    (ran : commitEdits id servertime store position wb = .ok c) : c.store.Charged := by
  refine foldlM_invariant (P := fun c : Committing => c.store.Charged) ?_ charged ran
  intro c t after member held stepped
  obtain ⟨name,under⟩ := ok.touched member
  exact commitSlice_charged (sliceNameOk_plain name).1 (sliceNameOk_ne name) under held stepped

theorem Answered.charged {w after : Writer} (answered : Answered w a after) (charged : w.store.Charged) : after.store.Charged := by
  rw [answered.store]
  by_cases accepted : a.accepted
  · obtain ⟨ok,id,time,c,mutated,_,kv,_,slices,_⟩ := answered.accepted accepted
    have held := commitEdits_charged ok charged mutated.ran
    exact held.of_tables kv slices
  · obtain ⟨_,_,kv,_,slices⟩ := answered.others accepted
    exact charged.of_tables kv slices

theorem charged_keeps : Writer.Keeps fun w => w.Sound ∧ w.store.Charged where
  behind holds _ member := holds.1.logged.behind member
  answered holds answered := ⟨(holds.1.answered answered).sound,answered.charged holds.2⟩
  same holds store position trace := ⟨holds.1.same store position trace,store ▸ holds.2⟩
  armed install entry minute servertime holds := ⟨(holds.1.armed install entry minute servertime).sound,holds.2.same rfl fun _ => rfl⟩

theorem Storage.editLen_nonneg (rows : List LogRow) : 0 ≤ Storage.editLen rows := by
  unfold editLen
  induction rows with
  | nil => exact le_refl 0
  | cons head rest ih =>
    rw [List.map_cons,List.sum_cons]
    omega

-- What a slice's row says of its bytes: those of the keys the store holds under it and of their
-- values, and those of its edits in the log, and neither is negative.
structure SliceRow.Accounts (row : SliceRow) (st : Storage) (name : Name) : Prop where
  state : row.stateBytes = st.heldBytes name
  edits : row.editBytes = Storage.editLen (st.log.filter (·.slice = name))
  positive : 0 ≤ row.stateBytes ∧ 0 ≤ row.editBytes

theorem Writer.Sound.accounts {w : Writer} (sound : w.Sound) (charged : w.store.Charged) {row : SliceRow}
    (held : w.store.slices.get name = some row) : row.Accounts w.store name := by
  have state : row.stateBytes = w.store.heldBytes name := by
    rw [← charged name,Storage.stateBytes,held]
    rfl
  have edits : row.editBytes = Storage.editLen (w.store.log.filter (·.slice = name)) := by
    have bytes := (sound.logged.good name).bytes
    unfold Part.editBytes at bytes
    rw [show (w.store.part name).row = some row from held] at bytes
    exact bytes
  refine ⟨state,edits,?_,?_⟩
  · rw [state]
    exact OrderedMap.weigh_nonneg rowBytes (fun key value => by unfold rowBytes; omega) _
  · rw [edits]
    exact Storage.editLen_nonneg _

namespace Db

theorem accounting_is_exact {events : List DbEvent} {s : Db} (path : machine.Runs {} events s) :
    (∀ name row, s.disk.slices.get name = some row → row.Accounts s.disk name) ∧
    ∀ name row, s.writer.store.slices.get name = some row → row.Accounts s.writer.store name := by
  obtain ⟨disk,writer⟩ := runs_keep charged_keeps
    (fun holds => ⟨opens_sound holds.1,holds.2⟩) ⟨start_sound.disk,fun _ => rfl⟩ path
  exact ⟨fun name row held => disk.1.accounts disk.2 held,fun name row held => writer.1.accounts writer.2 held⟩

theorem accounting_is_exact_reborn : ∃ s, machine.Runs {} reborn s ∧
    ∀ name row, s.disk.slices.get name = some row → row.Accounts s.disk name := by
  obtain ⟨s,path,_⟩ := reborn_runs
  exact ⟨s,path,(accounting_is_exact path).1⟩

end Db
end PhaseLock
