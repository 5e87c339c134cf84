import PhaseLock.CommitSteps

namespace PhaseLock

namespace Storage
variable {st : Storage}

theorem chargeState_kv (st : Storage) (key : Key) (delta : Int) : (st.chargeState key delta).kv = st.kv := by
  unfold chargeState
  split
  · rfl
  · split <;> rfl

theorem set_get (st : Storage) (key : Key) (value : Bytes) (x : Key) :
    (st.set key value).kv.get x = if key = x then some value else st.kv.get x := by
  unfold set
  dsimp only
  rw [chargeState_kv,OrderedMap.get_set]

theorem del_get (st : Storage) (key x : Key) : (st.del key).kv.get x = if key = x then none else st.kv.get x := by
  unfold del
  dsimp only
  cases st.storedSize key with
  | none => exact OrderedMap.get_del _ _ _
  | some size =>
    dsimp only
    rw [chargeState_kv,OrderedMap.get_del]

theorem delPrefix_kv (st : Storage) (text : Key) : (st.delPrefix text).kv = st.kv.keep fun key _ => !text.isPrefixOf key := by
  unfold delPrefix
  dsimp only
  split <;> rfl

theorem delPrefix_get (st : Storage) {text key : Key} (apart : ¬text <+: key) : (st.delPrefix text).kv.get key = st.kv.get key := by
  rw [← List.isPrefixOf_iff_prefix,Bool.not_eq_true] at apart
  rw [delPrefix_kv,OrderedMap.get_keep,apart]
  cases st.kv.get key <;> rfl

theorem enters_kv (st : Storage) (t : Touched) (life : Lifecycle) (pos : Nat) : (st.enters t life pos).kv = st.kv := by
  unfold enters
  by_cases erase : t.del = some true
  · simp only [if_pos erase]
    cases life <;> rfl
  · simp only [if_neg erase]
    cases life <;> rfl

theorem append_kv {row : LogRow} {after : Storage} (ran : st.append row = .ok after) : after.kv = st.kv ∧ after.slices = st.slices := by
  unfold append at ran
  split at ran
  · cases ran
  · cases ran
    exact ⟨rfl,rfl⟩

theorem logs_kv {t : Touched} {after : Storage} {id : Nat} (ran : st.logs t life seq pos id servertime = .ok (after,edit)) :
    after.kv = st.kv := by
  unfold logs at ran
  dsimp only at ran
  obtain ⟨⟨middle,next⟩,numbered,rest⟩ := bind_ok.mp ran
  dsimp only at rest
  split at rest
  · cases rest
  · obtain ⟨last,appended,done⟩ := bind_ok.mp rest
    cases done
    rw [(append_kv appended).1]
    unfold sliceNextSeq at numbered
    split at numbered
    · cases numbered
    · cases numbered
      rfl

-- An entry changes its own key alone, and a birth's deletes change none.
theorem applyEntry_get (life : Lifecycle) (st : Storage) (row : Key × Option Bytes) {key : Key}
    (apart : row.1 = key → ¬(row.2.isSome = true ∨ life ≠ .birth)) : (st.applyEntry life row).kv.get key = st.kv.get key := by
  obtain ⟨own,value⟩ := row
  unfold applyEntry
  cases value with
  | some value =>
    dsimp only
    rw [set_get,if_neg fun same => apart same (.inl rfl)]
  | none =>
    dsimp only
    split
    · rfl
    · rename_i kept
      rw [del_get,if_neg fun same => apart same (.inr kept)]

-- Every key is under a slice.
def Owned (st : Storage) : Prop := ∀ key value, st.kv.get key = some value → ∃ slice, sliceOf key = some slice

theorem applyEntry_owned (owned : st.Owned) {row : Key × Option Bytes} (under : sliceOf row.1 = some slice) (life : Lifecycle) :
    (st.applyEntry life row).Owned := by
  intro key value held
  by_cases own : row.1 = key
  · exact ⟨slice,own ▸ under⟩
  · rw [applyEntry_get life st row fun same => absurd same own] at held
    exact owned key value held

theorem applies_owned (owned : st.Owned) {t : Touched} (under : ∀ row ∈ t.entries, sliceOf row.1 = some t.name) (live : Bool)
    (life : Lifecycle) : (st.applies t live life).Owned := by
  have cleared : ((if live ∧ life ≠ .normal then st.delPrefix (slicePrefix t.name) else st) : Storage).Owned := by
    split
    · intro key value held
      rw [delPrefix_kv,OrderedMap.get_keep] at held
      exact owned key value (Option.filter_eq_some_iff.mp held).1
    · exact owned
  unfold applies
  dsimp only
  split
  · exact cleared
  · refine foldl_invariant (P := Owned) ?_ cleared
    intro now row member kept
    exact applyEntry_owned kept (under row member) life

end Storage

theorem commitSlice_owned {t : Touched} {c after : Committing} {id : Nat} (under : ∀ row ∈ t.entries, sliceOf row.1 = some t.name)
    (owned : c.store.Owned) (ran : commitSlice id servertime c t = .ok after) : after.store.Owned := by
  unfold commitSlice at ran
  dsimp only at ran
  split at ran
  · cases ran
    exact owned
  · obtain ⟨⟨store,edit⟩,logged,done⟩ := bind_ok.mp ran
    cases done
    intro key value held
    rw [Storage.logs_kv logged] at held
    refine Storage.applies_owned (fun key value held => ?_) under _ _ key value held
    rw [Storage.enters_kv] at held
    exact owned key value held

theorem commitEdits_owned {wb : WriteBuffer} {c : Committing} {store : Storage} {id : Nat} (ok : wb.Ok) (owned : store.Owned)
    (ran : commitEdits id servertime store position wb = .ok c) : c.store.Owned := by
  refine foldlM_invariant (P := fun c : Committing => c.store.Owned) ?_ owned ran
  intro c t after member held stepped
  exact commitSlice_owned (ok.touched member).2 held stepped

end PhaseLock
