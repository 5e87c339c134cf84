import PhaseLock.WriteBuffer

namespace PhaseLock

-- One edit in the log: its mutation's position, and its wire encoding whole.
structure LogRow where
  position : Nat
  slice : Name
  seq : Nat
  lifecycle : Lifecycle
  edit : List Token
deriving DecidableEq

-- A slice ever born: its counters outlive it.
structure SliceRow where
  birth : Nat
  death : Option Nat := none
  seq : Nat := 0
  pos : Nat := 0
  editBytes : Int := 0
  stateBytes : Int := 0
deriving DecidableEq

-- The series table's keys: a client's series by its digest, and a cron entry's own, which
-- starts with a character no digest holds.
inductive SeriesKey where
  | series (digest : Name)
  | cron (install entry : Name)
deriving DecidableEq

structure Storage where
  kv : OrderedMap Key Bytes := (∅ : OrderedMap Key Bytes)
  log : List LogRow := []
  slices : OrderedMap Name SliceRow := (∅ : OrderedMap Name SliceRow)
  series : OrderedMap SeriesKey (Nat × Int) := (∅ : OrderedMap SeriesKey (Nat × Int))

-- What a store that no longer agrees with itself dies of.
inductive Fatal where
  | noSlice (name : Name)
  | seqAfter (name : Name) (next seq : Nat)
  | logged (position : Nat) (slice : Name)
deriving DecidableEq

namespace Storage

def storedSize (st : Storage) (key : Key) : Option Int :=
  (st.kv.get key).map fun value => (value.length : Int)+(Mp.utf8 key).length

-- State is charged to the slice owning the key.
def chargeState (st : Storage) (key : Key) (delta : Int) : Storage :=
  if delta = 0 then st
  else match sliceOf key with
    | none => st
    | some slice => {st with slices:=st.slices.update slice fun row => {row with stateBytes:=row.stateBytes+delta}}

def set (st : Storage) (key : Key) (value : Bytes) : Storage :=
  let before := st.storedSize key
  let after : Int := value.length+(Mp.utf8 key).length
  ({st with kv:=st.kv.set key value} : Storage).chargeState key (after-before.getD 0)

def del (st : Storage) (key : Key) : Storage :=
  let before := st.storedSize key
  let after : Storage := {st with kv:=st.kv.del key}
  match before with
  | some size => after.chargeState key (-size)
  | none => after

-- Every key under a text goes, and a slice's whole text leaves it no state.
def delPrefix (st : Storage) (text : Key) : Storage :=
  let after : Storage := {st with kv:=st.kv.keep (fun key _ => !text.isPrefixOf key)}
  if 1 < text.length ∧ text.getLast? = some '!' then
    {after with slices:=after.slices.update text.dropLast fun row => {row with stateBytes:=0}}
  else after

def append (st : Storage) (row : LogRow) : Except Fatal Storage :=
  if st.log.any (fun r => r.position = row.position ∧ r.slice = row.slice) then .error (.logged row.position row.slice)
  else .ok {st with log:=st.log++[row]}

def maxPosition (st : Storage) : Nat := st.log.foldl (fun most row => max most row.position) 0

def seriesHwm (st : Storage) (key : SeriesKey) : Option Nat := (st.series.get key).map Prod.fst

-- A mark only rises, and is stamped with its last decision.
def seriesMark (st : Storage) (key : SeriesKey) (n : Nat) (time : Int) : Storage :=
  {st with series:=st.series.set key (match st.series.get key with
    | some mark => (max mark.1 n,time)
    | none => (n,time))}

-- A birth creates or revives the slice's row.
def sliceBirth (st : Storage) (name : Name) (pos : Nat) : Storage :=
  {st with slices:=st.slices.set name (match st.slices.get name with
    | some row => {row with birth:=pos,death:=none}
    | none => {birth:=pos})}

def sliceDeath (st : Storage) (name : Name) (pos : Nat) : Storage :=
  {st with slices:=st.slices.update name fun row => if row.death = none then {row with death:=some pos} else row}

def editLen (rows : List LogRow) : Int := (rows.map fun row => (encodedLen row.edit : Int)).sum

-- The slice's edits below a position go, and its edit bytes are those of the edits that remain.
def sliceErase (st : Storage) (name : Name) (before : Nat) : Storage :=
  let log := st.log.filter (fun row => ¬(row.slice = name ∧ row.position < before))
  {st with
    log
    slices:=st.slices.update name fun row => {row with editBytes:=editLen (log.filter (·.slice = name))}}

-- The slice's next seq, for an edit at a position, its bytes charged to it.
def sliceNextSeq (st : Storage) (name : Name) (nbytes pos : Nat) : Except Fatal (Storage × Nat) :=
  match st.slices.get name with
  | none => .error (.noSlice name)
  | some row => .ok ({st with slices:=st.slices.set name {row with
      seq:=row.seq+1
      pos
      editBytes:=row.editBytes+nbytes}},row.seq+1)

-- The slice's seq and whether it is live; never born, it is at 0 and not live.
def sliceState (st : Storage) (name : Name) : Nat × Bool :=
  match st.slices.get name with
  | some row => (row.seq,row.death = none)
  | none => (0,false)

end Storage

-- What the store holds of one slice.
structure Part where
  rows : List LogRow
  keys : Key → Option Bytes
  row : Option SliceRow

namespace Storage

def part (st : Storage) (name : Name) : Part where
  rows := st.log.filter (·.slice = name)
  keys := fun key => if sliceOf key = some name then st.kv.get key else none
  row := st.slices.get name

variable {st : Storage} {name : Name}

theorem chargeState_part (st : Storage) (key : Key) (delta : Int) (name : Name) :
    (st.chargeState key delta).part name = {st.part name with
      row:=if sliceOf key = some name then (st.part name).row.map fun row => {row with stateBytes:=row.stateBytes+delta}
        else (st.part name).row} := by
  unfold chargeState
  by_cases still : delta = 0
  · rw [if_pos still,still]
    have same : ((st.part name).row.map fun row => {row with stateBytes:=row.stateBytes+0}) = (st.part name).row := by
      cases (st.part name).row <;> simp
    rw [same,ite_self]
  · rw [if_neg still]
    cases owned : sliceOf key with
    | none => simp
    | some slice =>
      simp only [part,OrderedMap.get_update,Option.some.injEq]

theorem set_part (under : sliceOf key = some slice) (value : Bytes) (name : Name) :
    ∃ delta, (st.set key value).part name = {st.part name with
      keys:=if slice = name then Function.update (st.part name).keys key (some value) else (st.part name).keys
      row:=if slice = name then (st.part name).row.map fun row => {row with stateBytes:=row.stateBytes+delta}
        else (st.part name).row} := by
  refine ⟨value.length+(Mp.utf8 key).length-(st.storedSize key).getD 0,?_⟩
  unfold set
  dsimp only
  rw [chargeState_part]
  simp only [under,Option.some.injEq]
  have keys : (({st with kv:=st.kv.set key value} : Storage).part name).keys =
      if slice = name then Function.update (st.part name).keys key (some value) else (st.part name).keys := by
    funext k
    by_cases mine : slice = name
    · subst mine
      rw [if_pos rfl]
      by_cases here : k = key
      · subst here
        simp [part,under]
      · rw [Function.update_of_ne here]
        simp [part,OrderedMap.get_set,Ne.symm here]
    · rw [if_neg mine]
      by_cases here : key = k
      · subst here
        simp [part,under,mine]
      · simp [part,OrderedMap.get_set,here]
  rw [← keys]
  rfl

theorem del_part (under : sliceOf key = some slice) (name : Name) :
    ∃ delta, (st.del key).part name = {st.part name with
      keys:=if slice = name then Function.update (st.part name).keys key none else (st.part name).keys
      row:=if slice = name then (st.part name).row.map fun row => {row with stateBytes:=row.stateBytes+delta}
        else (st.part name).row} := by
  have keys : (({st with kv:=st.kv.del key} : Storage).part name).keys =
      if slice = name then Function.update (st.part name).keys key none else (st.part name).keys := by
    funext k
    by_cases mine : slice = name
    · subst mine
      rw [if_pos rfl]
      by_cases here : k = key
      · subst here
        simp [part]
      · rw [Function.update_of_ne here]
        simp [part,OrderedMap.get_del,Ne.symm here]
    · rw [if_neg mine]
      by_cases here : key = k
      · subst here
        simp [part,under,mine]
      · simp [part,OrderedMap.get_del,here]
  unfold del
  dsimp only
  cases held : st.storedSize key with
  | none =>
    refine ⟨0,?_⟩
    rw [← keys]
    have same : ((st.part name).row.map fun row => {row with stateBytes:=row.stateBytes+0}) = (st.part name).row := by
      cases (st.part name).row <;> simp
    rw [same,ite_self]
    rfl
  | some size =>
    refine ⟨-size,?_⟩
    dsimp only
    rw [chargeState_part,← keys]
    simp only [under,Option.some.injEq]
    rfl

-- A slice cleared whole.
theorem delPrefix_part (plain : '!' ∉ slice) (named : slice ≠ []) (name : Name) :
    (st.delPrefix (slicePrefix slice)).part name = {st.part name with
      keys:=if slice = name then fun _ => none else (st.part name).keys
      row:=if slice = name then (st.part name).row.map fun row => {row with stateBytes:=0} else (st.part name).row} := by
  have long : 1 < (slicePrefix slice).length ∧ (slicePrefix slice).getLast? = some '!' := by
    have positive := List.length_pos_iff.mpr named
    refine ⟨?_,by simp [slicePrefix]⟩
    simp only [slicePrefix,List.length_append,List.length_singleton]
    omega
  have whole : (slicePrefix slice).dropLast = slice := by simp [slicePrefix]
  have keys : (fun key => if sliceOf key = some name then (st.kv.keep (fun key _ => !(slicePrefix slice).isPrefixOf key)).get key else none) =
      if slice = name then fun _ => none else (st.part name).keys := by
    funext key
    rw [OrderedMap.get_keep]
    have starts : ((slicePrefix slice).isPrefixOf key = true) ↔ sliceOf key = some slice := by
      rw [List.isPrefixOf_iff_prefix]
      exact slicePrefix_iff plain key
    by_cases mine : slice = name
    · subst mine
      rw [if_pos rfl]
      by_cases under : sliceOf key = some slice
      · rw [if_pos under,starts.mpr under]
        cases st.kv.get key <;> rfl
      · rw [if_neg under]
    · rw [if_neg mine]
      by_cases under : sliceOf key = some name
      · have other : (slicePrefix slice).isPrefixOf key = false := by
          rw [Bool.eq_false_iff,ne_eq,starts,under]
          exact fun same => mine (Option.some.inj same).symm
        simp only [part,if_pos under,other]
        cases st.kv.get key <;> rfl
      · simp only [part,if_neg under]
  unfold delPrefix
  dsimp only
  rw [if_pos long,whole,← keys]
  simp only [part,OrderedMap.get_update]

theorem sliceBirth_part (st : Storage) (slice : Name) (pos : Nat) (name : Name) :
    (st.sliceBirth slice pos).part name = if slice = name then {st.part name with
      row:=some (match (st.part name).row with
        | some row => {row with birth:=pos,death:=none}
        | none => {birth:=pos})} else st.part name := by
  by_cases mine : slice = name
  · subst mine
    simp [sliceBirth,part]
  · simp [sliceBirth,part,OrderedMap.get_set,mine]

theorem sliceDeath_part (st : Storage) (slice : Name) (pos : Nat) (name : Name) :
    (st.sliceDeath slice pos).part name = if slice = name then {st.part name with
      row:=(st.part name).row.map fun row => if row.death = none then {row with death:=some pos} else row} else st.part name := by
  by_cases mine : slice = name
  · subst mine
    simp [sliceDeath,part,OrderedMap.get_update]
  · simp [sliceDeath,part,OrderedMap.get_update,mine]

theorem sliceErase_part (st : Storage) (slice : Name) (before : Nat) (name : Name) :
    (st.sliceErase slice before).part name = if slice = name then {st.part name with
      rows:=(st.part name).rows.filter (fun row => ¬row.position < before)
      row:=(st.part name).row.map fun row => {row with
        editBytes:=editLen ((st.part name).rows.filter (fun row => ¬row.position < before))}} else st.part name := by
  have rows : (st.log.filter (fun row => ¬(row.slice = slice ∧ row.position < before))).filter (·.slice = name) =
      if slice = name then (st.log.filter (·.slice = name)).filter (fun row => ¬row.position < before)
      else st.log.filter (·.slice = name) := by
    rw [List.filter_filter]
    by_cases mine : slice = name
    · subst mine
      rw [if_pos rfl,List.filter_filter]
      refine List.filter_congr fun row _ => ?_
      by_cases here : row.slice = slice <;> simp [here]
    · rw [if_neg mine]
      refine List.filter_congr fun row _ => ?_
      by_cases here : row.slice = name
      · have other : row.slice ≠ slice := fun same => mine (same.symm.trans here)
        simp [here,Ne.symm mine]
      · simp [here]
  unfold sliceErase
  by_cases mine : slice = name
  · subst mine
    rw [if_pos rfl] at rows
    simp only [part,OrderedMap.get_update,rows,if_true]
  · rw [if_neg mine] at rows
    simp only [part,OrderedMap.get_update,if_neg mine,rows]

theorem sliceNextSeq_part {nbytes pos next : Nat} {after : Storage} (ran : st.sliceNextSeq slice nbytes pos = .ok (after,next)) :
    ∃ row, st.slices.get slice = some row ∧ next = row.seq+1 ∧ ∀ name, after.part name = if slice = name then {st.part name with
      row:=some {row with
        seq:=row.seq+1
        pos
        editBytes:=row.editBytes+nbytes}} else st.part name := by
  unfold sliceNextSeq at ran
  cases held : st.slices.get slice with
  | none => rw [held] at ran; cases ran
  | some row =>
    rw [held] at ran
    cases ran
    refine ⟨row,rfl,rfl,fun name => ?_⟩
    by_cases mine : slice = name
    · subst mine
      simp [part]
    · simp [part,OrderedMap.get_set,mine]

theorem append_part {row : LogRow} {after : Storage} (ran : st.append row = .ok after) (name : Name) :
    after.part name = if row.slice = name then {st.part name with rows:=(st.part name).rows++[row]} else st.part name := by
  unfold append at ran
  split at ran
  · cases ran
  · cases ran
    by_cases mine : row.slice = name
    · simp [part,List.filter_append,mine]
    · simp [part,List.filter_append,mine]

end Storage
end PhaseLock
