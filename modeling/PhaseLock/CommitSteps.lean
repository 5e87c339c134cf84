import PhaseLock.Writer

namespace PhaseLock

-- What the lifecycle makes of a slice's row.
def Lifecycle.enters (life : Lifecycle) (pos : Nat) (row : Option SliceRow) : Option SliceRow :=
  match life with
  | .birth => some (match row with
    | some row => {row with birth:=pos,death:=none}
    | none => {birth:=pos})
  | .death => row.map fun row => if row.death = none then {row with death:=some pos} else row
  | .normal => row

-- The slice's rows an edit at a position leaves in the log: an erasure drops those before it.
def Touched.keeps (t : Touched) (pos : Nat) (rows : List LogRow) : List LogRow :=
  if t.del = some true then rows.filter (fun row => ¬row.position < pos) else rows

def Part.entered (p : Part) (t : Touched) (life : Lifecycle) (pos : Nat) : Part where
  rows := t.keeps pos p.rows
  keys := p.keys
  row := (life.enters pos p.row).map fun row =>
    if t.del = some true then {row with editBytes:=Storage.editLen (t.keeps pos p.rows)} else row

namespace Storage
variable {st : Storage} {name : Name}

theorem enters_part (st : Storage) (t : Touched) (life : Lifecycle) (pos : Nat) (name : Name) :
    (st.enters t life pos).part name = if t.name = name then (st.part name).entered t life pos else st.part name := by
  have lived : ∀ other, ((if life = .death then (if life = .birth then st.sliceBirth t.name pos else st).sliceDeath t.name pos
      else if life = .birth then st.sliceBirth t.name pos else st) : Storage).part other =
      if t.name = other then {st.part other with row:=life.enters pos (st.part other).row} else st.part other := by
    intro other
    cases life with
    | normal => simp [Lifecycle.enters]
    | birth =>
      simp only [reduceCtorEq,if_false,if_true,sliceBirth_part]
      cases held : (st.part other).row <;> simp [Lifecycle.enters]
    | death => simp [Lifecycle.enters,sliceDeath_part]
  unfold enters
  dsimp only
  by_cases erase : t.del = some true
  · rw [if_pos erase,sliceErase_part,lived]
    by_cases mine : t.name = name
    · simp [mine,Part.entered,Touched.keeps,erase]
    · simp [mine]
  · rw [if_neg erase,lived]
    by_cases mine : t.name = name
    · simp [mine,Part.entered,Touched.keeps,erase]
    · simp [mine]

theorem enters_log (st : Storage) (t : Touched) (life : Lifecycle) (pos : Nat) :
    (st.enters t life pos).log = if t.del = some true then st.log.filter (fun row => ¬(row.slice = t.name ∧ row.position < pos))
      else st.log := by
  unfold enters
  by_cases erase : t.del = some true
  · simp only [if_pos erase]
    cases life <;> rfl
  · simp only [if_neg erase]
    cases life <;> rfl

theorem chargeState_frame (st : Storage) (key : Key) (delta : Int) :
    (st.chargeState key delta).log = st.log ∧ (st.chargeState key delta).series = st.series := by
  unfold chargeState
  split
  · exact ⟨rfl,rfl⟩
  · split <;> exact ⟨rfl,rfl⟩

theorem applyEntry_frame (life : Lifecycle) (st : Storage) (row : Key × Option Bytes) :
    (st.applyEntry life row).log = st.log ∧ (st.applyEntry life row).series = st.series := by
  obtain ⟨key,value⟩ := row
  unfold applyEntry
  cases value with
  | some value => exact chargeState_frame _ _ _
  | none =>
    by_cases born : life = .birth
    · simp only [if_pos born,and_self]
    · simp only [if_neg born,del]
      cases st.storedSize key with
      | none => exact ⟨rfl,rfl⟩
      | some size => exact chargeState_frame _ _ _

theorem applies_frame (st : Storage) (t : Touched) (live : Bool) (life : Lifecycle) :
    (st.applies t live life).log = st.log ∧ (st.applies t live life).series = st.series := by
  have cleared : ∀ text, (st.delPrefix text).log = st.log ∧ (st.delPrefix text).series = st.series := by
    intro text
    unfold delPrefix
    dsimp only
    split <;> exact ⟨rfl,rfl⟩
  have first : ((if live ∧ life ≠ .normal then st.delPrefix (slicePrefix t.name) else st) : Storage).log = st.log ∧
      ((if live ∧ life ≠ .normal then st.delPrefix (slicePrefix t.name) else st) : Storage).series = st.series := by
    split
    · exact cleared _
    · exact ⟨rfl,rfl⟩
  unfold applies
  dsimp only
  by_cases dead : life = .death
  · simpa only [if_pos dead] using first
  · rw [if_neg dead]
    refine foldl_invariant (P := fun s : Storage => s.log = st.log ∧ s.series = st.series) ?_ first
    intro s row _ kept
    exact ⟨(applyEntry_frame life s row).1.trans kept.1,(applyEntry_frame life s row).2.trans kept.2⟩

theorem enters_series (st : Storage) (t : Touched) (life : Lifecycle) (pos : Nat) :
    (st.enters t life pos).series = st.series := by
  unfold enters
  by_cases erase : t.del = some true
  · simp only [if_pos erase]
    cases life <;> rfl
  · simp only [if_neg erase]
    cases life <;> rfl

-- The same part, but for the state bytes of its row.
structure Recharged (before after : Part) : Prop where
  rows : after.rows = before.rows
  row : ∃ bytes : SliceRow → Int, after.row = before.row.map fun row => {row with stateBytes:=bytes row}

theorem Recharged.trans {a b c : Part} (left : Recharged a b) (right : Recharged b c) : Recharged a c := by
  obtain ⟨first,leftRow⟩ := left.row
  obtain ⟨second,rightRow⟩ := right.row
  refine ⟨right.rows.trans left.rows,fun row => second {row with stateBytes:=first row},?_⟩
  rw [rightRow,leftRow,Option.map_map]
  rfl

theorem Recharged.refl (p : Part) : Recharged p p := by
  refine ⟨rfl,SliceRow.stateBytes,?_⟩
  cases p.row <;> rfl

theorem applyEntry_part (life : Lifecycle) {row : Key × Option Bytes} (under : sliceOf row.1 = some slice) (alive : life ≠ .death)
    (st : Storage) (name : Name) : (slice ≠ name → (st.applyEntry life row).part name = st.part name) ∧
      Recharged (st.part slice) ((st.applyEntry life row).part slice) ∧
      ((st.applyEntry life row).part slice).keys = writes (carried life [row]) (st.part slice).keys := by
  obtain ⟨key,value⟩ := row
  have update : ∀ value : Option Bytes, Function.update (st.part slice).keys key value = writes [(key,value)] (st.part slice).keys := by
    intro value
    funext k
    simp [writes,Function.update_apply,eq_comm]
  cases value with
  | some value =>
    have ran : st.applyEntry life (key,some value) = st.set key value := rfl
    have kept : carried life [(key,some value)] = [(key,some value)] := by
      cases life <;> first | rfl | exact absurd rfl alive
    obtain ⟨_,others⟩ := set_part under value name
    obtain ⟨delta,mine⟩ := set_part under value slice
    rw [if_pos rfl,if_pos rfl,update] at mine
    rw [ran,kept]
    refine ⟨fun other => ?_,⟨?_,fun row => row.stateBytes+delta,?_⟩,?_⟩
    · rw [others,if_neg other,if_neg other]
    · rw [mine]
    · rw [mine]
    · rw [mine]
  | none =>
    cases life with
    | death => exact absurd rfl alive
    | birth => exact ⟨fun _ => rfl,.refl _,rfl⟩
    | normal =>
      have ran : st.applyEntry .normal (key,none) = st.del key := rfl
      obtain ⟨_,others⟩ := del_part under name
      obtain ⟨delta,mine⟩ := del_part under slice
      rw [if_pos rfl,if_pos rfl,update] at mine
      rw [ran]
      refine ⟨fun other => ?_,⟨?_,fun row => row.stateBytes+delta,?_⟩,?_⟩
      · rw [others,if_neg other,if_neg other]
      · rw [mine]
      · rw [mine]
      · rw [mine]
        rfl

theorem carried_cons (life : Lifecycle) (row : Key × Option Bytes) (rest : List (Key × Option Bytes)) :
    carried life (row :: rest) = carried life [row]++carried life rest := by
  cases life with
  | normal => rfl
  | death => rfl
  | birth => by_cases kept : row.2.isSome = true <;> simp [carried,kept]

theorem entries_part (alive : life ≠ .death) (entries : List (Key × Option Bytes)) (under : ∀ row ∈ entries, sliceOf row.1 = some slice)
    (st : Storage) (name : Name) : (slice ≠ name → (entries.foldl (applyEntry life) st).part name = st.part name) ∧
      Recharged (st.part slice) ((entries.foldl (applyEntry life) st).part slice) ∧
      ((entries.foldl (applyEntry life) st).part slice).keys = writes (carried life entries) (st.part slice).keys := by
  induction entries generalizing st with
  | nil =>
    refine ⟨fun _ => rfl,.refl _,?_⟩
    cases life <;> rfl
  | cons row rest ih =>
    obtain ⟨others,charged,keys⟩ := applyEntry_part life (under row List.mem_cons_self) alive st name
    obtain ⟨othersRest,chargedRest,keysRest⟩ := ih (fun r member => under r (List.mem_cons_of_mem _ member)) (st.applyEntry life row)
    refine ⟨fun other => (othersRest other).trans (others other),charged.trans chargedRest,?_⟩
    rw [List.foldl_cons,keysRest,keys,carried_cons life row rest]
    simp only [writes,List.foldl_append]

-- The store as an edit's operations leave it: a reset's keys are its sets alone.
theorem applies_part {t : Touched} (plain : '!' ∉ t.name) (named : t.name ≠ [])
    (under : ∀ row ∈ t.entries, sliceOf row.1 = some t.name) (st : Storage) (live : Bool) (life : Lifecycle) (name : Name) :
    (t.name ≠ name → (st.applies t live life).part name = st.part name) ∧
      Recharged (st.part t.name) ((st.applies t live life).part t.name) ∧
      ((st.applies t live life).part t.name).keys =
        writes (carried life t.entries) (if live = true ∧ life ≠ .normal then fun _ => none else (st.part t.name).keys) := by
  have cleared : ∃ cleared : Storage, cleared = (if live ∧ life ≠ .normal then st.delPrefix (slicePrefix t.name) else st) ∧
      (t.name ≠ name → cleared.part name = st.part name) ∧ Recharged (st.part t.name) (cleared.part t.name) ∧
      (cleared.part t.name).keys = if live = true ∧ life ≠ .normal then fun _ => none else (st.part t.name).keys := by
    refine ⟨_,rfl,?_⟩
    by_cases reset : live = true ∧ life ≠ .normal
    · rw [if_pos reset,if_pos reset]
      have mine : (st.delPrefix (slicePrefix t.name)).part t.name = _ := delPrefix_part plain named t.name
      rw [if_pos rfl,if_pos rfl] at mine
      refine ⟨fun other => ?_,⟨by rw [mine],fun _ => 0,by rw [mine]⟩,by rw [mine]⟩
      rw [delPrefix_part plain named,if_neg other,if_neg other]
    · rw [if_neg reset,if_neg reset]
      exact ⟨fun _ => rfl,.refl _,rfl⟩
  obtain ⟨cleared,same,others,charged,keys⟩ := cleared
  unfold applies
  dsimp only
  rw [← same,← keys]
  by_cases dead : life = .death
  · subst dead
    exact ⟨others,charged,rfl⟩
  · rw [if_neg dead]
    obtain ⟨othersRest,chargedRest,keysRest⟩ := entries_part dead t.entries under cleared name
    exact ⟨fun other => (othersRest other).trans (others other),charged.trans chargedRest,keysRest⟩

-- The edit as it is logged.
def editRow (t : Touched) (life : Lifecycle) (seq pos id : Nat) (servertime : Int) : LogRow :=
  ⟨pos,t.name,seq,life,encodeEdit pos t.name seq id servertime life t.entries⟩

theorem append_ok {row : LogRow} (fresh : ∀ r ∈ st.log, r.slice = row.slice → r.position ≠ row.position) :
    st.append row = .ok {st with log:=st.log++[row]} := by
  unfold append
  rw [if_neg]
  rw [List.any_eq_true]
  rintro ⟨r,member,equal⟩
  have equal : r.position = row.position ∧ r.slice = row.slice := by simpa using equal
  exact fresh r member equal.2 equal.1

theorem logs_ok {t : Touched} {row : SliceRow} (held : (st.part t.name).row = some row)
    (fresh : ∀ r ∈ (st.part t.name).rows, r.position ≠ pos) (life : Lifecycle) (id : Nat) (servertime : Int) :
    ∃ after, st.logs t life row.seq pos id servertime = .ok (after,editRow t life (row.seq+1) pos id servertime) ∧
      (∀ name, t.name ≠ name → after.part name = st.part name) ∧
      after.part t.name = ⟨(st.part t.name).rows++[editRow t life (row.seq+1) pos id servertime],(st.part t.name).keys,
        some {row with
          seq:=row.seq+1
          pos
          editBytes:=row.editBytes+encodedLen (editRow t life (row.seq+1) pos id servertime).edit}⟩ ∧
      after.log = st.log++[editRow t life (row.seq+1) pos id servertime] ∧ after.series = st.series := by
  let edit := encodeEdit pos t.name (row.seq+1) id servertime life t.entries
  have held : st.slices.get t.name = some row := held
  obtain ⟨⟨next,seq⟩,ran⟩ : ∃ done, st.sliceNextSeq t.name (encodedLen edit) pos = .ok done := by
    simp only [sliceNextSeq,held,Except.ok.injEq,exists_eq']
  obtain ⟨same,rowHeld,seqs,parts⟩ := sliceNextSeq_part ran
  rw [held] at rowHeld
  cases rowHeld
  have log : next.log = st.log ∧ next.series = st.series := by
    rw [sliceNextSeq,held] at ran
    cases ran
    exact ⟨rfl,rfl⟩
  have appended : next.append (editRow t life (row.seq+1) pos id servertime) =
      .ok {next with log:=next.log++[editRow t life (row.seq+1) pos id servertime]} := by
    refine append_ok fun r member mine => ?_
    rw [log.1] at member
    exact fresh r (List.mem_filter.mpr ⟨member,decide_eq_true mine⟩)
  refine ⟨{next with log:=next.log++[editRow t life (row.seq+1) pos id servertime]},?_,fun name other => ?_,?_,by rw [log.1],log.2⟩
  · unfold logs
    dsimp only
    rw [show st.sliceNextSeq t.name (encodedLen edit) pos = .ok (next,seq) from ran]
    simp only [bind,Except.bind,seqs,ne_eq,not_true_eq_false,if_false]
    rw [show next.append ⟨pos,t.name,row.seq+1,life,edit⟩ = _ from appended]
    rfl
  · rw [append_part appended,parts]
    exact (if_neg other).trans (if_neg other)
  · rw [append_part appended,parts,if_pos rfl]
    exact if_pos rfl

end Storage

def Part.seq (p : Part) : Nat := (p.row.map SliceRow.seq).getD 0
def Part.live (p : Part) : Bool := p.row.any (·.death = none)
def Part.editBytes (p : Part) : Int := (p.row.map SliceRow.editBytes).getD 0

theorem sliceState_part (st : Storage) (name : Name) : st.sliceState name = ((st.part name).seq,(st.part name).live) := by
  unfold Storage.sliceState Part.seq Part.live Storage.part
  cases st.slices.get name <;> rfl

-- The edit a slice's part of a mutation is, over what the slice was.
def Touched.edit (t : Touched) (before : Part) (pos id : Nat) (servertime : Int) : LogRow :=
  Storage.editRow t (t.life before.live) (before.seq+1) pos id servertime

-- The position a mutation's next edit has.
def Committing.next (c : Committing) : Nat := if c.at_ = 0 then c.position+1 else c.at_

-- An unborn or deleted slice that gains no key.
def Touched.idle (t : Touched) (live : Bool) : Prop := live = false ∧ (t.life live = .death ∨ t.sets = false)

instance (t : Touched) (live : Bool) : Decidable (t.idle live) := inferInstanceAs (Decidable (_ ∧ _))

-- What an edit at a position makes of its slice.
structure Edited (before : Part) (t : Touched) (pos : Nat) (edit : LogRow) (after : Part) : Prop where
  rows : after.rows = t.keeps pos before.rows++[edit]
  keys : after.keys = writes (carried edit.lifecycle t.entries)
    (if before.live = true ∧ edit.lifecycle ≠ .normal then fun _ => none else before.keys)
  held : ∃ birth bytes, after.row = some ⟨birth,if edit.lifecycle = .death then some pos else none,before.seq+1,pos,
    (if t.del = some true then Storage.editLen (t.keeps pos before.rows) else before.editBytes)+encodedLen edit.edit,bytes⟩

-- What one slice's edit makes of the store and the mutation.
structure Edits (c : Committing) (t : Touched) (edit : LogRow) (after : Committing) : Prop where
  part : Edited (c.store.part t.name) t c.next edit (after.store.part t.name)
  others : ∀ name, t.name ≠ name → after.store.part name = c.store.part name
  log : after.store.log = (if t.del = some true then c.store.log.filter (fun row => ¬(row.slice = t.name ∧ row.position < c.next))
    else c.store.log)++[edit]
  series : after.store.series = c.store.series
  position : after.position = if c.at_ = 0 then c.next else c.position
  at_ : after.at_ = c.next
  items : after.items = c.items++[edit]
  touches : after.touches = c.touches++touchesOf t (c.store.part t.name).live edit.lifecycle

theorem keeps_mem {t : Touched} (member : row ∈ t.keeps pos rows) : row ∈ rows := by
  unfold Touched.keeps at member
  split at member
  · exact (List.mem_filter.mp member).1
  · exact member

-- A slice that is live, or is born, has a row once the edit has entered it.
theorem entered_row {p : Part} {life : Lifecycle} (t : Touched) (pos : Nat) (unborn : p.live = true ∨ life = .birth) :
    ∃ row, (p.entered t life pos).row = some row ∧ row.seq = p.seq ∧ row.death = (if life = .death then some pos else none) ∧
      row.editBytes = if t.del = some true then Storage.editLen (t.keeps pos p.rows) else p.editBytes := by
  have pick : ∀ row, life.enters pos p.row = some row → row.seq = p.seq → row.editBytes = p.editBytes →
      row.death = (if life = .death then some pos else none) →
      ∃ row, (p.entered t life pos).row = some row ∧ row.seq = p.seq ∧ row.death = (if life = .death then some pos else none) ∧
        row.editBytes = if t.del = some true then Storage.editLen (t.keeps pos p.rows) else p.editBytes := by
    intro row entered seq bytes death
    unfold Part.entered
    rw [entered]
    by_cases erase : t.del = some true
    · exact ⟨_,rfl,by simpa [erase] using seq,by simpa [erase] using death,by simp [erase]⟩
    · exact ⟨_,rfl,by simpa [erase] using seq,by simpa [erase] using death,by simpa [erase] using bytes⟩
  cases held : p.row with
  | none =>
    have born : life = .birth := by
      rcases unborn with live | born
      · simp [Part.live,held] at live
      · exact born
    subst born
    exact pick ⟨pos,none,0,0,0,0⟩ (by rw [held]; rfl) (by simp [Part.seq,held]) (by simp [Part.editBytes,held]) rfl
  | some row =>
    have alive : life = .birth ∨ row.death = none := by
      rcases unborn with live | born
      · exact .inr (by simpa [Part.live,held] using live)
      · exact .inl born
    cases life with
    | birth =>
      exact pick {row with birth:=pos,death:=none} (by rw [held]; rfl) (by simp [Part.seq,held]) (by simp [Part.editBytes,held]) rfl
    | normal =>
      rcases alive with born | alive
      · cases born
      · exact pick row (by rw [held]; rfl) (by simp [Part.seq,held]) (by simp [Part.editBytes,held]) alive
    | death =>
      rcases alive with born | alive
      · cases born
      · exact pick {row with death:=some pos} (by rw [held]; simp [Lifecycle.enters,alive]) (by simp [Part.seq,held])
          (by simp [Part.editBytes,held]) rfl

-- One slice's part of a mutation never fails, at a position the slice has no edit at.
theorem commitSlice_ok {t : Touched} (plain : '!' ∉ t.name) (named : t.name ≠ []) (under : ∀ row ∈ t.entries, sliceOf row.1 = some t.name)
    (id : Nat) (servertime : Int) (c : Committing) (fresh : ∀ r ∈ (c.store.part t.name).rows, r.position ≠ c.next) :
    (t.idle (c.store.part t.name).live → commitSlice id servertime c t = .ok c) ∧
    (¬t.idle (c.store.part t.name).live → ∃ after, commitSlice id servertime c t = .ok after ∧
      Edits c t (t.edit (c.store.part t.name) c.next id servertime) after) := by
  have check : (!(c.store.part t.name).live && (decide (t.life (c.store.part t.name).live = .death) || !t.sets)) = true ↔
      t.idle (c.store.part t.name).live := by
    unfold Touched.idle
    simp
  refine ⟨fun idle => ?_,fun edits => ?_⟩
  · unfold commitSlice
    rw [sliceState_part]
    dsimp only
    rw [if_pos (by simpa using check.mpr idle)]
  · have unborn : (c.store.part t.name).live = true ∨ t.life (c.store.part t.name).live = .birth := by
      cases live : (c.store.part t.name).live with
      | true => exact .inl rfl
      | false =>
        rw [live] at edits
        refine .inr ?_
        unfold Touched.idle Touched.life at edits
        unfold Touched.life
        cases t.del with
        | none => rfl
        | some erase => by_cases sets : t.sets = true <;> simp_all
    unfold Touched.edit
    generalize lived : t.life (c.store.part t.name).live = life at *
    obtain ⟨row,held,seqs,death,bytes⟩ := entered_row t c.next unborn
    have mine := Storage.enters_part c.store t life c.next t.name
    rw [if_pos rfl] at mine
    have applied := Storage.applies_part plain named under (c.store.enters t life c.next) (c.store.part t.name).live life
    obtain ⟨_,⟨rows,state,charged⟩,keys⟩ := applied t.name
    rw [mine] at rows charged keys
    rw [held] at charged
    have apart : ∀ r ∈ (((c.store.enters t life c.next).applies t (c.store.part t.name).live life).part t.name).rows,
        r.position ≠ c.next := by
      intro r member
      rw [rows] at member
      exact fresh r (keeps_mem member)
    obtain ⟨store,logged,others,part,log,series⟩ := Storage.logs_ok charged apart life id servertime
    rw [seqs] at logged part log
    have frame := Storage.applies_frame (c.store.enters t life c.next) t (c.store.part t.name).live life
    refine ⟨⟨store,if c.at_ = 0 then c.position+1 else c.position,c.next,
      c.items++[Storage.editRow t life ((c.store.part t.name).seq+1) c.next id servertime],
      c.touches++touchesOf t (c.store.part t.name).live life⟩,?_,?_⟩
    · unfold commitSlice
      rw [sliceState_part]
      dsimp only
      rw [lived,if_neg (by simpa using check.not.mpr edits)]
      have next : (if c.at_ = 0 then if c.at_ = 0 then c.position+1 else c.position else c.at_) = c.next := by
        unfold Committing.next
        split <;> rfl
      rw [next,logged]
      rfl
    · refine ⟨⟨?_,?_,row.birth,state row,?_⟩,fun name other => ?_,?_,?_,?_,rfl,rfl,rfl⟩
      · rw [part,rows]
        rfl
      · rw [part,keys]
        rfl
      · rw [part,show (Storage.editRow t life ((c.store.part t.name).seq+1) c.next id servertime).lifecycle = life from rfl,
          ← death,← bytes]
      · rw [others name other,(applied name).1 other,Storage.enters_part,if_neg other]
      · rw [log,frame.1,Storage.enters_log]
      · rw [series,frame.2,Storage.enters_series]
      · unfold Committing.next
        split <;> rfl

-- The edits of a mutation over the slices it has gone through.
structure Through (id : Nat) (servertime : Int) (store : Storage) (position : Nat) (ts : List Touched) (c : Committing) : Prop where
  edited : ∀ t ∈ ts, ¬t.idle (store.part t.name).live →
    t.edit (store.part t.name) (position+1) id servertime ∈ c.items ∧
    Edited (store.part t.name) t (position+1) (t.edit (store.part t.name) (position+1) id servertime) (c.store.part t.name)
  idle : ∀ t ∈ ts, t.idle (store.part t.name).live → c.store.part t.name = store.part t.name
  others : ∀ name, name ∉ ts.map Touched.name → c.store.part name = store.part name
  items : ∀ edit ∈ c.items, ∃ t ∈ ts, ¬t.idle (store.part t.name).live ∧
    edit = t.edit (store.part t.name) (position+1) id servertime
  names : (c.items.map LogRow.slice).Sublist (ts.map Touched.name)
  log : ∃ kept, kept.Sublist store.log ∧ c.store.log = kept++c.items
  series : c.store.series = store.series
  at_ : c.at_ = if c.items = [] then 0 else position+1
  position : c.position = if c.items = [] then position else position+1

theorem through_step {store : Storage} {t : Touched} {id : Nat} (plain : '!' ∉ t.name) (named : t.name ≠ [])
    (under : ∀ row ∈ t.entries, sliceOf row.1 = some t.name) (behind : ∀ row ∈ store.log, row.position ≤ position)
    (new : t.name ∉ ts.map Touched.name) (through : Through id servertime store position ts c) :
    ∃ after, commitSlice id servertime c t = .ok after ∧ Through id servertime store position (ts++[t]) after := by
  have next : c.next = position+1 := by
    unfold Committing.next
    rw [through.at_,through.position]
    by_cases none : c.items = []
    · simp [none]
    · simp [none]
  have part := through.others t.name new
  have fresh : ∀ r ∈ (c.store.part t.name).rows, r.position ≠ c.next := by
    intro r member
    rw [part] at member
    have below := behind r (List.mem_filter.mp member).1
    omega
  obtain ⟨idles,edits⟩ := commitSlice_ok plain named under id servertime c fresh
  rw [part,next] at edits
  rw [part] at idles
  by_cases idle : t.idle (store.part t.name).live
  · refine ⟨c,idles idle,?_,?_,?_,?_,?_,through.log,through.series,through.at_,through.position⟩
    · intro u member edits
      rcases List.mem_append.mp member with old | single
      · exact through.edited u old edits
      · rw [List.mem_singleton.mp single] at edits
        exact absurd idle edits
    · intro u member quiet
      rcases List.mem_append.mp member with old | single
      · exact through.idle u old quiet
      · rw [List.mem_singleton.mp single]
        exact part
    · intro name absent
      rw [List.map_append,List.mem_append,not_or] at absent
      exact through.others name absent.1
    · intro edit member
      obtain ⟨u,inside,equal⟩ := through.items edit member
      exact ⟨u,List.mem_append_left _ inside,equal⟩
    · rw [List.map_append]
      exact through.names.trans (List.sublist_append_left ..)
  · obtain ⟨after,ran,done⟩ := edits idle
    have mine := done.part
    rw [part,next] at mine
    have names : after.items.map LogRow.slice = c.items.map LogRow.slice++[t.name] := by
      rw [done.items,List.map_append]
      rfl
    have some : after.items ≠ [] := by simp [done.items]
    refine ⟨after,ran,?_,?_,?_,?_,?_,?_,done.series.trans through.series,?_,?_⟩
    · intro u member edits
      rcases List.mem_append.mp member with old | single
      · obtain ⟨listed,edited⟩ := through.edited u old edits
        have other : t.name ≠ u.name := fun same => new (same ▸ List.mem_map_of_mem old)
        rw [done.items,done.others u.name other]
        exact ⟨List.mem_append_left _ listed,edited⟩
      · rw [List.mem_singleton.mp single,done.items]
        exact ⟨List.mem_append_right _ (List.mem_singleton_self _),mine⟩
    · intro u member quiet
      rcases List.mem_append.mp member with old | single
      · have other : t.name ≠ u.name := fun same => new (same ▸ List.mem_map_of_mem old)
        rw [done.others u.name other]
        exact through.idle u old quiet
      · rw [List.mem_singleton.mp single] at quiet
        exact absurd quiet idle
    · intro name absent
      rw [List.map_append,List.mem_append,not_or] at absent
      have other : t.name ≠ name := fun same => absent.2 (by simp [same])
      rw [done.others name other]
      exact through.others name absent.1
    · intro edit member
      rw [done.items] at member
      rcases List.mem_append.mp member with old | single
      · obtain ⟨u,inside,equal⟩ := through.items edit old
        exact ⟨u,List.mem_append_left _ inside,equal⟩
      · rw [List.mem_singleton] at single
        exact ⟨t,List.mem_append_right _ (List.mem_singleton_self _),idle,single⟩
    · rw [names,List.map_append]
      exact through.names.append (List.Sublist.refl _)
    · -- an erasure's filter passes over the mutation's own edits, which are of other slices
      obtain ⟨kept,sub,log⟩ := through.log
      have items : c.items.filter (fun row => ¬(row.slice = t.name ∧ row.position < c.next)) = c.items := by
        rw [List.filter_eq_self]
        intro edit member
        have other : edit.slice ≠ t.name := fun same =>
          new (same ▸ through.names.subset (List.mem_map_of_mem member))
        simp [other]
      rw [done.log,done.items,log]
      by_cases erase : t.del = Option.some true
      · rw [if_pos erase,List.filter_append,items,List.append_assoc]
        exact ⟨_,List.filter_sublist.trans sub,rfl⟩
      · rw [if_neg erase,List.append_assoc]
        exact ⟨kept,sub,rfl⟩
    · rw [done.at_,next,if_neg some]
    · rw [done.position,next,if_neg some,through.position,through.at_]
      by_cases none : c.items = []
      · simp [none]
      · simp [none]

theorem through_all {store : Storage} {id : Nat} (behind : ∀ row ∈ store.log, row.position ≤ position)
    (good : ∀ t ∈ ts, '!' ∉ t.name ∧ t.name ≠ [] ∧ ∀ row ∈ t.entries, sliceOf row.1 = some t.name)
    (distinct : ((done++ts).map Touched.name).Nodup) (through : Through id servertime store position done c) :
    ∃ after, ts.foldlM (commitSlice id servertime) c = .ok after ∧ Through id servertime store position (done++ts) after := by
  induction ts generalizing done c with
  | nil => exact ⟨c,rfl,by simpa using through⟩
  | cons t rest ih =>
    have new : t.name ∉ done.map Touched.name := by
      rw [List.map_append,List.map_cons,List.nodup_append] at distinct
      exact fun member => distinct.2.2 _ member t.name List.mem_cons_self rfl
    obtain ⟨plain,named,under⟩ := good t List.mem_cons_self
    obtain ⟨middle,ran,stepped⟩ := through_step plain named under behind new through
    have shift : done++t :: rest = (done++[t])++rest := by simp
    rw [shift] at distinct ⊢
    obtain ⟨after,tail,final⟩ := ih (fun u member => good u (List.mem_cons_of_mem _ member)) distinct stepped
    exact ⟨after,foldlM_ok.mpr ⟨middle,ran,tail⟩,final⟩

theorem sliceNameOk_ne (ok : sliceNameOk name = true) : name ≠ [] := by
  rintro rfl
  simp [sliceNameOk,segment] at ok

theorem WriteBuffer.Ok.touched {wb : WriteBuffer} (ok : wb.Ok) {t : Touched} (member : t ∈ wb.touched) :
    sliceNameOk t.name = true ∧ ∀ row ∈ t.entries, sliceOf row.1 = some t.name := by
  obtain ⟨whole,some⟩ := (WriteBuffer.touched_parts ok).2 t |>.mp member
  have under : ∀ row ∈ t.entries, row ∈ wb.entries.scan ∧ sliceOf row.1 = Option.some t.name := by
    intro row inside
    rw [whole] at inside
    obtain ⟨held,mine⟩ := List.mem_filter.mp inside
    exact ⟨held,by simpa using mine⟩
  refine ⟨?_,fun row inside => (under row inside).2⟩
  rcases some with full | gone
  · obtain ⟨row,inside⟩ := List.exists_mem_of_ne_nil _ full
    obtain ⟨held,mine⟩ := under row inside
    obtain ⟨slice,owned,named⟩ := ok.keys row.1 row.2 ((OrderedMap.mem_scan _ _ _).mp held)
    rw [mine] at owned
    exact Option.some.inj owned ▸ named
  · obtain ⟨erase,held⟩ := Option.ne_none_iff_exists'.mp gone
    rw [whole] at held
    exact ok.slices t.name erase held

-- The slices a buffer's mutation edits: those it touched, unless they are not live and gain no key.
def WriteBuffer.edits (wb : WriteBuffer) (store : Storage) (name : Name) : Prop :=
  ((wb.part name).entries ≠ [] ∨ (wb.part name).del ≠ none) ∧ ¬(wb.part name).idle (store.part name).live

instance (wb : WriteBuffer) (store : Storage) (name : Name) : Decidable (wb.edits store name) := inferInstanceAs (Decidable (_ ∧ _))

-- A mutation's edit of a slice.
def WriteBuffer.edit (wb : WriteBuffer) (store : Storage) (position id : Nat) (servertime : Int) (name : Name) : LogRow :=
  (wb.part name).edit (store.part name) (position+1) id servertime

-- What a mutation makes of the store, slice by slice.
structure Mutated (id : Nat) (servertime : Int) (store : Storage) (position : Nat) (wb : WriteBuffer) (c : Committing) : Prop where
  ran : commitEdits id servertime store position wb = .ok c
  edited : ∀ name, wb.edits store name → wb.edit store position id servertime name ∈ c.items ∧
    Edited (store.part name) (wb.part name) (position+1) (wb.edit store position id servertime name) (c.store.part name)
  kept : ∀ name, ¬wb.edits store name → c.store.part name = store.part name
  items : ∀ edit ∈ c.items, wb.edits store edit.slice ∧ edit = wb.edit store position id servertime edit.slice
  named : ∀ edit ∈ c.items, sliceNameOk edit.slice = true
  distinct : (c.items.map LogRow.slice).Nodup
  log : ∃ kept, kept.Sublist store.log ∧ c.store.log = kept++c.items
  series : c.store.series = store.series
  position : c.position = if c.items = [] then position else position+1

-- A mutation's edits never fail, over a log at or below the head.
theorem commitEdits_ok {wb : WriteBuffer} (ok : wb.Ok) {store : Storage} (behind : ∀ row ∈ store.log, row.position ≤ position)
    (id : Nat) (servertime : Int) : ∃ c, commitEdits id servertime store position wb = .ok c ∧ Mutated id servertime store position wb c := by
  obtain ⟨distinct,touched⟩ := WriteBuffer.touched_parts ok
  have good : ∀ t ∈ wb.touched, '!' ∉ t.name ∧ t.name ≠ [] ∧ ∀ row ∈ t.entries, sliceOf row.1 = some t.name := fun t member =>
    ⟨(sliceNameOk_plain (ok.touched member).1).1,sliceNameOk_ne (ok.touched member).1,(ok.touched member).2⟩
  have start : Through id servertime store position [] {store,position} :=
    ⟨fun t member => (by cases member),fun t member => (by cases member),fun _ _ => rfl,fun edit member => (by cases member),
      List.Sublist.refl _,⟨store.log,List.Sublist.refl _,by simp⟩,rfl,rfl,rfl⟩
  obtain ⟨c,ran,through⟩ := through_all behind good (by simpa using distinct) start
  rw [List.nil_append] at through
  have member : ∀ {name}, wb.edits store name → wb.part name ∈ wb.touched := fun edits => (touched _).mpr ⟨rfl,edits.1⟩
  have own : ∀ t ∈ wb.touched, t = wb.part t.name := fun t inside => ((touched t).mp inside).1
  have items : ∀ edit ∈ c.items, edit.slice ∈ wb.touched.map Touched.name ∧ wb.edits store edit.slice ∧
      edit = wb.edit store position id servertime edit.slice := by
    intro edit listed
    obtain ⟨t,inside,busy,equal⟩ := through.items edit listed
    have slice : edit.slice = t.name := by rw [equal]; rfl
    rw [slice]
    refine ⟨List.mem_map_of_mem inside,⟨?_,?_⟩,?_⟩
    · rw [← own t inside]
      exact ((touched t).mp inside).2
    · rwa [← own t inside]
    · unfold WriteBuffer.edit
      rwa [← own t inside]
  refine ⟨c,ran,ran,fun name edits => ?_,fun name quiet => ?_,fun edit listed => (items edit listed).2,fun edit listed => ?_,
    distinct.sublist through.names,through.log,through.series,through.position⟩
  · exact through.edited _ (member edits) edits.2
  · by_cases listed : name ∈ wb.touched.map Touched.name
    · obtain ⟨t,inside,rfl⟩ := List.mem_map.mp listed
      refine through.idle t inside ?_
      by_contra busy
      refine quiet ⟨?_,?_⟩
      · rw [← own t inside]
        exact ((touched t).mp inside).2
      · rwa [← own t inside]
    · exact through.others name listed
  · obtain ⟨t,inside,same⟩ := List.mem_map.mp (items edit listed).1
    exact same ▸ (ok.touched inside).1

end PhaseLock
