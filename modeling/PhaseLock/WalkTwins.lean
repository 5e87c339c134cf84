import PhaseLock.WalkSteps

namespace PhaseLock
namespace Walk
open Mp Submits

-- The prepared fields whose passwords are hashed.
def hashable (il : List Intake) : List Intake := il.filter fun i => i.kind ≠ .mutationAuth

def authResult : List Event := [.beginObj 1,.key (utf8 "kind".toList),.str (utf8 "password".toList),.endObj]

-- Events with a hash for each hole, in order.
def filled : List Event → List Short → List Event
  | [],_ => []
  | .hole :: rest,hashes => .str (hashes.headD ⟨[],short_nil⟩).val :: filled rest hashes.tail
  | e :: rest,hashes => e :: filled rest hashes

def holesIn (events : List Event) : Nat := events.count .hole

theorem filled_append (a b : List Event) (hashes more : List Short) (size : hashes.length = holesIn a) :
    filled (a++b) (hashes++more) = filled a hashes++filled b more := by
  induction a generalizing hashes with
  | nil =>
    rw [List.eq_nil_of_length_eq_zero size]
    rfl
  | cons e a ih =>
    by_cases hole : e = .hole
    · subst hole
      cases hashes with
      | nil => simp [holesIn] at size
      | cons h hashes =>
        have rest := ih hashes (by simpa [holesIn] using size)
        simp only [List.cons_append,filled,List.headD_cons,List.tail_cons,rest]
    · have rest := ih hashes (by simpa [holesIn,hole] using size)
      cases e <;> first | (exact absurd rfl hole) | (simp only [List.cons_append,filled,rest])

theorem filled_none {events : List Event} (none : holesIn events = 0) (hashes : List Short) : filled events hashes = events := by
  induction events with
  | nil => rfl
  | cons e events ih =>
    have free : .hole ∉ e :: events := List.count_eq_zero.mp none
    have other : e ≠ .hole := fun is => free (by rw [is]; exact List.mem_cons_self)
    have rest := ih (List.count_eq_zero.mpr fun member => free (List.mem_cons_of_mem _ member))
    cases e <;> first | (exact absurd rfl other) | (simp only [filled,rest])

section
variable (holes results : Mode) (own : Bytes → Short)

-- What the two writes have for a prepared field: its proof's result, or a hole and its hash.
structure Answers (i : Intake) : Prop where
  auth : i.kind = .mutationAuth →
    (holes.resultFor i.key).bind Intake.written = some authResult ∧ (results.resultFor i.key).bind Intake.written = some authResult
  hash : i.kind ≠ .mutationAuth →
    (holes.resultFor i.key).bind Intake.written = some [.hole] ∧ (results.resultFor i.key).bind Intake.written = some [.str (own i.key).val]

-- What the check accepts both writes write, alike but for the holes.
def AgreeAt (top : Bool) (c s t : Step) : Prop :=
  ∀ out, c top = .ok out → (∀ i ∈ out.intakes, Answers holes results own i) →
    ∃ events, s top = .ok ⟨events,out.top,[]⟩ ∧ holesIn events = (hashable out.intakes).length ∧
      t top = .ok ⟨filled events ((hashable out.intakes).map fun i => own i.key),out.top,[]⟩

def Agree (c s t : Step) : Prop := ∀ top, AgreeAt holes results own top c s t

end

section
variable {holes results : Mode} {own : Bytes → Short}

theorem AgreeAt.cons {top : Bool} {c s t : Step} {cs ss ts : List Step} (first : AgreeAt holes results own top c s t)
    (others : ∀ out, c top = .ok out → AgreeAt holes results own out.top (each cs) (each ss) (each ts)) :
    AgreeAt holes results own top (each (c :: cs)) (each (s :: ss)) (each (t :: ts)) := by
  intro out ran answers
  obtain ⟨one,rest,ranOne,ranRest,rfl⟩ := each_cons.mp ran
  obtain ⟨events,wrote,count,told⟩ := first one ranOne fun i member => answers i (List.mem_append_left _ member)
  obtain ⟨events',wrote',count',told'⟩ := others one ranOne rest ranRest fun i member => answers i (List.mem_append_right _ member)
  refine ⟨events++events',each_cons.mpr ⟨_,_,wrote,wrote',rfl⟩,?_,each_cons.mpr ⟨_,_,told,told',?_⟩⟩
  · simp only [holesIn,hashable,List.count_append,List.filter_append,List.length_append] at count count' ⊢
    omega
  · simp only [hashable,List.filter_append,List.map_append,List.append_nil] at count ⊢
    rw [filled_append _ _ _ _ (by rw [List.length_map,count])]

theorem AgreeAt.nil (top : Bool) : AgreeAt holes results own top (each []) (each []) (each []) := by
  intro out ran _
  rw [each_nil] at ran
  subst ran
  exact ⟨[],rfl,rfl,rfl⟩

theorem Agree.all {α : Type} {l : List α} {c s t : α → Step} (each_ : ∀ x ∈ l, Agree holes results own (c x) (s x) (t x)) :
    Agree holes results own (each (l.map c)) (each (l.map s)) (each (l.map t)) := by
  induction l with
  | nil => exact fun top => .nil top
  | cons x l ih =>
    intro top
    exact .cons (each_ x List.mem_cons_self top) fun out _ => ih (fun y member => each_ y (List.mem_cons_of_mem _ member)) out.top

-- A part of a walk that meets no prepared field.
def Quiet (step : Step) : Prop := ∀ top out, step top = .ok out → out.intakes = [] ∧ holesIn out.events = 0

theorem Quiet.agree {step : Step} (quiet : Quiet step) : Agree holes results own step step step := by
  intro top out ran _
  obtain ⟨none,free⟩ := quiet top out ran
  have is : out = ⟨out.events,out.top,[]⟩ := by rw [← none]
  refine ⟨out.events,?_,?_,?_⟩
  · rw [ran,is]
  · rw [free,none]
    rfl
  · rw [filled_none free,ran,is]

theorem Quiet.emits {events : List Event} (free : holesIn events = 0) : Quiet (emit events) := by
  intro top out ran
  rw [emit_ok] at ran
  subst ran
  exact ⟨rfl,free⟩

theorem Quiet.stops (path : Path) (msg : Name) : Quiet (stop path msg) := by
  intro top out ran
  simp at ran

theorem Quiet.each {steps : List Step} (all : ∀ step ∈ steps, Quiet step) : Quiet (each steps) := by
  induction steps with
  | nil =>
    intro top out ran
    rw [each_nil] at ran
    subst ran
    exact ⟨rfl,rfl⟩
  | cons step steps ih =>
    intro top out ran
    obtain ⟨first,others,one,rest,rfl⟩ := each_cons.mp ran
    obtain ⟨none,free⟩ := all step List.mem_cons_self top first one
    obtain ⟨none',free'⟩ := ih (fun s member => all s (List.mem_cons_of_mem _ member)) _ others rest
    exact ⟨by simp [none,none'],by simp only [holesIn,List.count_append] at free free' ⊢; omega⟩

theorem scalar_quiet (path : Path) (v : Node) : Quiet (scalar path v) := by
  unfold scalar
  cases kind v with
  | date =>
    cases date v with
    | none => exact .stops _ _
    | some ms =>
      dsimp only
      split
      · exact .stops _ _
      · exact .emits rfl
  | arr | obj | invalid => exact .stops _ _
  | _ => exact .emits rfl

theorem items_quiet {path : Path} {inner : Nat → Path → Node → Step} {v : Node} (each_ : ∀ i path e, Quiet (inner i path e)) :
    Quiet (walkItems path inner v) := by
  refine .each fun step member => ?_
  simp only [List.mem_cons,List.not_mem_nil,or_false] at member
  rcases member with rfl | rfl | rfl
  · exact .emits rfl
  · refine .each fun step inside => ?_
    obtain ⟨i,_,rfl⟩ := List.mem_mapIdx.mp inside
    exact each_ _ _ _
  · exact .emits rfl

theorem entries_quiet {path : Path} {inner : Path → Node → Step} {v : Node} (each_ : ∀ path e, Quiet (inner path e)) :
    Quiet (walkEntries path inner v) := by
  refine .each fun step member => ?_
  simp only [List.mem_cons,List.not_mem_nil,or_false] at member
  rcases member with rfl | rfl | rfl
  · exact .emits rfl
  · refine .each fun step inside => ?_
    obtain ⟨entry,_,rfl⟩ := List.mem_map.mp inside
    unfold walkEntry
    cases entry.1.asStr with
    | none => exact .stops _ _
    | some k =>
      refine .each fun step here => ?_
      simp only [List.mem_cons,List.not_mem_nil,or_false] at here
      rcases here with rfl | rfl
      · exact .emits rfl
      · exact each_ _ _
  · exact .emits rfl

theorem passthrough_quiet (levels : Nat) (path : Path) (v : Node) : Quiet (passthrough levels path v) := by
  induction levels generalizing path v with
  | zero => exact .stops _ _
  | succ levels ih =>
    unfold passthrough
    split
    · exact items_quiet fun _ path e => ih path e
    · exact entries_quiet fun path e => ih path e
    · exact scalar_quiet path v

theorem items_agree {path : Path} {c s t : Nat → Path → Node → Step} {v : Node}
    (each_ : ∀ i path e, e ∈ elems v → Agree holes results own (c i path e) (s i path e) (t i path e)) :
    Agree holes results own (walkItems path c v) (walkItems path s v) (walkItems path t v) := by
  intro top
  unfold walkItems
  refine .cons (Quiet.agree (.emits rfl) top) fun out _ => .cons ?_ fun out _ => .cons (Quiet.agree (.emits rfl) _) fun out _ => .nil _
  simp only [List.mapIdx_eq_zipIdx_map]
  exact Agree.all (fun row member => each_ _ _ _ (List.fst_mem_of_mem_zipIdx member)) _

theorem entries_agree {path : Path} {c s t : Path → Node → Step} {v : Node}
    (each_ : ∀ path entry, entry ∈ entries v → Agree holes results own (c path entry.2) (s path entry.2) (t path entry.2)) :
    Agree holes results own (walkEntries path c v) (walkEntries path s v) (walkEntries path t v) := by
  intro top
  unfold walkEntries
  refine .cons (Quiet.agree (.emits rfl) top) fun out _ => .cons ?_ fun out _ => .cons (Quiet.agree (.emits rfl) _) fun out _ => .nil _
  refine Agree.all (fun entry member => ?_) _
  unfold walkEntry
  cases entry.1.asStr with
  | none => exact Quiet.agree (.stops _ _)
  | some k => exact fun top => .cons (Quiet.agree (.emits rfl) top) fun out _ => .cons (each_ _ entry member _) fun out _ => .nil _

end

-- The modes of a check, and of a write.
def checking (strict : Bool) : Mode := {strict,collects:=true}

def writing (strict : Bool) (results : List Intake) : Mode := {strict,results:=some results}

theorem checking_plain (strict : Bool) : (checking strict).Plain := by
  intro key events written
  cases written

section
variable {strict : Bool} {holes results : List Intake} {own : Bytes → Short} {sc : Schema}

theorem field_agree {levels : Nat} {c s t : Fin sc.count → Path → Node → Step} {copy : Path → Node → Step}
    {f : Field sc.count} {fv : Node} (spec : ∀ path, Spec levels (fun _ => True) (c f.ty path fv))
    (inner : ∀ path, Agree (writing strict holes) (writing strict results) own (c f.ty path fv) (s f.ty path fv) (t f.ty path fv))
    (top : Bool) (path : Path) :
    AgreeAt (writing strict holes) (writing strict results) own false (walkField (checking strict) sc c copy top path f fv)
      (walkField (writing strict holes) sc s copy top path f fv) (walkField (writing strict results) sc t copy top path f fv) := by
  unfold walkField
  refine .cons (Quiet.agree (.emits rfl) false) fun out one => .cons ?_ fun out _ => .nil _
  rw [emit_ok] at one
  subst one
  cases is : (if top then intakeOf (sc.nodes f.ty) else none) with
  | none => exact inner _ _
  | some kind =>
    have unanswered : ((checking strict).resultFor f.key).bind Intake.written = none := rfl
    simp only [unanswered]
    intro out ran answers
    obtain ⟨first,o,one,two,rfl⟩ := each_cons.mp ran
    cases one
    rw [each_last] at two
    obtain ⟨low,none⟩ := (spec _ false o two).2.below rfl
    have answer := answers ⟨kind,f.key,fv,Option.none,Option.none,false⟩ (List.mem_append_left _ (List.mem_singleton.mpr rfl))
    by_cases auth : kind = .mutationAuth
    · obtain ⟨one,two⟩ := answer.auth auth
      refine ⟨authResult,?_,?_,?_⟩
      · simp only [one,low]
        rfl
      · simp only [none,hashable,auth]
        rfl
      · simp only [two,low,none,hashable,auth]
        rfl
    · obtain ⟨one,two⟩ := answer.hash auth
      refine ⟨[.hole],?_,?_,?_⟩
      · simp only [one,low]
        rfl
      · simp [none,hashable,auth,holesIn,checking]
      · simp only [two,low,none]
        simp [hashable,auth,filled,checking]
        rfl

-- What a struct's field in a slot takes.
def slotStep {k : Nat} (found : List (Option Node)) (walk : Fin k → Node → Step) (i : Fin k) : Step :=
  match slot found i with
  | none => emit []
  | some fv => walk i fv

theorem struct_agree {levels : Nat} {c s t : Fin sc.count → Path → Node → Step} {copy : Path → Node → Step} {v : Node} (sized : v.Sized)
    (spec : ∀ ty path e, e.Sized → Spec (levels+2) (fun _ => True) (c ty path e)) (copied : ∀ path e, e.Sized → Spec (levels+2) (fun _ => True) (copy path e))
    (inner : ∀ ty path e, e.Sized → Agree (writing strict holes) (writing strict results) own (c ty path e) (s ty path e) (t ty path e))
    (path : Path) (fields : List (Field sc.count)) (disc : Option (Fin fields.length)) :
    Agree (writing strict holes) (writing strict results) own (walkStruct (checking strict) sc c copy path fields disc v)
      (walkStruct (writing strict holes) sc s copy path fields disc v) (walkStruct (writing strict results) sc t copy path fields disc v) := by
  intro top
  unfold walkStruct
  split
  · exact Quiet.agree (.stops _ _) top
  intro out ran answers
  obtain ⟨found,slotted,ran⟩ := bind_ok.mp ran
  obtain ⟨_,_,holds⟩ := slots_spec slotted (List.length_replicate) (fun entry member => member) (Holds.empty fields (entries v) _)
  have sizes := (entries_sized sized).2
  split at ran
  · simp [fail] at ran
  rename_i complete
  have steps : AgreeAt (writing strict holes) (writing strict results) own false
      (each [emit [.beginObj (found.countP Option.isSome)],
        each ((order fields disc).map (slotStep found fun i => walkField (checking strict) sc c copy top path fields[i])),
        emit [.endObj]])
      (each [emit [.beginObj (found.countP Option.isSome)],
        each ((order fields disc).map (slotStep found fun i => walkField (writing strict holes) sc s copy top path fields[i])),
        emit [.endObj]])
      (each [emit [.beginObj (found.countP Option.isSome)],
        each ((order fields disc).map (slotStep found fun i => walkField (writing strict results) sc t copy top path fields[i])),
        emit [.endObj]]) := by
    refine .cons (Quiet.agree (.emits rfl) false) fun out one => .cons ?_ fun out _ => .cons (Quiet.agree (.emits rfl) _) fun out _ => .nil _
    rw [emit_ok] at one
    subst one
    generalize order fields disc = is
    induction is with
    | nil => exact .nil _
    | cons i is ih =>
      simp only [List.map_cons,slotStep]
      cases held : slot found i with
      | none =>
        refine .cons (Quiet.agree (.emits rfl) false) fun out one => ?_
        rw [emit_ok] at one
        subst one
        exact ih
      | some fv =>
        obtain ⟨k,f,member,_⟩ := holds i fv held
        have size := (sizes _ member).2
        refine .cons (field_agree (fun path => spec _ path fv size) (fun path => inner _ path fv size) top path) fun out one => ?_
        have low := (field_spec (checking_plain strict) (fun path => spec _ path fv size) (fun path => copied path fv size)
          (fun _ _ _ => trivial) one).2.1
        rw [low]
        exact ih
  obtain ⟨events,wrote,count,told⟩ := steps out ran answers
  refine ⟨events,bind_ok.mpr ⟨found,slotted,?_⟩,count,bind_ok.mpr ⟨found,slotted,?_⟩⟩
  · rw [complete]
    exact wrote
  · rw [complete]
    exact told

-- A union's solution leads the three walks to one type.
theorem union_agree (path : Path) (sol : Sol sc.count) (v : Node) {c s t : Fin sc.count → Step}
    (inner : ∀ ty, Agree (writing strict holes) (writing strict results) own (c ty) (s ty) (t ty)) :
    Agree (writing strict holes) (writing strict results) own (solution path c sol v v) (solution path s sol v v) (solution path t sol v v) := by
  obtain ⟨r,leads⟩ := solution_leads path sol v v
  rw [leads,leads,leads]
  cases r with
  | inl ty => exact inner ty
  | inr msg => exact Quiet.agree (.stops _ _)

theorem value_agree (holes results : List Intake) (own : Bytes → Short) (levels : Nat) (ty : Fin sc.count) {v : Node} (sized : v.Sized) (path : Path) :
    Agree (writing strict holes) (writing strict results) own (value (checking strict) sc levels ty path v)
      (value (writing strict holes) sc levels ty path v) (value (writing strict results) sc levels ty path v) := by
  induction levels generalizing ty v path with
  | zero => exact Quiet.agree (.stops _ _)
  | succ levels ih =>
    have guarded : ∀ (cond : Prop) [Decidable cond] (what : String), Agree (writing strict holes) (writing strict results) own
        (if cond then expected path what v else scalar path v) (if cond then expected path what v else scalar path v)
        (if cond then expected path what v else scalar path v) := by
      intro cond _ what
      split
      · exact Quiet.agree (.stops _ _)
      · exact Quiet.agree (scalar_quiet path v)
    unfold value
    cases sc.nodes ty with
    | null => exact guarded _ _
    | str => exact guarded _ _
    | bool => exact guarded _ _
    | date => exact guarded _ _
    | int =>
      dsimp only
      split
      · exact Quiet.agree (.stops _ _)
      · exact Quiet.agree (.emits rfl)
    | json => exact Quiet.agree (passthrough_quiet _ path v)
    | lit l =>
      dsimp only
      unfold walkLit
      split
      · exact Quiet.agree (.stops _ _)
      · cases l with
        | int i => exact Quiet.agree (.emits rfl)
        | str s => exact Quiet.agree (scalar_quiet path v)
        | bool b => exact Quiet.agree (scalar_quiet path v)
    | struct fields disc =>
      exact struct_agree sized (fun ty path e size => value_spec (checking_plain strict) size path)
        (fun path e size => (passthrough_spec size path).mono (by omega) fun _ _ => trivial) (fun ty path e size => ih ty size path) path fields disc
    | record child =>
      dsimp only
      unfold walkRecord
      split
      · exact Quiet.agree (.stops _ _)
      · exact entries_agree fun path entry member => ih child ((entries_sized sized).2 entry member).2 path
    | array child =>
      dsimp only
      unfold walkArray
      split
      · exact Quiet.agree (.stops _ _)
      · exact items_agree fun _ path e member => ih child ((elems_sized sized).2 e member) path
    | tuple items =>
      dsimp only
      unfold walkTuple
      split
      · exact Quiet.agree (.stops _ _)
      split
      · exact Quiet.agree (.stops _ _)
      · refine items_agree fun i path e member => ?_
        cases items[i]? with
        | some ty => exact ih ty ((elems_sized sized).2 e member) path
        | none => exact Quiet.agree (.stops _ _)
    | union sol =>
      dsimp only
      exact union_agree path sol v fun ty => ih ty sized path
    | intake kind child => exact ih child sized path

end

end Walk
end PhaseLock
