import PhaseLock.Walk
import PhaseLock.ParsedSizes
import PhaseLock.PrepareSteps

namespace PhaseLock
namespace Walk
open Mp Submits

theorem each_cons {step : Step} {rest : List Step} {top : Bool} {out : Out} : each (step :: rest) top = .ok out ↔
    ∃ first others, step top = .ok first ∧ each rest first.top = .ok others ∧
      out = ⟨first.events++others.events,others.top,first.intakes++others.intakes⟩ := by
  show (step top >>= fun first => each rest first.top >>= fun others =>
    pure (⟨first.events++others.events,others.top,first.intakes++others.intakes⟩ : Out)) = .ok out ↔ _
  rw [bind_ok]
  constructor
  · rintro ⟨first,one,ran⟩
    obtain ⟨others,two,is⟩ := bind_ok.mp ran
    cases is
    exact ⟨first,others,one,two,rfl⟩
  · rintro ⟨first,others,one,two,rfl⟩
    exact ⟨first,one,bind_ok.mpr ⟨others,two,rfl⟩⟩

theorem each_nil {top : Bool} {out : Out} : each [] top = .ok out ↔ out = ⟨[],top,[]⟩ := by
  unfold each
  exact ⟨fun is => (by cases is; rfl),fun is => (by rw [is])⟩

theorem each_emit {events : List Event} {rest : List Step} {top : Bool} {out : Out} : each (emit events :: rest) top = .ok out ↔
    ∃ others, each rest top = .ok others ∧ out = ⟨events++others.events,others.top,others.intakes⟩ := by
  rw [each_cons]
  constructor
  · rintro ⟨first,others,one,two,rfl⟩
    cases one
    exact ⟨others,two,rfl⟩
  · rintro ⟨others,two,rfl⟩
    exact ⟨_,others,rfl,two,rfl⟩

theorem each_last {step : Step} {top : Bool} : each [step] top = step top := by
  cases ran : step top with
  | error why =>
    unfold each
    rw [ran]
    rfl
  | ok out =>
    rw [each_cons]
    exact ⟨out,⟨[],out.top,[]⟩,ran,rfl,by simp⟩

-- What stands between two events, and what follows one.
theorem between_ok {opening closing : Event} {step : Step} {top : Bool} {out : Out} :
    each [emit [opening],step,emit [closing]] top = .ok out ↔
      ∃ o, step top = .ok o ∧ out = ⟨opening :: (o.events++[closing]),o.top,o.intakes⟩ := by
  rw [each_emit]
  constructor
  · rintro ⟨others,ran,rfl⟩
    obtain ⟨o,last,one,two,rfl⟩ := each_cons.mp ran
    rw [each_last] at two
    cases two
    exact ⟨o,one,by simp⟩
  · rintro ⟨o,one,rfl⟩
    exact ⟨_,each_cons.mpr ⟨o,⟨[closing],o.top,[]⟩,one,each_last,rfl⟩,by simp⟩

theorem after_ok {event : Event} {step : Step} {top : Bool} {out : Out} : each [emit [event],step] top = .ok out ↔
    ∃ o, step top = .ok o ∧ out = ⟨event :: o.events,o.top,o.intakes⟩ := by
  rw [each_emit]
  simp only [each_last,List.singleton_append]

@[simp] theorem stop_ok {path : Path} {msg : Name} {top : Bool} {out : Out} : stop path msg top = .ok out ↔ False := by
  simp [stop,fail]

@[simp] theorem emit_ok {events : List Event} {top : Bool} {out : Out} : emit events top = .ok out ↔ out = ⟨events,top,[]⟩ :=
  ⟨fun is => (by cases is; rfl),fun is => (by rw [is]; rfl)⟩

-- A prepared field as a check collects it.
def Intake.Bare (i : Intake) : Prop := i.result = none ∧ i.resultKind = none ∧ i.hole = false

-- The prepared fields of one struct at most are collected, the first the walk meets.
structure Tops (top : Bool) (out : Out) : Prop where
  below : top = false → out.top = false ∧ out.intakes = []
  still : out.top = true → out.intakes = []
  distinct : (out.intakes.map Intake.key).Nodup
  bare : ∀ i ∈ out.intakes, i.Bare

theorem Tops.quiet (events : List Event) (top : Bool) : Tops top ⟨events,top,[]⟩ :=
  ⟨fun is => ⟨is,rfl⟩,fun _ => rfl,List.nodup_nil,fun i member => (by cases member)⟩

theorem Tops.join {top : Bool} {first others : Out} (a : Tops top first) (b : Tops first.top others) (events : List Event) :
    Tops top ⟨events,others.top,first.intakes++others.intakes⟩ := by
  refine ⟨fun low => ?_,fun high => ?_,?_,fun i member => (List.mem_append.mp member).elim (a.bare i) (b.bare i)⟩
  · obtain ⟨low,none⟩ := a.below low
    obtain ⟨low,also⟩ := b.below low
    exact ⟨low,by simp only [none,also,List.append_nil]⟩
  · have also := b.still high
    cases is : first.top with
    | true => simp only [a.still is,also,List.append_nil]
    | false => exact absurd (b.below is).1 (by simp [show others.top = true from high])
  · cases is : first.top with
    | true => simpa [a.still is] using b.distinct
    | false => simpa [(b.below is).2] using a.distinct

theorem Tops.same {top : Bool} {out : Out} (tops : Tops top out) (events : List Event) : Tops top ⟨events,out.top,out.intakes⟩ :=
  ⟨tops.below,tops.still,tops.distinct,tops.bare⟩

def bytesOf (events : List Event) : Bytes := events.flatMap Event.bytes

@[simp] theorem bytesOf_append (a b : List Event) : bytesOf (a++b) = bytesOf a++bytesOf b := List.flatMap_append
@[simp] theorem bytesOf_cons (e : Event) (rest : List Event) : bytesOf (e :: rest) = e.bytes++bytesOf rest := rfl
@[simp] theorem bytesOf_nil : bytesOf [] = [] := rfl

-- What a part of a walk writes is one value, nested no deeper than the levels, and good.
def Spec (levels : Nat) (good : Val → Prop) (step : Step) : Prop :=
  ∀ top out, step top = .ok out → (∃ w : Val, bytesOf out.events = w.write ∧ w.Fits levels ∧ good w) ∧ Tops top out

theorem Spec.mono {levels more : Nat} {good better : Val → Prop} {step : Step} (spec : Spec levels good step) (le : levels ≤ more)
    (weaker : ∀ w, good w → better w) : Spec more better step := by
  intro top out ran
  obtain ⟨⟨w,written,fits,is⟩,tops⟩ := spec top out ran
  exact ⟨⟨w,written,Fits_mono fits le,weaker w is⟩,tops⟩

theorem Spec.stops (levels : Nat) (good : Val → Prop) (path : Path) (msg : Name) : Spec levels good (stop path msg) := by
  intro top out ran
  simp at ran

theorem Spec.emits {levels : Nat} {good : Val → Prop} {e : Event} {w : Val} (bytes : e.bytes = w.write) (fits : w.Fits levels) (is : good w) :
    Spec levels good (emit [e]) := by
  intro top out ran
  rw [emit_ok] at ran
  subst ran
  exact ⟨⟨w,by simpa using bytes,fits,is⟩,Tops.quiet _ _⟩

theorem each_values {levels : Nat} {steps : List Step} (good : Nat → Val → Prop)
    (specs : ∀ i step, steps[i]? = some step → Spec levels (good i) step) {top : Bool} {out : Out} (ran : each steps top = .ok out) :
    (∃ ws, bytesOf out.events = Val.writes ws ∧ ws.length = steps.length ∧ (∀ w ∈ ws, w.Fits levels) ∧
      ∀ i w, ws[i]? = some w → good i w) ∧ Tops top out := by
  induction steps generalizing good top out with
  | nil =>
    rw [each_nil] at ran
    subst ran
    exact ⟨⟨[],rfl,rfl,fun w member => (by cases member),fun i w at_ => (by simp at at_)⟩,Tops.quiet _ _⟩
  | cons step steps ih =>
    obtain ⟨first,others,one,rest,rfl⟩ := each_cons.mp ran
    obtain ⟨⟨w,written,fits,is⟩,tops⟩ := specs 0 step rfl top first one
    obtain ⟨⟨ws,writtens,length,fitting,all⟩,tops'⟩ := ih (fun i => good (i+1)) (fun i s at_ => specs (i+1) s (by simpa using at_)) rest
    refine ⟨⟨w :: ws,by simp [written,writtens,Val.writes],by simp [length],fun x member => ?_,fun i x at_ => ?_⟩,tops.join tops' _⟩
    · rcases List.mem_cons.mp member with rfl | member
      · exact fits
      · exact fitting x member
    · cases i with
      | zero =>
        cases at_
        exact is
      | succ i => exact all i x (by simpa using at_)

-- What a value holds, given that the format can hold it.
theorem elems_sized {v : Node} (sized : v.Sized) : (elems v).length < 2^32 ∧ ∀ e ∈ elems v, e.Sized := by
  cases sized <;> simp_all [elems,Node.items]

theorem entries_sized {v : Node} (sized : v.Sized) : (entries v).length < 2^32 ∧ ∀ entry ∈ entries v, entry.1.Sized ∧ entry.2.Sized := by
  cases sized with
  | map few keys values => exact ⟨few,fun entry member => ⟨keys entry member,values entry member⟩⟩
  | _ => simp [entries,Node.entries]

theorem asStr_short {k : Node} (sized : k.Sized) {s : Bytes} (is : k.asStr = some s) : s.length < 2^32 := by
  cases sized <;> simp_all [Node.asStr]

theorem items_spec {levels : Nat} {inner : Nat → Path → Node → Step} (good : Nat → Node → Val → Prop) {v : Node} (sized : v.Sized)
    (each_ : ∀ i path e, (elems v)[i]? = some e → e.Sized → Spec levels (good i e) (inner i path e)) (path : Path) :
    Spec (levels+1) (fun w => ∃ ws, w = .array ws ∧ ws.length = (elems v).length ∧
      ∀ i e w, (elems v)[i]? = some e → ws[i]? = some w → good i e w) (walkItems path inner v) := by
  intro top out ran
  unfold walkItems at ran
  obtain ⟨o,within,rfl⟩ := between_ok.mp ran
  obtain ⟨few,sizes⟩ := elems_sized sized
  obtain ⟨⟨ws,written,length,fits,all⟩,tops⟩ := each_values (fun i w => ∀ e, (elems v)[i]? = some e → good i e w)
    (fun i step at_ => by
      rw [List.getElem?_mapIdx,Option.map_eq_some_iff] at at_
      obtain ⟨e,held,rfl⟩ := at_
      refine (each_ i _ e held (sizes e (List.mem_of_getElem? held))).mono (le_refl _) fun w is e' same => ?_
      rw [held] at same
      cases same
      exact is) within
  rw [List.length_mapIdx] at length
  refine ⟨⟨.array ws,?_,⟨by omega,fits⟩,ws,rfl,length,fun i e w held at_ => all i w at_ e held⟩,tops.same _⟩
  simp [Event.bytes,written,Val.write,length]

theorem entries_spec {levels : Nat} {inner : Path → Node → Step} (good : Node → Val → Prop) {v : Node} (sized : v.Sized)
    (each_ : ∀ path e, (∃ k, (k,e) ∈ entries v) → e.Sized → Spec (levels+1) (good e) (inner path e)) (path : Path) :
    Spec (levels+2) (fun w => ∃ rows, w = .map rows ∧
      List.Forall₂ (fun entry row => ∃ k, entry.1.asStr = some k ∧ row.1 = .str k ∧ good entry.2 row.2) (entries v) rows) (walkEntries path inner v) := by
  intro top out ran
  unfold walkEntries at ran
  obtain ⟨o,within,rfl⟩ := between_ok.mp ran
  obtain ⟨few,sizes⟩ := entries_sized sized
  clear sized
  have row : ∀ entry ∈ entries v, ∀ top out, walkEntry path inner entry top = .ok out →
      (∃ k w, bytesOf out.events = Mp.str k++w.write ∧ k.length < 2^32 ∧ w.Fits (levels+1) ∧ entry.1.asStr = some k ∧ good entry.2 w) ∧
        Tops top out := by
    intro entry member top out ran
    unfold walkEntry at ran
    cases is : entry.1.asStr with
    | none => simp [is] at ran
    | some k =>
      rw [is] at ran
      dsimp only at ran
      obtain ⟨o,within,rfl⟩ := after_ok.mp ran
      obtain ⟨⟨w,written,fits,held⟩,tops⟩ := each_ _ entry.2 ⟨entry.1,member⟩ (sizes entry member).2 top o within
      exact ⟨⟨k,w,by simp [Event.bytes,written],asStr_short (sizes entry member).1 is,fits,rfl,held⟩,tops.same _⟩
  have all : ∀ (list : List (Node × Node)), (∀ entry ∈ list, entry ∈ entries v) → ∀ top out, each (list.map (walkEntry path inner)) top = .ok out →
      (∃ rows, bytesOf out.events = Val.writeEntries rows ∧ (∀ row ∈ rows, row.1.Fits (levels+1) ∧ row.2.Fits (levels+1)) ∧
        List.Forall₂ (fun entry row => ∃ k, entry.1.asStr = some k ∧ row.1 = .str k ∧ good entry.2 row.2) list rows) ∧ Tops top out := by
    intro list inside
    induction list with
    | nil =>
      intro top out ran
      rw [List.map_nil,each_nil] at ran
      subst ran
      exact ⟨⟨[],rfl,fun row member => (by cases member),.nil⟩,Tops.quiet _ _⟩
    | cons entry list ih =>
      intro top out ran
      obtain ⟨first,others,one,rest,rfl⟩ := each_cons.mp ran
      obtain ⟨⟨k,w,written,short,fits,named,held⟩,tops⟩ := row entry (inside entry List.mem_cons_self) top first one
      obtain ⟨⟨rows',written',fits',all⟩,tops'⟩ := ih (fun e member => inside e (List.mem_cons_of_mem _ member)) _ _ rest
      refine ⟨⟨(.str k,w) :: rows',by simp [written,written',Val.writeEntries,Val.write],fun row member => ?_,.cons ⟨k,named,rfl,held⟩ all⟩,tops.join tops' _⟩
      rcases List.mem_cons.mp member with rfl | member
      · exact ⟨short,fits⟩
      · exact fits' row member
  obtain ⟨⟨rows,written,fits,held⟩,tops⟩ := all (entries v) (fun entry member => member) _ _ within
  have length := held.length_eq
  refine ⟨⟨.map rows,?_,⟨by omega,fits⟩,rows,rfl,held⟩,tops.same _⟩
  simp [Event.bytes,written,Val.write,length]

theorem widen_lt (bits : Nat) : widen bits < 2^64 := by
  have sign : bits/2^31%2*2^63 ≤ 2^63 := by omega
  have frac : bits%2^23 < 2^23 := Nat.mod_lt _ (by decide)
  have e : bits/2^23%2^8 < 256 := Nat.mod_lt _ (by decide)
  unfold widen
  dsimp only
  split
  · have rest : (if bits%2^23 = 0 then 0 else if bits%2^23 < 2^22 then bits%2^23*2^29+2^51 else bits%2^23*2^29) < 2^52 := by
      split
      · decide
      · split <;> omega
    omega
  · rename_i finite
    split
    · split
      · omega
      · rename_i some
        have log : (bits%2^23).log2 < 23 := (Nat.log2_lt some).mpr frac
        have low := Nat.log2_self_le some
        have high : bits%2^23 < 2^((bits%2^23).log2+1) := Nat.lt_log2_self
        generalize (bits%2^23).log2 = k at log low high ⊢
        have part : (bits%2^23-2^k)*2^(52-k) < 2^52 := by
          have less : bits%2^23-2^k < 2^k := by
            rw [Nat.pow_succ] at high
            omega
          have whole : 2^k*2^(52-k) = 2^52 := by rw [← Nat.pow_add]; congr 1; omega
          rw [← whole]
          exact Nat.mul_lt_mul_of_pos_right less (Nat.two_pow_pos _)
        omega
    · omega

theorem whole_bounds {bits : Nat} {i : Int} (is : whole bits = some i) : -2^53 < i ∧ i < 2^53 := by
  unfold whole at is
  dsimp only at is
  have part : bits%2^52 < 2^52 := Nat.mod_lt _ (by decide)
  have most : bits%2^52+(if bits/2^52%2^11 = 0 then 0 else 2^52) < 2^53 := by split <;> omega
  have less := lt_of_le_of_lt (Nat.div_le_self _ (2^(1075-max (bits/2^52%2^11) 1))) most
  generalize (bits%2^52+(if bits/2^52%2^11 = 0 then 0 else 2^52))/2^(1075-max (bits/2^52%2^11) 1) = n at is less
  split_ifs at is <;> cases is <;> omega

theorem int_bounds {v : Node} (sized : v.Sized) (is : kind v = .int) : -2^63 ≤ int v ∧ int v < 2^63 := by
  cases sized with
  | int low high => exact ⟨low,high⟩
  | @uint n small =>
    have below : n < 2^63 := by
      by_contra large
      rw [kind,if_pos (Nat.le_of_not_lt large)] at is
      cases is
    simp only [int]
    omega
  | ext => simp only [kind] at is; split at is <;> cases is
  | _ => cases is

theorem float_lt {v : Node} (sized : v.Sized) : float v < 2^64 := by
  cases sized with
  | f32 => exact widen_lt _
  | f64 small => exact small
  | _ => exact (by decide : 0 < 2^64)

theorem str_short {v : Node} (sized : v.Sized) : (str v).length < 2^32 := by
  cases sized with
  | str short => exact short
  | _ => exact (by decide : 0 < 2^32)

theorem integral_bounds {v : Node} (sized : v.Sized) {i : Int} (is : integral v = some i) : -2^63 ≤ i ∧ i < 2^63 := by
  unfold integral at is
  split at is
  · rename_i kinded
    cases is
    exact int_bounds sized kinded
  · have bounds := whole_bounds is
    omega
  · cases is

-- A scalar as a writer is told it.
def plain (v : Node) : Val :=
  match kind v with
  | .bool => .bool (boolean v)
  | .int => .int (int v)
  | .float => .double (float v)
  | .str => .str (str v)
  | .date => .timestamp ((date v).getD 0/1000) ((date v).getD 0%1000*1000000).toNat
  | _ => .nil

-- A value that is no container, and that a writer can be told.
def Scalar (v : Node) : Prop :=
  kind v ≠ .arr ∧ kind v ≠ .obj ∧ kind v ≠ .invalid ∧ (kind v = .date → ∃ ms, date v = some ms ∧ -dateMaxMs ≤ ms ∧ ms ≤ dateMaxMs)

theorem scalar_spec {v : Node} (sized : v.Sized) (levels : Nat) (path : Path) :
    Spec (levels+1) (fun w => w = plain v ∧ Scalar v) (scalar path v) := by
  unfold scalar
  cases is : kind v with
  | null => exact .emits (w:=.nil) rfl trivial ⟨by simp [plain,is],by simp [Scalar,is]⟩
  | bool => exact .emits (w:=.bool _) rfl trivial ⟨by simp [plain,is],by simp [Scalar,is]⟩
  | int =>
    obtain ⟨low,high⟩ := int_bounds sized is
    exact .emits (w:=.int _) rfl ⟨low,by omega⟩ ⟨by simp [plain,is],by simp [Scalar,is]⟩
  | float => exact .emits (w:=.double _) rfl (float_lt sized) ⟨by simp [plain,is],by simp [Scalar,is]⟩
  | str => exact .emits (w:=.str _) rfl (str_short sized) ⟨by simp [plain,is],by simp [Scalar,is]⟩
  | date =>
    cases dated : date v with
    | none => exact .stops _ _ _ _
    | some ms =>
      dsimp only
      split
      · exact .stops _ _ _ _
      · have near : -dateMaxMs ≤ ms ∧ ms ≤ dateMaxMs := by omega
        exact .emits (w:=.timestamp _ _) rfl trivial ⟨by simp [plain,is,dated],by simp [Scalar,is,dated,near]⟩
  | _ => exact .stops _ _ _ _

theorem passthrough_spec {levels : Nat} {v : Node} (sized : v.Sized) (path : Path) :
    Spec (levels+1) (fun _ => True) (passthrough levels path v) := by
  induction levels generalizing v path with
  | zero => exact .stops _ _ _ _
  | succ levels ih =>
    unfold passthrough
    split
    · exact (items_spec (fun _ _ _ => True) sized (fun i path e _ size => ih size path) path).mono (le_refl _) fun _ _ => trivial
    · exact (entries_spec (fun _ _ => True) sized (fun path e _ size => ih size path) path).mono (le_refl _) fun _ _ => trivial
    · exact (scalar_spec sized (levels+1) path).mono (le_refl _) fun _ _ => trivial

-- Where a solution leads does not depend on the walk of the value matched.
mutual
theorem solution_leads {n : Nat} (path : Path) : ∀ (sol : Sol n) (obj subj : Node),
    ∃ r : Fin n ⊕ Name, ∀ found : Fin n → Step, solution path found sol obj subj = r.elim found (stop path)
  | .found ty,_,_ => ⟨.inl ty,fun _ => rfl⟩
  | .jsonType opts,obj,subj => json_leads path (jsontype subj) opts obj subj (fun _ => none) (.inl fun _ => rfl)
  | .literal opts,obj,subj => lit_leads path opts obj subj
  | .length opts dflt,obj,subj => by
    by_cases array : kind subj = .arr
    · obtain ⟨r,is⟩ := len_leads path (elems subj).length opts obj subj _ (other_leads path dflt obj subj)
      exact ⟨r,fun found => by
        rw [solution,if_neg (by simpa using array)]
        exact is found⟩
    · exact ⟨.inr _,fun found => by rw [solution,if_pos array]; rfl⟩
  | .index i sub,obj,subj => by
    cases at_ : (elems subj)[i]? with
    | none => exact ⟨.inr _,fun found => by rw [solution,at_]; rfl⟩
    | some e =>
      obtain ⟨r,is⟩ := solution_leads path sub e e
      exact ⟨r,fun found => by rw [solution,at_]; exact is found⟩
  | .field key sub,obj,subj => by
    cases held : findField obj key with
    | none => exact ⟨.inr _,fun found => by rw [solution,held]; rfl⟩
    | some fv =>
      obtain ⟨r,is⟩ := solution_leads path sub obj fv
      exact ⟨r,fun found => by rw [solution,held]; exact is found⟩
  | .hasField opts,obj,_ => field_leads path opts obj

theorem json_leads {n : Nat} (path : Path) (jt : Jt) : ∀ (opts : List (Jt × Sol n)) (obj subj : Node)
    (any : (Fin n → Step) → Option Step), ((∀ found, any found = none) ∨ ∃ r : Fin n ⊕ Name, ∀ found, any found = some (r.elim found (stop path))) →
    ∃ r : Fin n ⊕ Name, ∀ found : Fin n → Step, jsonOption path found jt opts (any found) obj subj = r.elim found (stop path)
  | [],_,subj,any,known => by
    rcases known with none | ⟨r,is⟩
    · exact ⟨.inr _,fun found => by rw [jsonOption,none]; rfl⟩
    · exact ⟨r,fun found => by rw [jsonOption,is]; rfl⟩
  | (k,sol) :: rest,obj,subj,any,known => by
    by_cases same : k = jt
    · obtain ⟨r,is⟩ := solution_leads path sol obj subj
      exact ⟨r,fun found => by rw [jsonOption,if_pos same]; exact is found⟩
    · have known' : (∀ found, (if k = .any then some (solution path found sol obj subj) else any found) = none) ∨
          ∃ r : Fin n ⊕ Name, ∀ found, (if k = .any then some (solution path found sol obj subj) else any found) = some (r.elim found (stop path)) := by
        by_cases wild : k = .any
        · obtain ⟨r,is⟩ := solution_leads path sol obj subj
          exact .inr ⟨r,fun found => by rw [if_pos wild,is]⟩
        · simpa only [if_neg wild] using known
      obtain ⟨r,is⟩ := json_leads path jt rest obj subj _ known'
      exact ⟨r,fun found => by rw [jsonOption,if_neg same]; exact is found⟩

theorem lit_leads {n : Nat} (path : Path) : ∀ (opts : List (Lit × Sol n)) (obj subj : Node),
    ∃ r : Fin n ⊕ Name, ∀ found : Fin n → Step, litOption path found opts obj subj = r.elim found (stop path)
  | [],_,subj => by
    by_cases text : kind subj = .str
    · exact ⟨.inr _,fun found => by rw [litOption,if_pos text]; rfl⟩
    · exact ⟨.inr _,fun found => by rw [litOption,if_neg text]; rfl⟩
  | (l,sol) :: rest,obj,subj => by
    by_cases same : matchesLit subj l = true
    · obtain ⟨r,is⟩ := solution_leads path sol obj subj
      exact ⟨r,fun found => by rw [litOption,if_pos same]; exact is found⟩
    · obtain ⟨r,is⟩ := lit_leads path rest obj subj
      exact ⟨r,fun found => by rw [litOption,if_neg same]; exact is found⟩

theorem len_leads {n : Nat} (path : Path) (len : Nat) : ∀ (opts : List (Nat × Sol n)) (obj subj : Node) (dflt : (Fin n → Step) → Step),
    (∃ r : Fin n ⊕ Name, ∀ found, dflt found = r.elim found (stop path)) →
    ∃ r : Fin n ⊕ Name, ∀ found : Fin n → Step, lenOption path found len opts (dflt found) obj subj = r.elim found (stop path)
  | [],_,_,dflt,⟨r,is⟩ => ⟨r,fun found => by rw [lenOption,is]⟩
  | (l,sol) :: rest,obj,subj,dflt,known => by
    by_cases same : l = len
    · obtain ⟨r,is⟩ := solution_leads path sol obj subj
      exact ⟨r,fun found => by rw [lenOption,if_pos same]; exact is found⟩
    · obtain ⟨r,is⟩ := len_leads path len rest obj subj dflt known
      exact ⟨r,fun found => by rw [lenOption,if_neg same]; exact is found⟩

theorem other_leads {n : Nat} (path : Path) : ∀ (dflt : Option (Sol n)) (obj subj : Node),
    ∃ r : Fin n ⊕ Name, ∀ found : Fin n → Step, otherLength path found dflt obj subj = r.elim found (stop path)
  | some d,obj,subj => solution_leads path d obj subj
  | none,_,_ => ⟨.inr _,fun _ => rfl⟩

theorem field_leads {n : Nat} (path : Path) : ∀ (opts : List (Bytes × Sol n)) (obj : Node),
    ∃ r : Fin n ⊕ Name, ∀ found : Fin n → Step, fieldOption path found opts obj = r.elim found (stop path)
  | [],_ => ⟨.inr _,fun _ => rfl⟩
  | (key,sol) :: rest,obj => by
    by_cases held : (findField obj key).isSome = true
    · obtain ⟨r,is⟩ := solution_leads path sol obj obj
      exact ⟨r,fun found => by rw [fieldOption,if_pos held]; exact is found⟩
    · obtain ⟨r,is⟩ := field_leads path rest obj
      exact ⟨r,fun found => by rw [fieldOption,if_neg held]; exact is found⟩
end

-- What a struct's slots hold: a field's, the value of an entry under its key; of fields with one
-- key, the first's.
def Holds {n : Nat} (fields : List (Field n)) (all : List (Node × Node)) (found : List (Option Node)) : Prop :=
  ∀ i fv, found.getD i none = some fv → ∃ k f, (k,fv) ∈ all ∧ fields[i]? = some f ∧ k.asStr = some f.key ∧
    fields.findIdx? (·.key = f.key) = some i

theorem getD_set (found : List (Option Node)) (i j : Nat) (fv : Node) (inside : i < found.length) :
    (found.set i (some fv)).getD j none = if j = i then some fv else found.getD j none := by
  rw [List.getD_eq_getElem?_getD,List.getElem?_set,List.getD_eq_getElem?_getD]
  by_cases same : i = j
  · subst same
    simp [inside]
  · rw [if_neg same,if_neg (Ne.symm same)]

theorem slots_spec {n : Nat} {strict : Bool} {path : Path} {fields : List (Field n)} {all entries : List (Node × Node)}
    {found filled : List (Option Node)} (ran : slots strict path fields entries found = .ok filled) (size : found.length = fields.length)
    (inside : ∀ entry ∈ entries, entry ∈ all) (holds : Holds fields all found) :
    filled.length = fields.length ∧ filled.countP Option.isSome ≤ found.countP Option.isSome+entries.length ∧ Holds fields all filled := by
  induction entries generalizing found with
  | nil =>
    cases ran
    exact ⟨size,by simp,holds⟩
  | cons entry entries ih =>
    obtain ⟨k,fv⟩ := entry
    have later : ∀ e ∈ entries, e ∈ all := fun e member => inside e (List.mem_cons_of_mem _ member)
    unfold slots at ran
    split at ran
    · simp [fail] at ran
    · rename_i key named
      split at ran
      · split at ran
        · simp [fail] at ran
        · obtain ⟨length,count,held⟩ := ih ran size later holds
          exact ⟨length,by simp only [List.length_cons]; omega,held⟩
      · rename_i i at_
        obtain ⟨inRange,matched,_⟩ := List.findIdx?_eq_some_iff_getElem.mp at_
        have keyed : fields[i].key = key := by simpa using matched
        split at ran
        · simp [fail] at ran
        · rename_i free
          have bound : i < found.length := by omega
          have grows : (found.set i (some fv)).countP Option.isSome ≤ found.countP Option.isSome+1 := by
            have one := List.countP_set (p:=Option.isSome) (l:=found) (a:=some fv) bound
            rw [one]
            simp
          obtain ⟨length,count,held⟩ := ih ran (by rw [List.length_set,size]) later (fun j fv' here => by
            rw [getD_set _ _ _ _ bound] at here
            split at here
            · rename_i same
              cases here
              exact ⟨k,fields[i],inside _ List.mem_cons_self,by rw [same]; exact List.getElem?_eq_getElem inRange,by rw [named,keyed],
                by rw [keyed,same]; exact at_⟩
            · exact holds j fv' here)
          exact ⟨length,by simp only [List.length_cons]; omega,held⟩

theorem order_perm {n : Nat} (fields : List (Field n)) (disc : Option (Fin fields.length)) :
    (order fields disc).Perm (List.finRange fields.length) := by
  have all := List.nodup_finRange fields.length
  unfold order
  cases disc with
  | none => simp
  | some d =>
    refine (List.perm_ext_iff_of_nodup ?_ all).mpr fun i => ?_
    · exact List.nodup_cons.mpr ⟨by simp,all.filter _⟩
    · by_cases same : i = d <;> simp [same]

-- A table's rows, one a place of the list.
theorem finRange_getD {found : List (Option Node)} {n : Nat} (size : found.length = n) :
    (List.finRange n).map (fun i => slot found i) = found := by
  refine List.ext_getElem (by simp [size]) fun i low high => ?_
  simp [slot,List.getElem?_eq_getElem high]

theorem order_count {n : Nat} (fields : List (Field n)) (disc : Option (Fin fields.length)) {found : List (Option Node)}
    (size : found.length = fields.length) :
    ((order fields disc).filter fun i => (slot found i).isSome).length = found.countP Option.isSome := by
  have table := congrArg (List.countP Option.isSome) (finRange_getD size)
  rw [List.countP_map] at table
  rw [← List.countP_eq_length_filter,(order_perm fields disc).countP_eq,← table]
  rfl

-- A mode whose results a writer can be told.
def Mode.Plain (mode : Mode) : Prop :=
  ∀ key events, (mode.resultFor key).bind Intake.written = some events → ∃ w : Val, bytesOf events = w.write ∧ w.Fits 2

-- What a field writes: its key, and its value, or its result; and what it collects.
theorem field_spec {mode : Mode} (plain : mode.Plain) {sc : Schema} {levels : Nat} {value : Fin sc.count → Path → Node → Step}
    {copy : Path → Node → Step} {good : Val → Prop} {f : Field sc.count} {fv : Node}
    (inner : ∀ path, Spec (levels+2) good (value f.ty path fv)) (copied : ∀ path, Spec (levels+2) good (copy path fv))
    {top : Bool} (told : top = true → (mode.resultFor f.key).bind Intake.written ≠ none → ∀ w, good w)
    {path : Path} {out : Out} (ran : walkField mode sc value copy top path f fv false = .ok out) :
    (∃ w, bytesOf out.events = Mp.str f.key++w.write ∧ w.Fits (levels+2) ∧ good w) ∧ out.top = false ∧
      (out.intakes = [] ∨ top = true ∧ ∃ i, out.intakes = [i] ∧ i.key = f.key ∧ i.Bare) := by
  unfold walkField at ran
  obtain ⟨o,ran',rfl⟩ := after_ok.mp ran
  have walked : ∀ step : Step, Spec (levels+2) good step → ∀ o, step false = .ok o →
      (∃ w, bytesOf (.key f.key :: o.events) = Mp.str f.key++w.write ∧ w.Fits (levels+2) ∧ good w) ∧ o.top = false ∧ o.intakes = [] := by
    intro step spec o ran
    obtain ⟨⟨w,written,fits,is⟩,tops⟩ := spec false o ran
    exact ⟨⟨w,by simp [Event.bytes,written],fits,is⟩,tops.below rfl⟩
  cases is : (if top then intakeOf (sc.nodes f.ty) else none) with
  | none =>
    simp only [is] at ran'
    obtain ⟨made,low,none⟩ := walked _ (inner _) _ ran'
    exact ⟨made,low,.inl none⟩
  | some kind =>
    simp only [is] at ran'
    have high : top = true := by
      cases top
      · cases is
      · rfl
    obtain ⟨first,o,one,two,rfl⟩ := each_cons.mp ran'
    rw [each_last] at two
    cases one
    have made : (∃ w, bytesOf (.key f.key :: o.events) = Mp.str f.key++w.write ∧ w.Fits (levels+2) ∧ good w) ∧ o.top = false ∧ o.intakes = [] := by
      cases written : (mode.resultFor f.key).bind Intake.written with
      | some events =>
        simp only [written] at two
        obtain ⟨w,bytes,fits⟩ := plain _ _ written
        rw [emit_ok] at two
        subst two
        exact ⟨⟨w,by simp [Event.bytes,bytes],Fits_mono fits (by omega),told high (by simp [written]) w⟩,rfl,rfl⟩
      | none =>
        simp only [written] at two
        by_cases held : mode.prepared = true
        · rw [if_pos held] at two
          exact walked _ (copied _) _ two
        · rw [if_neg held] at two
          exact walked _ (inner _) _ two
    obtain ⟨made,low,none⟩ := made
    refine ⟨by simpa using made,low,?_⟩
    rw [none]
    dsimp only
    split
    · exact .inr ⟨high,_,rfl,rfl,rfl,rfl,rfl⟩
    · exact .inl rfl

-- What a struct's walk writes for its slots, in order: a key and a value for each that is held.
def RowsOf {n : Nat} (fields : List (Field n)) (found : List (Option Node)) (good : Fin fields.length → Node → Val → Prop)
    (is : List (Fin fields.length)) (rows : List (Val × Val)) : Prop :=
  List.Forall₂ (fun i row => ∃ fv, slot found i = some fv ∧ row.1 = .str fields[i].key ∧ good i fv row.2)
    (is.filter fun i => (slot found i).isSome) rows

theorem fields_spec {n : Nat} (levels : Nat) {fields : List (Field n)} {found : List (Option Node)} (top : Bool)
    (good : Fin fields.length → Node → Val → Prop) (step : Fin fields.length → Node → Step)
    (each_ : ∀ i fv, slot found i = some fv → ∀ out, step i fv false = .ok out →
      (∃ w, bytesOf out.events = Mp.str fields[i].key++w.write ∧ w.Fits levels ∧ good i fv w) ∧ out.top = false ∧
        (out.intakes = [] ∨ top = true ∧ ∃ intake, out.intakes = [intake] ∧ intake.key = fields[i].key ∧ intake.Bare))
    {is : List (Fin fields.length)} {out : Out} (ran : each (is.map fun i => match slot found i with
      | none => emit []
      | some fv => step i fv) false = .ok out) :
    (∃ rows, bytesOf out.events = Val.writeEntries rows ∧ RowsOf fields found (fun i fv w => w.Fits levels ∧ good i fv w) is rows) ∧
      out.top = false ∧ (top = false → out.intakes = []) ∧
      (out.intakes.map Intake.key).Sublist ((is.filter fun i => (slot found i).isSome).map fun i => fields[i].key) ∧
      ∀ i ∈ out.intakes, i.Bare := by
  induction is generalizing out with
  | nil =>
    rw [List.map_nil,each_nil] at ran
    subst ran
    exact ⟨⟨[],rfl,.nil⟩,rfl,fun _ => rfl,List.nil_sublist _,fun i member => (by cases member)⟩
  | cons i is ih =>
    rw [List.map_cons] at ran
    obtain ⟨first,others,one,rest,rfl⟩ := each_cons.mp ran
    cases held : slot found i with
    | none =>
      simp only [held,emit_ok] at one
      subst one
      have drop : ((i :: is).filter fun i => (slot found i).isSome) =
          is.filter fun i => (slot found i).isSome :=
        List.filter_cons_of_neg (by rw [held]; simp)
      obtain ⟨⟨rows,written,held'⟩,low,quiet,keys,bare⟩ := ih rest
      unfold RowsOf at held' ⊢
      rw [drop]
      exact ⟨⟨rows,by simpa using written,held'⟩,low,by simpa using quiet,by simpa using keys,by simpa using bare⟩
    | some fv =>
      simp only [held] at one
      have keep : ((i :: is).filter fun i => (slot found i).isSome) =
          i :: is.filter fun i => (slot found i).isSome :=
        List.filter_cons_of_pos (by rw [held]; rfl)
      obtain ⟨⟨w,written,fits,is_⟩,low,collected⟩ := each_ i fv held first one
      rw [low] at rest
      obtain ⟨⟨rows,written',held'⟩,low',quiet,keys,bare⟩ := ih rest
      unfold RowsOf at held' ⊢
      rw [keep]
      refine ⟨⟨(.str fields[i].key,w) :: rows,by simp [written,written',Val.writeEntries,Val.write],.cons ⟨fv,held,rfl,fits,is_⟩ held'⟩,low',?_,?_,?_⟩
      · intro down
        rcases collected with none | ⟨high,_⟩
        · simp [none,quiet down]
        · exact absurd high (by simp [down])
      · rw [List.map_cons,List.map_append]
        rcases collected with none | ⟨_,intake,one,keyed,_⟩
        · rw [none]
          exact keys.cons _
        · rw [one,List.map_singleton,keyed]
          exact keys.cons_cons _
      · intro i member
        rcases List.mem_append.mp member with member | member
        · rcases collected with none | ⟨_,intake,one,_,fresh⟩
          · rw [none] at member
            cases member
          · rw [one,List.mem_singleton] at member
            rw [member]
            exact fresh
        · exact bare i member

theorem right_member {α β : Type} {R : α → β → Prop} {xs : List α} {ys : List β} (both : List.Forall₂ R xs ys) {y : β} (member : y ∈ ys) :
    ∃ x ∈ xs, R x y := by
  induction both with
  | nil => cases member
  | cons one _ ih =>
    rcases List.mem_cons.mp member with rfl | member
    · exact ⟨_,List.mem_cons_self,one⟩
    · obtain ⟨x,inside,is⟩ := ih member
      exact ⟨x,List.mem_cons_of_mem _ inside,is⟩

theorem Holds.empty {n : Nat} (fields : List (Field n)) (all : List (Node × Node)) (size : Nat) :
    Holds fields all (List.replicate size none) := by
  intro i fv held
  rw [List.getD_eq_getElem?_getD,List.getElem?_replicate] at held
  split at held <;> cases held

-- Two slots that are held are under two keys.
theorem Holds.distinct {n : Nat} {fields : List (Field n)} {all : List (Node × Node)} {found : List (Option Node)} (holds : Holds fields all found)
    {i j : Fin fields.length} (one : (slot found i).isSome = true) (two : (slot found j).isSome = true)
    (same : fields[i].key = fields[j].key) : i = j := by
  obtain ⟨fv,held⟩ := Option.isSome_iff_exists.mp one
  obtain ⟨fw,held'⟩ := Option.isSome_iff_exists.mp two
  obtain ⟨_,f,_,is,_,first⟩ := holds i fv held
  obtain ⟨_,g,_,is',_,first'⟩ := holds j fw held'
  have isF : fields[i] = f := by simpa [List.getElem?_eq_getElem i.isLt] using is
  have isG : fields[j] = g := by simpa [List.getElem?_eq_getElem j.isLt] using is'
  rw [← isF,same] at first
  rw [← isG] at first'
  rw [first] at first'
  exact Fin.ext (by simpa using first')

theorem struct_spec {mode : Mode} (plain : mode.Plain) {sc : Schema} {levels : Nat} {value : Fin sc.count → Path → Node → Step}
    {copy : Path → Node → Step} (good : Fin sc.count → Node → Val → Prop) {v : Node} (sized : v.Sized)
    (inner : ∀ ty path e, e.Sized → Spec (levels+2) (good ty e) (value ty path e)) (copied : ∀ ty path e, e.Sized → Spec (levels+2) (good ty e) (copy path e))
    (told : ∀ key, (mode.resultFor key).bind Intake.written ≠ none → ∀ ty e w, good ty e w)
    (path : Path) (fields : List (Field sc.count)) (disc : Option (Fin fields.length)) :
    Spec (levels+3) (fun w => kind v = .obj ∧ ∃ found rows, w = .map rows ∧
      slots mode.strict path fields (entries v) (List.replicate fields.length none) = .ok found ∧
      (∀ row ∈ fields.zip found, row.2 = none → row.1.optional = true) ∧
      RowsOf fields found (fun i fv w => good (fields.get i).ty fv w) (order fields disc) rows) (walkStruct mode sc value copy path fields disc v) := by
  intro top out ran
  unfold walkStruct at ran
  split at ran
  · simp [expected] at ran
  rename_i object
  obtain ⟨found,filled,ran⟩ := bind_ok.mp ran
  have object : kind v = .obj := by simpa using object
  obtain ⟨few,sizes⟩ := entries_sized sized
  obtain ⟨length,count,holds⟩ := slots_spec filled (List.length_replicate) (fun entry member => member) (Holds.empty fields (entries v) _)
  have present : found.countP Option.isSome < 2^32 := by
    have zero : (List.replicate fields.length (none : Option Node)).countP Option.isSome = 0 := by simp [List.countP_replicate]
    omega
  split at ran
  · simp [fail] at ran
  rename_i complete
  obtain ⟨o,within,rfl⟩ := between_ok.mp ran
  obtain ⟨⟨rows,written,held⟩,low,quiet,keys,bare⟩ := fields_spec (levels+2) top (fun i fv w => good (fields.get i).ty fv w)
    (fun i fv => walkField mode sc value copy top path fields[i] fv) (fun i fv held out ran => by
      obtain ⟨k,f,member,_,_,_⟩ := holds i fv held
      have size := (sizes _ member).2
      exact field_spec plain (fun path => inner _ path fv size) (fun path => copied _ path fv size) (fun _ told' w => told _ told' _ _ w) ran) within
  have length' : rows.length = found.countP Option.isSome := by
    rw [← order_count fields disc length]
    exact held.length_eq.symm
  have fits : ∀ row ∈ rows, row.1.Fits (levels+2) ∧ row.2.Fits (levels+2) := by
    intro row member
    obtain ⟨i,_,fv,holding,keyed,fits,_⟩ := right_member held member
    obtain ⟨k,f,entry,is,named,_⟩ := holds i fv holding
    have isF : fields[i] = f := by simpa [List.getElem?_eq_getElem i.isLt] using is
    rw [keyed,isF]
    exact ⟨asStr_short (sizes _ entry).1 named,fits⟩
  refine ⟨⟨.map rows,by simp [Event.bytes,written,Val.write,length'],⟨by omega,fits⟩,object,found,rows,rfl,filled,?_,held.imp fun i row each_ => ?_⟩,
    ⟨fun down => ⟨low,quiet down⟩,fun high => absurd high (by simp [low]),?_,bare⟩⟩
  · intro row member absent
    have known := List.find?_eq_none.mp complete row member
    rw [absent] at known
    simpa using known
  · obtain ⟨fv,held,keyed,_,is⟩ := each_
    exact ⟨fv,held,keyed,is⟩
  · refine keys.nodup (List.Nodup.map_on (fun i one j two same => ?_) (((order_perm fields disc).nodup_iff.mpr (List.nodup_finRange _)).filter _))
    exact holds.distinct (List.mem_filter.mp one).2 (List.mem_filter.mp two).2 same

theorem lit_spec {l : Lit} {v : Node} (sized : v.Sized) (levels : Nat) (path : Path) : Spec (levels+1) (fun _ => True) (walkLit path l v) := by
  unfold walkLit
  split
  · exact .stops _ _ _ _
  · rename_i matched
    cases l with
    | int i =>
      have is : integral v = some i := by simpa [matchesLit] using matched
      obtain ⟨low,high⟩ := integral_bounds sized is
      exact .emits (w:=.int i) rfl ⟨low,by omega⟩ trivial
    | str s => exact (scalar_spec sized levels path).mono (le_refl _) fun _ _ => trivial
    | bool b => exact (scalar_spec sized levels path).mono (le_refl _) fun _ _ => trivial

-- Whatever a walk accepts it writes as one value, little deeper than it went.
theorem value_spec {mode : Mode} (plain : mode.Plain) {sc : Schema} {levels : Nat} {ty : Fin sc.count} {v : Node} (sized : v.Sized) (path : Path) :
    Spec (levels+2) (fun _ => True) (value mode sc levels ty path v) := by
  induction levels generalizing ty v path with
  | zero => exact .stops _ _ _ _
  | succ levels ih =>
    have scalars : Spec (levels+1+2) (fun _ => True) (scalar path v) := (scalar_spec sized (levels+2) path).mono (le_refl _) fun _ _ => trivial
    have guarded : ∀ (cond : Prop) [Decidable cond] (what : String),
        Spec (levels+1+2) (fun _ => True) (if cond then expected path what v else scalar path v) := by
      intro cond _ what
      split
      · exact .stops _ _ _ _
      · exact scalars
    unfold value
    cases sc.nodes ty with
    | null => exact guarded _ _
    | str => exact guarded _ _
    | bool => exact guarded _ _
    | date => exact guarded _ _
    | int =>
      dsimp only
      split
      · exact .stops _ _ _ _
      · rename_i i is
        obtain ⟨low,high⟩ := integral_bounds sized is
        exact .emits (w:=.int i) rfl ⟨low,by omega⟩ trivial
    | json => exact (passthrough_spec sized path).mono (by omega) fun _ _ => trivial
    | lit l => exact (lit_spec sized _ path).mono (le_refl _) fun _ _ => trivial
    | struct fields disc =>
      exact (struct_spec plain (fun _ _ _ => True) sized (fun ty path e size => ih size path)
        (fun _ path e size => (passthrough_spec size path).mono (by omega) fun _ _ => trivial) (fun _ _ _ _ _ => trivial) path fields disc).mono
        (le_refl _) fun _ _ => trivial
    | record child =>
      dsimp only
      unfold walkRecord
      split
      · exact .stops _ _ _ _
      · exact (entries_spec (fun _ _ => True) sized (fun path e _ size => ih size path) path).mono (le_refl _) fun _ _ => trivial
    | array child =>
      dsimp only
      unfold walkArray
      split
      · exact .stops _ _ _ _
      · exact (items_spec (fun _ _ _ => True) sized (fun i path e _ size => ih size path) path).mono (le_refl _) fun _ _ => trivial
    | tuple items =>
      dsimp only
      unfold walkTuple
      split
      · exact .stops _ _ _ _
      split
      · exact .stops _ _ _ _
      · refine (items_spec (fun _ _ _ => True) sized (fun i path e _ size => ?_) path).mono (le_refl _) fun _ _ => trivial
        cases items[i]? with
        | some ty => exact ih size path
        | none => exact .stops _ _ _ _
    | union sol =>
      obtain ⟨r,leads⟩ := solution_leads path sol v v
      dsimp only
      rw [leads]
      cases r with
      | inl ty => exact (ih sized path).mono (by omega) fun _ _ => trivial
      | inr msg => exact .stops _ _ _ _
    | intake kind child => exact (ih sized path).mono (by omega) fun _ _ => trivial

end Walk
end PhaseLock
