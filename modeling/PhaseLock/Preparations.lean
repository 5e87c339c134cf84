import PhaseLock.WalkTwins

namespace PhaseLock
namespace Walk
open Mp Submits

-- The pieces of what a write emits, a hash in each hole's place.
def pieces : List Event → List Short → List Piece
  | [],_ => []
  | .hole :: rest,hashes => .inr (hashes.headD ⟨[],short_nil⟩) :: pieces rest hashes.tail
  | e :: rest,hashes => .inl e.bytes :: pieces rest hashes

theorem full_pieces (events : List Event) (hashes : List Short) : full (pieces events hashes) = bytesOf (filled events hashes) := by
  induction events generalizing hashes with
  | nil => rfl
  | cons e events ih => cases e <;> simp only [pieces,filled,full_hash,full_bytes,bytesOf_cons,ih,Event.bytes]

theorem hashesOf_pieces {events : List Event} {hashes : List Short} (size : hashes.length = holesIn events) :
    hashesOf (pieces events hashes) = hashes := by
  induction events generalizing hashes with
  | nil => rw [List.eq_nil_of_length_eq_zero size]; rfl
  | cons e events ih =>
    by_cases hole : e = .hole
    · subst hole
      cases hashes with
      | nil => simp [holesIn] at size
      | cons h hashes => simp only [pieces,hashesOf_hash,List.headD_cons,List.tail_cons,ih (by simpa [holesIn] using size)]
    · have rest := @ih hashes (by simpa [holesIn,hole] using size)
      cases e <;> first | (exact absurd rfl hole) | (simpa only [pieces,hashesOf_bytes] using rest)

-- What the sink holds after a write, whatever the hashes will be.
theorem foldl_sink (events : List Event) (hashes : List Short) (w : HoleWriter) :
    events.foldl sink w = ⟨w.buf++bare (pieces events hashes),w.holes++cuts w.buf.length (pieces events hashes)⟩ := by
  induction events generalizing hashes w with
  | nil => simp [pieces,bare,cuts]
  | cons e events ih =>
    by_cases hole : e = .hole
    · subst hole
      rw [List.foldl_cons,ih hashes.tail]
      simp [sink,HoleWriter.hole,pieces,cuts]
    · rw [List.foldl_cons,ih hashes]
      cases e <;> first | (exact absurd rfl hole) | (simp [sink,HoleWriter.raw,pieces,cuts])

theorem find_key {il : List Intake} (distinct : (il.map Intake.key).Nodup) {i : Intake} (member : i ∈ il) :
    il.find? (·.key = i.key) = some i := by
  induction il with
  | nil => cases member
  | cons first il ih =>
    rw [List.map_cons,List.nodup_cons] at distinct
    rcases List.mem_cons.mp member with rfl | member
    · simp
    · have other : first.key ≠ i.key := fun same => distinct.1 (by rw [same]; exact List.mem_map_of_mem member)
      rw [List.find?_cons_of_neg (by simpa using other)]
      exact ih distinct.2 member

-- The results of a write that puts each password field's hash in its place.
def answeredBy (il : List Intake) (own : List (Intake × Short)) : List Intake :=
  (il.filter fun i => i.kind = .mutationAuth).map (fun i => {i with resultKind:=some (utf8 "password".toList)})++
    own.map fun o => {o.1 with result:=some o.2.val}

def hashOf (own : List (Intake × Short)) (key : Bytes) : Short := ((own.find? (·.1.key = key)).map (·.2)).getD ⟨[],short_nil⟩

theorem hashOf_own {own : List (Intake × Short)} (distinct : ((own.map (·.1)).map Intake.key).Nodup) {o : Intake × Short} (member : o ∈ own) :
    hashOf own o.1.key = o.2 := by
  have found : own.find? (·.1.key = o.1.key) = some o := by
    induction own with
    | nil => cases member
    | cons first own ih =>
      rw [List.map_cons,List.map_cons,List.nodup_cons] at distinct
      rcases List.mem_cons.mp member with rfl | member
      · simp
      · have other : first.1.key ≠ o.1.key := fun same => distinct.1 (by rw [same]; exact List.mem_map_of_mem (List.mem_map_of_mem member))
        rw [List.find?_cons_of_neg (by simpa using other)]
        exact ih distinct.2 member
  rw [hashOf,found]
  rfl

theorem hashOf_all {own : List (Intake × Short)} (distinct : ((own.map (·.1)).map Intake.key).Nodup) :
    (own.map (·.1)).map (fun i => hashOf own i.key) = own.map (·.2) := by
  rw [List.map_map]
  exact List.map_congr_left fun o member => hashOf_own distinct member

-- The results prepareMutation writes with: a hole for each field that is not a proof.
def holed (il : List Intake) : List Intake := il.map fun i =>
  if i.kind = .mutationAuth then {i with resultKind:=some (utf8 "password".toList)} else {i with hole:=true}

theorem resultFor_member (strict : Bool) {results : List Intake} (distinct : (results.map Intake.key).Nodup) {i : Intake} (member : i ∈ results) :
    (writing strict results).resultFor i.key = some i := find_key distinct member

-- The two writes have for each field of a check what it is: its keys are distinct.
theorem answers_all {strict : Bool} {il : List Intake} (distinct : (il.map Intake.key).Nodup) (bare : ∀ i ∈ il, i.Bare)
    {own : List (Intake × Short)} (owned : own.map (·.1) = hashable il) {i : Intake} (member : i ∈ il) :
    Answers (writing strict (holed il)) (writing strict (answeredBy il own)) (hashOf own) i := by
  obtain ⟨noResult,noKind,noHole⟩ := bare i member
  have keys : (holed il).map Intake.key = il.map Intake.key := by
    rw [holed,List.map_map]
    exact List.map_congr_left fun i _ => by simp only [Function.comp]; split <;> rfl
  have keys' : ((answeredBy il own).map Intake.key).Perm (il.map Intake.key) := by
    have parts : (answeredBy il own).map Intake.key =
        ((il.filter fun i => i.kind = .mutationAuth)++hashable il).map Intake.key := by
      rw [answeredBy,List.map_append,List.map_append,← owned]
      simp only [List.map_map]
      rfl
    have split := List.filter_append_perm (fun i : Intake => decide (i.kind = IntakeKind.mutationAuth)) il
    have rest : hashable il = il.filter fun i : Intake => !decide (i.kind = IntakeKind.mutationAuth) := by simp [hashable]
    rw [parts,rest]
    exact split.map _
  have ownDistinct : ((own.map (·.1)).map Intake.key).Nodup := by
    rw [owned]
    exact distinct.sublist (List.filter_sublist.map _)
  constructor
  · intro auth
    have holding : {i with resultKind:=some (utf8 "password".toList)} ∈ holed il := List.mem_map.mpr ⟨i,member,if_pos auth⟩
    have one := resultFor_member strict (keys.symm ▸ distinct) holding
    have told : {i with resultKind:=some (utf8 "password".toList)} ∈ answeredBy il own :=
      List.mem_append_left _ (List.mem_map.mpr ⟨i,List.mem_filter.mpr ⟨member,by simpa using auth⟩,rfl⟩)
    have two := resultFor_member strict (keys'.nodup_iff.mpr distinct) told
    dsimp only at one two
    rw [one,two]
    simp [Intake.written,noHole,noResult,authResult]
  · intro other
    have holding : {i with hole:=true} ∈ holed il := List.mem_map.mpr ⟨i,member,if_neg other⟩
    have one := resultFor_member strict (keys.symm ▸ distinct) holding
    have here : i ∈ own.map (·.1) := by
      rw [owned]
      exact List.mem_filter.mpr ⟨member,by simpa using other⟩
    obtain ⟨o,held,rfl⟩ := List.mem_map.mp here
    have told : {o.1 with result:=some o.2.val} ∈ answeredBy il own := List.mem_append_right _ (List.mem_map.mpr ⟨o,held,rfl⟩)
    have two := resultFor_member strict (keys'.nodup_iff.mpr distinct) told
    dsimp only at one two
    rw [one,two,hashOf_own ownDistinct held]
    simp [Intake.written,noHole]

-- The prepared fields of a mutation's data, as the check collects them.
def fieldsOf (sc : Schema) (items : List Node) : Except Name (List Intake) :=
  match sc.mutations with
  | none => .error "this database takes no mutations".toList
  | some mutations => check sc (items.getD 3 .nil) mutations true

-- A mutation's encoding, each of its password fields as the hash beside it.
def encoding (digest : Digest) (sc : Schema) (items : List Node) (own : List (Intake × Short)) : Except Name Bytes :=
  match sc.mutations with
  | none => .error "this database takes no mutations".toList
  | some mutations => do
    let il ← fieldsOf sc items
    let events ← write sc (items.getD 3 .nil) mutations true (some (answeredBy il own))
    return Mp.array (if 4 < items.length then 5 else 4)++headOf digest items++(bytesOf events++((items[4]?).map expectOf).getD [])

-- A password field's password.
def passwordText (i : Intake) : Name := fromUtf8Lossy ((i.node.asStr).getD [])

theorem mapM_passwords {il : List Intake} {passwords : List Name} (ran : il.mapM (fun i => passwordOf i.kind.name i.node) = .ok passwords) :
    passwords = il.map passwordText := by
  induction il generalizing passwords with
  | nil => cases ran; rfl
  | cons i il ih =>
    rw [List.mapM_cons] at ran
    obtain ⟨password,one,ran⟩ := bind_ok.mp ran
    obtain ⟨others,rest,ran⟩ := bind_ok.mp ran
    cases ran
    unfold passwordOf at one
    split at one
    · cases one
    · cases one
      rw [ih rest]
      rfl

theorem answered_plain {strict : Bool} {il : List Intake} (bare : ∀ i ∈ il, i.Bare) {own : List (Intake × Short)} (owned : own.map (·.1) = hashable il) :
    (writing strict (answeredBy il own)).Plain := by
  intro key events written
  obtain ⟨i,found,written⟩ := Option.bind_eq_some_iff.mp written
  have member : i ∈ answeredBy il own := List.mem_of_find?_eq_some found
  rcases List.mem_append.mp member with member | member
  · obtain ⟨j,held,rfl⟩ := List.mem_map.mp member
    obtain ⟨noResult,_,noHole⟩ := bare j (List.mem_filter.mp held).1
    simp [Intake.written,noHole,noResult] at written
    subst written
    refine ⟨.map [(.str (utf8 "kind".toList),.str (utf8 "password".toList))],by simp [Event.bytes,Val.write,Val.writeEntries],by decide,fun row inside => ?_⟩
    rw [List.mem_singleton] at inside
    subst inside
    exact ⟨by show _ < _; decide +kernel,by show _ < _; decide +kernel⟩
  · obtain ⟨o,held,rfl⟩ := List.mem_map.mp member
    have here : o.1 ∈ hashable il := by
      rw [← owned]
      exact List.mem_map_of_mem held
    obtain ⟨_,_,noHole⟩ := bare o.1 (List.mem_filter.mp here).1
    simp [Intake.written,noHole] at written
    subst written
    exact ⟨.str o.2.val,by simp [Event.bytes,Val.write],o.2.property⟩

-- A value that submits a mutation the check passed, whatever its data.
def Poses (digest : Digest) (items : List Node) (w : Val) : Prop :=
  Asks items ∧ (items[4]?).bind expectReason = none ∧ ∃ data, w = submittedAs digest items data

-- What a mutation that passes was prepared as: pieces, a hole for each password field.
theorem prepareMutation_pieces {digest : Digest} {sc : Schema} {items : List Node} {m : PreparedMutation} (asks : Asks items)
    (sized : (items.getD 3 .nil).Sized) (ok : prepareMutation digest sc items = .ok m) :
    ∃ il, fieldsOf sc items = .ok il ∧ (il.map Intake.key).Nodup ∧ m.passwords = (hashable il).map passwordText ∧
      ∀ own : List (Intake × Short), own.map (·.1) = hashable il → ∃ ps, m.buf = bare ps ∧ m.holes = cuts 0 ps ∧
        hashesOf ps = own.map (·.2) ∧ encoding digest sc items own = .ok (full ps) ∧
        ∃ w : Val, full ps = w.write ∧ w.Fits (maxParseDepth+1) ∧ Poses digest items w := by
  unfold prepareMutation at ok
  cases takes : sc.mutations with
  | none =>
    rw [takes] at ok
    cases ok
  | some mutations =>
    rw [takes] at ok
    obtain ⟨il,checked,ok⟩ := bind_ok.mp ok
    cases expects : (items[4]?).bind expectReason with
    | some why =>
      rw [expects] at ok
      cases ok
    | none =>
      rw [expects] at ok
      obtain ⟨proofs,_,ok⟩ := bind_ok.mp ok
      obtain ⟨passwords,hashing,ok⟩ := bind_ok.mp ok
      obtain ⟨events,wrote,ok⟩ := bind_ok.mp ok
      cases ok
      obtain ⟨out,ran,is⟩ := bind_ok.mp checked
      cases is
      obtain ⟨o,ranHoles,is⟩ := bind_ok.mp wrote
      cases is
      have tops := (value_spec (checking_plain true) sized _ true out ran).2
      refine ⟨out.intakes,by rw [fieldsOf,takes]; exact checked,tops.distinct,mapM_passwords hashing,fun own owned => ?_⟩
      have ownDistinct : ((own.map (·.1)).map Intake.key).Nodup := by
        rw [owned]
        exact tops.distinct.sublist (List.filter_sublist.map _)
      obtain ⟨events,wrote',count,told⟩ := value_agree (holed out.intakes) (answeredBy out.intakes own) (hashOf own) maxDepth mutations sized ⟨[],0⟩
        true out ran fun i member => answers_all tops.distinct tops.bare owned member
      rw [← owned,hashOf_all ownDistinct] at told
      have same : o = ⟨events,out.top,[]⟩ := Except.ok.inj (ranHoles.symm.trans wrote')
      subst same
      have size : (own.map (·.2)).length = holesIn events := by
        rw [count,← owned,List.length_map,List.length_map]
      obtain ⟨⟨w,written,fits,_⟩,_⟩ := value_spec (answered_plain tops.bare owned) sized _ true _ told
      let head := Mp.array (if 4 < items.length then 5 else 4)++headOf digest items
      let tail := ((items[4]?).map expectOf).getD []
      have whole : full (.inl head :: (pieces events (own.map (·.2))++[.inl tail])) = head++(bytesOf (filled events (own.map (·.2)))++tail) := by
        rw [full_bytes,full_append,full_pieces]
        simp [full]
      refine ⟨.inl head :: (pieces events (own.map (·.2))++[.inl tail]),?_,?_,?_,?_,submittedAs digest items w,?_,
        submittedAs_fits asks digest expects (Fits_mono fits (by decide)),asks,expects,w,rfl⟩
      · rw [foldl_sink events (own.map (·.2))]
        simp [bare,head,tail]
      · rw [foldl_sink events (own.map (·.2))]
        simp [cuts,cuts_append,head]
      · simp [hashesOf_pieces size]
      · unfold encoding
        rw [takes]
        dsimp only
        refine bind_ok.mpr ⟨out.intakes,by rw [fieldsOf,takes]; exact checked,bind_ok.mpr ⟨_,bind_ok.mpr ⟨_,told,rfl⟩,?_⟩⟩
        rw [whole]
        rfl
      · rw [whole,submittedAs_write asks,written]

-- Why a mutation is rejected, or none when it passes.
def reasonOf (digest : Digest) (sc : Schema) (items : List Node) : Option Name :=
  match prepareMutation digest sc items with
  | .ok _ => none
  | .error why => some why

def passes (digest : Digest) (sc : Schema) (items : List Node) : Bool := (reasonOf digest sc items).isNone

-- A mutation that passed: its password fields, each with a hash, and its encoding with them.
structure Passing (digest : Digest) (sc : Schema) where
  items : List Node
  own : List (Intake × Short)
  bytes : Bytes
  fields : ∃ il, fieldsOf sc items = .ok il ∧ (il.map Intake.key).Nodup ∧ own.map (·.1) = hashable il
  encoded : encoding digest sc items own = .ok bytes

def preparedFrom (digest : Digest) (sc : Schema) (p : Prepared) (mutations : List (List Node)) : Prepared :=
  mutations.foldl (fun p items => p.push (prepareMutation digest sc items)) p

theorem preparedFrom_grows (digest : Digest) (sc : Schema) (p : Prepared) (mutations : List (List Node)) :
    p.passwords.length ≤ (preparedFrom digest sc p mutations).passwords.length := by
  induction mutations generalizing p with
  | nil => exact le_refl _
  | cons items rest ih => exact (push_grows p _).trans (ih _)

theorem preparedFrom_reasons (digest : Digest) (sc : Schema) (p : Prepared) (mutations : List (List Node)) :
    (preparedFrom digest sc p mutations).reasons = p.reasons++mutations.map (reasonOf digest sc) := by
  induction mutations generalizing p with
  | nil => simp [preparedFrom]
  | cons items rest ih =>
    have step : preparedFrom digest sc p (items :: rest) = preparedFrom digest sc (p.push (prepareMutation digest sc items)) rest := rfl
    rw [step,ih,List.map_cons,reasonOf]
    cases prepareMutation digest sc items <;> simp [Prepared.push]

-- The passwords of each mutation that passes, to prove its sender by.
def proofsOf (digest : Digest) (sc : Schema) (mutations : List (List Node)) : List (List Name) :=
  mutations.filterMap fun items => match prepareMutation digest sc items with
    | .ok m => some m.proofs
    | .error _ => none

theorem preparedFrom_proofs (digest : Digest) (sc : Schema) (p : Prepared) (mutations : List (List Node)) :
    (preparedFrom digest sc p mutations).proofs = p.proofs++proofsOf digest sc mutations := by
  induction mutations generalizing p with
  | nil => simp [preparedFrom,proofsOf]
  | cons items rest ih =>
    have step : preparedFrom digest sc p (items :: rest) = preparedFrom digest sc (p.push (prepareMutation digest sc items)) rest := rfl
    rw [step,ih]
    cases made : prepareMutation digest sc items <;> simp [Prepared.push,proofsOf,made]

-- A list as long as another, in pairs with it.
theorem paired {α β : Type} {xs : List α} {ys : List β} (size : xs.length = ys.length) : (xs.zip ys).map (·.1) = xs ∧ (xs.zip ys).map (·.2) = ys :=
  ⟨List.map_fst_zip (by omega),List.map_snd_zip (by omega)⟩

theorem preparedFrom_laid (digest : Digest) (sc : Schema) {p : Prepared} {all : List (List Piece)} (laid : Laid p all)
    {mutations : List (List Node)} (asks : ∀ items ∈ mutations, Asks items ∧ (items.getD 3 .nil).Sized) (hashes : List Short)
    (enough : p.passwords.length+hashes.length = (preparedFrom digest sc p mutations).passwords.length) :
    ∃ (passing : List (Passing digest sc)) (more : List (List Piece)) (values : List Val),
      Laid (preparedFrom digest sc p mutations) (all++more) ∧ hashesOf more.flatten = hashes ∧
      more.map full = passing.map (·.bytes) ∧ passing.map (·.bytes) = values.map Val.write ∧ (∀ w ∈ values, w.Fits (maxParseDepth+1)) ∧
      List.Forall₂ (fun (m : Passing digest sc) w => Poses digest m.items w) passing values ∧ passing.map (·.items) = mutations.filter (passes digest sc) ∧
      hashes = passing.flatMap (fun m => m.own.map (·.2)) ∧
      (preparedFrom digest sc p mutations).passwords = p.passwords++passing.flatMap (fun m => m.own.map fun o => passwordText o.1) := by
  induction mutations generalizing p all hashes with
  | nil =>
    have none : hashes = [] := by
      have : (preparedFrom digest sc p []).passwords.length = p.passwords.length := rfl
      exact List.length_eq_zero_iff.mp (by omega)
    subst none
    exact ⟨[],[],[],by simpa [preparedFrom] using laid,rfl,rfl,rfl,fun v member => (by cases member),.nil,rfl,rfl,by simp [preparedFrom]⟩
  | cons items rest ih =>
    have later : ∀ items ∈ rest, Asks items ∧ (items.getD 3 .nil).Sized := fun i member => asks i (List.mem_cons_of_mem _ member)
    have step : preparedFrom digest sc p (items :: rest) = preparedFrom digest sc (p.push (prepareMutation digest sc items)) rest := rfl
    rw [step] at enough ⊢
    cases made : prepareMutation digest sc items with
    | error why =>
      rw [made] at enough
      obtain ⟨passing,more,values,laid',given,wrote,values_,fits,poses,kept,own,passwords⟩ := ih (laid.reject why) later hashes enough
      have drop : ¬passes digest sc items = true := by simp [passes,reasonOf,made]
      exact ⟨passing,more,values,laid',given,wrote,values_,fits,poses,by rw [List.filter_cons_of_neg drop,kept],own,passwords⟩
    | ok m =>
      obtain ⟨asked,sized⟩ := asks items List.mem_cons_self
      obtain ⟨il,fields,distinct,count,shape⟩ := prepareMutation_pieces asked sized made
      rw [made] at enough
      have room : p.passwords.length+m.passwords.length = (p.push (.ok m)).passwords.length := by simp [Prepared.push]
      have grows := preparedFrom_grows digest sc (p.push (.ok m)) rest
      have size : m.passwords.length = (hashable il).length := by rw [count,List.length_map]
      obtain ⟨first,second⟩ := @paired _ _ (hashable il) (hashes.take (hashable il).length) (by rw [List.length_take]; omega)
      generalize (hashable il).zip (hashes.take (hashable il).length) = own at first second
      obtain ⟨ps,buf,holes,given,encoded,w,is,fit,posed⟩ := shape own first
      have left : (p.push (.ok m)).passwords.length+(hashes.drop (hashable il).length).length =
          (preparedFrom digest sc (p.push (.ok m)) rest).passwords.length := by
        rw [List.length_drop]
        omega
      obtain ⟨passing,more,values,laid',given',wrote,values_,fits,poses,kept,own',passwords⟩ :=
        ih (laid.push buf holes (by rw [given,second,List.length_take,size]; omega)) later _ left
      have keep : passes digest sc items = true := by simp [passes,reasonOf,made]
      have split := List.take_append_drop (hashable il).length hashes
      refine ⟨⟨items,own,full ps,⟨il,fields,distinct,first⟩,encoded⟩ :: passing,ps :: more,w :: values,by simpa using laid',?_,?_,?_,?_,.cons posed poses,?_,?_,?_⟩
      · rw [List.flatten_cons,hashesOf_append,given,given',second,split]
      · rw [List.map_cons,List.map_cons,wrote]
      · show full ps :: passing.map (·.bytes) = w.write :: values.map Val.write
        rw [is,values_]
      · intro v member
        rcases List.mem_cons.mp member with rfl | member
        · exact fit
        · exact fits v member
      · rw [List.map_cons,kept,List.filter_cons_of_pos keep]
      · rw [List.flatMap_cons,← own',second,split]
      · rw [passwords,List.flatMap_cons,← List.append_assoc]
        have text : own.map (fun o => passwordText o.1) = m.passwords := by
          rw [count,← first,List.map_map]
          rfl
        rw [text]
        rfl

theorem requested_sized {max fuel : Nat} {body : Bytes} {count : Nat} {mutations : List (List Node)}
    (ok : requested max fuel body count = .ok mutations) : ∀ items ∈ mutations, ∀ v ∈ items, v.Sized := by
  induction fuel generalizing body count mutations with
  | zero =>
    cases body with
    | nil => cases ok; simp
    | cons b body => cases ok
  | succ fuel ih =>
    cases body with
    | nil => cases ok; simp
    | cons b body =>
      unfold requested at ok
      split at ok
      · cases ok
      · cases ok
      · rename_i n rest parsed
        split at ok
        · cases ok
        · split at ok
          · cases ok
          · obtain ⟨others,read,ok⟩ := bind_ok.mp ok
            cases ok
            intro items member
            rcases List.mem_cons.mp member with rfl | member
            · exact (elems_sized (parseLimited_sized parsed)).2
            · exact ih read items member

-- What a request's parsing leaves of each mutation: one it asks for, its data within its bytes.
theorem requested_data {max fuel : Nat} {body : Bytes} {count : Nat} {mutations : List (List Node)}
    (ok : requested max fuel body count = .ok mutations) : ∀ items ∈ mutations, Asks items ∧ (items.getD 3 .nil).Sized := by
  intro items member
  refine ⟨requested_asks ok items member,?_⟩
  rw [List.getD_eq_getElem?_getD]
  cases at_ : items[3]? with
  | none => exact .nil
  | some v => exact requested_sized ok items member v (List.mem_of_getElem? at_)

end Walk
end PhaseLock
