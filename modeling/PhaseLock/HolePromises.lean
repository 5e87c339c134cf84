import PhaseLock.Preparations

namespace PhaseLock
namespace Walk
open Mp Submits

-- The values some bytes hold one after another, each in its own bytes, to the end.
def sequence : Nat → Bytes → Option (List Bytes)
  | _,[] => some []
  | 0,_ => none
  | fuel+1,body => match Mp.parse body with
    | .error _ => none
    | .ok (_,rest) => (sequence fuel rest).map (body.take (body.length-rest.length) :: ·)

theorem sequence_writes {values : List Val} (fits : ∀ w ∈ values, w.Fits (maxParseDepth+1)) {fuel : Nat} (enough : values.length ≤ fuel) :
    sequence fuel (values.map Val.write).flatten = some (values.map Val.write) := by
  induction values generalizing fuel with
  | nil => cases fuel <;> rfl
  | cons w values ih =>
    obtain ⟨fuel,rfl⟩ : ∃ n, fuel = n+1 := ⟨fuel-1,by simp at enough; omega⟩
    rw [List.map_cons,List.flatten_cons]
    obtain ⟨b,body,whole⟩ : ∃ b body, w.write++(values.map Val.write).flatten = b :: body := by
      cases whole : w.write++(values.map Val.write).flatten with
      | nil => exact absurd (List.append_eq_nil_iff.mp whole).1 w.write_ne_nil
      | cons b body => exact ⟨b,body,rfl⟩
    have parsed := parse_write (fits w List.mem_cons_self) (values.map Val.write).flatten
    rw [whole] at parsed ⊢
    show (match Mp.parse (b :: body) with
      | .error _ => none
      | .ok (_,rest) => (sequence fuel rest).map ((b :: body).take ((b :: body).length-rest.length) :: ·)) = _
    rw [parsed]
    dsimp only
    rw [ih (fun v member => fits v (List.mem_cons_of_mem _ member)) (by simpa using enough),← whole]
    simp

theorem starts_flat (all : List (List Piece)) {i : Nat} (inside : i < all.length) :
    (starts (fun ps => (full ps).length) 0 all)[i]? = some ((all.take i).map full).flatten.length := by
  rw [starts_get all 0 i inside,Nat.zero_add,full_flatten,List.map_take]

-- Whatever hashes fill a prepared request's holes, one a password in its order: the body is the
-- encodings of the mutations that pass, in order, each of their password fields as the hash of
-- its own password; each offset is where its mutation starts; and what stands from there on is
-- as many values as mutations are left.
theorem filling_keeps_offsets (digest : Digest) (sc : Schema) (body : Bytes) (max : Nat) {p : Prepared}
    (accepted : prepare digest sc body max = .ok p) (hashes : List Short) (enough : hashes.length = p.passwords.length) :
    p.holes.length = p.passwords.length ∧
    ∃ mutations, requested max body.length body 0 = .ok mutations ∧ (p.fill hashes).reasons = mutations.map (reasonOf digest sc) ∧
      ∃ passing : List (Passing digest sc), passing.map (·.items) = mutations.filter (passes digest sc) ∧
        p.passwords = passing.flatMap (fun m => m.own.map fun o => passwordText o.1) ∧
        hashes = passing.flatMap (fun m => m.own.map (·.2)) ∧
        (p.fill hashes).body = passing.flatMap (·.bytes) ∧ (p.fill hashes).offsets.length = passing.length ∧
        ∀ i < passing.length, ∃ start, (p.fill hashes).offsets[i]? = some start ∧ start = ((passing.take i).flatMap (·.bytes)).length ∧
          sequence (p.fill hashes).body.length ((p.fill hashes).body.drop start) = some ((passing.drop i).map (·.bytes)) := by
  obtain ⟨mutations,read,is⟩ := bind_ok.mp accepted
  have is : p = preparedFrom digest sc {} mutations := (Except.ok.inj is).symm
  have asks := requested_data read
  have start : Laid {} [] := ⟨rfl,rfl,rfl,rfl,rfl,rfl⟩
  obtain ⟨passing,all,values,laid,given,wrote,is_,fits,_,kept,own,passwords⟩ :=
    preparedFrom_laid digest sc start asks hashes (by rw [← is,← enough]; exact Nat.zero_add _)
  rw [← is] at laid passwords
  rw [List.nil_append] at laid
  obtain ⟨filledBody,offsets,reasons,_⟩ := fill_eq laid.body laid.offsets laid.holes
  rw [given] at filledBody offsets reasons
  have count : all.length = passing.length := by simpa using congrArg List.length wrote
  have whole : (p.fill hashes).body = passing.flatMap (·.bytes) := by
    rw [filledBody,full_flatten,wrote,List.flatMap_def]
  refine ⟨by rw [laid.holes,length_holesOf,laid.hashes],mutations,read,?_,passing,kept,by simpa using passwords,own,whole,
    by rw [offsets,length_starts,count],fun i inside => ?_⟩
  · rw [reasons,is,preparedFrom_reasons]
    rfl
  · refine ⟨_,by rw [offsets]; exact starts_flat all (by omega),?_,?_⟩
    · rw [List.map_take,wrote,← List.map_take,List.flatMap_def]
    · have parts : (p.fill hashes).body.drop ((all.take i).map full).flatten.length = ((passing.drop i).map (·.bytes)).flatten := by
        have split : passing.flatMap (·.bytes) = ((passing.take i).map (·.bytes)).flatten++((passing.drop i).map (·.bytes)).flatten := by
          rw [← List.flatten_append,← List.map_append,List.take_append_drop,List.flatMap_def]
        rw [whole,split,List.map_take,wrote,← List.map_take]
        exact List.drop_left' rfl
      have some := Val.length_writes values
      have same : (p.fill hashes).body = Val.writes values := by rw [whole,List.flatMap_def,is_,writes_map]
      rw [parts,List.map_drop,is_,← List.map_drop]
      exact sequence_writes (fun w member => fits w (List.mem_of_mem_drop member)) (by rw [same,List.length_drop]; omega)

namespace Sample

def text (s : String) : Bytes := utf8 s.toList

-- A mutation that takes a password, and may take a second.
def schema : Schema := {
  count := 5
  nodes := List.get [.union (.field (text "type") (.literal [(.str (text "join"),.found 1)])),
    .struct [⟨text "type",2,false⟩,⟨text "password",3,false⟩,⟨text "recovery",3,true⟩] (some ⟨0,by decide⟩),
    .lit (.str (text "join")),.intake .newPassword 4,.str]
  mutations := some 0 }

def digest : Digest := ⟨fun _ => List.replicate 64 '0',fun _ => ⟨List.length_replicate,fun c member => by
  rw [List.eq_of_mem_replicate member]
  decide⟩⟩

def row (key value : String) : Val × Val := (.str (text key),.str (text value))

def mutation (rows : List (Val × Val)) : Val := .array [.nil,.nil,.bin (List.replicate 16 7),.map rows]

-- The first names its second password first, and the schema does not know the second.
def body : Bytes := Val.writes [mutation [row "recovery" "b",row "password" "a",row "type" "join"],mutation [row "type" "leave"],
  mutation [row "type" "join",row "password" "c"]]

def hash (s : String) (short : (text s).length < 2^32) : Short := ⟨text s,short⟩

def hashes : List Short := [hash "hash-a" (by decide),hash "longer-hash-b" (by decide),hash "hash-c" (by decide)]

def expected : Bytes := Val.writes [mutation [row "type" "join",row "password" "hash-a",row "recovery" "longer-hash-b"],
  mutation [row "type" "join",row "password" "hash-c"]]

def fills : Bool :=
  match prepare digest schema body 8 with
  | .ok p => p.passwords = ["a".toList,"b".toList,"c".toList] && (p.fill hashes).body = expected
  | .error _ => false

theorem body_fills : fills = true := by decide +kernel

end Sample

theorem filling_keeps_offsets_sample : ∃ p, prepare Sample.digest Sample.schema Sample.body 8 = .ok p ∧
    (p.fill Sample.hashes).body = Sample.expected ∧ ∃ passing : List (Passing Sample.digest Sample.schema),
      (p.fill Sample.hashes).body = passing.flatMap (·.bytes) ∧ Sample.hashes = passing.flatMap (fun m => m.own.map (·.2)) := by
  have fills := Sample.body_fills
  unfold Sample.fills at fills
  cases accepted : prepare Sample.digest Sample.schema Sample.body 8 with
  | error why =>
    rw [accepted] at fills
    cases fills
  | ok p =>
    rw [accepted] at fills
    simp only [Bool.and_eq_true,decide_eq_true_eq] at fills
    obtain ⟨_,mutations,_,_,passing,_,_,own,whole,_⟩ :=
      filling_keeps_offsets Sample.digest Sample.schema Sample.body 8 accepted Sample.hashes (by rw [fills.1]; rfl)
    exact ⟨p,rfl,fills.2,passing,whole,own⟩

end Walk
end PhaseLock
