import PhaseLock.Msgpack
import PhaseLock.Runs

namespace PhaseLock
namespace Mp

-- A value as the format can hold it, whatever the encoding of its parts.
inductive Node.Sized : Node → Prop where
  | nil : Sized .nil
  | bool (b : Bool) : Sized (.bool b)
  | int {i : Int} (low : -2^63 ≤ i) (high : i < 2^63) : Sized (.int i)
  | uint {n : Nat} (small : n < 2^64) : Sized (.uint n)
  | f32 {bits : Nat} (small : bits < 2^32) : Sized (.f32 bits)
  | f64 {bits : Nat} (small : bits < 2^64) : Sized (.f64 bits)
  | str {s : Bytes} (short : s.length < 2^32) : Sized (.str s)
  | bin {s : Bytes} (short : s.length < 2^32) : Sized (.bin s)
  | ext (type : Int) (s : Bytes) : Sized (.ext type s)
  | array {items : List Node} (few : items.length < 2^32) (each : ∀ v ∈ items, Sized v) : Sized (.array items)
  | map {entries : List (Node × Node)} (few : entries.length < 2^32) (keys : ∀ entry ∈ entries, Sized entry.1)
      (values : ∀ entry ∈ entries, Sized entry.2) : Sized (.map entries)

namespace Parser

theorem foldl_lt (s : Bytes) (x : Nat) : s.foldl (fun x b => x*256+b.toNat) x < (x+1)*256^s.length := by
  induction s generalizing x with
  | nil => simp
  | cons b s ih =>
    have byte := b.toNat_lt
    have next := ih (x*256+b.toNat)
    rw [List.foldl_cons,List.length_cons,Nat.pow_succ']
    refine lt_of_lt_of_le next ?_
    rw [← Nat.mul_assoc]
    exact Nat.mul_le_mul_right _ (by omega)

theorem be_lt {p q : Parser} {n x : Nat} (read : p.be n = .ok (x,q)) : x < 256^n := by
  unfold be at read
  obtain ⟨⟨s,rest⟩,taken,is⟩ := bind_ok.mp read
  cases is
  unfold take at taken
  split at taken
  · cases taken
  · cases taken
    rename_i enough
    have bound := foldl_lt (p.data.take n) 0
    rw [List.length_take,Nat.min_eq_left (by omega)] at bound
    simpa using bound

theorem take_length {p q : Parser} {n : Nat} {s : Bytes} (taken : p.take n = .ok (s,q)) : s.length = n := by
  unfold take at taken
  split at taken
  · cases taken
  · cases taken
    rw [List.length_take]
    omega

theorem signed_bounds {width n : Nat} (some : 0 < width) (small : n < 256^width) :
    -(256^width/2 : Nat) ≤ signed width n ∧ signed width n < (256^width/2 : Nat) := by
  obtain ⟨half,even⟩ : ∃ half, 256^width = 2*half := by
    obtain ⟨w,rfl⟩ : ∃ w, width = w+1 := ⟨width-1,by omega⟩
    exact ⟨128*256^w,by rw [Nat.pow_succ,Nat.mul_comm,← Nat.mul_assoc]⟩
  unfold signed
  have cast : (256 : Int)^width = ((256^width : Nat) : Int) := (Int.natCast_pow 256 width).symm
  rw [cast,even]
  rw [even] at small
  split <;> omega

theorem many_each {α : Type} {read : Parser → Except ParseError (α × Parser)} (good : α → Prop)
    (each : ∀ p x q, read p = .ok (x,q) → good x) {n : Nat} {p q : Parser} {items : List α} (ran : many read n p = .ok (items,q)) :
    items.length = n ∧ ∀ x ∈ items, good x := by
  induction n generalizing p items with
  | zero =>
    cases ran
    exact ⟨rfl,fun x member => (by cases member)⟩
  | succ n ih =>
    obtain ⟨⟨first,p'⟩,one,ran⟩ := bind_ok.mp ran
    obtain ⟨⟨rest,p''⟩,others,ran⟩ := bind_ok.mp ran
    cases ran
    obtain ⟨length,all⟩ := ih others
    refine ⟨by rw [List.length_cons,length],fun x member => ?_⟩
    rcases List.mem_cons.mp member with rfl | member
    · exact each _ _ _ one
    · exact all x member

theorem arrayN_sized {read : Parser → Except ParseError (Node × Parser)} (each : ∀ p x q, read p = .ok (x,q) → x.Sized)
    {n : Nat} (few : n < 2^32) {p q : Parser} {v : Node} (ran : arrayN read n p = .ok (v,q)) : v.Sized := by
  unfold arrayN at ran
  split at ran
  · cases ran
  · obtain ⟨⟨items,p'⟩,all,ran⟩ := bind_ok.mp ran
    cases ran
    obtain ⟨length,sized⟩ := many_each Node.Sized each all
    exact .array (by omega) sized

theorem mapN_sized {read : Parser → Except ParseError (Node × Parser)} (each : ∀ p x q, read p = .ok (x,q) → x.Sized)
    {n : Nat} (few : n < 2^32) {p q : Parser} {v : Node} (ran : mapN read n p = .ok (v,q)) : v.Sized := by
  unfold mapN at ran
  split at ran
  · cases ran
  · obtain ⟨⟨entries,p'⟩,all,ran⟩ := bind_ok.mp ran
    cases ran
    have both := many_each (fun entry : Node × Node => entry.1.Sized ∧ entry.2.Sized) (fun p x q entry => by
      obtain ⟨⟨k,p1⟩,key,entry⟩ := bind_ok.mp entry
      obtain ⟨⟨v,p2⟩,held,entry⟩ := bind_ok.mp entry
      cases entry
      exact ⟨each _ _ _ key,each _ _ _ held⟩) all
    exact .map (by omega) (fun entry member => (both.2 entry member).1) (fun entry member => (both.2 entry member).2)

theorem ext_sized {n : Nat} {p q : Parser} {v : Node} (ran : ext n p = .ok (v,q)) : v.Sized := by
  obtain ⟨⟨t,p1⟩,_,ran⟩ := bind_ok.mp ran
  obtain ⟨⟨s,p2⟩,_,ran⟩ := bind_ok.mp ran
  cases ran
  exact .ext _ _

-- What a first byte says holds values of at most 32 bits' length and 64 bits' size.
def Head.Sized : Head → Prop
  | .uint n => n < 2^64
  | .int i => -2^63 ≤ i ∧ i < 2^63
  | .str n | .array n | .map n => n < 2^32
  | .uintOf width => width ≤ 8
  | .intOf width => 0 < width ∧ width ≤ 8
  | .strOf width | .binOf width | .arrayOf width | .mapOf width => width ≤ 4
  | _ => True

theorem headOf_sized {c : Nat} (byte : c < 256) {head : Head} (is : headOf c = some head) : Head.Sized head := by
  unfold headOf at is
  split_ifs at is <;> first
    | (cases is; simp only [Head.Sized]; omega)
    | (split at is <;> cases is <;> simp [Head.Sized])

theorem be_small {p q : Parser} {n x width : Nat} (read : p.be n = .ok (x,q)) (le : n ≤ width) : x < 256^width :=
  lt_of_lt_of_le (be_lt read) (Nat.pow_le_pow_right (by omega) le)

theorem body_sized {read : Parser → Except ParseError (Node × Parser)} (each : ∀ p x q, read p = .ok (x,q) → x.Sized)
    {head : Head} (sized : Head.Sized head) {p q : Parser} {v : Node} (ran : body read p head = .ok (v,q)) : v.Sized := by
  cases head with
  | nil => cases ran; exact .nil
  | bool b => cases ran; exact .bool b
  | uint n => cases ran; exact .uint sized
  | int i => cases ran; exact .int sized.1 sized.2
  | str n =>
    obtain ⟨⟨s,p1⟩,taken,ran⟩ := bind_ok.mp ran
    cases ran
    exact .str (by rw [take_length taken]; exact sized)
  | array n => exact arrayN_sized each sized ran
  | map n => exact mapN_sized each sized ran
  | f32 =>
    obtain ⟨⟨bits,p1⟩,got,ran⟩ := bind_ok.mp ran
    cases ran
    exact .f32 (be_small got (le_refl 4))
  | f64 =>
    obtain ⟨⟨bits,p1⟩,got,ran⟩ := bind_ok.mp ran
    cases ran
    exact .f64 (be_small got (le_refl 8))
  | uintOf width =>
    obtain ⟨⟨n,p1⟩,got,ran⟩ := bind_ok.mp ran
    cases ran
    exact .uint (be_small got sized)
  | intOf width =>
    obtain ⟨⟨n,p1⟩,got,ran⟩ := bind_ok.mp ran
    cases ran
    obtain ⟨some,le⟩ := sized
    obtain ⟨low,high⟩ := signed_bounds some (be_lt got)
    have power : 256^width ≤ 256^8 := Nat.pow_le_pow_right (by omega) le
    have half : 256^width/2 ≤ 2^63 := by omega
    exact .int (by omega) (by omega)
  | strOf width =>
    obtain ⟨⟨n,p1⟩,got,ran⟩ := bind_ok.mp ran
    obtain ⟨⟨s,p2⟩,taken,ran⟩ := bind_ok.mp ran
    cases ran
    exact .str (by rw [take_length taken]; exact be_small got sized)
  | binOf width =>
    obtain ⟨⟨n,p1⟩,got,ran⟩ := bind_ok.mp ran
    obtain ⟨⟨s,p2⟩,taken,ran⟩ := bind_ok.mp ran
    cases ran
    exact .bin (by rw [take_length taken]; exact be_small got sized)
  | arrayOf width =>
    obtain ⟨⟨n,p1⟩,got,ran⟩ := bind_ok.mp ran
    exact arrayN_sized each (be_small got sized) ran
  | mapOf width =>
    obtain ⟨⟨n,p1⟩,got,ran⟩ := bind_ok.mp ran
    exact mapN_sized each (be_small got sized) ran
  | extOf width =>
    obtain ⟨⟨n,p1⟩,got,ran⟩ := bind_ok.mp ran
    exact ext_sized ran
  | ext n => exact ext_sized ran

theorem value_sized {levels : Nat} {p q : Parser} {v : Node} (ran : value levels p = .ok (v,q)) : v.Sized := by
  induction levels generalizing p q v with
  | zero => cases ran
  | succ levels ih =>
    unfold value at ran
    split at ran
    · cases ran
    · obtain ⟨⟨c,p1⟩,byte,ran⟩ := bind_ok.mp ran
      dsimp only at ran
      split at ran
      · rename_i head is
        exact body_sized (fun p x q read => ih read) (headOf_sized (be_lt byte) is) ran
      · cases ran

end Parser

theorem parseLimited_sized {data : Bytes} {max : Option Nat} {node : Node} {rest : Bytes}
    (parsed : parseLimited data max = .ok (node,rest)) : node.Sized := by
  obtain ⟨⟨v,p⟩,ran,is⟩ := bind_ok.mp parsed
  cases is
  exact Parser.value_sized ran

end Mp
end PhaseLock
