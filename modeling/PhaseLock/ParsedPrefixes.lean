import PhaseLock.Msgpack
import PhaseLock.Runs

namespace PhaseLock
namespace Mp
namespace Parser
variable {α : Type}

def more (p : Parser) (tail : Bytes) : Parser := {p with data:=p.data++tail}

-- A read that succeeds does the same before any more bytes.
def Local (read : Parser → Except ParseError (α × Parser)) : Prop :=
  ∀ p x q tail, read p = .ok (x,q) → read (p.more tail) = .ok (x,q.more tail)

theorem take_local (n : Nat) : Local (take · n) := by
  intro p s q tail read
  dsimp only at read ⊢
  unfold take at read ⊢
  split at read
  · cases read
  · rename_i enough
    cases read
    rw [if_neg (by simp only [more,List.length_append]; omega)]
    simp only [more,List.take_append_of_le_length (Nat.le_of_not_lt enough),List.drop_append_of_le_length (Nat.le_of_not_lt enough)]

theorem Local.bind {β : Type} {read : Parser → Except ParseError (α × Parser)} {next : α → Parser → Except ParseError (β × Parser)}
    (one : Local read) (two : ∀ x, Local (next x)) :
    Local (fun p => do
      let (x,p) ← read p
      next x p) := by
  intro p y q tail ran
  obtain ⟨⟨x,middle⟩,first,second⟩ := bind_ok.mp ran
  exact bind_ok.mpr ⟨_,one p x middle tail first,two x middle y q tail second⟩

theorem Local.pure (x : α) : Local (fun p => .ok (x,p)) := by
  intro p y q tail is
  cases is
  rfl

theorem be_local (n : Nat) : Local (be · n) := (take_local n).bind fun _ => .pure _

theorem many_local {read : Parser → Except ParseError (α × Parser)} (each : Local read) (n : Nat) : Local (many read n) := by
  induction n with
  | zero => exact .pure _
  | succ n ih => exact each.bind fun _ => ih.bind fun _ => .pure _

theorem ext_local (n : Nat) : Local (ext n) :=
  (be_local 1).bind fun t => (take_local n).bind fun s => .pure (Node.ext (signed 1 t) s)

section Values
variable {value : Parser → Except ParseError (Node × Parser)} (each : Local value)
include each

theorem arrayN_local (n : Nat) : Local (arrayN value n) := by
  intro p x q tail read
  unfold arrayN at read ⊢
  split at read
  · cases read
  · rw [if_neg (by simp only [more,List.length_append]; omega)]
    exact ((many_local each n).bind fun items => .pure (Node.array items)) p x q tail read

theorem mapN_local (n : Nat) : Local (mapN value n) := by
  intro p x q tail read
  unfold mapN at read ⊢
  split at read
  · cases read
  · rw [if_neg (by simp only [more,List.length_append]; omega)]
    have entry := each.bind fun k => each.bind fun v => Local.pure (k,v)
    exact ((many_local entry n).bind fun entries => .pure (Node.map entries)) p x q tail read

theorem body_local (head : Head) : Local (body value · head) := by
  cases head with
  | nil | bool | uint | int => exact .pure _
  | str n => exact (take_local n).bind fun _ => .pure _
  | array n => exact arrayN_local each n
  | map n => exact mapN_local each n
  | f32 | f64 => exact (be_local _).bind fun _ => .pure _
  | uintOf width => exact (be_local width).bind fun n => .pure (Node.uint n)
  | intOf width => exact (be_local width).bind fun n => .pure (Node.int (signed width n))
  | strOf width => exact (be_local width).bind fun n => (take_local n).bind fun s => .pure (Node.str s)
  | binOf width => exact (be_local width).bind fun n => (take_local n).bind fun s => .pure (Node.bin s)
  | arrayOf width => exact (be_local width).bind fun n => arrayN_local each n
  | mapOf width => exact (be_local width).bind fun n => mapN_local each n
  | extOf width => exact (be_local width).bind fun n => ext_local n
  | ext n => exact ext_local n

end Values

theorem value_local (levels : Nat) : Local (value levels) := by
  induction levels with
  | zero =>
    intro p x q tail read
    cases read
  | succ levels ih =>
    intro p x q tail read
    unfold value at read ⊢
    split at read
    · cases read
    · rename_i some_
      rw [if_neg (show ¬(p.more tail).left = some 0 from some_)]
      obtain ⟨⟨c,middle⟩,first,read⟩ := bind_ok.mp read
      refine bind_ok.mpr ⟨_,be_local 1 _ c middle tail first,?_⟩
      dsimp only at read ⊢
      cases head : headOf c with
      | none =>
        rw [head] at read
        cases read
      | some starts =>
        rw [head] at read
        exact body_local ih starts middle x q tail read

end Parser

-- A value parses the same before any more bytes.
theorem parseLimited_append {data rest : Bytes} {max : Option Nat} {node : Node} (tail : Bytes)
    (parsed : parseLimited data max = .ok (node,rest)) : parseLimited (data++tail) max = .ok (node,rest++tail) := by
  obtain ⟨⟨v,p⟩,read,is⟩ := bind_ok.mp parsed
  cases is
  exact bind_ok.mpr ⟨_,Parser.value_local _ _ _ _ tail read,rfl⟩

end Mp
end PhaseLock
