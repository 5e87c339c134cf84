import PhaseLock.CursorSteps

namespace PhaseLock
namespace Cursor
open Mp Skeleton JsTexts

-- The server's parser reads what the client's writer wrote, and nothing past it; with no
-- schema the client writes the same bytes.
def Value.Parsed (v : Value Name) : Prop :=
  (∀ rest, ∃ node, parse ((v.mapText utf16).write++rest) = .ok (node,rest) ∧ nodeValue node = some v) ∧
    (v.Plain (maxDepth+1) → Writer.any (maxDepth+1) (v.mapText utf16) = some (v.mapText utf16).write)

-- The client's reader reads what the server's writer wrote, with its codec or with no schema.
def Value.Back (v : Value Name) : Prop := ∀ (rest : Bytes) (k : Nat),
  Reader.typed v.shape ⟨v.val.write++rest,k+v.val.write.length⟩ = .ok (v.mapText utf16,⟨rest,k⟩) ∧
    (v.Plain (maxDepth+1) → v.Admitted (maxDepth+1) →
      Reader.any (maxDepth+1) ⟨v.val.write++rest,k+v.val.write.length⟩ = .ok (v.mapText utf16,⟨rest,k⟩))

theorem parsed_written {v : Value Name} (admitted : v.Admitted (maxParseDepth+1)) : v.Parsed :=
  ⟨fun rest => parse_written admitted rest,any_write⟩

-- A long text that starts with a mark is read without it, and all others as they are.
theorem back_iff {v : Value Name} (admitted : v.Admitted (maxParseDepth+1)) : v.Back ↔ v.Unmarked := by
  rw [← read_iff admitted]
  constructor
  · intro back
    have same := (back [] 0).1
    rw [typed_written admitted [] 0] at same
    exact congrArg Prod.fst (Except.ok.inj same)
  · intro same rest k
    refine ⟨?_,fun plain shallow => any_written shallow plain ((read_iff admitted).mp same) rest k⟩
    rw [typed_written admitted rest k,same]

-- The codecs agree on where a value ends, and both ways on the value but for a long text's mark.
theorem codecs_agree (buf : Bytes) (pos stop : Nat) (v : Value Name) :
    (stop ≤ buf.length →
      measure (buf.take stop) pos stop = measure buf pos stop ∧ measure buf pos stop ≠ .outside ∧
      (parse (window buf stop pos) ≠ .error .tooDeep → ∀ e, measure buf pos stop = .whole e ↔
        ∃ node rest, parse (window buf stop pos) = .ok (node,rest) ∧ e+rest.length = stop)) ∧
    (∀ (node : Node) (rest : Bytes), parse (buf.drop pos) = .ok (node,rest) → stop+rest.length < buf.length →
      measure buf pos stop = .short) ∧
    (v.Admitted (maxParseDepth+1) → v.Parsed) ∧
    (v.Admitted (maxParseDepth+1) → (v.Back ↔ v.Unmarked)) := by
  refine ⟨fun inside => ?_,fun node rest ok cut => measure_short ok cut,parsed_written,back_iff⟩
  obtain ⟨same,within⟩ := measure_inside pos inside
  exact ⟨same,within,fun deep e => measure_parse inside deep e⟩

-- A text of 201 bytes that starts with a mark.
def markedText : Name := bom :: List.replicate 198 'a'

theorem length_markedText : (utf8 markedText).length = 201 := by
  have letters : ∀ n, (utf8 (List.replicate n 'a')).length = n := by
    intro n
    induction n with
    | zero => rfl
    | succ n ih =>
      rw [List.replicate_succ]
      show (utf8 (List.replicate n 'a')).length+1 = n+1
      rw [ih]
  show (utf8 (List.replicate 198 'a')).length+3 = 201
  rw [letters]

theorem marked_admitted (levels : Nat) : (Value.str markedText).Admitted (levels+1) := by
  rw [Value.Admitted,length_markedText]
  decide

theorem codecs_agree_marked : (Value.str markedText).Admitted (maxParseDepth+1) ∧ (Value.str markedText).Plain (maxDepth+1) ∧
    ¬(Value.str markedText).Back ∧
    Reader.str ⟨(Value.str markedText).val.write,(Value.str markedText).val.write.length⟩ =
      .ok (utf16 (List.replicate 198 'a'),⟨[],0⟩) := by
  have marked : ¬(Value.str markedText).Unmarked := by
    intro none
    refine none markedText (by rw [Value.texts]; exact List.mem_singleton_self markedText) ⟨?_,rfl⟩
    rw [length_markedText]
    decide
  refine ⟨marked_admitted maxParseDepth,trivial,fun back => marked ((back_iff (marked_admitted maxParseDepth)).mp back),?_⟩
  have read := Reader.str_text [] 0 (show (utf8 markedText).length < 2^32 by rw [length_markedText]; decide)
  have lost : kept markedText = List.replicate 198 'a' := by
    unfold kept
    rw [if_pos (by rw [length_markedText]; decide)]
    show markDropped (bom :: List.replicate 198 'a') = _
    rw [markDropped,if_pos rfl]
  rw [lost,List.append_nil,Nat.zero_add] at read
  exact read

theorem codecs_agree_sample : (∀ e, measure [0x92,0x01,0xa1,0x61,0xc0] 0 5 = .whole e ↔
      ∃ node rest, parse (window [0x92,0x01,0xa1,0x61,0xc0] 5 0) = .ok (node,rest) ∧ e+rest.length = 5) ∧
    measure [0x92,0x01,0xa1,0x61,0xc0] 0 3 = .short ∧
    (Value.str ['a']).Parsed ∧ ((Value.str ['a']).Back ↔ (Value.str ['a']).Unmarked) := by
  have ok : parse [0x92,0x01,0xa1,0x61,0xc0] = .ok ((Val.array [.int 1,.str [0x61]]).node,[0xc0]) := by
    have fits : (Val.array [.int 1,.str [0x61]]).Fits (maxParseDepth+1) := ⟨by decide,by simp [Val.Fits]⟩
    exact parse_write fits [0xc0]
  have admitted : (Value.str ['a']).Admitted (maxParseDepth+1) := by
    rw [Value.Admitted]
    decide
  have whole := codecs_agree [0x92,0x01,0xa1,0x61,0xc0] 0 5 (.str ['a'])
  refine ⟨(whole.1 (by decide)).2.2 (by rw [show window _ 5 0 = [0x92,0x01,0xa1,0x61,0xc0] from rfl,ok]; intro is; cases is),
    (codecs_agree [0x92,0x01,0xa1,0x61,0xc0] 0 3 (.str ['a'])).2.1 _ _ ok (by decide),whole.2.2.1 admitted,whole.2.2.2 admitted⟩

end Cursor
end PhaseLock
