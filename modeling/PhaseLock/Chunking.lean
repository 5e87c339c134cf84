import PhaseLock.ByteReader

namespace PhaseLock
namespace Mp

-- Values that end end so whatever follows.
theorem span_append (ends : span pending data = .whole rest) (more : Bytes) : span pending (data++more) = .whole (rest++more) := by
  generalize size : data.length = n
  induction n using Nat.strongRecOn generalizing pending data with
  | _ n ih =>
    cases pending with
    | zero =>
      rw [span_zero] at ends ⊢
      cases ends
      rfl
    | succ pending =>
      cases data with
      | nil => cases ends
      | cons b data =>
        rw [span_cons] at ends
        rw [List.length_cons] at size
        rw [List.cons_append,span_cons]
        cases is : headOf b.toNat with
        | none => rw [is] at ends; cases ends
        | some head =>
          rw [is] at ends
          dsimp only at ends ⊢
          cases made : after data head with
          | none => rw [made] at ends; cases ends
          | some pair =>
            obtain ⟨children,later⟩ := pair
            rw [made] at ends
            rw [after_append more made]
            have shorter := after_length made
            exact ih _ (by omega) ends rfl

theorem window_drop (buf : Bytes) (stop : Nat) {pos place : Nat} (ahead : pos ≤ place) :
    window buf stop place = (window buf stop pos).drop (place-pos) := by
  unfold window
  rw [List.drop_drop,Nat.add_sub_cancel' ahead]

theorem window_take (buf : Bytes) {pos place stop : Nat} (within : place ≤ stop) :
    window buf place pos = (window buf stop pos).take (place-pos) := by
  unfold window
  rw [← List.drop_take,List.take_take]
  congr 2
  omega

theorem window_cut (buf : Bytes) {pos place stop : Nat} (ahead : pos ≤ place) (within : place ≤ stop) :
    window buf stop pos = window buf place pos++window buf stop place := by
  rw [window_take buf within,window_drop buf stop ahead,List.take_append_drop]

end Mp

namespace Cursor
open Mp Skeleton JsTexts

theorem window_setAt_end {buf value : Bytes} {pos len : Nat} (within : pos ≤ len) (fits : len+value.length ≤ buf.length) :
    window (setAt buf len value) (len+value.length) pos = window buf len pos++value := by
  have front : (setAt buf len value).take (len+value.length) = buf.take len++value := by
    unfold setAt
    rw [List.take_left' (by rw [List.length_append,List.length_take]; omega)]
  unfold window
  rw [front,List.drop_append_of_le_length (by rw [List.length_take]; omega)]

theorem window_setAt_front (buf value : Bytes) : window (setAt buf 0 value) value.length 0 = value := by
  unfold window setAt
  simp

namespace ByteReader

-- The bytes a reader has still to hand out.
def left (br : ByteReader) : Bytes := br.unread++br.chunks.flatten

-- The stream is known to have ended only where it has.
def Honest (br : ByteReader) : Prop := br.eof = true → br.chunks = []

theorem makeRoom_left (br : ByteReader) (size : Nat) : (br.makeRoom size).unread = br.unread ∧ (br.makeRoom size).offset = br.offset := by
  unfold makeRoom
  split
  · exact ⟨rfl,rfl⟩
  · refine ⟨?_,Nat.add_zero _⟩
    show window (setAt (br.roomFor size) 0 br.unread) (br.len-br.pos) 0 = br.unread
    rw [← length_unread]
    exact window_setAt_front _ _

-- A refill loses no byte and moves no offset; it fails only at the stream's end.
theorem more_left (br : ByteReader) (honest : br.Honest) : br.more.2.left = br.left ∧ br.more.2.offset = br.offset ∧ br.more.2.Honest ∧
    (br.more.1 = false → br.chunks = [] ∧ br.more.2.chunks = [] ∧ br.more.2.unread = br.unread) := by
  unfold more
  split
  · rename_i ended
    exact ⟨rfl,rfl,honest,fun _ => ⟨honest ended,honest ended,rfl⟩⟩
  · rename_i open_
    split
    · rename_i none_
      exact ⟨rfl,rfl,fun _ => none_,fun _ => ⟨none_,none_,rfl⟩⟩
    · rename_i value chunks bring
      obtain ⟨same,place⟩ := br.makeRoom_left value.length
      have ended : (br.makeRoom value.length).eof = br.eof := by
        unfold makeRoom
        split <;> rfl
      refine ⟨?_,place,fun eof => absurd (ended.symm.trans eof) open_,fun is => by cases is⟩
      show window (setAt _ _ value) _ _++chunks.flatten = _
      rw [window_setAt_end (br.makeRoom value.length).within.1 (br.makeRoom_fits value.length)]
      show ((br.makeRoom value.length).unread++value)++chunks.flatten = _
      rw [same,left,bring,List.flatten_cons,List.append_assoc]

theorem moves_left (br : ByteReader) {place : Nat} (behind : br.pos ≤ place) (ahead : place ≤ br.len) :
    br.left = window br.buf place br.pos++(br.moves place ahead).left ∧ (window br.buf place br.pos).length = place-br.pos ∧
    (br.moves place ahead).offset = br.offset+(place-br.pos) := by
  refine ⟨?_,length_window (ahead.trans br.within.2) br.pos,?_⟩
  · show br.unread++_ = _++(_++_)
    rw [← List.append_assoc]
    congr 1
    exact window_cut br.buf behind ahead
  · show br.base+place = br.base+br.pos+(place-br.pos)
    omega

theorem measure_unread (br : ByteReader) : measure br.buf br.pos br.len = (span 1 br.unread).measured br.len := measure_span br.within.2

-- A whole value at the front of the unread bytes is handed out.
theorem tryValue_whole {br : ByteReader} {v rest : Bytes} (is : br.unread = v++rest) (whole : span 1 v = .whole []) :
    ∃ after, br.tryValue = (.ok (some v),after) ∧ after.unread = rest ∧ after.chunks = br.chunks ∧ after.eof = br.eof := by
  have size : v.length+rest.length = br.len-br.pos := by rw [← length_unread,is,List.length_append]
  have some : 1 ≤ v.length := by simpa using span_pending whole
  have within := br.within.1
  have measured : measure br.buf br.pos br.len = .whole (br.pos+v.length) := by
    rw [measure_unread,is,span_append whole,List.nil_append]
    show Measured.whole (br.len-rest.length) = _
    congr 1
    omega
  have front : window br.buf (br.pos+v.length) br.pos = v := by
    rw [window_take br.buf (show br.pos+v.length ≤ br.len by omega)]
    show br.unread.take _ = _
    rw [is,Nat.add_sub_cancel_left,List.take_left]
  have back : window br.buf br.len (br.pos+v.length) = rest := by
    rw [window_drop br.buf br.len (Nat.le_add_right br.pos v.length)]
    show br.unread.drop _ = _
    rw [is,Nat.add_sub_cancel_left,List.drop_left]
  refine ⟨br.moves (br.pos+v.length) (by omega),?_,back,rfl,rfl⟩
  unfold tryValue
  split
  · rename_i e is
    cases measured.symm.trans is
    rw [front]
  · rename_i is
    cases measured.symm.trans is
  · rename_i others _
    exact (others _ measured).elim

-- Bytes that a value goes on past are waited on.
theorem tryValue_short {br : ByteReader} (short : span 1 br.unread = .short) : br.tryValue = (.ok none,br) := by
  have measured : measure br.buf br.pos br.len = .short := by rw [measure_unread,short]; rfl
  unfold tryValue
  split
  · rename_i e is
    cases measured.symm.trans is
  · rfl
  · rename_i _ other
    exact (other measured).elim

end ByteReader

-- The bytes of one frame: one value, which reads as the frame.
structure Whole (bytes : Bytes) (frame : StreamFrame) : Prop where
  value : span 1 bytes = .whole []
  reads : parseFrame bytes = .ok frame

-- The start of a frame that goes on, or nothing.
def CutShort (tail : Bytes) : Prop := tail = [] ∨ ∃ frame more, more ≠ [] ∧ Whole (tail++more) frame

theorem cutShort_span {tail front back : Bytes} (cut : CutShort tail) (is : front++back = tail) : span 1 front = .short := by
  rcases cut with rfl | ⟨frame,more,some,whole⟩
  · rw [(List.append_eq_nil_iff.mp is).1]
    rfl
  · have value := whole.value
    rw [← is,List.append_assoc] at value
    refine span_short value ?_
    rw [List.length_append,List.length_nil]
    have := List.length_pos_of_ne_nil some
    omega

-- What the handler is told of some frames, and how the loop ends after them.
def told (fn : List StreamFrame → Bool) (clean : Bool) : List StreamFrame → List StreamFrame → List StreamFrame × Ending
  | given,[] => (given,if clean then .clean else .midFrame)
  | given,frame :: rest => if fn (given++[frame]) then told fn clean (given++[frame]) rest else (given++[frame],.stopped)

section Frames
variable {fn : List StreamFrame → Bool} {tail : Bytes}

theorem drain_whole {given : List StreamFrame} {br after : ByteReader} {v : Bytes} {frame : StreamFrame}
    (tried : br.tryValue = (.ok (some v),after)) (reads : parseFrame v = .ok frame) :
    drain fn given br = if fn (given++[frame]) then drain fn (given++[frame]) after else .ends (given++[frame]) .stopped := by
  rw [drain]
  split
  · rename_i is
    cases tried.symm.trans is
    rw [reads]
  · rename_i is
    cases tried.symm.trans is
  · rename_i is
    cases tried.symm.trans is

theorem drain_short {given : List StreamFrame} {br : ByteReader} (short : span 1 br.unread = .short) :
    drain fn given br = .waits given br := by
  have tried := br.tryValue_short short
  rw [drain]
  split
  · rename_i is
    cases tried.symm.trans is
  · rename_i is
    cases tried.symm.trans is
    rfl
  · rename_i is
    cases tried.symm.trans is

-- What is still to come after a round: the frames not told of, the first of them not whole in
-- the buffer, and the cut end.
structure Waiting (tail : Bytes) (rest : List (Bytes × StreamFrame)) (after : ByteReader) : Prop where
  wholes : ∀ f ∈ rest, Whole f.1 f.2
  left : after.left = (rest.map Prod.fst).flatten++tail
  honest : after.Honest
  short : ∀ f ∈ rest.head?, after.unread.length < f.1.length

-- A round tells of the frames that are buffered whole, and waits inside the next.
theorem drain_told (cut : CutShort tail) {frames_ : List (Bytes × StreamFrame)} (wholes : ∀ f ∈ frames_, Whole f.1 f.2)
    {given : List StreamFrame} {br : ByteReader} (is : br.left = (frames_.map Prod.fst).flatten++tail) (honest : br.Honest) :
    match drain fn given br with
    | .ends more how => told fn (tail = []) given (frames_.map Prod.snd) = (more,how)
    | .waits more after => ∃ rest, told fn (tail = []) given (frames_.map Prod.snd) = told fn (tail = []) more (rest.map Prod.snd) ∧
      Waiting tail rest after := by
  induction frames_ generalizing given br with
  | nil =>
    rw [drain_short (cutShort_span cut (by simpa [ByteReader.left] using is))]
    exact ⟨[],rfl,wholes,is,honest,by simp⟩
  | cons f rest ih =>
    have whole := wholes f List.mem_cons_self
    have parts : br.unread++br.chunks.flatten = f.1++((rest.map Prod.fst).flatten++tail) := by
      rw [← List.append_assoc]
      simpa [ByteReader.left] using is
    by_cases buffered : f.1.length ≤ br.unread.length
    · obtain ⟨back,front⟩ := List.prefix_of_prefix_length_le (List.prefix_append _ _) (parts ▸ List.prefix_append _ _) buffered
      obtain ⟨after,tried,unread,chunks,eof⟩ := ByteReader.tryValue_whole front.symm whole.value
      rw [drain_whole tried whole.reads,List.map_cons,told]
      by_cases on_ : fn (given++[f.2]) = true
      · rw [if_pos on_,if_pos on_]
        refine ih (fun g member => wholes g (List.mem_cons_of_mem _ member)) ?_ ?_
        · rw [← front,List.append_assoc] at parts
          rw [ByteReader.left,unread,chunks]
          exact List.append_cancel_left parts
        · rw [ByteReader.Honest,eof,chunks]
          exact honest
      · rw [if_neg on_,if_neg on_]
    · obtain ⟨more,front⟩ := List.prefix_of_prefix_length_le (parts ▸ List.prefix_append _ _) (List.prefix_append f.1 _) (le_of_not_ge buffered)
      have short : span 1 br.unread = .short := by
        have value := whole.value
        rw [← front] at value
        refine span_short value ?_
        have := congrArg List.length front
        rw [List.length_append] at this
        rw [List.length_nil]
        omega
      rw [drain_short short]
      exact ⟨f :: rest,rfl,wholes,is,honest,by simpa using buffered⟩

-- However the body is cut into chunks, the loop tells of its whole frames in order, and ends
-- cleanly exactly where the body ends on a frame's boundary.
theorem frames_told (cut : CutShort tail) {frames_ : List (Bytes × StreamFrame)} (wholes : ∀ f ∈ frames_, Whole f.1 f.2)
    {given : List StreamFrame} {br : ByteReader} (is : br.left = (frames_.map Prod.fst).flatten++tail) (honest : br.Honest) :
    frames fn given br = told fn (tail = []) given (frames_.map Prod.snd) := by
  generalize size : br.chunks.length = n
  induction n using Nat.strongRecOn generalizing frames_ given br with
  | _ n ih =>
    have round := @drain_told fn _ cut _ wholes given _ is honest
    rw [frames]
    split
    · rename_i more how drained
      rw [drained] at round
      exact round.symm
    · rename_i more waiting drained
      rw [drained] at round
      obtain ⟨rest,same,waits⟩ := round
      obtain ⟨left,_,honest',ended⟩ := waiting.more_left waits.honest
      rw [same]
      split
      · rename_i after refilled
        rw [refilled] at left honest'
        have fewer := ByteReader.more_chunks refilled
        rw [drain_chunks drained] at fewer
        exact ih _ (size ▸ fewer) waits.wholes (left.trans waits.left) honest' rfl
      · rename_i after refilled
        rw [refilled] at ended left
        obtain ⟨none_,none',unread⟩ := ended rfl
        have all : after.unread = (rest.map Prod.fst).flatten++tail := by
          have := left.trans waits.left
          rwa [ByteReader.left,none',List.flatten_nil,List.append_nil] at this
        cases rest with
        | nil =>
          have size : after.available = tail.length := by
            rw [ByteReader.available,← ByteReader.length_unread,all]
            rfl
          rw [List.map_nil,told,size]
          by_cases empty : tail = []
          · simp [empty]
          · simp [empty,List.length_pos_of_ne_nil empty]
        | cons f rest =>
          have less := waits.short f rfl
          rw [← unread,all] at less
          simp only [List.map_cons,List.flatten_cons,List.length_append] at less
          omega

end Frames

inductive Op where
  | more
  | fill (n : Nat)
  | take (n : Nat)
  | skip (n : Nat)
  | peek
  | value
  | values (n : Nat)

-- What a reading answers: bytes, the next byte, bytes passed over, all there were passed over
-- in vain, or nothing.
inductive Handed where
  | bytes (v : Bytes)
  | byte (b : UInt8)
  | skipped (n : Nat)
  | ended
  | nothing
  | threw (why : ByteReader.ReadError)

namespace ByteReader

def step (br : ByteReader) : Op → Handed × ByteReader
  | .more => (.nothing,br.more.2)
  | .fill n => match br.fill n with
    | (.ok _,after) => (.nothing,after)
    | (.error why,after) => (.threw why,after)
  | .take n => match br.take n with
    | (.ok v,after) => (.bytes v,after)
    | (.error why,after) => (.threw why,after)
  | .skip n => match br.skipBytes n with
    | (.ok _,after) => (.skipped n,after)
    | (.error _,after) => (.ended,after)
  | .peek => match br.peek with
    | .ok b => (.byte b,br)
    | .error why => (.threw why,br)
  | .value => match br.tryValue with
    | (.ok (some v),after) => (.bytes v,after)
    | (.ok none,after) => (.nothing,after)
    | (.error why,after) => (.threw why,after)
  | .values n => match br.tryValues n with
    | (.ok (some v),after) => (.bytes v,after)
    | (.ok none,after) => (.nothing,after)
    | (.error why,after) => (.threw why,after)

def run (br : ByteReader) : List Op → List Handed × ByteReader
  | [] => ([],br)
  | op :: rest =>
    let (handed,after) := br.step op
    let (more,last) := after.run rest
    (handed :: more,last)

end ByteReader

-- How far into a body a reading leaves its reader.
def Handed.past (size c : Nat) : Handed → Nat
  | .bytes v => c+v.length
  | .skipped n => c+n
  | .ended => size
  | _ => c

-- A reading at a place hands out what the body has there.
def Handed.Of (body : Bytes) (c : Nat) : Handed → Prop
  | .bytes v => v = (body.drop c).take v.length ∧ c+v.length ≤ body.length
  | .byte b => body[c]? = some b
  | .skipped n => c+n ≤ body.length
  | _ => True

def Along (body : Bytes) : Nat → List Handed → Prop
  | _,[] => True
  | c,handed :: rest => handed.Of body c ∧ Along body (handed.past body.length c) rest

def pastAll (size c : Nat) (all : List Handed) : Nat := all.foldl (Handed.past size) c

-- A reader some bytes into a body.
structure Reads (body : Bytes) (base c : Nat) (br : ByteReader) : Prop where
  place : br.offset = base+c
  within : c ≤ body.length
  left : br.left = body.drop c
  honest : br.Honest

section Readings
variable {body : Bytes} {base c : Nat} {br : ByteReader}

theorem Reads.more (reads : Reads body base c br) : Reads body base c br.more.2 := by
  obtain ⟨left,place,honest,_⟩ := br.more_left reads.honest
  exact ⟨place.trans reads.place,reads.within,left.trans reads.left,honest⟩

theorem Reads.moves (reads : Reads body base c br) {place : Nat} (behind : br.pos ≤ place) (ahead : place ≤ br.len) :
    window br.buf place br.pos = (body.drop c).take (window br.buf place br.pos).length ∧
    c+(window br.buf place br.pos).length ≤ body.length ∧
    Reads body base (c+(window br.buf place br.pos).length) (br.moves place ahead) := by
  obtain ⟨cut,size,offset⟩ := br.moves_left behind ahead
  rw [reads.left] at cut
  have within : c+(window br.buf place br.pos).length ≤ body.length := by
    have := congrArg List.length cut
    rw [List.length_drop,List.length_append] at this
    have := reads.within
    omega
  refine ⟨by rw [cut,List.take_left],within,?_,within,?_,reads.honest⟩
  · rw [offset,reads.place,size]
    omega
  · rw [← List.drop_drop,cut,List.drop_left]

theorem Reads.fill (reads : Reads body base c br) (n : Nat) : Reads body base c (br.fill n).2 := by
  fun_induction ByteReader.fill br n with
  | case1 br few after refilled ih =>
    have next := reads.more
    rw [refilled] at next
    exact ih next
  | case2 br few after refilled =>
    have next := reads.more
    rw [refilled] at next
    exact next
  | case3 br enough => exact reads

theorem Reads.skip (reads : Reads body base c br) (n : Nat) : match br.skipBytes n with
    | (.ok _,after) => c+n ≤ body.length ∧ Reads body base (c+n) after
    | (.error _,after) => Reads body base body.length after := by
  fun_induction ByteReader.skipBytes br n generalizing c with
  | case1 br => exact ⟨reads.within,reads⟩
  | case2 br n some ahead =>
    obtain ⟨_,within,moved⟩ := reads.moves (Nat.le_add_right br.pos n) ahead
    rw [length_window (ahead.trans br.within.2),Nat.add_sub_cancel_left] at within moved
    exact ⟨within,moved⟩
  | case3 br n some few after refilled ih =>
    obtain ⟨_,_,moved⟩ := reads.moves br.within.1 le_rfl
    rw [length_window br.within.2] at moved
    have next := moved.more
    rw [refilled] at next
    have inner := ih next
    have within := br.within.1
    rw [show c+(br.len-br.pos)+(n-(br.len-br.pos)) = c+n by omega] at inner
    exact inner
  | case4 br n some few after refilled =>
    obtain ⟨_,_,moved⟩ := reads.moves br.within.1 le_rfl
    have next := moved.more
    obtain ⟨_,_,_,ended⟩ := (br.moves br.len le_rfl).more_left moved.honest
    rw [refilled] at next ended
    obtain ⟨_,none_,unread⟩ := ended rfl
    have empty : (br.moves br.len le_rfl).unread = [] := List.length_eq_zero_iff.mp (by rw [ByteReader.length_unread]; exact Nat.sub_self _)
    have left := next.left
    rw [ByteReader.left,unread,empty,none_] at left
    have all : c+(window br.buf br.len br.pos).length = body.length :=
      le_antisymm next.within (List.drop_eq_nil_iff.mp left.symm)
    rw [all] at next
    exact next

-- One reading, wherever the reader is.
theorem step_reads (reads : Reads body base c br) (op : Op) :
    (br.step op).1.Of body c ∧ Reads body base ((br.step op).1.past body.length c) (br.step op).2 := by
  cases op with
  | more => exact ⟨trivial,reads.more⟩
  | fill n =>
    have filled := reads.fill n
    unfold ByteReader.step
    dsimp only
    split
    · rename_i is
      rw [is] at filled
      exact ⟨trivial,filled⟩
    · rename_i is
      rw [is] at filled
      exact ⟨trivial,filled⟩
  | take n =>
    unfold ByteReader.step ByteReader.take
    dsimp only
    by_cases ahead : br.pos+n ≤ br.len
    · rw [dif_pos ahead]
      obtain ⟨is,within,moved⟩ := reads.moves (Nat.le_add_right br.pos n) ahead
      exact ⟨⟨is,within⟩,moved⟩
    · rw [dif_neg ahead]
      exact ⟨trivial,reads⟩
  | skip n =>
    have skipped := reads.skip n
    unfold ByteReader.step
    dsimp only
    split
    · rename_i is
      rw [is] at skipped
      exact skipped
    · rename_i is
      rw [is] at skipped
      exact ⟨trivial,skipped⟩
  | peek =>
    unfold ByteReader.step ByteReader.peek
    dsimp only
    by_cases none_ : br.len ≤ br.pos
    · rw [if_pos none_]
      exact ⟨trivial,reads⟩
    · rw [if_neg none_]
      refine ⟨?_,reads⟩
      have inside := br.within.2
      have here : br.unread[0]? = some (br.buf.getD br.pos 0) := by
        rw [ByteReader.unread,window,List.getElem?_drop,Nat.add_zero,List.getElem?_take_of_lt (by omega),
          List.getD_eq_getElem?_getD,List.getElem?_eq_getElem (by omega),Option.getD_some]
      have there : (br.unread++br.chunks.flatten)[0]? = some (br.buf.getD br.pos 0) := by
        rw [List.getElem?_append_left (by rw [ByteReader.length_unread]; omega)]
        exact here
      show body[c]? = _
      rw [← there]
      have left := reads.left
      rw [ByteReader.left] at left
      rw [left,List.getElem?_drop,Nat.add_zero]
  | value =>
    unfold ByteReader.step ByteReader.tryValue
    dsimp only
    split
    · rename_i v after is
      split at is
      · rename_i e measured
        cases is
        obtain ⟨up,low⟩ := ByteReader.measure_ahead measured
        obtain ⟨is,within,moved⟩ := reads.moves up.le low
        exact ⟨⟨is,within⟩,moved⟩
      · cases is
      · cases is
    · rename_i after is
      split at is
      · cases is
      · cases is
        exact ⟨trivial,reads⟩
      · cases is
    · rename_i why after is
      split at is
      · cases is
      · cases is
      · cases is
        exact ⟨trivial,reads⟩
  | values n =>
    unfold ByteReader.step ByteReader.tryValues
    dsimp only
    split
    · rename_i v after is
      split at is
      · rename_i e measured
        cases is
        obtain ⟨up,low⟩ := ByteReader.measures_ahead br.within.1 measured
        obtain ⟨is,within,moved⟩ := reads.moves up low
        exact ⟨⟨is,within⟩,moved⟩
      · cases is
      · cases is
    · rename_i after is
      split at is
      · cases is
      · cases is
        exact ⟨trivial,reads⟩
      · cases is
    · rename_i why after is
      split at is
      · cases is
      · cases is
      · cases is
        exact ⟨trivial,reads⟩

theorem run_reads (reads : Reads body base c br) (ops : List Op) :
    Along body c (br.run ops).1 ∧ Reads body base (pastAll body.length c (br.run ops).1) (br.run ops).2 := by
  induction ops generalizing c br with
  | nil => exact ⟨trivial,reads⟩
  | cons op rest ih =>
    obtain ⟨of_,next⟩ := step_reads reads op
    obtain ⟨along,last⟩ := ih next
    exact ⟨⟨of_,along⟩,last⟩

theorem opens_reads (chunks : List Bytes) (base : Nat) : Reads chunks.flatten base 0 (ByteReader.opens chunks base) :=
  ⟨rfl,Nat.zero_le _,rfl,nofun⟩

end Readings

-- A reading took a chunk from the stream, or left the buffer as it is.
def Kept (br after : ByteReader) : Prop := after.chunks.length < br.chunks.length ∨ after.chunks = br.chunks ∧ after.buf = br.buf

theorem kept_trans {a b c : ByteReader} (left : Kept a b) (right : Kept b c) : Kept a c := by
  rcases left with fewer | ⟨same,buf⟩
  · rcases right with fewer' | ⟨same',_⟩
    · exact .inl (fewer'.trans fewer)
    · exact .inl (by rw [same']; exact fewer)
  · rcases right with fewer' | ⟨same',buf'⟩
    · exact .inl (by rw [← same]; exact fewer')
    · exact .inr ⟨same'.trans same,buf'.trans buf⟩

theorem more_kept (br : ByteReader) : Kept br br.more.2 := by
  unfold ByteReader.more
  split
  · exact .inr ⟨rfl,rfl⟩
  · split
    · exact .inr ⟨rfl,rfl⟩
    · rename_i bring
      refine .inl ?_
      rw [bring]
      exact Nat.lt_succ_self _

theorem fill_kept (br : ByteReader) (n : Nat) : Kept br (br.fill n).2 := by
  fun_induction ByteReader.fill br n with
  | case1 br few after refilled ih =>
    have next := more_kept br
    rw [refilled] at next
    exact kept_trans next ih
  | case2 br few after refilled =>
    have next := more_kept br
    rwa [refilled] at next
  | case3 br enough => exact .inr ⟨rfl,rfl⟩

theorem skip_kept (br : ByteReader) (n : Nat) : Kept br (br.skipBytes n).2 := by
  fun_induction ByteReader.skipBytes br n with
  | case1 br => exact .inr ⟨rfl,rfl⟩
  | case2 br n some ahead => exact .inr ⟨rfl,rfl⟩
  | case3 br n some few after refilled ih =>
    have next := more_kept (br.moves br.len le_rfl)
    rw [refilled] at next
    exact kept_trans next ih
  | case4 br n some few after refilled =>
    have next := more_kept (br.moves br.len le_rfl)
    rwa [refilled] at next

theorem step_kept (br : ByteReader) (op : Op) : Kept br (br.step op).2 := by
  have still : Kept br br := .inr ⟨rfl,rfl⟩
  cases op with
  | more => exact more_kept br
  | fill n =>
    have filled := fill_kept br n
    unfold ByteReader.step
    dsimp only
    split <;> rename_i is <;> rwa [is] at filled
  | take n =>
    unfold ByteReader.step ByteReader.take
    dsimp only
    by_cases ahead : br.pos+n ≤ br.len
    · rw [dif_pos ahead]
      exact .inr ⟨rfl,rfl⟩
    · rw [dif_neg ahead]
      exact still
  | skip n =>
    have skipped := skip_kept br n
    unfold ByteReader.step
    dsimp only
    split <;> rename_i is <;> rwa [is] at skipped
  | peek =>
    unfold ByteReader.step
    dsimp only
    split <;> exact still
  | value =>
    have tried : Kept br br.tryValue.2 := by
      unfold ByteReader.tryValue
      split <;> exact .inr ⟨rfl,rfl⟩
    unfold ByteReader.step
    dsimp only
    split <;> rename_i is <;> rwa [is] at tried
  | values n =>
    have tried : Kept br (br.tryValues n).2 := by
      unfold ByteReader.tryValues
      split <;> exact .inr ⟨rfl,rfl⟩
    unfold ByteReader.step
    dsimp only
    split <;> rename_i is <;> rwa [is] at tried

-- What a reader of some chunks promises whatever is read of it: the offset is that of the bytes
-- read, what it hands out is what the body has there, and a view stands until a chunk is taken.
structure Faithful (chunks : List Bytes) (base : Nat) (ops : List Op) : Prop where
  offset : ((ByteReader.opens chunks base).run ops).2.offset =
    base+pastAll chunks.flatten.length 0 ((ByteReader.opens chunks base).run ops).1
  along : Along chunks.flatten 0 ((ByteReader.opens chunks base).run ops).1
  views : ∀ op, (((ByteReader.opens chunks base).run ops).2.step op).2.chunks = ((ByteReader.opens chunks base).run ops).2.chunks →
    (((ByteReader.opens chunks base).run ops).2.step op).2.buf = ((ByteReader.opens chunks base).run ops).2.buf

theorem opens_faithful (chunks : List Bytes) (base : Nat) (ops : List Op) : Faithful chunks base ops := by
  obtain ⟨along,reads⟩ := run_reads (opens_reads chunks base) ops
  refine ⟨reads.place,along,fun op same => ?_⟩
  rcases step_kept ((ByteReader.opens chunks base).run ops).2 op with fewer | ⟨_,buf⟩
  · rw [same] at fewer
    exact absurd fewer (lt_irrefl _)
  · exact buf

theorem told_all {fn : List StreamFrame → Bool} (on_ : ∀ given, fn given = true) (clean : Bool) (given frames_ : List StreamFrame) :
    told fn clean given frames_ = (given++frames_,if clean then .clean else .midFrame) := by
  induction frames_ generalizing given with
  | nil => rw [told,List.append_nil]
  | cons frame rest ih => rw [told,if_pos (on_ _),ih,List.append_assoc,List.singleton_append]

theorem chunking_alike {frames_ : List (Bytes × StreamFrame)} {tail : Bytes} (wholes : ∀ f ∈ frames_, Whole f.1 f.2)
    (cut : CutShort tail) {chunks : List Bytes} (body : chunks.flatten = (frames_.map Prod.fst).flatten++tail) (base : Nat) :
    (∀ fn, frames fn [] (.opens chunks base) = told fn (tail = []) [] (frames_.map Prod.snd)) ∧
    frames (fun _ => true) [] (.opens chunks base) = (frames_.map Prod.snd,if tail = [] then .clean else .midFrame) ∧
    ∀ ops, Faithful chunks base ops := by
  have any : ∀ fn, frames fn [] (.opens chunks base) = told fn (tail = []) [] (frames_.map Prod.snd) :=
    fun fn => frames_told cut wholes body nofun
  refine ⟨any,?_,opens_faithful chunks base⟩
  rw [any,told_all (fun _ => rfl)]
  simp

def liveFrame : Bytes := [0x92,0xa4,0x6c,0x69,0x76,0x65,0x05]

theorem liveFrame_whole : Whole liveFrame (.live 5) := ⟨by decide +kernel,by decide +kernel⟩

-- One frame and the start of another, in three chunks.
theorem chunking_alike_sample : frames (fun _ => true) [] (.opens [[0x92,0xa4],[0x6c,0x69,0x76,0x65,0x05,0x92],[0xa4,0x6c]] 7) =
    ([.live 5],.midFrame) :=
  (@chunking_alike [(liveFrame,.live 5)] [0x92,0xa4,0x6c] (by
      intro f member
      rw [List.mem_singleton.mp member]
      exact liveFrame_whole)
    (.inr ⟨.live 5,[0x69,0x76,0x65,0x05],by decide,liveFrame_whole⟩) _ rfl 7).2.1

end Cursor
end PhaseLock
