import PhaseLock.Msgpack

namespace PhaseLock
namespace Mp

-- What measure returns: the offset a value ends at, -1, or that it threw; and that it read an
-- offset where the buffer holds nothing.
inductive Measured where
  | whole (stop : Nat)
  | short
  | invalid
  | outside
deriving DecidableEq

inductive Lengths where
  | bytes | array | map
deriving DecidableEq

-- What a first byte says of its value: the bytes of its header and of its payload, the values it
-- holds, and the size of its length field and what that counts.
structure Lead where
  header : Nat := 1
  payload : Nat := 0
  children : Nat := 0
  lenBytes : Nat := 0
  kind : Lengths := .bytes
deriving DecidableEq

def leadOf (b : Nat) : Option Lead :=
  if b ≤ 0x7f ∨ 0xe0 ≤ b then some {}
  else if b ≤ 0x8f then some {children:=b%16*2}
  else if b ≤ 0x9f then some {children:=b%16}
  else if b ≤ 0xbf then some {payload:=b%32}
  else match b with
    | 0xc0 | 0xc2 | 0xc3 => some {}
    | 0xc4 | 0xd9 => some {lenBytes:=1}
    | 0xc5 | 0xda => some {lenBytes:=2}
    | 0xc6 | 0xdb => some {lenBytes:=4}
    | 0xc7 => some {lenBytes:=1,header:=3}
    | 0xc8 => some {lenBytes:=2,header:=4}
    | 0xc9 => some {lenBytes:=4,header:=6}
    | 0xca => some {payload:=4}
    | 0xcb => some {payload:=8}
    | 0xcc | 0xd0 => some {payload:=1}
    | 0xcd | 0xd1 => some {payload:=2}
    | 0xce | 0xd2 => some {payload:=4}
    | 0xcf | 0xd3 => some {payload:=8}
    | 0xd4 => some {payload:=2}
    | 0xd5 => some {payload:=3}
    | 0xd6 => some {payload:=5}
    | 0xd7 => some {payload:=9}
    | 0xd8 => some {payload:=17}
    | 0xdc => some {lenBytes:=2,kind:=.array}
    | 0xdd => some {lenBytes:=4,kind:=.array}
    | 0xde => some {lenBytes:=2,kind:=.map}
    | 0xdf => some {lenBytes:=4,kind:=.map}
    | _ => none

-- A big-endian unsigned integer of n bytes at pos, where the buffer holds them.
def be (buf : Bytes) (pos n : Nat) : Option Nat :=
  if pos+n ≤ buf.length then some (((buf.drop pos).take n).foldl (fun x b => x*256+b.toNat) 0) else none

-- A lead with its length field read.
def Lead.sized (lead : Lead) (n : Nat) : Lead :=
  let header := if lead.header = 1 then 1+lead.lenBytes else lead.header
  match lead.kind with
  | .array => {lead with
    header
    children:=n}
  | .map => {lead with
    header
    children:=n*2}
  | .bytes => {lead with
    header
    payload:=n}

-- The loop, with pending values still to end.  Each turn moves past a byte at least.
def measureFrom (buf : Bytes) (stop : Nat) : Nat → Nat → Nat → Measured
  | _,0,pos => .whole pos
  | 0,_+1,_ => .short
  | fuel+1,pending+1,pos =>
    if stop ≤ pos then .short
    else match buf[pos]? with
      | none => .outside
      | some b => match leadOf b.toNat with
        | none => .invalid
        | some lead =>
          let past := fun lead : Lead =>
            let pos := pos+lead.header+lead.payload
            if stop < pos then .short else measureFrom buf stop fuel (pending+lead.children) pos
          if lead.lenBytes = 0 then past lead
          else if stop < pos+1+lead.lenBytes then .short
          else match be buf (pos+1) lead.lenBytes with
            | none => .outside
            | some n => past (lead.sized n)

def measure (buf : Bytes) (pos stop : Nat) : Measured := measureFrom buf stop (stop-pos) 1 pos

-- Where a run of values ends: with the bytes after them, in them, or at a byte that starts none.
inductive Spanned where
  | whole (rest : Bytes)
  | short
  | invalid
deriving DecidableEq

def skip (n : Nat) (data : Bytes) : Option Bytes := if data.length < n then none else some (data.drop n)

def number (data : Bytes) : Nat := data.foldl (fun x b => x*256+b.toNat) 0

-- A length in its field, and the bytes after it.
def lengthOf (width : Nat) (data : Bytes) : Option (Nat × Bytes) :=
  (skip width data).map fun rest => (number (data.take width),rest)

-- What a value still holds after its first byte: the values in it, and the bytes it leaves.
def after (data : Bytes) : Head → Option (Nat × Bytes)
  | .nil | .bool _ | .uint _ | .int _ => some (0,data)
  | .str n => (skip n data).map fun rest => (0,rest)
  | .array n => some (n,data)
  | .map n => some (n*2,data)
  | .f32 => (skip 4 data).map fun rest => (0,rest)
  | .f64 => (skip 8 data).map fun rest => (0,rest)
  | .uintOf width | .intOf width => (skip width data).map fun rest => (0,rest)
  | .strOf width | .binOf width => (lengthOf width data).bind fun (n,data) => (skip n data).map fun rest => (0,rest)
  | .arrayOf width => lengthOf width data
  | .mapOf width => (lengthOf width data).map fun (n,rest) => (n*2,rest)
  | .extOf width => (lengthOf width data).bind fun (n,data) => (skip (n+1) data).map fun rest => (0,rest)
  | .ext n => (skip (n+1) data).map fun rest => (0,rest)

def spans : Nat → Nat → Bytes → Spanned
  | _,0,data => .whole data
  | 0,_+1,_ => .short
  | _+1,_+1,[] => .short
  | fuel+1,pending+1,b :: data => match headOf b.toNat with
    | none => .invalid
    | some head => match after data head with
      | none => .short
      | some (children,rest) => spans fuel (pending+children) rest

def span (pending : Nat) (data : Bytes) : Spanned := spans data.length pending data

theorem skip_length (made : skip n data = some rest) : rest.length+n = data.length := by
  unfold skip at made
  split_ifs at made with few
  cases made
  rw [List.length_drop]
  omega

theorem lengthOf_length (made : lengthOf width data = some (n,rest)) : rest.length+width = data.length := by
  unfold lengthOf at made
  obtain ⟨found,skipped,is⟩ := Option.map_eq_some_iff.mp made
  cases is
  exact skip_length skipped

-- Nothing after a first byte is longer than what followed it.
theorem after_length {head : Head} (made : after data head = some (children,rest)) : rest.length ≤ data.length := by
  have zero : ∀ {n : Nat} {data : Bytes}, ((skip n data).map fun rest => (0,rest)) = some (children,rest) →
      rest.length ≤ data.length := by
    intro n data made
    obtain ⟨found,skipped,is⟩ := Option.map_eq_some_iff.mp made
    cases is
    have := skip_length skipped
    omega
  have within : ∀ {width extra : Nat}, ((lengthOf width data).bind fun (n,data) =>
      (skip (n+extra) data).map fun rest => (0,rest)) = some (children,rest) → rest.length ≤ data.length := by
    intro width extra made
    obtain ⟨⟨n,later⟩,read,is⟩ := Option.bind_eq_some_iff.mp made
    have inside := zero is
    have := lengthOf_length read
    omega
  cases head with
  | nil | bool | uint | int | array | map =>
    cases made
    exact le_rfl
  | str | f32 | f64 | uintOf | intOf | ext => exact zero made
  | strOf width | binOf width => exact @within width 0 made
  | extOf width => exact @within width 1 made
  | arrayOf width =>
    have := lengthOf_length made
    omega
  | mapOf width =>
    obtain ⟨⟨n,later⟩,read,is⟩ := Option.map_eq_some_iff.mp made
    cases is
    have := lengthOf_length read
    omega

-- Fuel for every byte is enough.
theorem spans_fuel {f g : Nat} (first : data.length ≤ f) (second : data.length ≤ g) :
    spans f pending data = spans g pending data := by
  induction f generalizing g pending data with
  | zero =>
    have none : data = [] := List.length_eq_zero_iff.mp (by omega)
    subst none
    cases pending <;> cases g <;> rfl
  | succ f ih =>
    cases pending with
    | zero => cases g <;> rfl
    | succ pending =>
      cases data with
      | nil => cases g <;> rfl
      | cons b data =>
        rw [List.length_cons] at first second
        obtain ⟨g,rfl⟩ : ∃ k, g = k+1 := ⟨g-1,by omega⟩
        rw [spans,spans]
        cases headOf b.toNat with
        | none => rfl
        | some head =>
          dsimp only
          cases made : after data head with
          | none => rfl
          | some pair =>
            have shorter := after_length made
            exact ih (by omega) (by omega)

theorem span_zero (data : Bytes) : span 0 data = .whole data := by
  cases data <;> rfl

theorem span_cons (pending : Nat) (b : UInt8) (data : Bytes) : span (pending+1) (b :: data) = match headOf b.toNat with
    | none => .invalid
    | some head => match after data head with
      | none => .short
      | some (children,rest) => span (pending+children) rest := by
  unfold span
  rw [List.length_cons,spans]
  cases headOf b.toNat with
  | none => rfl
  | some head =>
    dsimp only
    cases made : after data head with
    | none => rfl
    | some pair => exact spans_fuel (after_length made) le_rfl

-- A byte at least for each value.
theorem span_pending (ends : span pending data = .whole rest) : pending+rest.length ≤ data.length := by
  generalize size : data.length = n
  induction n using Nat.strongRecOn generalizing pending data with
  | _ n ih =>
    cases pending with
    | zero =>
      rw [span_zero] at ends
      cases ends
      omega
    | succ pending =>
      cases data with
      | nil => cases ends
      | cons b data =>
        rw [span_cons] at ends
        rw [List.length_cons] at size
        split at ends
        · cases ends
        · split at ends
          · cases ends
          · rename_i made
            have shorter := after_length made
            have inner := ih _ (by omega) ends rfl
            omega

theorem skip_append (more : Bytes) (made : skip n data = some rest) : skip n (data++more) = some (rest++more) := by
  have size := skip_length made
  unfold skip at made ⊢
  rw [if_neg (by omega)] at made
  cases made
  rw [if_neg (by rw [List.length_append]; omega),List.drop_append_of_le_length (by omega)]

-- A text cut short of where its values end is short.
theorem after_append {head : Head} (more : Bytes) (made : after data head = some (children,rest)) :
    after (data++more) head = some (children,rest++more) := by
  have length : ∀ {width n : Nat} {data rest : Bytes}, lengthOf width data = some (n,rest) →
      lengthOf width (data++more) = some (n,rest++more) := by
    intro width n data rest read
    obtain ⟨found,skipped,is⟩ := Option.map_eq_some_iff.mp read
    cases is
    have size := skip_length skipped
    rw [lengthOf,skip_append more skipped,Option.map_some,List.take_append_of_le_length (by omega)]
  have zero : ∀ {n : Nat} {data : Bytes}, ((skip n data).map fun rest => (0,rest)) = some (children,rest) →
      ((skip n (data++more)).map fun rest => (0,rest)) = some (children,rest++more) := by
    intro n data made
    obtain ⟨found,skipped,is⟩ := Option.map_eq_some_iff.mp made
    cases is
    rw [skip_append more skipped]
    rfl
  have within : ∀ {width extra : Nat}, ((lengthOf width data).bind fun (n,data) =>
      (skip (n+extra) data).map fun rest => (0,rest)) = some (children,rest) →
      ((lengthOf width (data++more)).bind fun (n,data) =>
        (skip (n+extra) data).map fun rest => (0,rest)) = some (children,rest++more) := by
    intro width extra made
    obtain ⟨⟨n,later⟩,read,is⟩ := Option.bind_eq_some_iff.mp made
    rw [length read,Option.bind_some]
    exact zero is
  cases head with
  | nil | bool | uint | int | array | map =>
    cases made
    rfl
  | str | f32 | f64 | uintOf | intOf | ext => exact zero made
  | strOf width | binOf width => exact @within width 0 made
  | extOf width => exact @within width 1 made
  | arrayOf width => exact length made
  | mapOf width =>
    obtain ⟨⟨n,later⟩,read,is⟩ := Option.map_eq_some_iff.mp made
    cases is
    rw [after,length read]
    rfl

theorem span_short (ends : span pending (data++more) = .whole rest) (cut : rest.length < more.length) :
    span pending data = .short := by
  generalize size : data.length = n
  induction n using Nat.strongRecOn generalizing pending data with
  | _ n ih =>
    cases pending with
    | zero =>
      rw [span_zero] at ends
      cases ends
      rw [List.length_append] at cut
      omega
    | succ pending =>
      cases data with
      | nil => rfl
      | cons b data =>
        rw [List.cons_append,span_cons] at ends
        rw [List.length_cons] at size
        rw [span_cons]
        cases is : headOf b.toNat with
        | none => rw [is] at ends; cases ends
        | some head =>
          rw [is] at ends
          dsimp only at ends ⊢
          cases made : after data head with
          | none => rfl
          | some pair =>
            obtain ⟨children,later⟩ := pair
            rw [after_append more made] at ends
            have shorter := after_length made
            exact ih _ (by omega) ends rfl

def Spanned.measured (stop : Nat) : Spanned → Measured
  | .whole rest => .whole (stop-rest.length)
  | .short => .short
  | .invalid => .invalid

def Head.lead : Head → Lead
  | .nil | .bool _ | .uint _ | .int _ => {}
  | .str n => {payload:=n}
  | .array n => {children:=n}
  | .map n => {children:=n*2}
  | .f32 => {payload:=4}
  | .f64 => {payload:=8}
  | .uintOf width | .intOf width => {payload:=width}
  | .strOf width | .binOf width => {lenBytes:=width}
  | .arrayOf width => {lenBytes:=width,kind:=.array}
  | .mapOf width => {lenBytes:=width,kind:=.map}
  | .extOf width => {lenBytes:=width,header:=width+2}
  | .ext n => {payload:=n+1}

-- The client's table of first bytes is the server's.
theorem leadOf_head : ∀ c < 256, leadOf c = (headOf c).map Head.lead := by
  decide +kernel

section Window
variable {buf : Bytes} {stop : Nat}

def window (buf : Bytes) (stop pos : Nat) : Bytes := (buf.take stop).drop pos

theorem length_window (inside : stop ≤ buf.length) (pos : Nat) : (window buf stop pos).length = stop-pos := by
  simp [window,inside]

theorem skip_window (inside : stop ≤ buf.length) {pos : Nat} (before : pos ≤ stop) (n : Nat) :
    skip n (window buf stop pos) = if stop < pos+n then none else some (window buf stop (pos+n)) := by
  unfold skip
  rw [length_window inside]
  by_cases short : stop < pos+n
  · rw [if_pos (by omega),if_pos short]
  · rw [if_neg (by omega),if_neg short,window,List.drop_drop]
    rfl

theorem be_window (inside : stop ≤ buf.length) {pos n : Nat} (before : pos+n ≤ stop) :
    be buf pos n = some (number ((window buf stop pos).take n)) := by
  have same : (window buf stop pos).take n = (buf.drop pos).take n := by
    rw [window,List.drop_take,List.take_take]
    congr 1
    omega
  rw [be,if_pos (by omega),same]
  rfl

theorem lengthOf_window (inside : stop ≤ buf.length) {pos : Nat} (before : pos ≤ stop) (width : Nat) :
    lengthOf width (window buf stop pos) = if stop < pos+width then none
      else (be buf pos width).map fun n => (n,window buf stop (pos+width)) := by
  unfold lengthOf
  rw [skip_window inside before]
  split_ifs with short
  · rfl
  · rw [be_window inside (by omega)]
    rfl

-- What a lead leaves of a window, its length field read.
def leaves (buf : Bytes) (stop pos : Nat) (lead : Lead) : Option (Nat × Bytes) :=
  let pos := pos+lead.header+lead.payload
  if stop < pos then none else some (lead.children,window buf stop pos)

theorem leaves_at {lead : Lead} {pos place : Nat} (ends : pos+lead.header+lead.payload = place) (holds : lead.children = n) :
    leaves buf stop pos lead = if stop < place then none else some (n,window buf stop place) := by
  subst ends holds
  rfl

theorem after_window (inside : stop ≤ buf.length) {pos : Nat} (before : pos < stop) (head : Head) :
    after (window buf stop (pos+1)) head =
      if head.lead.lenBytes = 0 then leaves buf stop pos head.lead
      else if stop < pos+1+head.lead.lenBytes then none
      else (be buf (pos+1) head.lead.lenBytes).bind fun n => leaves buf stop pos (head.lead.sized n) := by
  have plain : ∀ {found : Option (Nat × Bytes)} {lead : Lead}, lead.lenBytes = 0 → found = leaves buf stop pos lead →
      found = if lead.lenBytes = 0 then leaves buf stop pos lead
        else if stop < pos+1+lead.lenBytes then none
        else (be buf (pos+1) lead.lenBytes).bind fun n => leaves buf stop pos (lead.sized n) := by
    intro found lead none is
    rw [if_pos none,is]
  have payload : ∀ n, ((skip n (window buf stop (pos+1))).map fun rest => (0,rest)) = leaves buf stop pos {payload:=n} := by
    intro n
    rw [skip_window inside (by omega),leaves]
    split_ifs <;> rfl
  have counted : ∀ children, some (children,window buf stop (pos+1)) = leaves buf stop pos {children} := by
    intro children
    rw [leaves,if_neg (by dsimp only; omega)]
    rfl
  -- a length field, and then what it counts
  have sized : ∀ {lead : Lead} (found : Nat → Bytes → Option (Nat × Bytes)),
      (∀ n, stop ≥ pos+1+lead.lenBytes → found n (window buf stop (pos+1+lead.lenBytes)) = leaves buf stop pos (lead.sized n)) →
      (lead.lenBytes = 0 → leaves buf stop pos (lead.sized 0) = leaves buf stop pos lead) →
      ((lengthOf lead.lenBytes (window buf stop (pos+1))).bind fun (n,rest) => found n rest) =
        if lead.lenBytes = 0 then leaves buf stop pos lead
        else if stop < pos+1+lead.lenBytes then none
        else (be buf (pos+1) lead.lenBytes).bind fun n => leaves buf stop pos (lead.sized n) := by
    intro lead found each zero
    rw [lengthOf_window inside (by omega)]
    by_cases short : stop < pos+1+lead.lenBytes
    · have some : lead.lenBytes ≠ 0 := by omega
      rw [if_pos short,if_neg some,if_pos short]
      rfl
    · rw [if_neg short,be_window inside (by omega),Option.map_some,Option.bind_some]
      dsimp only
      rw [each _ (by omega)]
      by_cases none : lead.lenBytes = 0
      · rw [if_pos none,← zero none,none]
        rfl
      · rw [if_neg none,if_neg short,Option.bind_some]
  cases head with
  | nil | bool | uint | int => exact plain rfl (counted 0)
  | str n => exact plain rfl (payload n)
  | array n => exact plain rfl (counted n)
  | map n => exact plain rfl (counted (n*2))
  | f32 => exact plain rfl (payload 4)
  | f64 => exact plain rfl (payload 8)
  | uintOf width | intOf width => exact plain rfl (payload width)
  | strOf width | binOf width =>
    refine @sized {lenBytes:=width} (fun n data => (skip n data).map fun rest => (0,rest)) (fun n enough => ?_) ?_
    · have place : pos+(1+width)+n = pos+1+width+n := by omega
      rw [skip_window inside enough,leaves_at place rfl]
      split_ifs <;> rfl
    · rintro rfl
      rfl
  | arrayOf width =>
    have each : ∀ n, stop ≥ pos+1+width → some (n,window buf stop (pos+1+width)) =
        leaves buf stop pos (({lenBytes:=width,kind:=.array} : Lead).sized n) := by
      intro n enough
      have place : pos+(1+width)+0 = pos+1+width := by omega
      rw [leaves_at place rfl,if_neg (by omega)]
      rfl
    have read := @sized {lenBytes:=width,kind:=.array} (fun n data => some (n,data)) each (by rintro rfl; rfl)
    exact Eq.trans (Option.bind_fun_some _).symm read
  | mapOf width =>
    have each : ∀ n, stop ≥ pos+1+width → some (n*2,window buf stop (pos+1+width)) =
        leaves buf stop pos (({lenBytes:=width,kind:=.map} : Lead).sized n) := by
      intro n enough
      have place : pos+(1+width)+0 = pos+1+width := by omega
      rw [leaves_at place rfl,if_neg (by omega)]
      rfl
    have read := @sized {lenBytes:=width,kind:=.map} (fun n data => some (n*2,data)) each (by rintro rfl; rfl)
    exact Eq.trans Option.map_eq_bind read
  | extOf width =>
    refine @sized {lenBytes:=width,header:=width+2} (fun n data => (skip (n+1) data).map fun rest => (0,rest)) (fun n enough => ?_) ?_
    · have place : pos+(({lenBytes:=width,header:=width+2} : Lead).sized n).header+n = pos+1+width+(n+1) := by
        show pos+(if width+2 = 1 then 1+width else width+2)+n = _
        rw [if_neg (by omega)]
        omega
      rw [skip_window inside enough,leaves_at place rfl]
      dsimp only
      split_ifs <;> rfl
    · rintro rfl
      rfl
  | ext n => exact plain rfl (payload (n+1))

theorem measureFrom_span (inside : stop ≤ buf.length) {fuel pending pos : Nat} (before : pos ≤ stop) (enough : stop-pos ≤ fuel) :
    measureFrom buf stop fuel pending pos = (span pending (window buf stop pos)).measured stop := by
  induction fuel generalizing pending pos with
  | zero =>
    have done : window buf stop pos = [] := List.length_eq_zero_iff.mp (by rw [length_window inside]; omega)
    cases pending with
    | zero =>
      rw [measureFrom,span_zero,Spanned.measured,length_window inside]
      congr 1
      omega
    | succ pending =>
      rw [measureFrom,done]
      rfl
  | succ fuel ih =>
    cases pending with
    | zero =>
      rw [measureFrom,span_zero,Spanned.measured,length_window inside]
      congr 1
      omega
    | succ pending =>
      rw [measureFrom]
      by_cases ended : stop ≤ pos
      · have done : window buf stop pos = [] := List.length_eq_zero_iff.mp (by rw [length_window inside]; omega)
        rw [if_pos ended,done]
        rfl
      · have here : buf[pos]? = some buf[pos] := List.getElem?_eq_getElem (by omega)
        have first : window buf stop pos = buf[pos] :: window buf stop (pos+1) := by
          rw [window,List.drop_eq_getElem_cons (by rw [List.length_take]; omega),List.getElem_take]
          rfl
        rw [if_neg ended,here,first,span_cons]
        have small : buf[pos].toNat < 256 := buf[pos].toNat_lt
        dsimp only
        rw [leadOf_head _ small]
        cases headOf buf[pos].toNat with
        | none => rfl
        | some head =>
          rw [Option.map_some]
          dsimp only
          have past : ∀ lead : Lead, 1 ≤ lead.header →
              (if stop < pos+lead.header+lead.payload then Measured.short
                else measureFrom buf stop fuel (pending+lead.children) (pos+lead.header+lead.payload)) =
              (match leaves buf stop pos lead with
                | none => Spanned.short
                | some (children,rest) => span (pending+children) rest).measured stop := by
            intro lead forward
            unfold leaves
            dsimp only
            split_ifs with short
            · rfl
            · exact ih (by omega) (by omega)
          have forward : 1 ≤ head.lead.header := by cases head <;> simp [Head.lead]
          rw [after_window inside (by omega)]
          by_cases plain : head.lead.lenBytes = 0
          · rw [if_pos plain,if_pos plain]
            exact past head.lead forward
          · rw [if_neg plain,if_neg plain]
            by_cases short : stop < pos+1+head.lead.lenBytes
            · rw [if_pos short,if_pos short]
              rfl
            · rw [if_neg short,if_neg short,be_window inside (by omega),Option.bind_some]
              refine past (head.lead.sized _) ?_
              unfold Lead.sized
              cases head.lead.kind <;> dsimp only <;> split_ifs <;> omega

end Window

-- What the parser reads of n values is what a span of n values takes; where it stops short
-- of nesting too deep, no span of them ends.
def Spans (n : Nat) (data : Bytes) {α : Type} : Except ParseError (α × Parser) → Prop
  | .ok (_,p) => p.left = none ∧ ∀ pending, span (pending+n) data = span pending p.data
  | .error .tooDeep => True
  | .error _ => ∀ pending rest, span (pending+n) data ≠ .whole rest

theorem Spans.here (x : α) (data : Bytes) : Spans 0 data (.ok (x,⟨data,none⟩)) := ⟨rfl,fun _ => rfl⟩

theorem Spans.bind {read : Except ParseError (α × Parser)} {next : α × Parser → Except ParseError (β × Parser)}
    (first : Spans n data read) (then_ : ∀ x rest, read = .ok (x,⟨rest,none⟩) → Spans m rest (next (x,⟨rest,none⟩))) :
    Spans (m+n) data (read >>= next) := by
  cases read with
  | error e => cases e with
    | tooDeep => trivial
    | truncated | invalid | tooBig =>
      intro pending rest
      rw [← Nat.add_assoc]
      exact first (pending+m) rest
  | ok pair =>
    obtain ⟨x,⟨rest,left⟩⟩ := pair
    obtain ⟨none,same⟩ := first
    cases none
    have later := then_ x rest rfl
    show Spans (m+n) data (next (x,⟨rest,none⟩))
    cases made : next (x,⟨rest,none⟩) with
    | error e =>
      rw [made] at later
      cases e with
      | tooDeep => trivial
      | truncated | invalid | tooBig =>
        intro pending last
        rw [← Nat.add_assoc,same]
        exact later pending last
    | ok pair =>
      rw [made] at later
      refine ⟨later.1,fun pending => ?_⟩
      rw [← Nat.add_assoc,same]
      exact later.2 pending

theorem Spans.map {read : Except ParseError (α × Parser)} (first : Spans n data read) (f : α → β) :
    Spans n data (read >>= fun x => pure (f x.1,x.2)) := by
  have both := (first.bind fun x rest _ => Spans.here (f x) rest : Spans (0+n) data (read >>= fun x => pure (f x.1,x.2)))
  rwa [Nat.zero_add] at both

theorem Spans.many {read : Parser → Except ParseError (α × Parser)} (each : ∀ data, Spans n data (read ⟨data,none⟩))
    (k : Nat) (data : Bytes) : Spans (k*n) data (Parser.many read k ⟨data,none⟩) := by
  induction k generalizing data with
  | zero =>
    rw [Nat.zero_mul]
    exact Spans.here _ _
  | succ k ih =>
    rw [Nat.succ_mul]
    exact (each data).bind fun x rest _ => (ih rest).map (x :: ·)

theorem spans_few {n : Nat} (few : data.length < n) : Spans n data (.error .truncated : Except ParseError (α × Parser)) := by
  intro pending rest ends
  have := span_pending ends
  omega

theorem take_skip (n : Nat) (data : Bytes) : (⟨data,none⟩ : Parser).take n = match skip n data with
    | none => .error .truncated
    | some rest => .ok (data.take n,⟨rest,none⟩) := by
  unfold Parser.take skip
  dsimp only
  split_ifs <;> rfl

theorem be_lengthOf (n : Nat) (data : Bytes) : (⟨data,none⟩ : Parser).be n = match lengthOf n data with
    | none => .error .truncated
    | some (v,rest) => .ok (v,⟨rest,none⟩) := by
  unfold Parser.be lengthOf
  rw [take_skip]
  cases skip n data <;> rfl

-- A type byte, and n bytes of payload.
theorem ext_skip (n : Nat) (data : Bytes) : match skip (n+1) data with
    | none => Parser.ext n ⟨data,none⟩ = .error .truncated
    | some rest => ∃ node, Parser.ext n ⟨data,none⟩ = .ok (node,⟨rest,none⟩) := by
  cases data with
  | nil => rfl
  | cons t data =>
    have later : skip (n+1) (t :: data) = skip n data := by
      unfold skip
      rw [List.length_cons,List.drop_succ_cons]
      split_ifs <;> first | rfl | omega
    have first : (⟨t :: data,none⟩ : Parser).be 1 = .ok (t.toNat,⟨data,none⟩) := by
      rw [be_lengthOf]
      simp [lengthOf,skip,number]
    rw [later,Parser.ext,first]
    show match skip n data with
      | none => ((⟨data,none⟩ : Parser).take n >>= _) = _
      | some rest => ∃ node, ((⟨data,none⟩ : Parser).take n >>= _) = _
    rw [take_skip]
    cases skip n data with
    | none => rfl
    | some rest => exact ⟨_,rfl⟩

section Body
variable {value : Parser → Except ParseError (Node × Parser)} (each : ∀ data, Spans 1 data (value ⟨data,none⟩))
include each

theorem spans_array (n : Nat) (data : Bytes) : Spans n data (Parser.arrayN value n ⟨data,none⟩) := by
  unfold Parser.arrayN
  split_ifs with few
  · exact spans_few few
  · have items := Spans.many each n data
    rw [Nat.mul_one] at items
    exact items.map Node.array

theorem spans_map (n : Nat) (data : Bytes) : Spans (n*2) data (Parser.mapN value n ⟨data,none⟩) := by
  unfold Parser.mapN
  split_ifs with few
  · exact spans_few (by dsimp only at few; omega)
  · refine (Spans.many (fun data => ?_) n data).map Node.map
    exact (each data).bind fun k rest _ => (each rest).map (k,·)

-- After a first byte, a value's body takes what the byte says is left.
theorem spans_body (data : Bytes) (head : Head) : match after data head with
    | none => Parser.body value ⟨data,none⟩ head = .error .truncated
    | some (children,rest) => Spans children rest (Parser.body value ⟨data,none⟩ head) := by
  cases head with
  | nil | bool | uint | int => exact Spans.here _ _
  | array n => exact spans_array each n data
  | map n => exact spans_map each n data
  | str n =>
    rw [after,Parser.body,take_skip]
    cases skip n data with
    | none => rfl
    | some rest => exact Spans.here _ _
  | f32 =>
    rw [after,Parser.body,be_lengthOf,lengthOf]
    cases skip 4 data with
    | none => rfl
    | some rest => exact Spans.here _ _
  | f64 =>
    rw [after,Parser.body,be_lengthOf,lengthOf]
    cases skip 8 data with
    | none => rfl
    | some rest => exact Spans.here _ _
  | uintOf width | intOf width =>
    rw [after,Parser.body,be_lengthOf,lengthOf]
    cases skip width data with
    | none => rfl
    | some rest => exact Spans.here _ _
  | strOf width | binOf width =>
    rw [after,Parser.body,be_lengthOf]
    cases lengthOf width data with
    | none => rfl
    | some pair =>
      obtain ⟨n,data⟩ := pair
      show match (skip n data).map fun rest => (0,rest) with
        | none => ((⟨data,none⟩ : Parser).take n >>= _) = _
        | some (children,rest) => Spans children rest ((⟨data,none⟩ : Parser).take n >>= _)
      rw [take_skip]
      cases skip n data with
      | none => rfl
      | some rest => exact Spans.here _ _
  | arrayOf width =>
    rw [after,Parser.body,be_lengthOf]
    cases lengthOf width data with
    | none => rfl
    | some pair => exact spans_array each pair.1 pair.2
  | mapOf width =>
    rw [after,Parser.body,be_lengthOf]
    cases lengthOf width data with
    | none => rfl
    | some pair => exact spans_map each pair.1 pair.2
  | extOf width =>
    rw [after,Parser.body,be_lengthOf]
    cases lengthOf width data with
    | none => rfl
    | some pair =>
      obtain ⟨n,data⟩ := pair
      have read := ext_skip n data
      show match (skip (n+1) data).map fun rest => (0,rest) with
        | none => Parser.ext n ⟨data,none⟩ = _
        | some (children,rest) => Spans children rest (Parser.ext n ⟨data,none⟩)
      cases made : skip (n+1) data with
      | none => rw [made] at read; exact read
      | some rest =>
        rw [made] at read
        obtain ⟨node,is⟩ := read
        rw [is]
        exact Spans.here _ _
  | ext n =>
    have read := ext_skip n data
    rw [after,Parser.body]
    cases made : skip (n+1) data with
    | none => rw [made] at read; exact read
    | some rest =>
      rw [made] at read
      obtain ⟨node,is⟩ := read
      rw [is]
      exact Spans.here _ _

end Body

theorem value_spans (levels : Nat) (data : Bytes) : Spans 1 data (Parser.value levels ⟨data,none⟩) := by
  induction levels generalizing data with
  | zero => trivial
  | succ levels ih =>
    rw [Parser.value,if_neg (by simp)]
    cases data with
    | nil => exact fun pending rest ends => by cases ends
    | cons b data =>
      have first : (⟨b :: data,none⟩ : Parser).be 1 = .ok (b.toNat,⟨data,none⟩) := by
        rw [be_lengthOf]
        simp [lengthOf,skip,number]
      simp only [Option.map_none]
      rw [first]
      simp only [bind,Except.bind]
      have step := fun pending => span_cons pending b data
      cases is : headOf b.toNat with
      | none =>
        intro pending rest ends
        rw [step,is] at ends
        cases ends
      | some head =>
        rw [is] at step
        have inner := spans_body ih data head
        dsimp only at step ⊢
        cases left : after data head with
        | none =>
          rw [left] at inner step
          rw [inner]
          intro pending rest ends
          rw [step] at ends
          cases ends
        | some pair =>
          obtain ⟨children,rest⟩ := pair
          rw [left] at inner step
          dsimp only at inner step
          cases made : Parser.body (Parser.value levels) ⟨data,none⟩ head with
          | ok read =>
            rw [made] at inner
            exact ⟨inner.1,fun pending => (step pending).trans (inner.2 pending)⟩
          | error e =>
            rw [made] at inner
            cases e with
            | tooDeep => trivial
            | truncated | invalid | tooBig =>
              intro pending last ends
              rw [step] at ends
              exact inner pending last ends

-- A value's extent is its span.
theorem span_parse {data : Bytes} (deep : parse data ≠ .error .tooDeep) (rest : Bytes) :
    span 1 data = .whole rest ↔ ∃ node, parse data = .ok (node,rest) := by
  have read := value_spans (maxParseDepth+1) data
  have is : parse data = (Parser.value (maxParseDepth+1) ⟨data,none⟩).map fun x => (x.1,x.2.data) := by
    rw [parse,parseLimited]
    cases Parser.value (maxParseDepth+1) ⟨data,none⟩ <;> rfl
  rw [is] at deep ⊢
  cases made : Parser.value (maxParseDepth+1) ⟨data,none⟩ with
  | ok pair =>
    rw [made] at read
    have whole := read.2 0
    rw [span_zero] at whole
    rw [Nat.zero_add] at whole
    rw [whole]
    constructor
    · intro ends
      cases ends
      exact ⟨pair.1,rfl⟩
    · rintro ⟨node,is⟩
      cases is
      rfl
  | error e =>
    rw [made] at read deep
    constructor
    · intro ends
      cases e with
      | tooDeep => exact absurd rfl deep
      | truncated | invalid | tooBig => exact absurd ends (read 0 rest)
    · rintro ⟨node,is⟩
      cases is

section Exact
variable {buf : Bytes} {pos stop : Nat}

theorem measure_span (inside : stop ≤ buf.length) : measure buf pos stop = (span 1 (window buf stop pos)).measured stop := by
  rcases Nat.lt_or_ge stop pos with beyond | before
  · have none : window buf stop pos = [] := List.length_eq_zero_iff.mp (by rw [length_window inside]; omega)
    have zero : stop-pos = 0 := by omega
    rw [measure,zero,none]
    rfl
  · exact measureFrom_span inside before le_rfl

-- Measure returns the end of the value the server's parser accepts, and no other.
theorem measure_parse (inside : stop ≤ buf.length) (deep : parse (window buf stop pos) ≠ .error .tooDeep) (e : Nat) :
    measure buf pos stop = .whole e ↔ ∃ node rest, parse (window buf stop pos) = .ok (node,rest) ∧ e+rest.length = stop := by
  have agree := span_parse deep
  rw [measure_span inside]
  constructor
  · intro ends
    cases made : span 1 (window buf stop pos) with
    | whole rest =>
      rw [made] at ends
      cases ends
      obtain ⟨node,ok⟩ := (agree rest).mp made
      have left := span_pending made
      rw [length_window inside] at left
      exact ⟨node,rest,ok,by omega⟩
    | short | invalid => rw [made] at ends; cases ends
  · rintro ⟨node,rest,ok,ends⟩
    rw [(agree rest).mpr ⟨node,ok⟩,Spanned.measured]
    congr 1
    omega

-- It answers -1 where the end it is given cuts the value short.
theorem measure_short {node : Node} {rest : Bytes} (ok : parse (buf.drop pos) = .ok (node,rest))
    (cut : stop+rest.length < buf.length) : measure buf pos stop = .short := by
  have whole : span 1 (buf.drop pos) = .whole rest := (span_parse (by rw [ok]; exact nofun) rest).mpr ⟨node,ok⟩
  rw [measure_span (by omega)]
  rcases Nat.lt_or_ge stop pos with beyond | before
  · have none : window buf stop pos = [] := List.length_eq_zero_iff.mp (by rw [length_window (by omega)]; omega)
    rw [none]
    rfl
  · have parts : buf.drop pos = window buf stop pos++buf.drop stop := by
      rw [window,← List.drop_append_of_le_length (by rw [List.length_take]; omega),List.take_append_drop]
    rw [parts] at whole
    rw [span_short whole (by rw [List.length_drop]; omega)]
    rfl

-- It reads no byte at or past the end it is given.
theorem measure_inside (pos : Nat) (inside : stop ≤ buf.length) :
    measure (buf.take stop) pos stop = measure buf pos stop ∧ measure buf pos stop ≠ .outside := by
  have same : window (buf.take stop) stop pos = window buf stop pos := by rw [window,List.take_take,Nat.min_self,window]
  rw [measure_span inside,measure_span (by rw [List.length_take]; omega),same]
  refine ⟨rfl,?_⟩
  cases span 1 (window buf stop pos) <;> exact nofun

end Exact

end Mp
end PhaseLock
