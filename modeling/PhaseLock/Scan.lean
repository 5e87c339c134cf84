import PhaseLock.Wire
import PhaseLock.Texts
import PhaseLock.SkipScan

namespace PhaseLock

-- A match on one template parameter: any value, exactly one, the values starting with a
-- text, or a range of values.
inductive ParamMatch (τ : Type) where
  | any
  | eq (value : τ)
  | starts (text : τ)
  | range (gte gt lte lt : Option τ)
deriving DecidableEq

inductive SliceMatch (τ : Type) where
  | named (slice : τ)
  | family (family : τ) (params : List (ParamMatch τ))
deriving DecidableEq

-- A pattern picks out keys of one template by a match on each of its parameters: of one
-- slice, a family's slices or every slice, and of one local template or every local key.
structure KeyPattern (τ : Type) where
  slice : Option (SliceMatch τ)
  name : Option τ
  locals : List (ParamMatch τ)
deriving DecidableEq

instance byteOrder : LinearOrder UInt8 where
  le_refl a := UInt8.le_refl a
  le_trans _ _ _ := UInt8.le_trans
  lt_iff_le_not_ge a b := by rw [UInt8.not_le]; exact ⟨fun less => ⟨UInt8.le_of_lt less,less⟩,And.right⟩
  le_antisymm _ _ := UInt8.le_antisymm
  le_total a b := UInt8.le_total a b
  toDecidableLE := inferInstance
  toDecidableLT := inferInstance
  toDecidableEq := inferInstance

-- The exclusive upper bound of the keys sharing a text, its last byte incremented past any
-- trailing 0xff bytes.
def prefixBound (text : Bytes) : Option Bytes :=
  match text.reverse.dropWhile (· = 0xff) with
  | [] => none
  | last :: before => some (before.reverse++[last+1])

namespace Scan

-- A value field: its bounds, and the separator after it, 0 after the last one of a key.
structure ValueField where
  lo : Option Bytes := none
  hi : Option Bytes := none
  loOpen : Bool := false
  hiOpen : Bool := false
  single : Bool := false
  sep : UInt8
deriving DecidableEq

inductive Field where
  | literal (lit litBound : Bytes) (whole : Bool)
  | value (f : ValueField)
deriving DecidableEq

structure Pattern where
  head : Bytes
  fields : List Field
  named : Bool
deriving DecidableEq

def comma : UInt8 := 0x2c
def bang : UInt8 := 0x21
def colon : UInt8 := 0x3a

-- A range keeps the tighter of each pair of bounds it gives.
def valueField (m : ParamMatch Bytes) (sep : UInt8) : ValueField :=
  match m with
  | .any => {sep:=sep}
  | .eq value => {lo:=some value,hi:=some value,single:=true,sep:=sep}
  | .starts text => if text = [] then {sep:=sep} else {lo:=some text,hi:=prefixBound text,hiOpen:=true,sep:=sep}
  | .range gte gt lte lt =>
    let low := match gt with
      | some g => if gte.all (· ≤ g) then (some g,true) else (gte,false)
      | none => (gte,false)
    let high := match lt with
      | some l => if lte.all (l ≤ ·) then (some l,true) else (lte,false)
      | none => (lte,false)
    {lo:=low.1,loOpen:=low.2,hi:=high.1,hiOpen:=high.2,sep:=sep}

def valueFields (sep last : UInt8) : List (ParamMatch Bytes) → List Field
  | [] => []
  | [m] => [.value (valueField m last)]
  | m :: more => .value (valueField m sep) :: valueFields sep last more

def sliceFields : SliceMatch Bytes → Bytes × List Field
  | .named slice => (slice++[bang],[])
  | .family family params =>
    (family++[if params.isEmpty then bang else colon],valueFields comma bang params)

def nameField (name : Bytes) (params : Bool) : Field :=
  let lit := if params then name++[colon] else name
  .literal lit ((prefixBound lit).getD []) (!params)

def fromJs (kp : KeyPattern Bytes) : Except String Pattern :=
  match kp.slice with
  | none =>
    if kp.name.isSome || !kp.locals.isEmpty then .error "a pattern over every slice picks out every local key"
    else .ok ⟨[],[],false⟩
  | some slice =>
    let (head,fields) := sliceFields slice
    match kp.name with
    | none =>
      if kp.locals.isEmpty then .ok ⟨head,fields,false⟩ else .error "a pattern over every local key matches no parameter"
    | some name => .ok ⟨head,fields++nameField name (!kp.locals.isEmpty) :: valueFields comma 0 kp.locals,true⟩

-- Where a key stands against a pattern, for a walk one way.
inductive Place where
  | found
  | step
  | done
  | seek (target : Bytes) (strict : Bool)
deriving DecidableEq

-- A seek's target is the key's text up to a place, then text the pattern holds, then a
-- character when there is one.
def seekTo (key : Bytes) (upTo : Nat) (tail : Bytes) (extra : Option UInt8) (strict : Bool) : Place :=
  .seek (key.take upTo++tail++extra.toList) strict

-- Past every key holding the value of the nearest varying field before the one placed.
def skipBack (key : Bytes) (reverse : Bool) : Option (Nat × UInt8) → Place
  | none => .done
  | some (stop,sep) => if reverse then seekTo key (stop+1) [] none true else seekTo key stop [] (some (sep+1)) false

-- A value runs to its separator, or to the key's end.
def valueText (sep : UInt8) (rest : Bytes) : Bytes := if sep = 0 then rest else rest.takeWhile (· ≠ sep)
def cutShort (sep : UInt8) (rest : Bytes) : Bool := sep ≠ 0 && sep ∉ rest

-- The bound a value is short of, or past.
def ValueField.under (f : ValueField) (v : Bytes) : Option Bytes := f.lo.filter (fun lo => v < lo || v = lo && f.loOpen)
def ValueField.beyond (f : ValueField) (v : Bytes) : Option Bytes := f.hi.filter (fun hi => hi < v || v = hi && f.hiOpen)

-- The first field outside its match decides: a field short of its match seeks to where the
-- match begins, and one past it seeks past every key holding the value of the nearest
-- varying field before it, or ends the walk when there is none.
def placeFields (reverse : Bool) (key : Bytes) : List Field → Nat → Option (Nat × UInt8) → Place
  | [], _, _ => .found
  | .literal lit litBound whole :: more, pos, back =>
    if lit <+: key.drop pos ∧ (whole = true → key.length = pos+lit.length) then
      placeFields reverse key more (pos+lit.length) back
    else if key.drop pos < lit then if reverse then skipBack key reverse back else seekTo key pos lit none false
    else if !reverse then skipBack key reverse back
    else if whole then seekTo key pos lit none false
    else seekTo key pos litBound none true
  | .value f :: more, pos, back =>
    let v := valueText f.sep (key.drop pos)
    match f.under v with
    | some lo =>
      if reverse then skipBack key reverse back
      else if !f.loOpen then seekTo key pos lo none false
      else if f.sep = 0 then seekTo key pos lo none true
      else seekTo key pos lo (some (f.sep+1)) false
    | none => match f.beyond v with
      | some hi =>
        if !reverse then skipBack key reverse back
        else if f.hiOpen then seekTo key pos hi none true
        else if f.sep = 0 then seekTo key pos hi none false
        else seekTo key pos hi (some (f.sep+1)) true
      | none =>
        -- inside its match, but a key that ends here holds none of the fields after it
        if cutShort f.sep (key.drop pos) then .step
        else placeFields reverse key more (pos+v.length+if f.sep = 0 then 0 else 1)
          (if f.single then back else some (pos+v.length,f.sep))

def Pattern.place (p : Pattern) (key : Bytes) (reverse : Bool) : Place :=
  if p.head <+: key then placeFields reverse key p.fields p.head.length none else .done

def Pattern.picks (p : Pattern) (key : Bytes) : Bool := p.place key false = .found

-- Whether the walk has reached a seek's target with the cursor at a key.
def past (target : Bytes) (strict : Bool) (key : Bytes) (reverse : Bool) : Bool :=
  if reverse then key < target || target = key && !strict else target < key || key = target && !strict

variable {ν σ : Type}

-- The store's rows from the cursor on, one way.
def ahead (rows : List (Bytes × ν)) (reverse : Bool) : List (Bytes × ν) := if reverse then rows.reverse else rows

def Cursor.seek (rows : List (Bytes × ν)) (reverse : Bool) (target : Option Bytes) (strict : Bool) : List (Bytes × ν) :=
  match target,reverse,strict with
  | none,_,_ => ahead rows reverse
  | some t,false,false => (ahead rows reverse).dropWhile (fun row => row.1 < t)
  | some t,false,true => (ahead rows reverse).dropWhile (fun row => row.1 ≤ t)
  | some t,true,false => (ahead rows reverse).dropWhile (fun row => t < row.1)
  | some t,true,true => (ahead rows reverse).dropWhile (fun row => t ≤ row.1)

-- What a walk's visit answers for a key.
inductive Visit where
  | next
  | stop
  | fail
deriving DecidableEq

-- Steps toward a target, a budget's worth at most; none when it is still ahead then.
def toward (target : Bytes) (strict reverse : Bool) : Nat → List (Bytes × ν) → Option (List (Bytes × ν))
  | 0, _ => none
  | _+1, [] => some []
  | budget+1, row :: rest => if past target strict row.1 reverse then some (row :: rest) else toward target strict reverse budget rest

-- The walk from a place of the cursor on.  A walk ends well, or with its visit's failure,
-- and either way with what its visits left.
def walkFrom (rows : List (Bytes × ν)) (p : Pattern) (reverse : Bool) (budget : Nat)
    (visit : Bytes → ν → σ → Visit × σ) : Nat → List (Bytes × ν) → σ → Option (Except String Unit × σ)
  | 0, _, _ => none
  | _+1, [], s => some (.ok (),s)
  | fuel+1, row :: rest, s => match p.place row.1 reverse with
    | .done => some (.ok (),s)
    | .found => match visit row.1 row.2 s with
      | (.next,s') => walkFrom rows p reverse budget visit fuel rest s'
      | (.stop,s') => some (.ok (),s')
      | (.fail,s') => some (.error "the walk's visit failed",s')
    | .step => walkFrom rows p reverse budget visit fuel rest s
    | .seek target strict =>
      -- a target behind the key is stepped past
      if past target strict row.1 reverse then walkFrom rows p reverse budget visit fuel rest s
      else match toward target strict reverse budget rest with
        | some on => walkFrom rows p reverse budget visit fuel on s
        | none => walkFrom rows p reverse budget visit fuel (Cursor.seek rows reverse (some target) strict) s

-- A walk starts just past a key, or at the pattern's first key in walk order.
def start (rows : List (Bytes × ν)) (p : Pattern) (reverse : Bool) (after : Option Bytes) : List (Bytes × ν) :=
  match after with
  | some a => Cursor.seek rows reverse (some a) true
  | none => if reverse then Cursor.seek rows true (prefixBound p.head) (prefixBound p.head).isSome
    else Cursor.seek rows false (some p.head) false

def walk (rows : List (Bytes × ν)) (p : Pattern) (reverse : Bool) (after : Option Bytes) (budget : Nat)
    (visit : Bytes → ν → σ → Visit × σ) (fuel : Nat) (s : σ) : Option (Except String Unit × σ) :=
  walkFrom rows p reverse budget visit fuel (start rows p reverse after) s

def scanStepBudget : Nat := 16

-- What one scan batch walked: its pattern, and the stretch of keys from just past one key,
-- or the walk's start, to another, or the walk's end.
structure Span where
  pattern : Pattern
  reverse : Bool
  from_ : Option Bytes
  to_ : Option Bytes
deriving DecidableEq

-- The next batch of the last span's walk extends that span.
def pushSpan (l : List Span) (pattern : Pattern) (reverse : Bool) (from_ to_ : Option Bytes) : List Span :=
  match l.getLast? with
  | some last =>
    if from_.isSome ∧ last.to_ = from_ ∧ last.reverse = reverse ∧ last.pattern = pattern then l.dropLast++[{last with to_:=to_}]
    else l++[⟨pattern,reverse,from_,to_⟩]
  | none => l++[⟨pattern,reverse,from_,to_⟩]

-- Whether a key written lies inside what the scan batch read.
def Span.covers (s : Span) (key : Bytes) : Bool :=
  (s.from_.all fun f => if s.reverse then key < f else f < key) &&
    (s.to_.all fun t => if s.reverse then t ≤ key else key ≤ t) && s.pattern.picks key

end Scan
end PhaseLock
