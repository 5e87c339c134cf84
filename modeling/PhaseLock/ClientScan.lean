import PhaseLock.Scan
import Mathlib.Data.Char

namespace PhaseLock
namespace Skeleton

-- A JavaScript string, as its UTF-16 code units.
abbrev Units := List UInt16

def utf16Char (c : Char) : Units :=
  let n := c.val.toNat
  if n < 0x10000 then [UInt16.ofNat n] else [UInt16.ofNat (0xd800+(n-0x10000)/0x400),UInt16.ofNat (0xdc00+(n-0x10000)%0x400)]

def utf16 (text : List Char) : Units := text.flatMap utf16Char

-- Keys sort in code-point order: at the first units that differ, both at or above the
-- surrogates, the surrogates stand above the rest.
def unitDiff (x y : UInt16) : Int :=
  if 0xd800 ≤ x ∧ 0xd800 ≤ y then
    (if 0xe000 ≤ x then (x.toNat : Int)-0x800 else x.toNat+0x2000)-(if 0xe000 ≤ y then (y.toNat : Int)-0x800 else y.toNat+0x2000)
  else (x.toNat : Int)-y.toNat

def compareKeys : Units → Units → Int
  | x :: a, y :: b => if x = y then compareKeys a b else unitDiff x y
  | a, b => (a.length : Int)-b.length

-- Code-unit order, exact in code-point order against a key holding no high unit.
def unitCompare : Units → Units → Int
  | x :: a, y :: b => if x < y then -1 else if y < x then 1 else unitCompare a b
  | [], [] => 0
  | [], _ :: _ => -1
  | _ :: _, [] => 1

def highUnit (k : Units) : Bool := k.any (0xd800 ≤ ·)

-- A comparison exact in code-point order whenever one side is one of the keys.
def exactFor (keys : List (Option Units)) : Units → Units → Int :=
  if keys.any (fun k => k.any highUnit) then compareKeys else unitCompare

def isHigh (x : UInt16) : Bool := 0xd800 ≤ x && x ≤ 0xdbff
def isLow (x : UInt16) : Bool := 0xdc00 ≤ x && x ≤ 0xdfff

def codePointAt (t : Units) (i : Nat) : Option Nat :=
  match t[i]?,t[i+1]? with
  | none,_ => none
  | some x,some y => if isHigh x && isLow y then some (0x10000+(x.toNat-0xd800)*0x400+(y.toNat-0xdc00)) else some x.toNat
  | some x,none => some x.toNat

def fromCodePoint (n : Nat) : Units :=
  if n < 0x10000 then [UInt16.ofNat n] else [UInt16.ofNat (0xd800+(n-0x10000)/0x400),UInt16.ofNat (0xdc00+(n-0x10000)%0x400)]

-- The units of U+10FFFF, and a text without those at its end.
def topPair : Units := [0xdbff,0xdfff]

def trimTop (text : Units) : Units :=
  if topPair <:+ text then trimTop (text.take (text.length-2)) else text
termination_by text.length
decreasing_by
  rename_i ends
  have := ends.length_le
  simp [topPair] at this ⊢
  omega

-- The exclusive upper bound of the keys sharing a text: its last code point, not counting
-- any U+10FFFF at its end, moved up by one.
def prefixEnd (text : Units) : Option Units :=
  let end_ := trimTop text
  if end_ = [] then none
  else
    let pair := 2 ≤ end_.length && (codePointAt end_ (end_.length-2)).any (0xffff < ·)
    let at_ := if pair then end_.length-2 else end_.length-1
    (codePointAt end_ at_).map fun cp => end_.take at_++fromCodePoint (if cp = 0xd7ff then 0xe000 else cp+1)

structure ValueField where
  lo : Option Units := none
  loOpen : Bool := false
  hi : Option Units := none
  hiOpen : Bool := false
  -- a comparison exact against the bounds
  cmp : Units → Units → Int := unitCompare
  single : Bool := false
  sep : Option UInt16

inductive Field where
  | value (f : ValueField)
  | literal (text : Units) (whole : Bool)

structure CompiledPattern where
  head : Units
  fields : List Field

def comma : UInt16 := 0x2c
def bang : UInt16 := 0x21
def colon : UInt16 := 0x3a

-- A value field matching m, followed by a separator.
def valueField (m : ParamMatch Units) (sep : Option UInt16) : ValueField :=
  match m with
  | .any => {sep:=sep}
  | .eq value => {lo:=some value,hi:=some value,single:=true,cmp:=exactFor [some value,some value],sep:=sep}
  | .starts text =>
    if text = [] then {sep:=sep}
    else {lo:=some text,hi:=prefixEnd text,hiOpen:=true,cmp:=exactFor [some text,prefixEnd text],sep:=sep}
  | .range gte gt lte lt =>
    let low := match gt with
      | some g => if gte.all (fun lo => 0 ≤ compareKeys g lo) then (some g,true) else (gte,false)
      | none => (gte,false)
    let high := match lt with
      | some l => if lte.all (fun hi => compareKeys l hi ≤ 0) then (some l,true) else (lte,false)
      | none => (lte,false)
    {lo:=low.1,loOpen:=low.2,hi:=high.1,hiOpen:=high.2,cmp:=exactFor [low.1,high.1],sep:=sep}

def valueFields (sep : UInt16) (last : Option UInt16) : List (ParamMatch Units) → List Field
  | [] => []
  | [m] => [.value (valueField m last)]
  | m :: more => .value (valueField m (some sep)) :: valueFields sep last more

def sliceFields : SliceMatch Units → Units × List Field
  | .named slice => (slice++[bang],[])
  | .family family params =>
    if params.isEmpty then (family++[bang],[]) else (family++[colon],valueFields comma (some bang) params)

def compilePattern (p : KeyPattern Units) : Except String CompiledPattern :=
  match p.slice with
  | none =>
    if p.name.isSome || !p.locals.isEmpty then .error "a pattern over every slice picks out every local key"
    else .ok ⟨[],[]⟩
  | some slice =>
    let (head,fields) := sliceFields slice
    match p.name with
    | none =>
      if p.locals.isEmpty then .ok ⟨head,fields⟩ else .error "a pattern over every local key matches no parameter"
    | some name =>
      .ok ⟨head,fields++.literal (if p.locals.isEmpty then name else name++[colon]) p.locals.isEmpty ::
        valueFields comma none p.locals⟩

-- Where a key stands against a pattern, for a walk one way.
inductive Placement where
  | found
  | step
  | done
  | seek (target : Units) (strict : Bool)
deriving DecidableEq

-- Text ending in the character just above a separator sorts after every key that goes on
-- past the separator.
def above (sep : Option UInt16) : Units := [sep.elim 0 (·+1)]

-- Past every key holding the value of the nearest varying field before the one placed, of
-- the value fields so far with the ends of their texts, the nearest first.
def skipBack (key : Units) (reverse : Bool) (ends : List (ValueField × Nat)) : Placement :=
  match ends.find? (fun passed => !passed.1.single) with
  | none => .done
  | some (f,stop) => if reverse then .seek (key.take (stop+1)) true else .seek (key.take stop++above f.sep) false

-- Where a value's text ends, and whether the key ends there without its separator.
def valueEnd (sep : Option UInt16) (key : Units) (pos : Nat) : Nat × Bool :=
  match sep with
  | none => (key.length,false)
  | some s => match (key.drop pos).findIdx? (· = s) with
    | some i => (pos+i,false)
    | none => (key.length,true)

def ValueField.short (f : ValueField) (v : Units) : Option Units :=
  f.lo.filter fun lo => f.cmp v lo < 0 || f.cmp v lo = 0 && f.loOpen
def ValueField.past (f : ValueField) (v : Units) : Option Units :=
  f.hi.filter fun hi => 0 < f.cmp v hi || f.cmp v hi = 0 && f.hiOpen

def placeFields (reverse : Bool) (key : Units) : List Field → Nat → List (ValueField × Nat) → Placement
  | [], _, _ => .found
  | .literal text whole :: more, pos, ends =>
    if text <+: key.drop pos ∧ (whole = true → key.length = pos+text.length) then
      placeFields reverse key more (pos+text.length) ends
    else if unitCompare (key.drop pos) text < 0 then
      if reverse then skipBack key reverse ends else .seek (key.take pos++text) false
    else if !reverse then skipBack key reverse ends
    else if whole then .seek (key.take pos++text) false
    else .seek (key.take pos++(prefixEnd text).getD []) true
  | .value f :: more, pos, ends =>
    let (stop,short) := valueEnd f.sep key pos
    let v := (key.take stop).drop pos
    match f.short v with
    | some lo =>
      if reverse then skipBack key reverse ends
      else if !f.loOpen then .seek (key.take pos++lo) false
      else if f.sep.isNone then .seek (key.take pos++lo) true
      else .seek (key.take pos++lo++above f.sep) false
    | none => match f.past v with
      | some hi =>
        if !reverse then skipBack key reverse ends
        else if f.hiOpen then .seek (key.take pos++hi) true
        else if f.sep.isNone then .seek (key.take pos++hi) false
        else .seek (key.take pos++hi++above f.sep) true
      | none =>
        if short then .step
        else placeFields reverse key more (stop+if f.sep.isNone then 0 else 1) ((f,stop) :: ends)

def placeKey (c : CompiledPattern) (key : Units) (reverse : Bool) : Placement :=
  if c.head <+: key then placeFields reverse key c.fields c.head.length [] else .done

def matchesPattern (c : CompiledPattern) (key : Units) : Bool := placeKey c key false = .found

-- The first index from lo on below hi where before answers false, or hi; before answers
-- true, then false.
def bisect (lo hi : Nat) (before : Nat → Bool) : Nat :=
  if lo < hi then
    let mid := (lo+hi)/2
    if before mid then bisect (mid+1) hi before else bisect lo mid before
  else lo
termination_by hi-lo
decreasing_by all_goals omega

-- A cursor over keys sorted in code-point order stands at an index, past the ends when it
-- is outside them.
def ArrayCursor.key (keys : List Units) (j : Int) : Option Units := if 0 ≤ j then keys[j.toNat]? else none

def ArrayCursor.seek (keys : List Units) (reverse : Bool) (target : Option Units) (strict : Bool) : Int :=
  match target with
  | none => if reverse then (keys.length : Int)-1 else 0
  | some t =>
    let cmp := exactFor [some t]
    let before := fun k => cmp k t < 0 || cmp k t = 0 && strict != reverse
    (bisect 0 keys.length fun i => (keys[i]?).any before : Int)-if reverse then 1 else 0

def ArrayCursor.step (reverse : Bool) (j : Int) : Int := j+if reverse then -1 else 1

def past (target : Units) (strict : Bool) (k : Units) (reverse : Bool) : Bool :=
  let cmp := exactFor [some target]
  let d := if reverse then cmp target k else cmp k target
  0 < d || d = 0 && !strict

variable {σ : Type}

-- Steps toward a target: past the walk's end, at the target, or still short of it when the
-- budget is spent.
inductive Stepped where
  | ended
  | reached (j : Int)
  | short
deriving DecidableEq

def toward (keys : List Units) (target : Units) (strict reverse : Bool) : Nat → Int → Stepped
  | 0, _ => .short
  | budget+1, j => match ArrayCursor.key keys (ArrayCursor.step reverse j) with
    | none => .ended
    | some k =>
      if past target strict k reverse then .reached (ArrayCursor.step reverse j)
      else toward keys target strict reverse budget (ArrayCursor.step reverse j)

def walkFrom (keys : List Units) (c : CompiledPattern) (reverse : Bool) (budget : Nat) (visit : Units → σ → Bool × σ) :
    Nat → Int → σ → Option σ
  | 0, _, _ => none
  | fuel+1, j, s => match ArrayCursor.key keys j with
    | none => some s
    | some key => match placeKey c key reverse with
      | .done => some s
      | .found => match visit key s with
        | (true,s') => walkFrom keys c reverse budget visit fuel (ArrayCursor.step reverse j) s'
        | (false,s') => some s'
      | .step => walkFrom keys c reverse budget visit fuel (ArrayCursor.step reverse j) s
      | .seek target strict =>
        -- stepping is always safe past a target behind the key
        if past target strict key reverse then walkFrom keys c reverse budget visit fuel (ArrayCursor.step reverse j) s
        else match toward keys target strict reverse budget j with
          | .ended => some s
          | .reached j' => walkFrom keys c reverse budget visit fuel j' s
          | .short => walkFrom keys c reverse budget visit fuel (ArrayCursor.seek keys reverse (some target) strict) s

def start (keys : List Units) (c : CompiledPattern) (reverse : Bool) (after : Option Units) : Int :=
  match after with
  | some a => ArrayCursor.seek keys reverse (some a) true
  | none => if reverse then ArrayCursor.seek keys true (prefixEnd c.head) (prefixEnd c.head).isSome
    else ArrayCursor.seek keys false (some c.head) false

def walkPattern (keys : List Units) (c : CompiledPattern) (reverse : Bool) (after : Option Units) (budget : Nat)
    (visit : Units → σ → Bool × σ) (fuel : Nat) (s : σ) : Option σ :=
  walkFrom keys c reverse budget visit fuel (start keys c reverse after) s

def stepBudget : Nat := 8

structure ScanSpan where
  pattern : CompiledPattern
  reverse : Bool
  from_ : Option Units
  to_ : Option Units

def spanCovers (s : ScanSpan) (key : Units) : Bool :=
  (s.from_.all fun f => if s.reverse then compareKeys key f < 0 else 0 < compareKeys key f) &&
    (s.to_.all fun t => if s.reverse then 0 ≤ compareKeys key t else compareKeys key t ≤ 0) && matchesPattern s.pattern key

end Skeleton
end PhaseLock
