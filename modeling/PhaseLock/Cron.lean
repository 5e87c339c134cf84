import PhaseLock.Doubles
import Mathlib.Data.List.TakeWhile

namespace PhaseLock
namespace Cron

abbrev Text := List Char

-- Why a spec is refused.
inductive Refusal where
  | notInt (v : Text)
  | range (hi max : Nat) (part : Text)
  | zeroStep (part : Text)
  | noSpec
  | badZone (name : Text)
  | badDuration (spec duration : Text)
  | descriptor (s : Text)
  | fieldCount (found : Nat) (s : Text)
deriving DecidableEq

def Refusal.text (quoted : Text → Text) : Refusal → Text
  | .notInt v => "failed to parse int from ".toList++v
  | .range hi max part => "end of range (".toList++(toString hi).toList++") above maximum (".toList++(toString max).toList++
      "): ".toList++part
  | .zeroStep part => "step of range should be a positive number: ".toList++part
  | .noSpec => "missing spec after the time zone".toList
  | .badZone name => "provided bad location ".toList++name++": unknown time zone ".toList++name
  | .badDuration spec duration => "failed to parse duration ".toList++spec++": time: invalid duration ".toList++quoted duration
  | .descriptor s => "unrecognized descriptor: ".toList++s
  | .fieldCount found s => "expected exactly 5 fields, found ".toList++(toString found).toList++": ".toList++s

-- A spec is refused, or the parser itself fails: an addition past the width of its integers,
-- or a conversion that panics.
inductive Trouble where
  | refused (why : Refusal)
  | overflow
  | panicked
deriving DecidableEq

def isWhite (c : Char) : Bool :=
  let n := c.val.toNat
  (9 ≤ n && n ≤ 13) || n = 0x20 || n = 0x85 || n = 0xa0 || n = 0x1680 || (0x2000 ≤ n && n ≤ 0x200a) || n = 0x2028 ||
    n = 0x2029 || n = 0x202f || n = 0x205f || n = 0x3000

def trim (s : Text) : Text := ((s.dropWhile isWhite).reverse.dropWhile isWhite).reverse

def splitWhitespace (s : Text) : List Text := (s.splitOnP isWhite).filter (· ≠ [])

def splitOnce (c : Char) (s : Text) : Option (Text × Text) :=
  match s.dropWhile (· ≠ c) with
  | [] => none
  | _ :: rest => some (s.takeWhile (· ≠ c),rest)

def stripPrefix (lead s : Text) : Option Text := if lead <+: s then some (s.drop lead.length) else none

def digitsValue (ds : Text) : Nat := ds.foldl (fun n c => n*10+(c.toNat-48)) 0

def parseU32 (v : Text) : Option Nat :=
  let ds := match v with
    | '+' :: rest => rest
    | _ => v
  if ds ≠ [] ∧ ds.all Char.isDigit = true ∧ digitsValue ds < 2^32 then some (digitsValue ds) else none

def numeric (c : Char) : Bool := c.isDigit || c = '.'

-- A decimal number, the digits on either side of its point not both missing.
def parseDouble (t : Text) : Option Double :=
  match t.splitOn '.' with
  | [whole] => if whole = [] then none else some (.round (digitsValue whole))
  | [whole,part] => if whole = [] ∧ part = [] then none else some (.round (digitsValue (whole++part)/10^part.length))
  | _ => none

def unit (u : Text) : Option Double :=
  if u = "ns".toList then some (.round (1/1000000000))
  else if u = "us".toList ∨ u = "µs".toList ∨ u = "μs".toList then some (.round (1/1000000))
  else if u = "ms".toList then some (.round (1/1000))
  else if u = "s".toList then some (.finite 1)
  else if u = "m".toList then some (.finite 60)
  else if u = "h".toList then some (.finite 3600)
  else none

-- The seconds of a sequence of numbers, each with a unit.
def seconds (rest : Text) (total : Double) : Option Double :=
  if rest = [] then some total
  else if rest.dropWhile numeric = [] then none
  else match parseDouble (rest.takeWhile numeric),unit ((rest.dropWhile numeric).takeWhile fun c => !numeric c) with
    | some v,some u => seconds ((rest.dropWhile numeric).dropWhile fun c => !numeric c) (total.plus (v.times u))
    | _,_ => none
termination_by rest.length
decreasing_by
  have more : ¬rest.dropWhile numeric = [] := by assumption
  obtain ⟨c,tail,is⟩ := List.exists_cons_of_ne_nil more
  have other : ¬numeric c = true := by simpa [is] using List.head_dropWhile_not numeric more
  have shorter := (List.dropWhile_sublist (l:=rest) numeric).length_le
  have fewer := (List.dropWhile_sublist (l:=tail) fun c => !numeric c).length_le
  rw [is,List.dropWhile_cons_of_pos (by simpa using other)]
  rw [is,List.length_cons] at shorter
  omega

def totalSeconds (s : Text) : Option Double :=
  if s = ['0'] then some (.finite 0)
  else if s = [] ∨ s.head? = some '-' then none
  else seconds ((stripPrefix ['+'] s).getD s) (.finite 0)

-- A duration in whole nanoseconds, which panics past 64 bits of seconds.
def fromSecs : Double → Except Trouble Nat
  | .finite q => if q < 2^64 then .ok (Double.halfEven (q*1000000000)) else .error .panicked
  | .infinite => .error .panicked

def parseDuration (spec s : Text) : Except Trouble Nat :=
  match totalSeconds s with
  | none => .error (.refused (.badDuration spec s))
  | some total => fromSecs total

def asSecs (d : Nat) : Double :=
  (Double.round ((d/1000000000 : Nat) : ℚ)).plus (.round (((d%1000000000 : Nat) : ℚ)/1000000000))

-- Rounded up to a whole second, at least one, in a signed 64-bit integer that saturates.
def ceilSecs (d : Nat) : Nat :=
  match asSecs d with
  | .finite q => min (2^63-1) (max 1 ⌈q⌉₊)
  | .infinite => 2^63-1

def wholeMinutes (d : Nat) : Except Trouble Nat :=
  if 2^63 ≤ ceilSecs d+59 then .error .overflow else .ok ((ceilSecs d+59)/60*60)

-- What one part of a field denotes: the values lo, lo + step and so on up to hi.
structure Part where
  lo : Nat
  hi : Nat
  step : Nat
  star : Bool
  positive : 0 < step
deriving DecidableEq

def readValue (min : Nat) (names : List Text) (v : Text) : Except Trouble Nat :=
  match names.findIdx? (fun n => n.map Char.toLower = v.map Char.toLower) with
  | some i => .ok (i+min)
  | none => match parseU32 v with
    | some n => .ok n
    | none => .error (.refused (.notInt v))

def readStep (part : Text) : Except Trouble (Text × Option Nat) :=
  match splitOnce '/' part with
  | some (r,st) => match parseU32 st with
    | some n => .ok (r,some n)
    | none => .error (.refused (.notInt st))
  | none => .ok (part,none)

def readRange (min max : Nat) (names : List Text) (range : Text) (stepped : Bool) : Except Trouble (Nat × Nat × Bool) :=
  if range = ['*'] ∨ range = ['?'] then .ok (min,max,true)
  else match splitOnce '-' range with
    | some (a,b) => do
      let lo ← readValue min names a
      let hi ← readValue min names b
      .ok (lo,hi,false)
    | none => do
      let v ← readValue min names range
      .ok (v,if stepped then max else v,false)

def readPart (min max : Nat) (names : List Text) (part : Text) : Except Trouble Part := do
  let (range,step) ← readStep part
  let (lo,hi,star) ← readRange min max names range step.isSome
  if lo < min ∨ max < hi ∨ hi < lo then .error (.refused (.range hi max part))
  else if some_ : 0 < step.getD 1 then .ok ⟨lo,hi,step.getD 1,star,some_⟩
  else .error (.refused (.zeroStep part))

-- The bits of a part's values from one of them on.  The counter is of 32 bits.
def mark (p : Part) (v bits : Nat) : Except Trouble Nat :=
  if v ≤ p.hi then
    if 2^32 ≤ v+p.step then .error .overflow else mark p (v+p.step) (bits ||| 1 <<< v)
  else .ok bits
termination_by p.hi+1-v
decreasing_by
  have := p.positive
  omega

def addPart (min max : Nat) (names : List Text) (found : Nat × Bool) (part : Text) : Except Trouble (Nat × Bool) := do
  let p ← readPart min max names part
  let bits ← mark p p.lo found.1
  .ok (bits,if 1 < p.step then false else p.star || found.2)

-- One field's bits, and whether a star with no step was its last word on that.
def field (min max : Nat) (names : List Text) (s : Text) : Except Trouble (Nat × Bool) :=
  (s.splitOn ',').foldlM (addPart min max names) (0,false)

def months : List Text :=
  ["jan".toList,"feb".toList,"mar".toList,"apr".toList,"may".toList,"jun".toList,"jul".toList,"aug".toList,"sep".toList,
    "oct".toList,"nov".toList,"dec".toList]

def days : List Text := ["sun".toList,"mon".toList,"tue".toList,"wed".toList,"thu".toList,"fri".toList,"sat".toList]

structure Spec (ζ : Type) where
  minute : Nat
  hour : Nat
  dom : Nat
  month : Nat
  dow : Nat
  -- whether day of month or day of week was a star, which makes the other alone decide
  domStar : Bool
  dowStar : Bool
  tz : ζ
deriving DecidableEq

inductive Schedule (ζ : Type) where
  -- slots a whole number of seconds apart, anchored at the mark
  | every (seconds : Nat)
  | spec (s : Spec ζ)
deriving DecidableEq

-- An @every that is not of whole minutes: the nanoseconds it names, and the seconds it is
-- rounded up to.
structure Notice where
  named : Nat
  rounded : Nat
deriving DecidableEq

-- What a text is once its zone is read and its descriptor spelled out.
inductive Form (ζ : Type) where
  | every (spec duration : Text)
  | fields (minute hour dom month dow : Text) (tz : ζ)
deriving DecidableEq

variable {ζ : Type}

def readZone (zone : Text → Option ζ) (lead : Text) (s : Text) (tz : ζ) : Except Trouble (Text × ζ) :=
  match stripPrefix lead s with
  | none => .ok (s,tz)
  | some rest => match splitOnce ' ' rest with
    | none => .error (.refused .noSpec)
    | some (name,rest) => match zone name with
      | none => .error (.refused (.badZone name))
      | some tz => .ok (trim rest,tz)

def fieldTexts (s : Text) : Except Trouble (List Text) :=
  if s = "@yearly".toList ∨ s = "@annually".toList then .ok [['0'],['0'],['1'],['1'],['*']]
  else if s = "@monthly".toList then .ok [['0'],['0'],['1'],['*'],['*']]
  else if s = "@weekly".toList then .ok [['0'],['0'],['*'],['*'],['0']]
  else if s = "@daily".toList ∨ s = "@midnight".toList then .ok [['0'],['0'],['*'],['*'],['*']]
  else if s = "@hourly".toList then .ok [['0'],['*'],['*'],['*'],['*']]
  else if s.head? = some '@' then .error (.refused (.descriptor s))
  else .ok (splitWhitespace s)

def form (zone : Text → Option ζ) (utc : ζ) (spec : Text) : Except Trouble (Form ζ) := do
  let (s,tz) ← readZone zone "CRON_TZ=".toList (trim spec) utc
  let (s,tz) ← readZone zone "TZ=".toList s tz
  match stripPrefix "@every ".toList s with
  | some d => .ok (.every s (trim d))
  | none => do
    let fields ← fieldTexts s
    match fields with
    | [minute,hour,dom,month,dow] => .ok (.fields minute hour dom month dow tz)
    | _ => .error (.refused (.fieldCount fields.length s))

-- An @every is rounded up to whole minutes; a Sunday given as 7 is one given as 0 too.
def Form.schedule : Form ζ → Except Trouble (Schedule ζ × Option Notice)
  | .every spec d => do
    let d ← parseDuration spec d
    let minutes ← wholeMinutes d
    .ok (.every minutes,if minutes*1000000000 = d then none else some ⟨d,minutes⟩)
  | .fields minute hour dom month dow tz => do
    let minute ← field 0 59 [] minute
    let hour ← field 0 23 [] hour
    let dom ← field 1 31 [] dom
    let month ← field 1 12 months month
    let dow ← field 0 7 days dow
    .ok (.spec ⟨minute.1,hour.1,dom.1,month.1,if dow.1.testBit 7 then dow.1 ||| 1 else dow.1,dom.2,dow.2,tz⟩,none)

def parse (zone : Text → Option ζ) (utc : ζ) (spec : Text) : Except Trouble (Schedule ζ × Option Notice) := do
  let f ← form zone utc spec
  f.schedule

end Cron
end PhaseLock
