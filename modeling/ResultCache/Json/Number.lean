/-!
# Numbers in JSON

The grammar of a JSON number, and what a number means where an integer or a binary64 number is
wanted. A number without fraction and exponent is an integer as long as it fits into 64 bits;
every other number, minus zero included, is a binary64 number only.

A binary64 number is read from as many leading digits as fit into 64 bits, scaled by powers of ten.
That is fast and not always the nearest number: each scaling rounds.
-/
namespace ResultCache.Json

/-- The parts of a number as it is written. -/
structure Number where
  negative : Bool
  /-- the digits before the point, without superfluous zeros -/
  whole : List Char
  /-- the digits after the point, if there is one -/
  fraction : Option (List Char)
  /-- whether the exponent is negative, and its digits, if there is one -/
  exponent : Option (Bool × List Char)
  deriving DecidableEq, Repr, Inhabited

namespace Number

/-- The exponent part, from the character after its `e`. -/
def exponent? (cs : List Char) : Option (Bool × List Char) :=
  let (negative, ds) := match cs with
    | '+' :: ds => (false, ds)
    | '-' :: ds => (true, ds)
    | ds => (false, ds)
  if ds ≠ [] && ds.all Char.isDigit then some (negative, ds) else none

/-- The parts of the number that is written `cs`, if `cs` is a number. -/
def ofChars? (cs : List Char) : Option Number :=
  let (negative, cs) := match cs with
    | '-' :: cs => (true, cs)
    | cs => (false, cs)
  let whole := cs.takeWhile Char.isDigit
  if whole = [] || (whole.head? = some '0' && whole ≠ ['0']) then none
  else
    let (fraction, rest) : Option (List Char) × List Char :=
      match cs.dropWhile Char.isDigit with
      | '.' :: cs => (some (cs.takeWhile Char.isDigit), cs.dropWhile Char.isDigit)
      | cs => (none, cs)
    if fraction = some [] then none
    else
      match rest with
      | [] => some ⟨negative, whole, fraction, none⟩
      | c :: cs =>
        if c = 'e' || c = 'E' then
          (exponent? cs).map fun e => ⟨negative, whole, fraction, some e⟩
        else none

def isInteger (n : Number) : Bool := n.fraction.isNone && n.exponent.isNone

def digitValue (c : Char) : Nat := c.toNat - '0'.toNat

/-- Takes in digits as long as the value fits into 64 bits; the digits left over follow. -/
def accumulate : Nat → List Char → Nat × List Char
  | n, [] => (n, [])
  | n, c :: cs =>
    if 10 * n + digitValue c < UInt64.size then accumulate (10 * n + digitValue c) cs else (n, c :: cs)

/-- The value of a number that is an integer of at most 64 bits, without its sign. -/
def magnitude? (n : Number) : Option Nat :=
  if n.isInteger then
    match accumulate 0 n.whole with
    | (m, []) => some m
    | _ => none
  else none

/-- The number as an integer from zero below `bound`, which is at most `UInt64.size`. -/
def unsigned? (n : Number) (bound : Nat) : Option Nat :=
  match n.magnitude? with
  | some m => if !n.negative && m < bound then some m else none
  | none => none

/-- The number as a signed 64-bit integer. -/
def int64? (n : Number) : Option Int64 :=
  match n.magnitude? with
  | some m =>
    if n.negative then
      if 0 < m && m ≤ UInt64.size / 2 then some (Int64.ofInt (-(m : Int))) else none
    else if m < UInt64.size / 2 then some (Int64.ofNat m) else none
  | none => none

/-- A power of ten up to the largest one that a binary64 number can hold. -/
def tenTo (n : Nat) : Float := Float.ofScientific 1 false n

/-- Scales by a power of ten, in steps of the largest one; nothing if the result is too large. -/
def scaled : Nat → Float → Int → Option Float
  | fuel, f, e =>
    if e.natAbs ≤ 308 then
      if 0 ≤ e then
        let g := f * tenTo e.natAbs
        if g.isInf then none else some g
      else some (f / tenTo e.natAbs)
    else if f == 0.0 then some f
    else if 0 ≤ e then none
    else
      match fuel with
      | 0 => some 0.0
      | fuel + 1 => scaled fuel (f / tenTo 308) (e + 308)

/-- The exponent an exponent part adds; nothing if its digits do not fit into a signed 32-bit
number. -/
def exponentValue? (ds : List Char) : Option Int :=
  let n := ds.foldl (fun n c => 10 * n + digitValue c) 0
  if n < UInt32.size / 2 then some n else none

/-- The exponent within the range of a signed 32-bit number. -/
def clamped (e : Int) : Int := max Int32.minValue.toInt (min e Int32.maxValue.toInt)

/-- The number as a binary64 number, without its sign. -/
def magnitudeFloat? (n : Number) : Option Float :=
  match n.magnitude? with
  | some m => some (UInt64.ofNat m).toFloat
  | none =>
    let (m, dropped) := accumulate 0 n.whole
    let (m, shift) := match n.fraction with
      | none => (m, (dropped.length : Int))
      | some ds =>
        let (m', ignored) := accumulate m ds
        (m', dropped.length - (ds.length - ignored.length : Nat))
    let f := (UInt64.ofNat m).toFloat
    match n.exponent with
    | none => scaled 3 f shift
    | some (negative, ds) =>
      match exponentValue? ds with
      | some e => scaled 3 f (clamped (if negative then shift - e else shift + e))
      | none => if m ≠ 0 && !negative then none else some 0.0

/-- The number as a binary64 number. -/
def float? (n : Number) : Option Float :=
  n.magnitudeFloat?.map fun f => if n.negative then -f else f

end Number
end ResultCache.Json
