/-!
# Shortest decimal text of a binary64 number

A finite binary64 number other than zero is `mantissa * 2 ^ exponent`. The decimals that read back
as that number are those of an interval around it, which reaches half way to its two neighbours;
the ends belong to it when the mantissa is even. The shortest decimal is the one on the coarsest
grid of powers of ten that has a point in the interval. If the interval holds a point of a grid, it
holds one of the two points next to the number, so only those two are tried.

How the digits are then written is a matter of style (`FloatStyle`): where positional notation
ends, whether a whole number shows a fraction, and which way an exact tie goes.
-/
namespace ResultCache.Text

/-- A positive binary64 number, `mantissa * 2 ^ exponent`. -/
structure Binary where
  mantissa : Nat
  exponent : Int
  /-- the neighbour below is only half as far away as the one above -/
  narrow : Bool

/-- What 64 bits stand for. -/
inductive FloatClass where
  | nan
  | infinite (negative : Bool)
  | zero (negative : Bool)
  | finite (negative : Bool) (b : Binary)

/-- Reads sign, exponent and fraction of a binary64 number. -/
def FloatClass.ofBits (bits : UInt64) : FloatClass :=
  let negative := decide (bits >>> 63 = 1)
  let exponent := (bits >>> 52 &&& 0x7ff).toNat
  let fraction := (bits &&& 0xfffffffffffff).toNat
  if exponent = 0x7ff then if fraction = 0 then .infinite negative else .nan
  else if exponent = 0 then
    if fraction = 0 then .zero negative else .finite negative ⟨fraction, -1074, false⟩
  else
    .finite negative ⟨0x10000000000000 + fraction, (exponent : Int) - 1075, fraction = 0 && 1 < exponent⟩

/-- A decimal number, `digits * 10 ^ exponent`. -/
structure Decimal where
  digits : Nat
  exponent : Int
  deriving DecidableEq, Repr

/-- Which of two equally near decimals is taken. -/
inductive Tie where
  | upper
  | even
  deriving DecidableEq, Repr

namespace Binary

/-- The two numbers `x` and `y` scaled so that comparing `d` times the first with `n` times the
second compares `d * 10 ^ e` with `n` quarter units of the number's last place. -/
def scale (b : Binary) (e : Int) : Nat × Nat :=
  let q := b.exponent - 2
  (Nat.pow 10 e.toNat * Nat.pow 2 (-q).toNat, Nat.pow 10 (-e).toNat * Nat.pow 2 q.toNat)

/-- Whether `d * 10 ^ e` reads back as the number. -/
def readsBack (b : Binary) (e : Int) (d : Nat) : Bool :=
  let (x, y) := b.scale e
  let low := 4 * b.mantissa - (if b.narrow then 1 else 2)
  let high := 4 * b.mantissa + 2
  if b.mantissa % 2 = 0 then low * y ≤ d * x && d * x ≤ high * y
  else low * y < d * x && d * x < high * y

/-- The point next to the number on the grid of `10 ^ e` that reads back and is nearest to it. -/
def onGrid (b : Binary) (tie : Tie) (e : Int) : Option Nat :=
  let (x, y) := b.scale e
  let d := 4 * b.mantissa * y / x
  match b.readsBack e d, b.readsBack e (d + 1) with
  | false, false => none
  | true, false => some d
  | false, true => some (d + 1)
  | true, true =>
    let below := 4 * b.mantissa * y - d * x
    let above := (d + 1) * x - 4 * b.mantissa * y
    if below < above then some d
    else if above < below then some (d + 1)
    else match tie with
      | .upper => some (d + 1)
      | .even => some (if d % 2 = 0 then d else d + 1)

/-- The first grid with a hit among `fuel` grids, from the coarsest one down. -/
def search (b : Binary) (tie : Tie) : Nat → Int → Decimal
  | 0, e => ⟨(b.onGrid tie e).getD 0, e⟩
  | fuel + 1, e =>
    match b.onGrid tie e with
    | some d => ⟨d, e⟩
    | none => search b tie fuel (e - 1)

/-- The shortest decimal that reads back. The search starts at a power of ten above the number;
seventeen digits always suffice. -/
def shortest (b : Binary) (tie : Tie) : Decimal :=
  let bitLength : Int := Nat.log2 b.mantissa + 1 + b.exponent
  b.search tie 24 ((bitLength * 30103) / 100000 + 1)

end Binary

/-- The decimal digits of a natural number. -/
def digitsOf (n : Nat) : List Char := Nat.toDigits 10 n

/-- The decimal text of an integer. -/
def intText (n : Int) : String :=
  if n < 0 then "-" ++ String.ofList (digitsOf n.natAbs) else String.ofList (digitsOf n.natAbs)

/-- How a floating point number is written. `point` counts the digits in front of the decimal
point, so `0.d × 10 ^ point` is the number when its digits are `d`. -/
structure FloatStyle where
  /-- the numbers of digits before the point that are written without an exponent -/
  positional : Int → Bool
  /-- whole numbers end in `.0` -/
  fraction : Bool
  /-- an exponent that is not negative has a sign -/
  plusSign : Bool
  tie : Tie
  nan : String
  infinity : String

namespace FloatStyle

/-- Digits with the decimal point after the first `point` of them. -/
def positionalText (style : FloatStyle) (ds : List Char) (point : Int) : String :=
  let zeros (n : Int) := List.replicate n.toNat '0'
  String.ofList <|
    if point ≤ 0 then ['0', '.'] ++ zeros (-point) ++ ds
    else if point < ds.length then ds.take point.toNat ++ '.' :: ds.drop point.toNat
    else ds ++ zeros (point - ds.length) ++ (if style.fraction then ['.', '0'] else [])

/-- Digits with the point after the first one, and an exponent. -/
def exponentText (style : FloatStyle) (ds : List Char) (point : Int) : String :=
  let sign := if style.plusSign && 0 ≤ point - 1 then "+" else ""
  let mantissa :=
    match ds with
    | [] => []
    | [c] => [c]
    | c :: cs => c :: '.' :: cs
  String.ofList mantissa ++ "e" ++ sign ++ intText (point - 1)

/-- The text of the binary64 number with the given bits. -/
def text (style : FloatStyle) (bits : UInt64) : String :=
  let signed (negative : Bool) (s : String) := if negative then "-" ++ s else s
  match FloatClass.ofBits bits with
  | .nan => style.nan
  | .infinite negative => signed negative style.infinity
  | .zero negative => signed negative (if style.fraction then "0.0" else "0")
  | .finite negative b =>
    let d := b.shortest style.tie
    let ds := digitsOf d.digits
    let point := (ds.length : Int) + d.exponent
    signed negative <|
      if style.positional point then style.positionalText ds point
      else style.exponentText ds point

end FloatStyle
end ResultCache.Text
