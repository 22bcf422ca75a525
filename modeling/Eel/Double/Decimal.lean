import Eel.Double.Rounding

/-!
Doubles in decimal.

A decimal `digits · 10 ^ exponent` is read as the nearest double. A finite
double is written with the fewest digits that read back as itself. For one
digit, two digits and so on, the two decimals around the number are tried; of
two that read back the nearer is taken, and halfway between them the even one.
Seventeen digits always suffice.
-/

namespace Eel

/-- The number `digits · 10 ^ exponent`. -/
structure Decimal where
  digits : Nat
  exponent : Int
deriving DecidableEq, Repr

namespace Decimal

def ratio (d : Decimal) : Nat × Nat :=
  if 0 ≤ d.exponent then (d.digits * Nat.pow 10 d.exponent.toNat, 1)
  else (d.digits, Nat.pow 10 (-d.exponent).toNat)

def toDouble (d : Decimal) : Double := Double.ofRatio false d.ratio.1 d.ratio.2

/-- Without the zeros at the end of its digits; at most `fuel` of them are
removed. -/
def trimWith : Nat → Decimal → Decimal
  | 0, d => d
  | fuel + 1, d =>
    if d.digits ≠ 0 ∧ d.digits % 10 = 0 then trimWith fuel ⟨d.digits / 10, d.exponent + 1⟩ else d

def trim (d : Decimal) : Decimal := trimWith (d.digits.log2 + 1) d

/-- In positional notation: every digit in its place, a point only before a
fraction. -/
def positional (d : Decimal) : Bytes :=
  let text := Bytes.decimal d.digits
  if 0 ≤ d.exponent then
    if d.digits = 0 then text else text ++ List.replicate d.exponent.toNat '0'.toUInt8
  else
    let places := (-d.exponent).toNat
    let text := List.replicate (places + 1 - text.length) '0'.toUInt8 ++ text
    text.take (text.length - places) ++ ['.'.toUInt8] ++ text.drop (text.length - places)

end Decimal

namespace Double

def ratio (x : Double) : Nat × Nat :=
  if 0 ≤ x.exponent then (x.significand * Nat.pow 2 x.exponent.toNat, 1)
  else (x.significand, Nat.pow 2 (-x.exponent).toNat)

/-- Numerator and denominator of `num / den` divided by `10 ^ e`. -/
def scaledTen (num den : Nat) (e : Int) : Nat × Nat :=
  if 0 ≤ e then (num, den * Nat.pow 10 e.toNat) else (num * Nat.pow 10 (-e).toNat, den)

/-- Whether `10 ^ e ≤ num / den`. -/
def reachesTen (num den : Nat) (e : Int) : Bool :=
  let (n, d) := scaledTen num den e
  d ≤ n

/-- The greatest `e'` between `e` and `e + fuel` with `10 ^ e' ≤ num / den`, or
`e` if there is none. -/
def climbTen (num den : Nat) : Nat → Int → Int
  | 0, e => e
  | fuel + 1, e => if reachesTen num den (e + 1) then climbTen num den fuel (e + 1) else e

/-- The place of the leading decimal digit of a positive fraction:
`10 ^ e ≤ num / den < 10 ^ (e + 1)`. -/
def leadingPlace (num den : Nat) : Int :=
  let binary : Int := (num.log2 : Int) - den.log2 - 1
  climbTen num den 3 ((binary * 30103).fdiv 100000 - 1)

/-- The two decimals of `count` digits around a positive fraction, and whether
the upper one is nearer. -/
def neighbours (num den : Nat) (count : Nat) : Decimal × Decimal × Bool :=
  let e := leadingPlace num den - count + 1
  let (n, d) := scaledTen num den e
  let low := n / d
  let twice := 2 * (n % d)
  (⟨low, e⟩, ⟨low + 1, e⟩, d < twice || (twice == d && low % 2 == 1))

/-- The decimal of `count` digits nearest to `x` among those that read back as
`x`. -/
def readingBack? (x : Double) (count : Nat) : Option Decimal :=
  let (low, high, upper) := neighbours x.ratio.1 x.ratio.2 count
  match low.toDouble == x, high.toDouble == x with
  | true, true => some (if upper then high else low)
  | true, false => some low
  | false, true => some high
  | false, false => none

/-- The first count of digits from `count` on that gives a decimal reading back
as `x`. -/
def shortestFrom (x : Double) : Nat → Nat → Decimal
  | 0, count => (neighbours x.ratio.1 x.ratio.2 count).1
  | fuel + 1, count =>
    match readingBack? x count with
    | some d => d
    | none => shortestFrom x fuel (count + 1)

/-- The shortest decimal that reads back as the magnitude of a finite number. -/
def shortest (x : Double) : Decimal :=
  if x.significand = 0 then ⟨0, 0⟩ else (shortestFrom x.abs 17 1).trim

/-- A number as source text shows it: the fewest digits that read back, never
with an exponent. -/
def text (x : Double) : Bytes :=
  if x.isNaN then utf8 "NaN"
  else if x.isInfinite then if x.isNegative then utf8 "-Inf" else utf8 "+Inf"
  else (if x.isNegative then ['-'.toUInt8] else []) ++ x.shortest.positional

end Double

end Eel
