import Eel.Double.Rounding

/-!
Elementary functions and powers.

A power with a whole exponent is a product of repeated squares whose exponent of
two is kept apart, so that nothing is lost on the way to a result in range. A
fraction of the exponent, at most a half either way, goes through logarithm and
exponential.
-/

namespace Eel.Double

def sin (x : Double) : Double := ofFloat x.toFloat.sin

def cos (x : Double) : Double := ofFloat x.toFloat.cos

def tan (x : Double) : Double := ofFloat x.toFloat.tan

def asin (x : Double) : Double := ofFloat x.toFloat.asin

def acos (x : Double) : Double := ofFloat x.toFloat.acos

def atan (x : Double) : Double := ofFloat x.toFloat.atan

def atan2 (y x : Double) : Double := ofFloat (y.toFloat.atan2 x.toFloat)

def log (x : Double) : Double := ofFloat x.toFloat.log

def log10 (x : Double) : Double := ofFloat x.toFloat.log10

def exp (x : Double) : Double := ofFloat x.toFloat.exp

def half : Double := ⟨0x3fe0000000000000⟩

/-- A finite number times `2 ^ k`, rounded once. Numbers that are not finite
stay as they are. -/
def scale (x : Double) (k : Int) : Double :=
  if !x.isFinite then x
  else
    let q := x.exponent + k
    -- Below and above these bounds every number has become zero or infinite.
    let q := if q < -3000 then -3000 else if 3000 < q then 3000 else q
    if 0 ≤ q then ofRatio x.isNegative (x.significand * Nat.pow 2 q.toNat) 1
    else ofRatio x.isNegative x.significand (Nat.pow 2 (-q).toNat)

/-- A finite number as a fraction, at least a half and below one in magnitude,
and an exponent of two. Zero is its own fraction. -/
def fraction (x : Double) : Double × Int :=
  if x.significand = 0 then (x, 0)
  else
    let length := x.significand.log2 + 1
    (ofRatio x.isNegative x.significand (Nat.pow 2 length), x.exponent + length)

def isOdd (x : Double) : Bool :=
  x.isFinite && x.magnitude < (⟨0x4340000000000000⟩ : Double).magnitude && eq x.floor x
    && x.wholeMagnitude % 2 == 1

/-- Multiplies `a · 2 ^ ae` by the power of `b · 2 ^ be` with a whole exponent.
A base whose exponent of two has left all bounds settles the result. -/
def raise : Nat → Nat → Double → Int → Double → Int → Double × Int
  | 0, _, a, ae, _, _ => (a, ae)
  | fuel + 1, n, a, ae, b, be =>
    if n = 0 then (a, ae)
    else if be < -4096 || 4096 < be then (a, ae + be)
    else
      let (a, ae) := if n % 2 = 1 then (a.mul b, ae + be) else (a, ae)
      let square := b.mul b
      let (b, be) := if lt square half then (square.add square, be * 2 - 1) else (square, be * 2)
      raise fuel (n / 2) a ae b be

/-- The power of a finite base other than zero with a finite exponent. -/
def finitePow (x y : Double) : Double :=
  let whole := y.abs.floor
  let rest := y.abs.sub whole
  if ne rest zero && lt x zero then nan
  else if 0x43e0000000000000 ≤ whole.bits then
    -- Such an exponent is even, and the result is out of range but for a base of magnitude one.
    if eq x negOne then one
    else if lt x.abs one == gt y zero then zero
    else infinity
  else
    let (rest, n) := if gt rest half then (rest.sub one, whole.wholeMagnitude + 1)
      else (rest, whole.wholeMagnitude)
    let start := if eq rest zero then one else (rest.mul x.log).exp
    let (b, be) := x.fraction
    let (a, ae) := raise 64 n start 0 b be
    if lt y zero then (one.div a).scale (-ae) else a.scale ae

/-- The power of an infinite base. A negative one counts as the inverse of the
negative zero. -/
def infinitePow (x y : Double) : Double :=
  if x.isNegative then
    if gt y zero then if y.isOdd then infinity.neg else infinity
    else if y.isOdd then zero.neg else zero
  else if lt y zero then zero
  else infinity

def pow (x y : Double) : Double :=
  if eq y zero || eq x one then one
  else if eq y one then x
  else if x.isNaN || y.isNaN then nan
  else if eq x zero then
    if lt y zero then if x.isNegative && y.isOdd then infinity.neg else infinity
    else if x.isNegative && y.isOdd then x else zero
  else if y.isInfinite then
    if eq x negOne then one
    else if lt x.abs one == !y.isNegative then zero
    else infinity
  else if x.isInfinite then infinitePow x y
  else if eq y half then x.sqrt
  else if eq y half.neg then one.div x.sqrt
  else finitePow x y

end Eel.Double
