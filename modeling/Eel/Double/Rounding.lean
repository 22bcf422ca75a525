import Eel.Double.Basic

/-!
Fractions rounded to doubles.

A fraction is scaled so that its whole part has 53 bits, or as many as the
smallest exponent leaves. The whole part is then rounded by the remainder, a
half going to the even neighbour. The sum of the exponent's and the
significand's place values is the bit pattern, also when rounding carries into
the next power of two.
-/

namespace Eel.Double

/-- The quotient of `num` and `den`, rounded to the nearest whole number, a half
to the even one. -/
def divRound (num den : Nat) : Nat :=
  let q := num / den
  let twice := 2 * (num % den)
  if den < twice then q + 1
  else if twice = den then q + q % 2
  else q

/-- Numerator and denominator of `num / den` divided by `2 ^ q`. -/
def scaled (num den : Nat) (q : Int) : Nat × Nat :=
  if 0 ≤ q then (num, den * Nat.pow 2 q.toNat) else (num * Nat.pow 2 (-q).toNat, den)

/-- The exponent of the last bit that a positive fraction keeps. -/
def lastPlace (num den : Nat) : Int :=
  let q : Int := (num.log2 : Int) - den.log2 - 53
  let (n, d) := scaled num den q
  let q := if Nat.pow 2 53 ≤ n / d then q + 1 else q
  Max.max q (-1074)

/-- The bits of the number nearest to `num / den`, or of an infinity past the
greatest finite number. -/
def nearestBits (num den : Nat) : Nat :=
  if num = 0 then 0
  else
    let q := lastPlace num den
    let (n, d) := scaled num den q
    Min.min ((q + 1074).toNat * Nat.pow 2 52 + divRound n d) infinity.magnitude.toNat

def ofRatio (negative : Bool) (num den : Nat) : Double :=
  let x : Double := ⟨(nearestBits num den).toUInt64⟩
  if negative then x.neg else x

def ofNat (n : Nat) : Double := ofRatio false n 1

def ofInt (n : Int) : Double :=
  if n = 0 then zero
  else if n = 1 then one
  else ofRatio (n < 0) n.natAbs 1

end Eel.Double
