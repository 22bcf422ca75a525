import Eel.Double.Decimal

/-!
Doubles in scientific notation with a given number of digits.
-/

namespace Eel.Double

/-- The digits of a positive fraction rounded to `count` significant places,
with the place of the first. -/
def significant (num den count : Nat) : Nat × Int :=
  let place := leadingPlace num den
  let (n, d) := scaledTen num den (place - count + 1)
  let digits := divRound n d
  if digits = Nat.pow 10 count then (Nat.pow 10 (count - 1), place + 1) else (digits, place)

def exponentText (e : Int) : Bytes :=
  let digits := Bytes.decimal e.natAbs
  (if e < 0 then ['-'.toUInt8] else ['+'.toUInt8])
    ++ List.replicate (2 - digits.length) '0'.toUInt8 ++ digits

/-- A number as one digit, a point, the rest of `count` significant digits and
the exponent of ten. The last digit is rounded to nearest, a half to even. -/
def scientific (x : Double) (count : Nat) : Bytes :=
  if x.isNaN then utf8 "nan"
  else if x.isInfinite then if x.isNegative then utf8 "-Inf" else utf8 "+Inf"
  else
    let (digits, place) :=
      if x.significand = 0 then (0, 0) else significant x.ratio.1 x.ratio.2 count
    let text := Bytes.decimal digits
    let text := text ++ List.replicate (count - text.length) '0'.toUInt8
    (if x.isNegative then ['-'.toUInt8] else []) ++ text.take 1
      ++ (if count ≤ 1 then [] else ['.'.toUInt8]) ++ text.drop 1
      ++ ['e'.toUInt8] ++ exponentText place

end Eel.Double
