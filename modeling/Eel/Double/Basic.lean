import Eel.Bytes

/-!
Double-precision numbers.

A number is its 64-bit pattern, so that two numbers are equal exactly when their
bits are, whatever they are: zeros of either sign and all not-a-numbers are told
apart. Order and truncation are read off the pattern with integer arithmetic.
Sums, products, quotients and roots are those of the machine's binary64 unit.
-/

namespace Eel

/-- A binary64 number, as its bit pattern. -/
structure Double where
  bits : UInt64
deriving DecidableEq, Repr, Inhabited

namespace Double

def zero : Double := ⟨0⟩

def one : Double := ⟨0x3ff0000000000000⟩

def negOne : Double := ⟨0xbff0000000000000⟩

def infinity : Double := ⟨0x7ff0000000000000⟩

/-- The not-a-number with an empty payload. -/
def nan : Double := ⟨0x7ff8000000000000⟩

/-- The bits without the sign. They order the numbers of one sign by
magnitude. -/
def magnitude (x : Double) : UInt64 := x.bits % 0x8000000000000000

def isNegative (x : Double) : Bool := 0x8000000000000000 ≤ x.bits

def isNaN (x : Double) : Bool := infinity.magnitude < x.magnitude

def isInfinite (x : Double) : Bool := x.magnitude == infinity.magnitude

def isFinite (x : Double) : Bool := x.magnitude < infinity.magnitude

/-- The biased exponent, eleven bits. -/
def exponentField (x : Double) : Nat := (x.magnitude / 0x10000000000000).toNat

/-- The whole number `m` of a finite number's magnitude `m · 2 ^ q`. -/
def significand (x : Double) : Nat :=
  let fraction := x.magnitude % 0x10000000000000
  if x.exponentField = 0 then fraction.toNat else (fraction + 0x10000000000000).toNat

/-- The exponent `q` of a finite number's magnitude `m · 2 ^ q`. -/
def exponent (x : Double) : Int := (max x.exponentField 1 : Nat) - 1075

/-- A place on the number line that orders all numbers but the not-a-numbers;
both zeros share one. -/
def rank (x : Double) : Int64 := if x.isNegative then -x.magnitude.toInt64 else x.magnitude.toInt64

def eq (x y : Double) : Bool := !x.isNaN && !y.isNaN && x.rank == y.rank

def ne (x y : Double) : Bool := !eq x y

def lt (x y : Double) : Bool := !x.isNaN && !y.isNaN && x.rank < y.rank

def le (x y : Double) : Bool := !x.isNaN && !y.isNaN && x.rank ≤ y.rank

def gt (x y : Double) : Bool := lt y x

def ge (x y : Double) : Bool := le y x

/-- The sign turned round, also that of a zero or a not-a-number. -/
def neg (x : Double) : Double := ⟨x.bits ^^^ 0x8000000000000000⟩

def abs (x : Double) : Double := ⟨x.bits &&& 0x7fffffffffffffff⟩

/-- The lesser number; not a number if either is none, and the negative one of
two zeros. -/
def min (x y : Double) : Double :=
  if x.isNaN || y.isNaN then nan
  else if lt x y then x
  else if lt y x then y
  else ⟨x.bits ||| y.bits⟩

/-- The greater number; not a number if either is none, and the positive one of
two zeros. -/
def max (x y : Double) : Double :=
  if x.isNaN || y.isNaN then nan
  else if lt y x then x
  else if lt x y then y
  else ⟨x.bits &&& y.bits⟩

def toFloat (x : Double) : Float := Float.ofBits x.bits

def ofFloat (x : Float) : Double := ⟨x.toBits⟩

def add (x y : Double) : Double := ofFloat (x.toFloat + y.toFloat)

def sub (x y : Double) : Double := ofFloat (x.toFloat - y.toFloat)

def mul (x y : Double) : Double := ofFloat (x.toFloat * y.toFloat)

def div (x y : Double) : Double := ofFloat (x.toFloat / y.toFloat)

def sqrt (x : Double) : Double := ofFloat x.toFloat.sqrt

def floor (x : Double) : Double := ofFloat x.toFloat.floor

def ceil (x : Double) : Double := ofFloat x.toFloat.ceil

def wholeMagnitude (x : Double) : Nat :=
  if 0 ≤ x.exponent then x.significand <<< x.exponent.toNat
  else x.significand >>> (-x.exponent).toNat

def truncate? (x : Double) : Option Int :=
  if !x.isFinite then none
  else if x.isNegative then some (-(x.wholeMagnitude : Int))
  else some x.wholeMagnitude

/-- The number without its fraction, moved to the nearer of two bounds if it
lies outside them. What is not a number becomes zero. -/
def truncateWithin (low high : Int) (x : Double) : Int :=
  match x.truncate? with
  | some n => if n < low then low else if high < n then high else n
  | none => if x.isNaN then 0 else if x.isNegative then low else high

def toInt32Saturating (x : Double) : Int32 :=
  Int32.ofInt (x.truncateWithin Int32.minValue.toInt Int32.maxValue.toInt)

def toInt64Saturating (x : Double) : Int64 :=
  Int64.ofInt (x.truncateWithin Int64.minValue.toInt Int64.maxValue.toInt)

def toInt32? (x : Double) : Option Int32 :=
  match x.truncate? with
  | some n =>
    if Int32.minValue.toInt ≤ n && n ≤ Int32.maxValue.toInt then some (Int32.ofInt n) else none
  | none => none

end Double

end Eel
