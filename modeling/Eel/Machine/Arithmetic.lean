import Eel.Double.Rounding

/-!
What the machine takes from outside: how it calculates with doubles.

The machine is the same for every arithmetic. Programs run with that of
binary64.
-/

namespace Eel.Machine

/-- The operations on doubles. -/
class Arithmetic where
  add : Double → Double → Double
  sub : Double → Double → Double
  mul : Double → Double → Double
  div : Double → Double → Double
  min : Double → Double → Double
  max : Double → Double → Double
  neg : Double → Double
  abs : Double → Double
  ceil : Double → Double
  floor : Double → Double
  sqrt : Double → Double
  ne : Double → Double → Bool
  lt : Double → Double → Bool
  gt : Double → Double → Bool
  le : Double → Double → Bool
  ge : Double → Double → Bool
  /-- The whole part, if it fits. -/
  toInt32? : Double → Option Int32
  toInt32 : Double → Int32
  toInt64 : Double → Int64
  ofInt32 : Int32 → Double
  ofInt64 : Int64 → Double

@[reducible]
def Arithmetic.binary64 : Arithmetic where
  add := Double.add
  sub := Double.sub
  mul := Double.mul
  div := Double.div
  min := Double.min
  max := Double.max
  neg := Double.neg
  abs := Double.abs
  ceil := Double.ceil
  floor := Double.floor
  sqrt := Double.sqrt
  ne := Double.ne
  lt := Double.lt
  gt := Double.gt
  le := Double.le
  ge := Double.ge
  toInt32? := Double.toInt32?
  toInt32 := Double.toInt32Saturating
  toInt64 := Double.toInt64Saturating
  ofInt32 n := .ofInt n.toInt
  ofInt64 n := .ofInt n.toInt

end Eel.Machine
