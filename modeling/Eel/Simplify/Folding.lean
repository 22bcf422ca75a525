import Eel.Simplify.Sweep

/-!
Operations on numbers, carried out beforehand.

A sign before a number and a sum, difference, product or quotient of two numbers
become a number. No other operator is folded.
-/

namespace Eel

def Double.quotient (x y : Double) : Double := if y.eq .zero then .zero else x.div y

namespace Simplify

/-- What division by zero gives. -/
inductive Division where
  /-- An infinity or not a number. -/
  | ieee
  /-- Zero, as when a script runs. -/
  | clamped
deriving DecidableEq, Repr

def Division.apply : Division → Double → Double → Double
  | ieee => Double.div
  | clamped => Double.quotient

def operation? (division : Division) : BinaryOp → Option (Double → Double → Double)
  | .add => some Double.add
  | .sub => some Double.sub
  | .mul => some Double.mul
  | .div => some division.apply
  | _ => none

/-- The number that a node stands for, if its operands are numbers and its
operator can be folded. -/
def folded? (division : Division) : Node → Option Node
  | .unary .neg (.number value _) span => some (.number value.neg span)
  | .unary .plus (.number value span) _ => some (.number value span)
  | .binary op (.number left _) (.number right _) span =>
    (operation? division op).map fun f => .number (f left right) span
  | _ => none

def fold (division : Division) (n : Node) : Swept :=
  ((sweep (fun n => (return folded? division n : StateM Unit (Option Node))) n).run ()).1

end Simplify

end Eel
