import Eel.Double.Decimal
import Eel.Tree.Basic

/-!
Trees as source text.

Each statement stands on a line of its own and ends with a semicolon. An operand
that is itself an operation or an assignment stands in parentheses, so that the
text does not depend on the rank of the operators.
-/

namespace Eel.Node

def isCompound : Node → Bool
  | .binary .. | .logical .. | .assign .. => true
  | _ => false

def parenthesized (s : Bytes) : Bytes := utf8 "(" ++ s ++ utf8 ")"

def infixed (left op right : Bytes) : Bytes := left ++ utf8 " " ++ op ++ utf8 " " ++ right

def operandText (n : Node) (text : Bytes) : Bytes :=
  if n.isCompound then parenthesized text else text

mutual

def print : Node → Bytes
  | .missing => utf8 "<nil>"
  | .script body _ => Bytes.join (utf8 "\n") ((printAll body).map (· ++ utf8 ";"))
  | .block body _ => parenthesized (Bytes.join (utf8 "; ") (printAll body))
  | .binary op left right _ =>
    infixed (operandText left left.print) op.text (operandText right right.print)
  | .logical op left right _ =>
    infixed (operandText left left.print) op.text (operandText right right.print)
  | .unary op operand _ => op.text ++ operandText operand operand.print
  | .assign op target value _ => infixed target.print op.text value.print
  | .call callee args _ => callee.name ++ parenthesized (Bytes.join (utf8 ", ") (printAll args))
  | .ident id => id.name
  | .number value _ => value.text

def printAll : List Node → List Bytes
  | [] => []
  | n :: rest => n.print :: printAll rest

end

end Eel.Node
