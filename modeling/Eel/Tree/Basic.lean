import Eel.Double.Basic
import Eel.Source.Position
import Eel.Tree.Operator

/-!
Syntax trees.

A script is a list of statements, a block a sequence of expressions in
parentheses that has the value of its last one. The choice `a ? b : c` is a call
of `if`. Trees that were read hold no missing nodes, no script inside another
node and none but the language's operators; trees made by hand may hold all of
these.
-/

namespace Eel

/-- The name of a variable or function, in lower case when it was read. -/
structure Ident where
  name : Bytes
  span : Span := .none
deriving DecidableEq, Repr, Inhabited

inductive Node where
  | missing
  | script (body : List Node) (span : Span)
  | block (body : List Node) (span : Span)
  | binary (op : BinaryOp) (left right : Node) (span : Span)
  | logical (op : LogicalOp) (left right : Node) (span : Span)
  | unary (op : UnaryOp) (operand : Node) (span : Span)
  | assign (op : AssignOp) (target value : Node) (span : Span)
  | call (callee : Ident) (args : List Node) (span : Span)
  | ident (id : Ident)
  | number (value : Double) (span : Span)
deriving Inhabited

namespace Node

def span : Node → Span
  | missing => .none
  | script _ s | block _ s | binary _ _ _ s | logical _ _ _ s | unary _ _ s | assign _ _ _ s
  | call _ _ s | number _ s => s
  | ident id => id.span

end Node

/-- Whether a name is one of the two buffers, whose slots can be assigned. -/
def isBufferName (name : Bytes) : Bool := name == utf8 "megabuf" || name == utf8 "gmegabuf"

structure Script where
  body : List Node
  span : Span
deriving Inhabited

namespace Script

def toNode (s : Script) : Node := .script s.body s.span

/-- Whether there is no statement. A source of blanks and comments gives such a
script. -/
def isEmpty (s : Script) : Bool := s.body.isEmpty

end Script

end Eel
