import Eel.Bytes

/-!
Operators of syntax trees.

Each class of operators has those of the language. A tree that was not read from
a text may name any other, which is kept as it is written and has no meaning.
-/

namespace Eel

inductive BinaryOp where
  | add
  | sub
  | mul
  | div
  | rem
  | pow
  | bitAnd
  | bitOr
  | eq
  | ne
  | lt
  | gt
  | le
  | ge
  | other (spelling : Bytes)
deriving DecidableEq, Repr

/-- Operators that may leave out their right operand. -/
inductive LogicalOp where
  | and
  | or
  | other (spelling : Bytes)
deriving DecidableEq, Repr

inductive UnaryOp where
  | neg
  | plus
  | not
  | other (spelling : Bytes)
deriving DecidableEq, Repr

/-- Assignments: plain ones, and those that combine the old value with the new
one. -/
inductive AssignOp where
  | set
  | add
  | sub
  | mul
  | div
  | rem
  | other (spelling : Bytes)
deriving DecidableEq, Repr

namespace BinaryOp

def text : BinaryOp → Bytes
  | add => utf8 "+"
  | sub => utf8 "-"
  | mul => utf8 "*"
  | div => utf8 "/"
  | rem => utf8 "%"
  | pow => utf8 "^"
  | bitAnd => utf8 "&"
  | bitOr => utf8 "|"
  | eq => utf8 "=="
  | ne => utf8 "!="
  | lt => utf8 "<"
  | gt => utf8 ">"
  | le => utf8 "<="
  | ge => utf8 ">="
  | other spelling => spelling

def all : List BinaryOp := [add, sub, mul, div, rem, pow, bitAnd, bitOr, eq, ne, lt, gt, le, ge]

def ofText (s : Bytes) : BinaryOp := (all.find? (·.text == s)).getD (other s)

end BinaryOp

namespace LogicalOp

def text : LogicalOp → Bytes
  | and => utf8 "&&"
  | or => utf8 "||"
  | other spelling => spelling

def all : List LogicalOp := [and, or]

def ofText (s : Bytes) : LogicalOp := (all.find? (·.text == s)).getD (other s)

end LogicalOp

namespace UnaryOp

def text : UnaryOp → Bytes
  | neg => utf8 "-"
  | plus => utf8 "+"
  | not => utf8 "!"
  | other spelling => spelling

def all : List UnaryOp := [neg, plus, not]

def ofText (s : Bytes) : UnaryOp := (all.find? (·.text == s)).getD (other s)

end UnaryOp

namespace AssignOp

def text : AssignOp → Bytes
  | set => utf8 "="
  | add => utf8 "+="
  | sub => utf8 "-="
  | mul => utf8 "*="
  | div => utf8 "/="
  | rem => utf8 "%="
  | other spelling => spelling

def all : List AssignOp := [set, add, sub, mul, div, rem]

def ofText (s : Bytes) : AssignOp := (all.find? (·.text == s)).getD (other s)

/-- The operator that combines the old value with the new one; none for a plain
assignment. An assignment that is not one of the language combines by what is
left of its spelling without the equals sign at the end. -/
def combining? : AssignOp → Option BinaryOp
  | set => none
  | add => some .add
  | sub => some .sub
  | mul => some .mul
  | div => some .div
  | rem => some .rem
  | other spelling =>
    some (.ofText (if spelling.getLast? = some '='.toUInt8 then spelling.dropLast else spelling))

end AssignOp

end Eel
