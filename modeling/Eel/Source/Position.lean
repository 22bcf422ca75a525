import Eel.Bytes

/-!
Places in a text.

Offsets count bytes from zero, lines and columns count from one. A span reaches
from a first place up to, but not including, a last one. Places are integers,
since a place can also be computed from numbers that name none.
-/

namespace Eel

structure Position where
  offset : Int
  line : Int
  column : Int
deriving DecidableEq, Repr, Inhabited

namespace Position

def start : Position := ⟨0, 1, 1⟩

def along (p : Position) (count : Nat) : Position := ⟨p.offset + count, p.line, p.column + count⟩

/-- Behind one byte; behind a line feed the next line starts. -/
def past (p : Position) (c : UInt8) : Position :=
  if c = 0x0a then ⟨p.offset + 1, p.line + 1, 1⟩ else p.along 1

end Position

structure Span where
  start : Position
  stop : Position
deriving DecidableEq, Repr, Inhabited

namespace Span

/-- The span of a node that was made up rather than read. -/
def none : Span := ⟨⟨0, 0, 0⟩, ⟨0, 0, 0⟩⟩

def isNone (s : Span) : Bool := s == none

end Span

end Eel
