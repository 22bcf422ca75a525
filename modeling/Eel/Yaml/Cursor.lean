import Eel.Text.Utf8

/-!
Places in a YAML text.

A text is read as characters. It may hold no control characters other than tabs
and line breaks.
-/

namespace Eel.Yaml

def isAllowed (c : Nat) : Bool :=
  c == 0x09 || c == 0x0a || c == 0x0d || (0x20 ≤ c && c ≤ 0x7e) || c == 0x85 ||
    (0xa0 ≤ c && c ≤ 0xd7ff)
    || (0xe000 ≤ c && c ≤ 0xfffd) || 0x10000 ≤ c

def characters? (s : Bytes) : Option (List Char) :=
  (Text.pieces s).mapM fun
    | .point c => if isAllowed c then some (Char.ofNat c) else none
    | .stray _ => none

def textOf (cs : List Char) : Bytes := cs.flatMap fun c => Text.encodePoint c.toNat

def isBlank (c : Char) : Bool := c == ' ' || c == '\t'

def isBreak (c : Char) : Bool :=
  c == '\n' || c == '\r' || c == '\u0085' || c == '\u2028' || c == '\u2029'

def isSpace (c : Char) : Bool := isBlank c || isBreak c

def byteOrderMark : Char := '\ufeff'

/-- What is left of a text, and where it starts. Lines, columns and characters
are counted from zero. -/
structure Cursor where
  rest : List Char
  line : Nat := 0
  column : Nat := 0
  index : Nat := 0
deriving Repr

namespace Cursor

def ahead? (c : Cursor) (n : Nat) : Option Char := c.rest[n]?

def head? (c : Cursor) : Option Char := c.ahead? 0

def isAt (c : Cursor) (x : Char) : Bool := c.head? == some x

/-- Whether a blank, a line break or the end lies so many places ahead. -/
def isGapAt (c : Cursor) (n : Nat) : Bool := (c.ahead? n).all isSpace

def isLineEnd (c : Cursor) : Bool := c.head?.all isBreak

def skip (c : Cursor) (n : Nat) : Cursor :=
  { c with rest := c.rest.drop n, column := c.column + n, index := c.index + n }

/-- The characters of this line up to the first without a property, and the
place behind them. -/
def span (c : Cursor) (p : Char → Bool) : List Char × Cursor :=
  let run := c.rest.takeWhile fun x => p x && !isBreak x
  (run, c.skip run.length)

/-- The line break that comes next, as it counts in a text, and the place behind
it. -/
def lineBreak (c : Cursor) : List Char × Cursor :=
  let behind (length : Nat) : Cursor :=
    { rest := c.rest.drop length, line := c.line + 1, column := 0, index := c.index + length }
  match c.rest with
  | '\r' :: '\n' :: _ => (['\n'], behind 2)
  | '\u2028' :: _ => (['\u2028'], behind 1)
  | '\u2029' :: _ => (['\u2029'], behind 1)
  | _ => (['\n'], behind 1)

/-- Whether a line starts here with three marks and a gap behind them. -/
def isMarker (c : Cursor) (mark : Char) : Bool :=
  c.column == 0 && c.rest.take 3 == [mark, mark, mark] && c.isGapAt 3

def isDocumentMarker (c : Cursor) : Bool := c.isMarker '-' || c.isMarker '.'

end Cursor

end Eel.Yaml
