import Eel.Program.Error

/-!
The lines of a source around an error, with a mark under what is wrong.
-/

namespace Eel.CompileError

def clamp (n low high : Int) : Int := if n < low then low else if high < n then high else n

def unifyBreaks : Bytes → Bytes
  | 0x0d :: 0x0a :: s => 0x0a :: unifyBreaks s
  | 0x0d :: s => 0x0a :: unifyBreaks s
  | c :: s => c :: unifyBreaks s
  | [] => []

def linesOf (source : Bytes) : List Bytes := Bytes.splitOn 0x0a (unifyBreaks source)

/-- How many columns are marked from a column on. What reaches into further
lines is marked up to the end of this one. -/
def markWidth (line : Bytes) (loc : Loc) (column : Int) : Int :=
  let width :=
    if loc.endLine = loc.line ∧ column < loc.endColumn then loc.endColumn - column
    else if loc.line < loc.endLine then line.length + 1 - column
    else 1
  max width 1

def marker (line : Bytes) (loc : Loc) : Bytes :=
  let column := clamp loc.column 1 (line.length + 1)
  List.replicate (column - 1).toNat ' '.toUInt8 ++ ['^'.toUInt8]
    ++ List.replicate (markWidth line loc column - 1).toNat '~'.toUInt8

/-- A line behind its number, and the mark under it if it is the one with the
error. -/
def numberedLine (loc : Loc) (marked : Int) (line : Bytes) (number : Int) : Bytes :=
  Bytes.padLeft 4 (Bytes.decimalInt number) ++ utf8 " | " ++ line ++ utf8 "\n"
    ++ if number = marked then utf8 "     | " ++ marker line loc ++ utf8 "\n" else []

/-- The line of an error with up to `before` lines in front of it and up to
`after` behind. -/
def excerpt (e : CompileError) (before after : Int) : Bytes :=
  if e.loc.isNone || e.source.isEmpty then []
  else
    let lines := linesOf e.source
    let line := clamp e.loc.line 1 lines.length
    -- Integers have 64 bits, so that a line far enough away is on the other side.
    let first := clamp ((line - before).bmod (Nat.pow 2 64)) 1 line
    let last := clamp ((line + after).bmod (Nat.pow 2 64)) line lines.length
    let shown := (lines.zipIdx 1).filter fun (_, number) => first ≤ number && number ≤ last
    shown.flatMap fun (text, number) => numberedLine e.loc line text number

/-- An error as it is reported: the message and the excerpt with one line on
each side. -/
def report (e : CompileError) : Bytes := utf8 "error: " ++ e.message ++ utf8 "\n" ++ e.excerpt 1 1

end Eel.CompileError
