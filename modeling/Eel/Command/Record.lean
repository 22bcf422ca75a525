import Eel.Bytes

/-!
Records: fields with commas between them, in one line.

A field may stand between quotation marks, and holds commas and doubled marks
then.
-/

namespace Eel.Record

def mark : UInt8 := '\x22'.toUInt8

def comma : UInt8 := ','.toUInt8

def lineFeed : UInt8 := 0x0a

/-- Why a text is no record. Columns count bytes from one. -/
inductive Fault where
  | bareMark (column : Nat)
  | strayMark (column : Nat)
  /-- There are empty lines only. -/
  | nothing
deriving DecidableEq, Repr

def Fault.text : Fault → Bytes
  | bareMark column => at_ column ++ utf8 "bare \x22 in non-quoted field"
  | strayMark column => at_ column ++ utf8 "extraneous or missing \x22 in quoted-field"
  | nothing => utf8 "EOF"
where
  at_ (column : Nat) : Bytes :=
    utf8 "parse error on line 1, column " ++ Bytes.decimal column ++ utf8 ": "

/-- Where a reader stands: in front of a field, in one without marks, in one
between marks, or behind its closing mark. -/
inductive Place where
  | front
  | plain
  | marked
  | closed
deriving DecidableEq, Repr

/-- Reads the fields from a column on; `field` is what the field at hand holds
so far, backwards. -/
def read (column : Nat) (field : Bytes) : Place → Bytes → Except Fault (List Bytes)
  | .marked, [] => .error (.strayMark column)
  | _, [] => .ok [field.reverse]
  | place, c :: rest =>
    match place with
    | .marked =>
      if c == mark then read (column + 1) field .closed rest
      else read (column + 1) (c :: field) .marked rest
    | .closed =>
      if c == mark then read (column + 1) (c :: field) .marked rest
      else if c == comma then (read (column + 1) [] .front rest).map (field.reverse :: ·)
      else .error (.strayMark (column - 1))
    | .front | .plain =>
      if c == mark then
        if place == .front then read (column + 1) [] .marked rest else .error (.bareMark column)
      else if c == comma then (read (column + 1) [] .front rest).map (field.reverse :: ·)
      else read (column + 1) (c :: field) .plain rest

def firstLine? (s : Bytes) : Option Bytes := (Bytes.splitOn lineFeed s).find? (!·.isEmpty)

/-- The fields of a text; an empty text has none. -/
def fields (s : Bytes) : Except Fault (List Bytes) :=
  if s.isEmpty then .ok []
  else
    match firstLine? s with
    | none => .error .nothing
    | some line => read 1 [] .front line

end Eel.Record
