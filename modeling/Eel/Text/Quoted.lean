import Eel.Text.Printable
import Eel.Text.Utf8

/-!
Quoted texts, as messages show names and characters.

Printable characters stand for themselves. The quotation mark and the backslash
are escaped, as is everything that cannot be seen, so a quoted text stays on one
line and shows every byte.
-/

namespace Eel.Text

/-- The letter that stands behind a backslash for one of the seven named control
characters. -/
def controlLetter (c : Nat) : Option UInt8 :=
  match c with
  | 0x07 => some 'a'.toUInt8
  | 0x08 => some 'b'.toUInt8
  | 0x0c => some 'f'.toUInt8
  | 0x0a => some 'n'.toUInt8
  | 0x0d => some 'r'.toUInt8
  | 0x09 => some 't'.toUInt8
  | 0x0b => some 'v'.toUInt8
  | _ => none

/-- A backslash, a letter for the width, and that many hexadecimal digits. -/
def escaped (letter : Char) (width : Nat) (c : Nat) : Bytes :=
  ['\\'.toUInt8, letter.toUInt8] ++ Bytes.hexFixed width c

def quotePoint (mark : UInt8) (c : Nat) : Bytes :=
  if c = mark.toNat || c = '\\'.toNat then ['\\'.toUInt8, c.toUInt8]
  else if isPrintable c then encodePoint c
  else
    match controlLetter c with
    | some letter => ['\\'.toUInt8, letter]
    | none =>
      if c < 0x80 then escaped 'x' 2 c
      else if c < 0x10000 then escaped 'u' 4 c
      else escaped 'U' 8 c

def quotePiece (mark : UInt8) : Piece → Bytes
  | .point c => quotePoint mark c
  | .stray b => escaped 'x' 2 b.toNat

def quoted (s : Bytes) : Bytes :=
  let mark := '"'.toUInt8
  [mark] ++ (pieces s).flatMap (quotePiece mark) ++ [mark]

def quotedPoint (c : Nat) : Bytes :=
  let mark := '\''.toUInt8
  [mark] ++ quotePoint mark c ++ [mark]

end Eel.Text
