/-!
Texts are byte strings.

Sources, names and messages may hold any bytes, valid UTF-8 or not, and every
offset and length counts bytes. A text is therefore a list of bytes, and a
string literal of this library stands for its UTF-8 form.
-/

namespace Eel

/-- A text: any sequence of bytes. -/
abbrev Bytes := List UInt8

def utf8 (s : String) : Bytes := s.toList.flatMap String.utf8EncodeChar

namespace Bytes

def isDigit (c : UInt8) : Bool := '0'.toUInt8 ≤ c && c ≤ '9'.toUInt8

def isUpper (c : UInt8) : Bool := 'A'.toUInt8 ≤ c && c ≤ 'Z'.toUInt8

def isLower (c : UInt8) : Bool := 'a'.toUInt8 ≤ c && c ≤ 'z'.toUInt8

def isLetter (c : UInt8) : Bool := isLower c || isUpper c

/-- The lower-case form of an ASCII letter; every other byte is itself. -/
def toLower (c : UInt8) : UInt8 := if isUpper c then c + 32 else c

def hexDigit (n : Nat) : UInt8 :=
  if n < 10 then '0'.toUInt8 + n.toUInt8 else 'a'.toUInt8 + (n - 10).toUInt8

def hexPair (c : UInt8) : Bytes := [hexDigit (c.toNat / 16), hexDigit (c.toNat % 16)]

def hexFixed : Nat → Nat → Bytes
  | 0, _ => []
  | width + 1, n => hexFixed width (n / 16) ++ [hexDigit (n % 16)]

/-- The decimal digits of `n`, the most significant first, written before
`rest`. -/
def decimalOnto (n : Nat) (rest : Bytes) : Bytes :=
  let rest := ('0'.toUInt8 + (n % 10).toUInt8) :: rest
  if n < 10 then rest else decimalOnto (n / 10) rest
termination_by n

def decimal (n : Nat) : Bytes := decimalOnto n []

def decimalInt (n : Int) : Bytes :=
  if n < 0 then '-'.toUInt8 :: decimal n.natAbs else decimal n.natAbs

def padLeft (width : Nat) (s : Bytes) : Bytes := List.replicate (width - s.length) 32 ++ s

def padRight (width : Nat) (s : Bytes) : Bytes := s ++ List.replicate (width - s.length) 32

def join (separator : Bytes) (parts : List Bytes) : Bytes := separator.intercalate parts

def dropFront? : Bytes → Bytes → Option Bytes
  | [], s => some s
  | _ :: _, [] => none
  | f :: front, c :: s => if f = c then dropFront? front s else none

/-- What stands before and behind the first occurrence of `mark`. -/
def cut? (mark : Bytes) : Bytes → Option (Bytes × Bytes)
  | [] => if mark = [] then some ([], []) else none
  | c :: s =>
    match dropFront? mark (c :: s) with
    | some rest => some ([], rest)
    | none => (cut? mark s).map fun (before, behind) => (c :: before, behind)

/-- The parts of a text between the occurrences of a byte; never empty. -/
def splitOn (mark : UInt8) : Bytes → List Bytes
  | [] => [[]]
  | c :: s =>
    if c = mark then [] :: splitOn mark s
    else
      match splitOn mark s with
      | [] => [[c]]
      | part :: parts => (c :: part) :: parts

/-- Byte order: the order of the first differing byte, a text before every
longer one it starts. -/
def le : Bytes → Bytes → Bool
  | [], _ => true
  | _ :: _, [] => false
  | a :: s, b :: t => if a = b then le s t else a < b

def sort (texts : List Bytes) : List Bytes := texts.mergeSort le

end Bytes

end Eel
