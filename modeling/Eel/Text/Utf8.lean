import Eel.Bytes

/-!
UTF-8 in byte strings that need not be valid.

A text is read as a sequence of pieces: well-formed characters, and single bytes
that belong to none.
-/

namespace Eel.Text

/-- A character of a text, or a byte that starts no well-formed character. -/
inductive Piece where
  | point (c : Nat)
  | stray (byte : UInt8)
deriving DecidableEq, Repr

def encodePoint (c : Nat) : Bytes :=
  if c < 0x80 then [c.toUInt8]
  else if c < 0x800 then [(0xc0 + c / 64).toUInt8, (0x80 + c % 64).toUInt8]
  else if c < 0x10000 then
    [(0xe0 + c / 4096).toUInt8, (0x80 + c / 64 % 64).toUInt8, (0x80 + c % 64).toUInt8]
  else
    [(0xf0 + c / 262144).toUInt8, (0x80 + c / 4096 % 64).toUInt8, (0x80 + c / 64 % 64).toUInt8,
      (0x80 + c % 64).toUInt8]

/-- The low six bits of a byte `10xxxxxx` that lies between two bounds. -/
def tail? (low high : UInt8) (b : UInt8) : Option Nat :=
  if low ≤ b && b ≤ high then some (b.toNat % 64) else none

/-- How many bytes follow a first byte, and the bounds of the next one. Only
shortest forms are well formed, no surrogate is, and nothing lies past
U+10FFFF. -/
def lead (a : UInt8) : Option (Nat × UInt8 × UInt8) :=
  if a < 0x80 then some (0, 0x80, 0xbf)
  else if 0xc2 ≤ a && a ≤ 0xdf then some (1, 0x80, 0xbf)
  else if a = 0xe0 then some (2, 0xa0, 0xbf)
  else if a = 0xed then some (2, 0x80, 0x9f)
  else if 0xe1 ≤ a && a ≤ 0xef then some (2, 0x80, 0xbf)
  else if a = 0xf0 then some (3, 0x90, 0xbf)
  else if 0xf1 ≤ a && a ≤ 0xf3 then some (3, 0x80, 0xbf)
  else if a = 0xf4 then some (3, 0x80, 0x8f)
  else none

/-- The code point of the character that starts a text, and how many bytes
follow its first. -/
def first? (a : UInt8) (rest : Bytes) : Option (Nat × Nat) := do
  match ← lead a, rest with
  | (0, _, _), _ => some (a.toNat, 0)
  | (1, low, high), b :: _ => some ((a.toNat % 32) * 64 + (← tail? low high b), 1)
  | (2, low, high), b :: c :: _ =>
    some (((a.toNat % 16) * 64 + (← tail? low high b)) * 64 + (← tail? 0x80 0xbf c), 2)
  | (3, low, high), b :: c :: d :: _ =>
    some ((((a.toNat % 8) * 64 + (← tail? low high b)) * 64 + (← tail? 0x80 0xbf c)) * 64
      + (← tail? 0x80 0xbf d), 3)
  | _, _ => none

def pieces : Bytes → List Piece
  | [] => []
  | a :: rest =>
    match first? a rest with
    | some (c, following) => .point c :: pieces (rest.drop following)
    | none => .stray a :: pieces rest
termination_by s => s.length
decreasing_by all_goals simp only [List.length_cons, List.length_drop]; omega

def isValid (s : Bytes) : Bool :=
  (pieces s).all fun
    | .point _ => true
    | .stray _ => false

end Eel.Text
