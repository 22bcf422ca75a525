import Eel.Text.Utf8

/-!
Bytes written as digits of base 64, four digits for three bytes.
-/

namespace Eel.Base64

def digit? (c : UInt8) : Option Nat :=
  if Bytes.isUpper c then some (c.toNat - 'A'.toNat)
  else if Bytes.isLower c then some (c.toNat - 'a'.toNat + 26)
  else if Bytes.isDigit c then some (c.toNat - '0'.toNat + 52)
  else if c == '+'.toUInt8 then some 62
  else if c == '/'.toUInt8 then some 63
  else none

def number? (digits : Bytes) : Option Nat :=
  digits.foldlM (fun n c => return n * 64 + (← digit? c)) 0

/-- The bytes that groups of four digits stand for. The last group may be filled
up with equals signs. -/
def groups? : Bytes → Option Bytes
  | [] => some []
  | [a, b, 0x3d, 0x3d] => do
    let n ← number? [a, b]
    return [(n / 16).toUInt8]
  | [a, b, c, 0x3d] => do
    let n ← number? [a, b, c]
    return [(n / 1024).toUInt8, (n / 4 % 256).toUInt8]
  | a :: b :: c :: d :: rest => do
    let n ← number? [a, b, c, d]
    return (n / 65536).toUInt8 :: (n / 256 % 256).toUInt8 :: (n % 256).toUInt8 :: (← groups? rest)
  | _ => none

/-- The bytes that a text stands for. Line breaks in it do not count. -/
def decode? (s : Bytes) : Option Bytes :=
  groups? (s.filter fun c => c != '\n'.toUInt8 && c != '\r'.toUInt8)

end Eel.Base64
