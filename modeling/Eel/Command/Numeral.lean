import Eel.Bytes

/-!
Numbers as arguments: whole numbers of 64 bits, and switches.

A number may be written in base two, eight or sixteen behind `0b`, `0o` or `0x`;
a leading zero alone means base eight. Underscores may stand between digits and
behind the mark of the base.
-/

namespace Eel.Numeral

inductive Fault where
  | malformed
  | outOfRange
deriving DecidableEq, Repr

def Fault.text : Fault → Bytes
  | malformed => utf8 "invalid syntax"
  | outOfRange => utf8 "value out of range"

def underscore : UInt8 := '_'.toUInt8

def digit? (c : UInt8) : Option Nat :=
  if Bytes.isDigit c then some (c - '0'.toUInt8).toNat
  else if Bytes.isLetter c then some ((Bytes.toLower c - 'a'.toUInt8).toNat + 10)
  else none

def splitBase (s : Bytes) : Nat × Bytes :=
  match s with
  | 0x30 :: c :: d :: rest =>
    let mark := Bytes.toLower c
    if mark == 'b'.toUInt8 then (2, d :: rest)
    else if mark == 'o'.toUInt8 then (8, d :: rest)
    else if mark == 'x'.toUInt8 then (16, d :: rest)
    else (8, c :: d :: rest)
  | 0x30 :: rest => (8, rest)
  | _ => (10, s)

/-- Whether every underscore has a digit behind it, and a digit or the mark of
the base in front. -/
def underscoresFit (s : Bytes) : Bool :=
  let isMarked := (s.drop 1).head?.any fun c => ['b', 'o', 'x'].any (·.toUInt8 == Bytes.toLower c)
  let marked := s.head? == some '0'.toUInt8 && isMarked
  let isHex := marked && (s.drop 1).head?.any (Bytes.toLower · == 'x'.toUInt8)
  let isDigit (c : UInt8) : Bool := Bytes.isDigit c || isHex && (digit? c).any (· < 16)
  let rec go (behindDigit behindUnderscore : Bool) : Bytes → Bool
    | [] => !behindUnderscore
    | c :: rest =>
      if isDigit c then go true false rest
      else if c == underscore then behindDigit && go false true rest
      else !behindUnderscore && go false false rest
  if marked then go true false (s.drop 2) else go false false s

/-- Reads digits behind a value read so far. A number that gets too large is
noticed before a letter that is no digit. -/
def digits (base : Nat) : Nat → Bytes → Except Fault Nat
  | value, [] => .ok value
  | value, c :: rest =>
    if c == underscore then digits base value rest
    else
      match digit? c with
      | none => .error .malformed
      | some d =>
        if base ≤ d then .error .malformed
        else if Nat.pow 2 64 ≤ value * base + d then .error .outOfRange
        else digits base (value * base + d) rest

def natural (s : Bytes) : Except Fault UInt64 := do
  if s.isEmpty then throw .malformed
  let (base, rest) := splitBase s
  let n ← digits base 0 rest
  if s.contains underscore && !underscoresFit s then throw .malformed
  return n.toUInt64

def integer (s : Bytes) : Except Fault Int :=
  let (isNegative, rest) := match s with
    | 0x2b :: rest => (false, rest)
    | 0x2d :: rest => (true, rest)
    | _ => (false, s)
  match natural rest with
  | .error e => .error e
  | .ok n =>
    if isNegative then if n.toNat ≤ Nat.pow 2 63 then .ok (-(n.toNat : Int)) else .error .outOfRange
    else if n.toNat < Nat.pow 2 63 then .ok n.toNat else .error .outOfRange

def switch (s : Bytes) : Except Fault Bool :=
  if ["1", "t", "T", "TRUE", "true", "True"].any (utf8 · == s) then .ok true
  else if ["0", "f", "F", "FALSE", "false", "False"].any (utf8 · == s) then .ok false
  else .error .malformed

end Eel.Numeral
