import Eel.Bytes

/-!
Numbers in the binary format.

Integers are written in LEB128: seven bits to a byte, the lowest first, the top
bit set on all bytes but the last. Unsigned numbers have 64 bits, signed ones
are two's complement of 64 bits. A double is its bits, the lowest byte first.
-/

namespace Eel.Wasm

inductive Fault where
  /-- The input ends inside a value. -/
  | truncated
  /-- A number does not fit in 64 bits. -/
  | overflow
deriving DecidableEq, Repr

def Fault.message : Fault → Bytes
  | truncated => utf8 "wasm: truncated input"
  | overflow => utf8 "wasm: LEB128 value overflows 64 bits"

def unsigned (n : Nat) : Bytes :=
  if n < 128 then [n.toUInt8] else (n % 128 + 128).toUInt8 :: unsigned (n / 128)
termination_by n

/-- Whether the low seven bits of an integer, read with their sign, are the
integer. -/
def isSevenBit (n : Int) : Bool := -64 ≤ n && n < 64

def signed (n : Int) : Bytes :=
  if isSevenBit n then [(n % 128).toNat.toUInt8]
  else (n % 128 + 128).toNat.toUInt8 :: signed (n / 128)
termination_by n.natAbs
decreasing_by
  rename_i h
  simp [isSevenBit] at h
  omega

def continues (c : UInt8) : Bool := 128 ≤ c

def contribution (place : Nat) (c : UInt8) : Nat := c.toNat % 128 * Nat.pow 2 place

/-- Reads an unsigned number from the bit `place` on, with the rest of the
input. At the last bit a byte may add no more than that bit. -/
def readUnsignedFrom (place value : Nat) : Bytes → Except Fault (Nat × Bytes)
  | [] => .error .truncated
  | c :: rest =>
    if 64 ≤ place || (place == 63 && 2 ≤ c.toNat % 128) then .error .overflow
    else if continues c then readUnsignedFrom (place + 7) (value + contribution place c) rest
    else .ok (value + contribution place c, rest)

def readUnsigned (s : Bytes) : Except Fault (Nat × Bytes) := readUnsignedFrom 0 0 s

/-- The signed number whose last byte `c` stands at the bit `place`, where
`value` has all its bits. -/
def withSign (place value : Nat) (c : UInt8) : Int :=
  if place + 7 < 64 && 64 ≤ c.toNat % 128 then value - Nat.pow 2 (place + 7)
  else Int.bmod value (Nat.pow 2 64)

/-- Reads a signed number from the bit `place` on, with the rest of the input.
Bits past the last are dropped. -/
def readSignedFrom (place value : Nat) : Bytes → Except Fault (Int × Bytes)
  | [] => .error .truncated
  | c :: rest =>
    if 64 ≤ place then .error .overflow
    else
      let value := (value + contribution place c) % Nat.pow 2 64
      if continues c then readSignedFrom (place + 7) value rest
      else .ok (withSign place value c, rest)

def readSigned (s : Bytes) : Except Fault (Int × Bytes) := readSignedFrom 0 0 s

def littleEndian : Nat → Nat → Bytes
  | 0, _ => []
  | count + 1, n => (n % 256).toUInt8 :: littleEndian count (n / 256)

def ofLittleEndian : Bytes → Nat
  | [] => 0
  | c :: rest => c.toNat + 256 * ofLittleEndian rest

end Eel.Wasm
