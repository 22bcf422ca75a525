import Eel.Double.Basic
import Std.Data.TreeMap

/-!
Linear memory.

A memory is a number of bytes, kept in words of eight with the lowest byte
first; a word that was never written is zero. A double that does not start at a
multiple of eight lies in two words.
-/

namespace Eel.Machine

structure Memory where
  /-- The number of bytes. -/
  size : Nat
  /-- The words that were written, by their number. -/
  words : Std.TreeMap Nat UInt64 := {}

namespace Memory

def pageBytes : Nat := 65536

/-- A memory of zeros. -/
def ofPages (pages : Nat) : Memory := { size := pages * pageBytes }

def word (m : Memory) (i : Nat) : UInt64 := m.words.getD i 0

def setWord (m : Memory) (i : Nat) (w : UInt64) : Memory := { m with words := m.words.insert i w }

def bitsAt (m : Memory) (address : Nat) : UInt64 :=
  let i := address / 8
  let shift := (8 * (address % 8)).toUInt64
  if shift = 0 then m.word i
  else (m.word i >>> shift) ||| (m.word (i + 1) <<< (64 - shift))

def setBits (m : Memory) (address : Nat) (bits : UInt64) : Memory :=
  let i := address / 8
  let shift := (8 * (address % 8)).toUInt64
  if shift = 0 then m.setWord i bits
  else
    let ones : UInt64 := 0xffffffffffffffff
    let low := (m.word i &&& ~~~(ones <<< shift)) ||| (bits <<< shift)
    let high := (m.word (i + 1) &&& (ones <<< shift)) ||| (bits >>> (64 - shift))
    (m.setWord i low).setWord (i + 1) high

def load? (m : Memory) (address : Nat) : Option Double :=
  if address + 8 ≤ m.size then some ⟨m.bitsAt address⟩ else none

/-- The memory with a double put at an address, if all its bytes exist. -/
def store? (m : Memory) (address : Nat) (x : Double) : Option Memory :=
  if address + 8 ≤ m.size then some (m.setBits address x.bits) else none

end Memory

end Eel.Machine
