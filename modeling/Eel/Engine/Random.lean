import Eel.Double.Rounding

/-!
Random numbers: a linear congruence on 128 bits, whose states are mixed down to
64.
-/

namespace Eel

/-- The state of the generator, below `2 ^ 128`. -/
structure Random where
  state : Nat
deriving DecidableEq, Repr

namespace Random

/-- The generator that a seed starts: the seed above the seed with the bits of
the golden ratio flipped. -/
def ofSeed (seed : UInt64) : Random :=
  ⟨seed.toNat * Nat.pow 2 64 + (seed ^^^ 0x9e3779b97f4a7c15).toNat⟩

def step (r : Random) : Random :=
  ⟨(r.state * 0x2360ed051fc65da44385df649fccf645 + 0x5851f42d4c957f2d14057b7ef767814f) %
    Nat.pow 2 128⟩

def mixed (r : Random) : UInt64 :=
  let high : UInt64 := (r.state / Nat.pow 2 64).toUInt64
  let low : UInt64 := r.state.toUInt64
  let high := (high ^^^ (high >>> 32)) * 0xda942042e4dd58b5
  let high := high ^^^ (high >>> 48)
  high * (low ||| 1)

/-- A number from zero up to one, with 53 bits, and the generator behind it. -/
def next (r : Random) : Double × Random :=
  let r := r.step
  (Double.ofRatio false (r.mixed.toNat % Nat.pow 2 53) (Nat.pow 2 53), r)

end Random

end Eel
