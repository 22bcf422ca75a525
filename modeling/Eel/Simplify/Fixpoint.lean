import Eel.Simplify.Folding
import Eel.Simplify.Propagation

/-!
Simplifying until nothing changes.

A round replaces the known variables and then folds. Rounds are repeated until
one keeps the tree, but no more often than a limit says.
-/

namespace Eel.Simplify

def defaultRounds : Nat := 1000

/-- A limit below one stands for the default. -/
def roundLimit (limit : Int) : Nat := if limit < 1 then defaultRounds else limit.toNat

def round (division : Division) (n : Node) : Swept :=
  let propagated := propagate n
  propagated.followedBy (fold division propagated.node)

/-- Up to `remaining` further rounds behind `done` ones, and how many were run
in the end. The last round that kept everything is counted. -/
def rounds (division : Division) : Nat → Nat → Swept → Swept × Nat
  | 0, done, reached => (reached, done)
  | remaining + 1, done, reached =>
    let next := round division reached.node
    if next.kept then (reached, done + 1)
    else rounds division remaining (done + 1) (reached.followedBy next)

def run (division : Division) (limit : Int) (n : Node) : Swept × Nat :=
  rounds division (roundLimit limit) 0 (.unchanged n)

end Eel.Simplify
