import Eel.Text.LetterCase

/-!
What a program is made from: pools of variables that the host owns, and
functions that run against one of them.
-/

namespace Eel

/-- A named set of variables. -/
structure Pool where
  name : Bytes
  vars : List Bytes
deriving DecidableEq, Repr, Inhabited

/-- A function to compile, and to export under its name. -/
structure FunctionDecl where
  name : Bytes
  pool : Bytes
  source : Bytes
deriving DecidableEq, Repr, Inhabited

/-- What to compile, and how. That functions may be prepared side by side is no
option here, since neither the module nor the first error depends on it. -/
structure Options where
  pools : List Pool
  functions : List FunctionDecl
  /-- Whether scripts are simplified first. -/
  simplify : Bool := true
  /-- The limit on rounds of simplifying; below one the default. -/
  maxRounds : Int := 0
deriving DecidableEq, Repr

/-- The variable of a pool that a name means, as it is declared. Case does not
matter. -/
def Pool.find? (pool : Pool) (name : Bytes) : Option Bytes :=
  let key := Text.lower name
  pool.vars.find? (Text.lower · == key)

end Eel
