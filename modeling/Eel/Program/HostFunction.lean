import Eel.Bytes

/-!
The mathematical functions that have no instruction. A program imports all of
them from one module of the host, in a fixed order.
-/

namespace Eel

inductive HostFunction where
  | sin
  | cos
  | tan
  | asin
  | acos
  | atan
  | atan2
  | rand
  | pow
  | log
  | log10
  | exp
  | sigmoid
deriving DecidableEq, Repr

namespace HostFunction

/-- The module that the functions are imported from. No pool can have its
name. -/
def moduleName : Bytes := utf8 "shims"

def all : List HostFunction :=
  [sin, cos, tan, asin, acos, atan, atan2, rand, pow, log, log10, exp, sigmoid]

def name : HostFunction → Bytes
  | sin => utf8 "sin"
  | cos => utf8 "cos"
  | tan => utf8 "tan"
  | asin => utf8 "asin"
  | acos => utf8 "acos"
  | atan => utf8 "atan"
  | atan2 => utf8 "atan2"
  | rand => utf8 "rand"
  | pow => utf8 "pow"
  | log => utf8 "log"
  | log10 => utf8 "log10"
  | exp => utf8 "exp"
  | sigmoid => utf8 "sigmoid"

/-- How many numbers a function takes. Each gives one. -/
def arity : HostFunction → Nat
  | atan2 | pow | sigmoid => 2
  | _ => 1

/-- The number of a function, which is its place in the order of import. -/
def index (f : HostFunction) : Nat := all.idxOf f

def ofName? (s : Bytes) : Option HostFunction := all.find? (·.name == s)

end HostFunction

end Eel
