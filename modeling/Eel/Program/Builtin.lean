import Eel.Bytes

/-!
The functions that are turned into instructions where they are called.
-/

namespace Eel

inductive Builtin where
  | choose
  | exec2
  | exec3
  | whileLoop
  | countedLoop
  | megabuf
  | gmegabuf
  | abs
  | sqrt
  | int
  | floor
  | ceil
  | min
  | max
  | sign
  | sqr
  | invsqrt
  | bor
  | band
  | bnot
  | above
  | below
  | equal
deriving DecidableEq, Repr

namespace Builtin

def all : List Builtin :=
  [choose, exec2, exec3, whileLoop, countedLoop, megabuf, gmegabuf, abs, sqrt, int, floor, ceil,
    min, max, sign, sqr, invsqrt, bor, band, bnot, above, below, equal]

def name : Builtin → Bytes
  | choose => utf8 "if"
  | exec2 => utf8 "exec2"
  | exec3 => utf8 "exec3"
  | whileLoop => utf8 "while"
  | countedLoop => utf8 "loop"
  | megabuf => utf8 "megabuf"
  | gmegabuf => utf8 "gmegabuf"
  | abs => utf8 "abs"
  | sqrt => utf8 "sqrt"
  | int => utf8 "int"
  | floor => utf8 "floor"
  | ceil => utf8 "ceil"
  | min => utf8 "min"
  | max => utf8 "max"
  | sign => utf8 "sign"
  | sqr => utf8 "sqr"
  | invsqrt => utf8 "invsqrt"
  | bor => utf8 "bor"
  | band => utf8 "band"
  | bnot => utf8 "bnot"
  | above => utf8 "above"
  | below => utf8 "below"
  | equal => utf8 "equal"

def arity : Builtin → Nat
  | choose | exec3 => 3
  | exec2 | countedLoop | min | max | bor | band | above | below | equal => 2
  | _ => 1

def ofName? (s : Bytes) : Option Builtin := all.find? (·.name == s)

end Builtin

end Eel
