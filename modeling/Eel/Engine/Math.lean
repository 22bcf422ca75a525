import Eel.Double.Power
import Eel.Engine.Random
import Eel.Machine.Exec
import Eel.Program.Routine

/-!
What the functions of the host calculate, and how single ones are replaced.
-/

namespace Eel

/-- A curve from zero to one around `x = 0`, the steeper the greater the second
number. -/
def Double.sigmoid (x steepness : Double) : Double :=
  let t := one.add (x.neg.mul steepness).exp
  if gt t.abs epsilon then one.div t else zero

namespace HostFunction

/-- The usual meaning of a function. Only random numbers depend on the state. -/
def standard (f : HostFunction) (args : List Double) (random : Random) : Double × Random :=
  match f, args with
  | sin, [x] => (x.sin, random)
  | cos, [x] => (x.cos, random)
  | tan, [x] => (x.tan, random)
  | asin, [x] => (x.asin, random)
  | acos, [x] => (x.acos, random)
  | atan, [x] => (x.atan, random)
  | atan2, [y, x] => (y.atan2 x, random)
  | rand, [x] =>
    let (r, random) := random.next
    (r.mul x, random)
  | pow, [x, y] => (x.pow y, random)
  | log, [x] => (x.log, random)
  | log10, [x] => (x.log10, random)
  | exp, [x] => (x.exp, random)
  | sigmoid, [x, steepness] => (x.sigmoid steepness, random)
  | _, _ => (.zero, random)

end HostFunction

inductive Replacement where
  | unary (f : Double → Double)
  | binary (f : Double → Double → Double)
  /-- Something that is no such function, with the name of what it is. -/
  | unsupported (type : Bytes)

namespace Replacement

def apply (r : Replacement) (args : List Double) : Double :=
  match r, args with
  | unary f, [x] => f x
  | binary f, [x, y] => f x y
  | _, _ => .zero

end Replacement

/-- The host in which some functions are replaced. Of several replacements of
one function the last counts. -/
def mathHost (replacements : List (HostFunction × Replacement)) : Machine.Host Random where
  call f args random :=
    match replacements.reverse.find? (·.1 == f) with
    | some (_, r) => (r.apply args, random)
    | none => f.standard args random

end Eel
