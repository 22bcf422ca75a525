import Mathlib
import Eel.Machine.Exec
import Eel.Program.Builtin
import Eel.Program.Routine
import Eel.Simplify.Folding

/-!
What a tree means, without instructions, stacks or addresses.

An expression has a value and may change the variables, the slots of the two
buffers and the state of the host. It is evaluated by recursion on the tree, its
parts from left to right. This is the side that compiled code and simplified
trees are held against. A node that has no meaning, such as a call of an unknown
name, has its parts evaluated and counts as zero; no function that holds one is
ever compiled.
-/

namespace Eel

namespace Double

/-- Whether a number is so close to zero that tests take it for zero. -/
def isZeroish (x : Double) : Bool := x.abs.lt epsilon

/-- One for what holds, zero for what does not. -/
def ofTruth (b : Bool) : Double := if b then one else zero

/-- The number without its fraction; zero where there is none. -/
def whole (x : Double) : Int := x.truncate?.getD 0

/-- Whether a number lies between the least and the greatest integer of 32
bits. -/
def fitsInt32 (x : Double) : Bool := Routine.int32Bounds.1.le x && x.le Routine.int32Bounds.2

/-- The remainder of the whole parts; zero where a number does not fit in 32
bits, or where the whole part of the divisor is zero. -/
def remainder (x y : Double) : Double :=
  if x.fitsInt32 && y.fitsInt32 && y.whole != 0 then ofInt (x.whole.tmod y.whole) else zero

/-- An operation on the whole parts as integers of 64 bits, moved to the nearer
bound. -/
def onInt64 (f : Int64 → Int64 → Int64) (x y : Double) : Double :=
  ofInt (f x.toInt64Saturating y.toInt64Saturating).toInt

/-- The slot of a buffer that a number reads. -/
def slot? (x : Double) : Option Nat :=
  let n := (x.add epsilon).toInt32Saturating.toInt
  if 0 ≤ n ∧ n < bufferSlots then some n.toNat else none

/-- The slot of a buffer that a number writes; a negative one writes none. -/
def storeSlot? (x : Double) : Option Nat := if x.lt zero then none else x.slot?

def sign (x : Double) : Double := if x.gt zero then one else if x.lt zero then negOne else zero

end Double

/-- The two buffers. -/
inductive Buffer where
  | mega
  | gmega
deriving DecidableEq, Repr

def Buffer.ofName? (name : Bytes) : Option Buffer :=
  if name == Builtin.name .megabuf then some mega
  else if name == Builtin.name .gmegabuf then some gmega
  else none

/-- What a script works on. -/
@[ext]
structure State (σ : Type) where
  vars : Bytes → Double
  slots : Buffer → Nat → Double
  host : σ

namespace State

variable {σ : Type}

def setVar (s : State σ) (name : Bytes) (x : Double) : State σ :=
  { s with vars := Function.update s.vars name x }

def setSlot (s : State σ) (b : Buffer) (k : Nat) (x : Double) : State σ :=
  { s with slots := Function.update s.slots b (Function.update (s.slots b) k x) }

end State

/-- A part of a run that ends in a value. -/
abbrev Run (σ : Type) := StateM (State σ)

namespace Run

open Machine (Host)

variable {σ : Type}

def callHost (host : Host σ) (f : HostFunction) (args : List Double) : Run σ Double := fun s =>
  let (x, state) := host.call f args s.host
  (x, { s with host := state })

/-- Runs a body until its value counts as zero, but no more often than a limit
says. -/
def whileNonzero (body : Run σ Double) : Nat → Run σ Unit
  | 0 => return ()
  | limit + 1 => do
    if !(← body).isZeroish then whileNonzero body limit

/-- Runs a body so many times. -/
def times (body : Run σ Double) : Nat → Run σ Unit
  | 0 => return ()
  | count + 1 => do
    let _ ← body
    times body count

/-- The content of a slot; zero if there is no such slot. -/
def readSlot (b : Buffer) (index : Double) : Run σ Double := do
  match index.slot? with
  | some k => return (← get).slots b k
  | none => return .zero

/-- Runs one after another, for all their values. -/
def all : List (Run σ Double) → Run σ (List Double)
  | [] => return []
  | r :: rest => return (← r) :: (← all rest)

/-- Runs one after another, for the value of the last one. -/
def last : List (Run σ Double) → Run σ Double
  | [] => return .zero
  | [r] => r
  | r :: rest => do
    let _ ← r
    last rest

end Run

open Machine (Host)

variable {σ : Type}

def UnaryOp.apply : UnaryOp → Double → Double
  | neg, x => x.neg
  | plus, x => x
  | not, x => .ofTruth x.isZeroish
  | other _, _ => .zero

/-- What a binary operator makes of two values. Only a power needs the host. -/
def BinaryOp.apply (host : Host σ) : BinaryOp → Double → Double → Run σ Double
  | add, x, y => return x.add y
  | sub, x, y => return x.sub y
  | mul, x, y => return x.mul y
  | div, x, y => return x.quotient y
  | rem, x, y => return x.remainder y
  | bitAnd, x, y => return Double.onInt64 (· &&& ·) x y
  | bitOr, x, y => return Double.onInt64 (· ||| ·) x y
  | pow, x, y => Run.callHost host .pow [x, y]
  | eq, x, y => return .ofTruth (x.sub y).isZeroish
  | ne, x, y => return .ofTruth !(x.sub y).isZeroish
  | lt, x, y => return .ofTruth (x.lt y)
  | gt, x, y => return .ofTruth (x.gt y)
  | le, x, y => return .ofTruth (x.le y)
  | ge, x, y => return .ofTruth (x.ge y)
  | other _, _, _ => return .zero

/-- The value that an assignment stores, from the value before it and the one on
its right side. -/
def AssignOp.apply (host : Host σ) (op : AssignOp) (old value : Double) : Run σ Double :=
  match op.combining? with
  | none => return value
  | some op => op.apply host old value

/-- A builtin that only calculates with its arguments. -/
def Builtin.apply : Builtin → List Double → Double
  | abs, [x] => x.abs
  | sqrt, [x] => x.abs.sqrt
  | int, [x] | floor, [x] => x.floor
  | ceil, [x] => x.ceil
  | min, [x, y] => x.min y
  | max, [x, y] => x.max y
  | sign, [x] => x.sign
  | sqr, [x] => x.mul x
  | invsqrt, [x] => Double.one.div x.abs.sqrt
  | bor, [x, y] => .ofTruth (!x.isZeroish || !y.isZeroish)
  | band, [x, y] => .ofTruth (!x.isZeroish && !y.isZeroish)
  | bnot, [x] => .ofTruth x.isZeroish
  | above, [x, y] => .ofTruth (x.gt y)
  | below, [x, y] => .ofTruth (x.lt y)
  | equal, [x, y] => .ofTruth (x.sub y).isZeroish
  | _, _ => .zero

/-- What a call of a builtin does with its arguments. Some of them are left out
or repeated. -/
def Builtin.run : Builtin → List (Run σ Double) → Run σ Double
  | choose, [test, consequent, alternate] => do
    if (← test).isZeroish then alternate else consequent
  | exec2, args | exec3, args => Run.last args
  | whileLoop, [body] => do
    Run.whileNonzero body maxIterations.toInt.toNat
    return .zero
  | countedLoop, [count, body] => do
    Run.times body (← count).toInt32Saturating.toInt.toNat
    return .zero
  | megabuf, [index] => do Run.readSlot .mega (← index)
  | gmegabuf, [index] => do Run.readSlot .gmega (← index)
  | b, args => return b.apply (← Run.all args)

/-- What a call does with its arguments. -/
def callByName (host : Host σ) (name : Bytes) (args : List (Run σ Double)) : Run σ Double :=
  match Builtin.ofName? name with
  | some b => b.run args
  | none =>
    match HostFunction.ofName? name with
    | some f => do Run.callHost host f (← Run.all args)
    | none => do
      let _ ← Run.all args
      return .zero

/-- What an operator does that may leave out its right operand. -/
def LogicalOp.run (op : LogicalOp) (left right : Run σ Double) : Run σ Double := do
  let x ← left
  match op with
  | and => if x.isZeroish then return .zero else return .ofTruth !(← right).isZeroish
  | or => if x.isZeroish then return .ofTruth !(← right).isZeroish else return .one
  | other _ => return .zero

/-- An assignment to a variable. The value before it is read first. -/
def AssignOp.runVar (host : Host σ) (op : AssignOp) (name : Bytes) (value : Run σ Double) :
    Run σ Double := do
  let old := (← get).vars name
  let new ← op.apply host old (← value)
  modify (·.setVar name new)
  return new

/-- An assignment to a slot that was looked up. The right side is evaluated
once, whether or not there is such a slot. -/
def AssignOp.runAt (host : Host σ) (op : AssignOp) (b : Buffer) (value : Run σ Double) :
    Option Nat → Run σ Double
  | none => value
  | some k => do
    let old := (← get).slots b k
    let new ← op.apply host old (← value)
    modify (·.setSlot b k new)
    return new

/-- An assignment to a slot. Its index is evaluated first. -/
def AssignOp.runSlot (host : Host σ) (op : AssignOp) (b : Buffer) (index value : Run σ Double) :
    Run σ Double := do
  op.runAt host b value (← index).storeSlot?

/-- An assignment to a call, which is one to a slot if the call is the read of a
slot. -/
def AssignOp.runCall (host : Host σ) (op : AssignOp) (name : Bytes) (args : List (Run σ Double))
    (value : Run σ Double) : Run σ Double :=
  match Buffer.ofName? name, args with
  | some b, [index] => op.runSlot host b index value
  | _, args => do
    let _ ← Run.all args
    let _ ← value
    return .zero

namespace Node

mutual

/-- The value of an expression. -/
def eval (host : Host σ) : Node → Run σ Double
  | .number value _ => return value
  | .ident id => return (← get).vars id.name
  | .script body _ | .block body _ => Run.last (evalEach host body)
  | .unary op operand _ => return op.apply (← eval host operand)
  | .binary op left right _ => do op.apply host (← eval host left) (← eval host right)
  | .logical op left right _ => op.run (eval host left) (eval host right)
  | .assign op (.ident id) value _ => op.runVar host id.name (eval host value)
  | .assign op (.call callee args _) value _ =>
    op.runCall host callee.name (evalEach host args) (eval host value)
  | .assign _ _ value _ => do
    let _ ← eval host value
    return .zero
  | .call callee args _ => callByName host callee.name (evalEach host args)
  | .missing => return .zero

/-- The values of expressions, each on its own. -/
def evalEach (host : Host σ) : List Node → List (Run σ Double)
  | [] => []
  | n :: rest => eval host n :: evalEach host rest

end

end Node

end Eel
