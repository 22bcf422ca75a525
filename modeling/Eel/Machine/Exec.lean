import Eel.Machine.Memory
import Eel.Machine.Value
import Eel.Program.HostFunction

/-!
The machine that runs instructions.

A block runs on a stack of its own and leaves its values on the one around it. A
branch carries the stack of the block that it starts from, out of which its
target takes the values that it leaves. A loop goes round at most as often as a
bound says, which no count of 32 bits exceeds.
-/

namespace Eel.Machine

open Wasm

/-- What outlives a call: the globals, the memory, and the state of the host's
functions. -/
structure Store (σ : Type) where
  globals : Array Double
  memory : Memory
  host : σ

/-- A store with the locals of the running function. -/
structure Frame (σ : Type) where
  store : Store σ
  locals : List Value

/-- How instructions end: behind the last one, in a branch out of so many
blocks, or early. -/
inductive Flow (σ : Type) where
  | next (frame : Frame σ) (stack : List Value)
  | branch (depth : Nat) (frame : Frame σ) (stack : List Value)
  | trap (cause : Trap)

def moveTop : Nat → List Value → List Value → List Value
  | n + 1, v :: stack, outer => v :: moveTop n stack outer
  | _, _, outer => outer

namespace Flow

variable {σ : Type}

/-- The end of a block that leaves values on the stack around it. A branch to
the block ends it. -/
def leaving (type : BlockType) (outer : List Value) : Flow σ → Flow σ
  | next frame stack => next frame (moveTop type.arity stack outer)
  | branch 0 frame stack => next frame (moveTop type.arity stack outer)
  | branch (depth + 1) frame stack => branch depth frame stack
  | trap cause => trap cause

@[inline]
def ofStack (frame : Frame σ) : Except Trap (List Value) → Flow σ
  | .ok stack => next frame stack
  | .error cause => trap cause

end Flow

inductive Outcome (σ : Type) where
  | done (store : Store σ) (stack : List Value)
  | trap (cause : Trap)

/-- How the function of an index is called. A call takes its arguments from the
stack and leaves its results there. -/
abbrev Calls (σ : Type) := Nat → Store σ → List Value → Outcome σ

def roundLimit : Nat := Nat.pow 2 31

variable {σ : Type} [Arithmetic]

def iterate (body : Frame σ → Flow σ) : Nat → Frame σ → Flow σ
  | 0, _ => .trap .endless
  | limit + 1, frame =>
    match body frame with
    | .branch 0 frame _ => iterate body limit frame
    | .branch (depth + 1) frame stack => .branch depth frame stack
    | flow => flow

/-- The address that a number on the stack stands for, read without a sign. -/
def address (n : Int32) (offset : Nat) : Nat := n.toUInt32.toNat + offset

@[inline]
def getLocal (frame : Frame σ) (index : Nat) (stack : List Value) : Flow σ :=
  match frame.locals[index]? with
  | some v => .next frame (v :: stack)
  | none => .trap .illTyped

@[inline]
def setLocal (frame : Frame σ) (index : Nat) (v : Value) (stack : List Value) : Flow σ :=
  if index < frame.locals.length then .next { frame with locals := frame.locals.set index v } stack
  else .trap .illTyped

@[inline]
def getGlobal (frame : Frame σ) (index : Nat) (stack : List Value) : Flow σ :=
  match frame.store.globals[index]? with
  | some x => .next frame (.f64 x :: stack)
  | none => .trap .illTyped

@[inline]
def setGlobal (frame : Frame σ) (index : Nat) (x : Double) (stack : List Value) : Flow σ :=
  if index < frame.store.globals.size then
    .next { frame with store.globals := frame.store.globals.setIfInBounds index x } stack
  else .trap .illTyped

@[inline]
def load (frame : Frame σ) (at_ : Nat) (stack : List Value) : Flow σ :=
  match frame.store.memory.load? at_ with
  | some x => .next frame (.f64 x :: stack)
  | none => .trap .memoryAccess

@[inline]
def store (frame : Frame σ) (at_ : Nat) (x : Double) (stack : List Value) : Flow σ :=
  match frame.store.memory.store? at_ x with
  | some memory => .next { frame with store.memory := memory } stack
  | none => .trap .memoryAccess

@[inline]
def step (calls : Calls σ) (i : Instr) (frame : Frame σ) (stack : List Value) : Flow σ :=
  match i, stack with
  | .br depth, stack => .branch depth frame stack
  | .brIf depth, .i32 n :: stack => if n ≠ 0 then .branch depth frame stack else .next frame stack
  | .call index, stack =>
    match calls index frame.store stack with
    | .done store stack => .next { frame with store } stack
    | .trap cause => .trap cause
  | .drop, _ :: stack => .next frame stack
  | .localGet index, stack => getLocal frame index stack
  | .localSet index, v :: stack => setLocal frame index v stack
  | .localTee index, v :: stack => setLocal frame index v (v :: stack)
  | .globalGet index, stack => getGlobal frame index stack
  | .globalSet index, .f64 x :: stack => setGlobal frame index x stack
  | .f64Load offset, .i32 n :: stack => load frame (address n offset) stack
  | .f64Store offset, .f64 x :: .i32 n :: stack => store frame (address n offset) x stack
  | .const value, stack => .next frame (value :: stack)
  | .num op, stack => .ofStack frame (calculate op stack)
  | _, _ => .trap .illTyped

mutual

@[specialize]
def exec (calls : Calls σ) : Instr → Frame σ → List Value → Flow σ
  | .block type body, frame, stack => (execAll calls body frame []).leaving type stack
  | .loop type body, frame, stack =>
    match iterate (fun frame => execAll calls body frame []) roundLimit frame with
    | .next frame inner => .next frame (moveTop type.arity inner stack)
    | flow => flow
  | .choice type consequent alternate, frame, .i32 n :: stack =>
    if n ≠ 0 then (execAll calls consequent frame []).leaving type stack
    else (execAll calls alternate frame []).leaving type stack
  | i, frame, stack => step calls i frame stack

@[specialize]
def execAll (calls : Calls σ) : List Instr → Frame σ → List Value → Flow σ
  | [], frame, stack => .next frame stack
  | i :: rest, frame, stack =>
    match i with
    | .block .. | .loop .. | .choice .. =>
      match exec calls i frame stack with
      | .next frame stack => execAll calls rest frame stack
      | flow => flow
    | i =>
      match step calls i frame stack with
      | .next frame stack => execAll calls rest frame stack
      | flow => flow

end

structure Code where
  params : Nat
  results : Nat
  /-- What the locals behind the parameters start as. -/
  locals : List Value
  body : List Instr
deriving Repr

inductive Callee where
  | host (f : HostFunction)
  | code (c : Code)
deriving Repr

/-- What the functions of the host do. They may keep a state. -/
structure Host (σ : Type) where
  call : HostFunction → List Double → σ → Double × σ

/-- Takes the given number of doubles from the stack, the last of them first. -/
def popDoubles : Nat → List Double → List Value → Option (List Double × List Value)
  | 0, taken, stack => some (taken, stack)
  | n + 1, taken, .f64 x :: stack => popDoubles n (x :: taken) stack
  | _, _, _ => none

def callHost (host : Host σ) (f : HostFunction) (store : Store σ) (stack : List Value) :
    Outcome σ :=
  match popDoubles f.arity [] stack with
  | none => .trap .illTyped
  | some (args, stack) =>
    let (x, state) := host.call f args store.host
    .done { store with host := state } (.f64 x :: stack)

/-- The locals of a call: its arguments, the last of which is on top of the
stack, in front of the others. -/
def withArgs : Nat → List Value → List Value → List Value
  | n + 1, v :: stack, locals => withArgs n stack (v :: locals)
  | _, _, locals => locals

/-- Runs a function. The end of its body is the target of the outermost
branches. -/
@[specialize]
def callCode (calls : Calls σ) (c : Code) (store : Store σ) (stack : List Value) : Outcome σ :=
  match execAll calls c.body { store, locals := withArgs c.params stack c.locals } [] with
  | .next frame inner | .branch 0 frame inner =>
    .done frame.store (moveTop c.results inner (stack.drop c.params))
  | .branch (_ + 1) _ _ => .trap .illTyped
  | .trap cause => .trap cause

/-- Calls the function of an index, with so many calls inside one another at
most. -/
@[specialize]
def invoke (host : Host σ) (table : Array Callee) : Nat → Calls σ
  | 0, _, _, _ => .trap .callDepth
  | depth + 1, index, store, stack =>
    match table[index]? with
    | some (.host f) => callHost host f store stack
    | some (.code c) => callCode (invoke host table depth) c store stack
    | none => .trap .illTyped

def depthLimit : Nat := 1000

end Eel.Machine
