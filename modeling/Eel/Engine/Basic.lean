import Eel.Engine.Error
import Eel.Engine.Math
import Eel.Program.Compile

/-!
Engines: pools of variables, and the modules that were loaded against them.

Every variable of a pool and every global of a module has a cell. All modules of
an engine share the cells of its pools, so that what one writes another reads. A
buffer belongs to one instance of a module.
-/

namespace Eel

/-- A pool whose variables have cells, one behind the other. -/
structure EnginePool where
  declared : Pool
  /-- The first variable's cell. -/
  base : Nat
deriving DecidableEq, Repr

/-- A module that was loaded. -/
structure Instance where
  exports : List Wasm.Export
  table : Array Machine.Callee
  /-- The cells of the globals. -/
  globals : List Nat
  memory : Machine.Memory
  isClosed : Bool := false

structure Engine where
  host : Machine.Host Random
  random : Random
  pools : List EnginePool
  cells : Array Double
  /-- How many modules were taken so far, also such that could not be bound to
  the pools. -/
  taken : Nat := 0
  instances : List Instance := []

namespace Engine

structure Settings where
  seed : UInt64 := 0
  replacements : List (Bytes × Replacement) := []

def checkReplacement (name : Bytes) (r : Replacement) :
    Except EngineError (HostFunction × Replacement) :=
  match HostFunction.ofName? name, r with
  | none, _ => .error (.noHostFunction name)
  | some _, .unsupported type => .error (.unsupportedReplacement name type)
  | some f, .unary g =>
    if f.arity = 1 then .ok (f, .unary g) else .error (.replacementArity name f.arity 1)
  | some f, .binary g =>
    if f.arity = 2 then .ok (f, .binary g) else .error (.replacementArity name f.arity 2)

/-- Adds a pool whose variables are zero. -/
def addPool (e : Engine) (pool : Pool) : Except EngineError Engine :=
  if pool.name == HostFunction.moduleName then .error (.reservedPool pool.name)
  else if e.pools.any (·.declared.name == pool.name) then .error (.repeatedPool pool.name)
  else
    match Options.repeatedVariable? [] pool.vars with
    | some name => .error (.repeatedVariable pool.name name)
    | none =>
      if !pool.vars.all Text.isValid then .error (.poolNames pool.name)
      else .ok { e with
        pools := e.pools ++ [⟨pool, e.cells.size⟩]
        cells := e.cells ++ Array.replicate pool.vars.length Double.zero }

def create (pools : List Pool) (settings : Settings := {}) : Except EngineError Engine := do
  let replacements ← settings.replacements.mapM fun (name, r) => checkReplacement name r
  let e : Engine :=
    { host := mathHost replacements, random := .ofSeed settings.seed, pools := [], cells := #[] }
  pools.foldlM addPool e

def pool? (e : Engine) (name : Bytes) : Except EngineError EnginePool :=
  match e.pools.find? (·.declared.name == name) with
  | some p => .ok p
  | none => .error (.unknownPool name)

/-- The cell of the variable that a name means. Case does not matter. -/
def cell? (e : Engine) (pool name : Bytes) : Except EngineError Nat := do
  let p ← e.pool? pool
  let key := Text.lower name
  match p.declared.vars.findIdx? (Text.lower · == key) with
  | some i => return p.base + i
  | none => throw (.noVariable pool name)

def value (e : Engine) (cell : Nat) : Double := e.cells.getD cell .zero

def get (e : Engine) (pool name : Bytes) : Except EngineError Double :=
  return e.value (← e.cell? pool name)

def set (e : Engine) (pool name : Bytes) (x : Double) : Except EngineError Engine := do
  let cell ← e.cell? pool name
  return { e with cells := e.cells.setIfInBounds cell x }

def vars (e : Engine) (pool : Bytes) : Except EngineError (List (Bytes × Double)) := do
  let p ← e.pool? pool
  return p.declared.vars.zipIdx.map fun (name, i) => (name, e.value (p.base + i))

def poolNames (e : Engine) : List Bytes := e.pools.map (·.declared.name)

end Engine

end Eel
