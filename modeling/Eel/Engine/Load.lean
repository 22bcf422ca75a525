import Eel.Engine.Basic
import Eel.Wasm.Typing

/-!
Loading modules into an engine, and calling what they export.
-/

namespace Eel

open Wasm

namespace Engine

def importedFunction? (m : Module) (i : Import) (type : Nat) : Option HostFunction := do
  guard (i.moduleName = HostFunction.moduleName)
  let f ← HostFunction.ofName? i.name
  guard (m.types[type]? = some (Program.hostType f))
  return f

/-- The cell of the variable that an import asks for, under exactly the name
that was declared. No import can name the pool with an empty name. -/
def importedCell? (e : Engine) (i : Import) (type : GlobalType) : Option Nat := do
  guard (!i.moduleName.isEmpty && type = Program.externalType)
  let p ← e.pools.find? (·.declared.name == i.moduleName)
  return p.base + (← p.declared.vars.idxOf? i.name)

/-- What the imports of a module lead to: functions of the host, and cells. -/
def bindImports? (e : Engine) (m : Module) : List Import → Option (List HostFunction × List Nat)
  | [] => some ([], [])
  | i :: rest => do
    match i.kind with
    | .func type =>
      let f ← importedFunction? m i type
      let (fs, cells) ← bindImports? e m rest
      return (f :: fs, cells)
    | .global type =>
      let cell ← e.importedCell? i type
      let (fs, cells) ← bindImports? e m rest
      return (fs, cell :: cells)

def codeOf? (m : Module) (f : Function) : Option Machine.Code := do
  let type ← m.types[f.type]?
  return ⟨type.params.length, type.results.length, f.locals.map .initial, ← Instr.ofBytes? f.body⟩

def nextName (e : Engine) : Bytes := utf8 "eel." ++ Bytes.decimal (e.taken + 1)

/-- Binds a valid module to the pools. Its own globals get cells behind all
others. -/
def instantiate? (e : Engine) (m : Module) : Option Engine := do
  guard (!e.pools.any (·.declared.name == e.nextName))
  let (hosts, imported) ← e.bindImports? m m.imports
  let codes ← m.functions.mapM (codeOf? m)
  let own := List.range' e.cells.size m.globals.length
  let i : Instance := {
    exports := m.exports
    table := (hosts.map Machine.Callee.host ++ codes.map Machine.Callee.code).toArray
    globals := imported ++ own
    memory := .ofPages (match m.memories with
      | limits :: _ => limits.min
      | [] => 0) }
  return { e with
    cells := e.cells ++ (m.globals.map (·.init)).toArray
    instances := e.instances ++ [i] }

/-- Loads a module from its binary form, and gives the names of its functions.
The new instance is the last one. -/
def load (e : Engine) (bin : Bytes) : Except EngineError (List Bytes) × Engine :=
  match exports bin with
  | .error error => (.error (.exports error), e)
  | .ok exported =>
    match (Module.decode? bin).filter (·.isValid) with
    | none => (.error .invalidModule, e)
    | some m =>
      let taken := { e with taken := e.taken + 1 }
      match e.instantiate? m with
      | none => (.error .instantiation, taken)
      | some e =>
        (.ok ((exported.filter (·.kind == .func)).map (·.name)), { e with taken := e.taken + 1 })

def writeCells (cells : Array Double) : List Nat → List Double → Array Double
  | i :: rest, x :: xs => writeCells (cells.setIfInBounds i x) rest xs
  | _, _ => cells

/-- Runs a function of an instance on the cells of its globals. -/
def run (e : Engine) (i : Instance) (function : Nat) : Option (Engine × Machine.Memory) :=
  let store : Machine.Store Random := {
    globals := (i.globals.map e.value).toArray
    memory := i.memory
    host := e.random }
  match @Machine.invoke _ .binary64 e.host i.table Machine.depthLimit function store [] with
  | .done store _ =>
    some ({ e with
      cells := writeCells e.cells i.globals store.globals.toList
      random := store.host }, store.memory)
  | .trap _ => none

/-- Calls an exported function of an instance. A closed instance still runs, but
the call fails. -/
def call (e : Engine) (index : Nat) (name : Bytes) : Except EngineError Unit × Engine :=
  match e.instances[index]? with
  | none => (.error (.noFunction name), e)
  | some i =>
    match i.exports.find? fun x => x.name == name && x.kind == .func with
    | none => (.error (.noFunction name), e)
    | some x =>
      match e.run i x.index with
      | none => (.error (.call name), e)
      | some (e, memory) =>
        let e := { e with instances := e.instances.set index { i with memory } }
        (if i.isClosed then .error (.call name) else .ok (), e)

def close (e : Engine) (index : Nat) : Engine :=
  { e with instances := e.instances.modify index ({ · with isClosed := true }) }

end Engine

end Eel
