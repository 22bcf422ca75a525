import Eel.Program.Basic
import Eel.Program.Lowering
import Eel.Simplify.Fixpoint
import Eel.Tree.Variables

/-!
Programs made from declarations and sources.

The declarations are checked in order, then all sources are read, and then the
functions are lowered. The first error ends it. A function without a statement
is left out.
-/

namespace Eel

open CompileError

namespace Options

def repeatedVariable? (seen : List Bytes) : List Bytes → Option Bytes
  | [] => none
  | name :: rest =>
    let key := Text.lower name
    if seen.contains key then some name else repeatedVariable? (seen ++ [key]) rest

def poolFault? (seen : List Bytes) : List Pool → Option Cause
  | [] => none
  | pool :: rest =>
    if pool.name.isEmpty then some .unnamedPool
    else if pool.name == HostFunction.moduleName then some (.reservedPool pool.name)
    else if seen.contains pool.name then some (.repeatedPool pool.name)
    else
      match repeatedVariable? [] pool.vars with
      | some name => some (.repeatedVariable pool.name name)
      | none => poolFault? (seen ++ [pool.name]) rest

/-- What is wrong with the functions behind those already seen. -/
def functionFault? (pools : List Bytes) (seen : List Bytes) : List FunctionDecl → Option Cause
  | [] => none
  | f :: rest =>
    if f.name.isEmpty then some .unnamedFunction
    else if seen.contains f.name then some (.repeatedFunction f.name)
    else if !pools.contains f.pool then some (.undeclaredPool f.name f.pool pools)
    else functionFault? pools (seen ++ [f.name]) rest

def fault? (o : Options) : Option Cause :=
  (poolFault? [] o.pools).orElse fun _ => functionFault? (o.pools.map (·.name)) [] o.functions

def pool (o : Options) (name : Bytes) : Pool := (o.pools.find? (·.name == name)).getD ⟨name, []⟩

end Options

/-- A function whose source was read. -/
structure Prepared where
  name : Bytes
  pool : Pool
  source : Source
  /-- The statements, simplified if that is asked for. -/
  body : List Node

namespace Prepared

def ofDecl (o : Options) (f : FunctionDecl) : Except CompileError Prepared :=
  match Source.parse f.source with
  | .error e => .error (.ofParseError f.name f.source e)
  | .ok source =>
    let pool := o.pool f.pool
    if o.simplify then
      match (Simplify.run .clamped o.maxRounds source.script.toNode).1.node with
      | .script body _ => .ok { name := f.name, pool, source, body }
      | _ => .error { kind := .compiler, function := f.name, cause := .notScript }
    else .ok { name := f.name, pool, source, body := source.script.body }

def isLive (f : Prepared) : Bool := !f.source.script.isEmpty

def externalKeys (f : Prepared) : List Bytes :=
  (Node.mentionsAll f.body).filterMap fun id => (f.pool.find? id.name).map (variableKey f.pool.name)

/-- The instructions of a function. Locals are numbered anew for each. -/
def lower (externals : Numbering Bytes) (routineBase : Nat) (f : Prepared) :
    Lowering.Lower ProgramFunction := do
  modify ({ · with locals := [] })
  let scope := { function := f.name, pool := f.pool, source := f.source, externals, routineBase }
  let code ← Lowering.lowerStatements scope f.body
  return { name := f.name, locals := (← get).locals, code }

end Prepared

namespace Program

def ofPrepared (functions : List Prepared) : Except CompileError Program := do
  let live := functions.filter (·.isLive)
  let externals := Numbering.ofList (live.flatMap (·.externalKeys))
  let routineBase := HostFunction.all.length + live.length
  let (functions, draft) ← (live.mapM (Prepared.lower externals routineBase)).run {}
  return {
    externals := externals.names.map splitKey
    globals := draft.globals.size
    usesMemory := draft.usesMemory
    functions
    routines := draft.routines.names }

def ofOptions (o : Options) : Except CompileError Program := do
  match o.fault? with
  | some cause => throw { cause }
  | none => ofPrepared (← o.functions.mapM (Prepared.ofDecl o))

end Program

def compile (o : Options) : Except CompileError Bytes := do
  match (← Program.ofOptions o).toModule with
  | .ok m => return m.encode
  | .error refusal => throw { kind := .compiler, cause := .refusedImport refusal }

end Eel
