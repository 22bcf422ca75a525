import Eel.Program.HostFunction
import Eel.Program.Routine
import Eel.Wasm.Module

/-!
Programs: functions in instructions, with all that they refer to.

Functions are numbered with the host's first, then the exported ones, then the
routines. Globals are numbered with the variables of pools first, which are
imported, and then the variables that belong to the program.
-/

namespace Eel

open Wasm

/-- An exported function. It takes and gives nothing. -/
structure ProgramFunction where
  name : Bytes
  locals : List ValType
  code : List Instr
deriving Repr

structure Program where
  /-- The pool and the name of each imported variable. -/
  externals : List (Bytes × Bytes)
  /-- How many variables belong to the program. -/
  globals : Nat
  usesMemory : Bool
  functions : List ProgramFunction
  routines : List Routine
deriving Repr

namespace Program

def hostType (f : HostFunction) : FuncType := ⟨List.replicate f.arity .f64, [.f64]⟩

def exportType : FuncType := ⟨[], []⟩

/-- Every variable of a pool is a double that can be set. -/
def externalType : GlobalType := ⟨.f64, true⟩

def withExternals (externals : List (Bytes × Bytes)) (m : Module) : Except Refusal Module :=
  externals.foldlM (fun m (pool, name) => (·.2) <$> m.importGlobal pool name externalType) m

def withHostFunctions (m : Module) : Except Refusal Module :=
  HostFunction.all.foldlM
    (fun m f => (·.2) <$> m.importFunc HostFunction.moduleName f.name (hostType f)) m

def withMemory (m : Module) : Module := (m.addMemory ⟨memoryPages, some memoryPages⟩).2

/-- Adds globals that start at zero. -/
def withGlobals : Nat → Module → Module
  | 0, m => m
  | n + 1, m => withGlobals n (m.addGlobal ⟨true, .zero⟩).2

def withFunction (type : Nat) (m : Module) (f : ProgramFunction) : Module :=
  let (index, m) := m.addFunction ⟨type, f.locals, Instr.bytesAll f.code⟩
  m.addExport f.name .func index

def withRoutine (m : Module) (r : Routine) : Module :=
  let (type, m) := m.typeIndex ⟨r.signature.1, r.signature.2⟩
  (m.addFunction ⟨type, r.locals, Instr.bytesAll r.code⟩).2

def toModule (p : Program) : Except Refusal Module := do
  let m ← withExternals p.externals {}
  let m ← withHostFunctions m
  let m := if p.usesMemory then withMemory m else m
  let (type, m) := (withGlobals p.globals m).typeIndex exportType
  return p.routines.foldl withRoutine (p.functions.foldl (withFunction type) m)

end Program

end Eel
