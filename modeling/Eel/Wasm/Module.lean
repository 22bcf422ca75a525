import Eel.Wasm.Format

/-!
Modules, put together piece by piece.

Imports come before everything that is defined in the index space of their kind,
so an import is refused once something of its kind is defined. Whatever is added
gets the next free index, and keeps it.
-/

namespace Eel.Wasm

/-- What a function takes and gives. -/
structure FuncType where
  params : List ValType
  results : List ValType
deriving DecidableEq, Repr

/-- What two signatures are compared by: the bytes of the parameters and of the
results with 0x7c between them. -/
def FuncType.key (t : FuncType) : Bytes := t.params.map (·.byte) ++ 0x7c :: t.results.map (·.byte)

structure GlobalType where
  type : ValType
  isMutable : Bool
deriving DecidableEq, Repr

/-- What an import is bound to: a function with the signature at an index, or a
global. -/
inductive ImportKind where
  | func (type : Nat)
  | global (type : GlobalType)
deriving DecidableEq, Repr

structure Import where
  moduleName : Bytes
  name : Bytes
  kind : ImportKind
deriving DecidableEq, Repr

def Import.isFunc (i : Import) : Bool :=
  match i.kind with
  | .func _ => true
  | .global _ => false

/-- A global of the module, a double that starts with a given value. -/
structure Global where
  isMutable : Bool
  init : Double
deriving DecidableEq, Repr

structure Export where
  name : Bytes
  kind : ExternKind
  index : Nat
deriving DecidableEq, Repr

/-- A function of the module. The body is without the byte that closes it. -/
structure Function where
  type : Nat
  locals : List ValType
  body : Bytes
deriving DecidableEq, Repr

/-- The size of a memory in pages of 64 KiB: at least, and perhaps at most. -/
structure Limits where
  min : Nat
  max : Option Nat
deriving DecidableEq, Repr

structure Module where
  types : List FuncType := []
  imports : List Import := []
  functions : List Function := []
  memories : List Limits := []
  globals : List Global := []
  exports : List Export := []
deriving DecidableEq, Repr

/-- An import behind a definition of its kind. -/
inductive Refusal where
  | funcAfterDefinition (moduleName name : Bytes)
  | globalAfterDefinition (moduleName name : Bytes)
deriving DecidableEq, Repr

def Refusal.message : Refusal → Bytes
  | funcAfterDefinition moduleName name =>
    utf8 "wasm: function import " ++ moduleName ++ utf8 "." ++ name ++
      utf8 " after a defined function"
  | globalAfterDefinition moduleName name =>
    utf8 "wasm: global import " ++ moduleName ++ utf8 "." ++ name ++ utf8 " after a defined global"

namespace Module

def importedFuncs (m : Module) : Nat := m.imports.countP (·.isFunc)

def importedGlobals (m : Module) : Nat := m.imports.countP (!·.isFunc)

/-- The index of a signature, which is added if none compares equal to it. -/
def typeIndex (m : Module) (t : FuncType) : Nat × Module :=
  match m.types.findIdx? (·.key == t.key) with
  | some i => (i, m)
  | none => (m.types.length, { m with types := m.types ++ [t] })

def importFunc (m : Module) (moduleName name : Bytes) (t : FuncType) :
    Except Refusal (Nat × Module) :=
  if !m.functions.isEmpty then .error (.funcAfterDefinition moduleName name)
  else
    let index := m.importedFuncs
    let (type, m) := m.typeIndex t
    .ok (index, { m with imports := m.imports ++ [⟨moduleName, name, .func type⟩] })

def importGlobal (m : Module) (moduleName name : Bytes) (t : GlobalType) :
    Except Refusal (Nat × Module) :=
  if !m.globals.isEmpty then .error (.globalAfterDefinition moduleName name)
  else .ok (m.importedGlobals, { m with imports := m.imports ++ [⟨moduleName, name, .global t⟩] })

def addFunction (m : Module) (f : Function) : Nat × Module :=
  (m.importedFuncs + m.functions.length, { m with functions := m.functions ++ [f] })

def addGlobal (m : Module) (g : Global) : Nat × Module :=
  (m.importedGlobals + m.globals.length, { m with globals := m.globals ++ [g] })

def addMemory (m : Module) (limits : Limits) : Nat × Module :=
  (m.memories.length, { m with memories := m.memories ++ [limits] })

def addExport (m : Module) (name : Bytes) (kind : ExternKind) (index : Nat) : Module :=
  { m with exports := m.exports ++ [⟨name, kind, index⟩] }

end Module

/-- The bytes that every module starts with: a mark and the version. -/
def header : Bytes := [0x00, 0x61, 0x73, 0x6d, 0x01, 0x00, 0x00, 0x00]

def valTypesBytes (types : List ValType) : Bytes := unsigned types.length ++ types.map (·.byte)

def FuncType.bytes (t : FuncType) : Bytes :=
  0x60 :: valTypesBytes t.params ++ valTypesBytes t.results

def GlobalType.bytes (t : GlobalType) : Bytes := [t.type.byte, if t.isMutable then 0x01 else 0x00]

def ImportKind.bytes : ImportKind → Bytes
  | .func type => ExternKind.func.byte :: unsigned type
  | .global type => ExternKind.global.byte :: type.bytes

def Import.bytes (i : Import) : Bytes := nameBytes i.moduleName ++ nameBytes i.name ++ i.kind.bytes

def Limits.bytes (l : Limits) : Bytes :=
  match l.max with
  | some max => 0x01 :: unsigned l.min ++ unsigned max
  | none => 0x00 :: unsigned l.min

def Global.bytes (g : Global) : Bytes :=
  GlobalType.bytes ⟨.f64, g.isMutable⟩ ++ 0x44 :: doubleBytes g.init ++ [0x0b]

def Export.bytes (e : Export) : Bytes := nameBytes e.name ++ e.kind.byte :: unsigned e.index

/-- Runs of equal types: how many, and which. -/
def localRuns : List ValType → List (Nat × ValType)
  | [] => []
  | t :: rest =>
    match localRuns rest with
    | (count, u) :: runs => if t = u then (count + 1, u) :: runs else (1, t) :: (count, u) :: runs
    | [] => [(1, t)]

/-- A function body: the locals in runs, the instructions, and the byte that
closes them. -/
def bodyBytes (locals : List ValType) (code : Bytes) : Bytes :=
  let runs := localRuns locals
  unsigned runs.length ++ runs.flatMap (fun (count, type) => unsigned count ++ [type.byte]) ++
    code ++ [0x0b]

def Function.bytes (f : Function) : Bytes :=
  let body := bodyBytes f.locals f.body
  unsigned body.length ++ body

def itemsSection {α : Type} (id : SectionId) (items : List α) (bytes : α → Bytes) : Bytes :=
  if items.isEmpty then [] else sectionBytes id (vectorBytes items.length (items.flatMap bytes))

def Module.encode (m : Module) : Bytes :=
  header
    ++ itemsSection .type m.types (·.bytes)
    ++ itemsSection .imports m.imports (·.bytes)
    ++ itemsSection .function m.functions (fun f => unsigned f.type)
    ++ itemsSection .memory m.memories (·.bytes)
    ++ itemsSection .global m.globals (·.bytes)
    ++ itemsSection .exports m.exports (·.bytes)
    ++ itemsSection .code m.functions (·.bytes)

end Eel.Wasm
