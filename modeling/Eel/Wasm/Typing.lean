import Eel.Wasm.Decoder

/-!
Which modules are well typed.

The checker follows the types of the values on the stack. Behind a branch
nothing is known of the stack, so any types may be taken from it there.
-/

namespace Eel.Wasm

def BlockType.results : BlockType → List ValType
  | void => []
  | i32 => [.i32]
  | f64 => [.f64]

/-- What an instruction that only calculates takes, the deepest first, and what
it gives. -/
def NumOp.signature : NumOp → List ValType × ValType
  | i32Eqz => ([.i32], .i32)
  | i32Ne | i32LtS | i32GtS | i32LeS | i32Add | i32Sub | i32Mul | i32RemS | i32And | i32Or =>
    ([.i32, .i32], .i32)
  | i64And | i64Or => ([.i64, .i64], .i64)
  | f64Ne | f64Lt | f64Gt | f64Le | f64Ge => ([.f64, .f64], .i32)
  | f64Abs | f64Neg | f64Ceil | f64Floor | f64Sqrt => ([.f64], .f64)
  | f64Add | f64Sub | f64Mul | f64Div | f64Min | f64Max => ([.f64, .f64], .f64)
  | i32TruncF64S | i32TruncSatF64S => ([.f64], .i32)
  | i64TruncSatF64S => ([.f64], .i64)
  | f64ConvertI32S => ([.i32], .f64)
  | f64ConvertI64S => ([.i64], .f64)

/-- The types on the stack, the top first. What lies under an open stack may
have any types. -/
structure Operands where
  types : List ValType := []
  isOpen : Bool := false
deriving DecidableEq, Repr

namespace Operands

def push (o : Operands) (t : ValType) : Operands := { o with types := t :: o.types }

def pop? (o : Operands) (t : ValType) : Option Operands :=
  match o.types with
  | top :: rest => if top = t then some { o with types := rest } else none
  | [] => if o.isOpen then some o else none

def drop? (o : Operands) : Option Operands :=
  match o.types with
  | _ :: rest => some { o with types := rest }
  | [] => if o.isOpen then some o else none

def popAll? (o : Operands) (types : List ValType) : Option Operands := types.reverse.foldlM pop? o

def pushAll (o : Operands) (types : List ValType) : Operands := types.foldl push o

def isExactly (o : Operands) (types : List ValType) : Bool :=
  match o.popAll? types with
  | some rest => rest.types.isEmpty
  | none => false

end Operands

/-- What the instructions of a function can refer to. -/
structure TypeContext where
  functions : List FuncType
  globals : List GlobalType
  hasMemory : Bool
  locals : List ValType
  /-- What a branch out of one, two or more blocks carries. -/
  labels : List (List ValType)
deriving DecidableEq, Repr

namespace TypeContext

def inside (c : TypeContext) (label : List ValType) : TypeContext :=
  { c with labels := label :: c.labels }

end TypeContext

mutual

/-- The stack behind an instruction, if the instruction can stand there. -/
def Instr.check (c : TypeContext) : Instr → Operands → Option Operands
  | .block type body, o => do
    guard ((← Instr.checkAll (c.inside type.results) body {}).isExactly type.results)
    return o.pushAll type.results
  | .loop type body, o => do
    guard ((← Instr.checkAll (c.inside []) body {}).isExactly type.results)
    return o.pushAll type.results
  | .choice type consequent alternate, o => do
    let o ← o.pop? .i32
    guard ((← Instr.checkAll (c.inside type.results) consequent {}).isExactly type.results)
    guard ((← Instr.checkAll (c.inside type.results) alternate {}).isExactly type.results)
    return o.pushAll type.results
  | .br depth, o => do
    let _ ← o.popAll? (← c.labels[depth]?)
    return ⟨[], true⟩
  | .brIf depth, o => do
    let label ← c.labels[depth]?
    return (← (← o.pop? .i32).popAll? label).pushAll label
  | .call index, o => do
    let type ← c.functions[index]?
    return (← o.popAll? type.params).pushAll type.results
  | .drop, o => o.drop?
  | .localGet index, o => return o.push (← c.locals[index]?)
  | .localSet index, o => do o.pop? (← c.locals[index]?)
  | .localTee index, o => do
    let type ← c.locals[index]?
    return (← o.pop? type).push type
  | .globalGet index, o => return o.push (← c.globals[index]?).type
  | .globalSet index, o => do
    let global ← c.globals[index]?
    guard global.isMutable
    o.pop? global.type
  | .f64Load _, o => do
    guard c.hasMemory
    return (← o.pop? .i32).push .f64
  | .f64Store _, o => do
    guard c.hasMemory
    (← o.pop? .f64).pop? .i32
  | .const value, o => return o.push value.type
  | .num op, o => return (← o.popAll? op.signature.1).push op.signature.2

def Instr.checkAll (c : TypeContext) : List Instr → Operands → Option Operands
  | [], o => some o
  | i :: rest, o => do Instr.checkAll c rest (← Instr.check c i o)

end

namespace Module

def funcTypes? (m : Module) : Option (List FuncType) := do
  let imported ← m.imports.filterMapM fun i => (do
    match i.kind with
    | .func type => return some (← m.types[type]?)
    | .global _ => return none : Option (Option FuncType))
  return imported ++ (← m.functions.mapM fun f => m.types[f.type]?)

def globalTypes (m : Module) : List GlobalType :=
  m.imports.filterMap (fun i => match i.kind with
    | .func _ => none
    | .global type => some type) ++ m.globals.map (⟨.f64, ·.isMutable⟩)

def isTyped (m : Module) (functions : List FuncType) (f : Function) : Bool :=
  match m.types[f.type]?, Instr.ofBytes? f.body with
  | some type, some code =>
    let context : TypeContext := {
      functions
      globals := m.globalTypes
      hasMemory := !m.memories.isEmpty
      locals := type.params ++ f.locals
      labels := [type.results] }
    match Instr.checkAll context code {} with
    | some o => o.isExactly type.results
    | none => false
  | _, _ => false

def Limits.isValid (l : Limits) : Bool :=
  l.min ≤ 65536 && (l.max.all fun max => l.min ≤ max && max ≤ 65536)

def hasTarget (m : Module) (functions : Nat) (e : Export) : Bool :=
  if e.kind = .func then e.index < functions
  else if e.kind = .global then e.index < m.globalTypes.length
  else e.kind.byte == 2 && e.index < m.memories.length

/-- Whether a module can be run: all that it refers to exists, and all bodies
are well typed. -/
def isValid (m : Module) : Bool :=
  match m.funcTypes? with
  | none => false
  | some functions =>
    m.memories.length ≤ 1 && m.memories.all Limits.isValid
      && m.exports.all (m.hasTarget functions.length) && (m.exports.map (·.name)).Nodup
      && m.functions.all (m.isTyped functions)

end Module

end Eel.Wasm
