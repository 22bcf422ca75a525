import Eel.Text.Utf8
import Eel.Wasm.Instr
import Eel.Wasm.Module

/-!
Reading an encoded module back.

A decoder takes bytes from the front, or fails. Every part of a section must be
what the format says, and nothing may be left over. Sections that no module here
has are not known.
-/

namespace Eel.Wasm

/-- A reader that gives up on anything it does not know. -/
abbrev Decoder := StateT Bytes Option

namespace Decoder

def byte : Decoder UInt8 := fun s =>
  match s with
  | [] => none
  | c :: rest => some (c, rest)

def expect (c : UInt8) : Decoder Unit := do
  guard ((← byte) = c)

/-- An unsigned number of at most 32 bits, in at most five bytes. -/
def u32 : Decoder Nat := fun s =>
  match readUnsigned s with
  | .ok (n, rest) => if n < Nat.pow 2 32 && s.length ≤ rest.length + 5 then some (n, rest) else none
  | .error _ => none

def s32 : Decoder Int32 := fun s =>
  match readSigned s with
  | .ok (n, rest) =>
    if Int32.minValue.toInt ≤ n && n ≤ Int32.maxValue.toInt && s.length ≤ rest.length + 5 then
      some (Int32.ofInt n, rest)
    else none
  | .error _ => none

def double : Decoder Double := fun s =>
  match readDouble s with
  | .ok r => some r
  | .error _ => none

def take (count : Nat) : Decoder Bytes := fun s =>
  if s.length < count then none else some (s.take count, s.drop count)

def times {α : Type} (item : Decoder α) : Nat → Decoder (List α)
  | 0 => return []
  | count + 1 => do
    let first ← item
    return first :: (← times item count)

def vector {α : Type} (item : Decoder α) : Decoder (List α) := do times item (← u32)

def whole {α : Type} (d : Decoder α) (s : Bytes) : Option α :=
  match d.run s with
  | some (a, []) => some a
  | _ => none

def name : Decoder Bytes := do
  let text ← take (← u32)
  guard (Text.isValid text)
  return text

def valType : Decoder ValType := do
  let t : ValType := ⟨← byte⟩
  guard (t ∈ [ValType.i32, .i64, .f32, .f64])
  return t

def funcType : Decoder FuncType := do
  expect 0x60
  return ⟨← vector valType, ← vector valType⟩

def flag : Decoder Bool := do
  let c ← byte
  guard (c ≤ 1)
  return c == 1

def globalType : Decoder GlobalType := return ⟨← valType, ← flag⟩

def importKind : Decoder ImportKind := do
  let kind : ExternKind := ⟨← byte⟩
  if kind = .func then return .func (← u32)
  guard (kind = .global)
  return .global (← globalType)

def import_ : Decoder Import := return ⟨← name, ← name, ← importKind⟩

def limits : Decoder Limits := do
  let bounded ← flag
  let min ← u32
  if bounded then return ⟨min, some (← u32)⟩
  return ⟨min, none⟩

def global : Decoder Global := do
  let type ← globalType
  guard (type.type = .f64)
  expect 0x44
  let init ← double
  expect Opcode.finish
  return ⟨type.isMutable, init⟩

def export_ : Decoder Export := return ⟨← name, ⟨← byte⟩, ← u32⟩

def localRun : Decoder (List ValType) := do
  let count ← u32
  return List.replicate count (← valType)

/-- The locals of a function and its instructions, without the byte that closes
them. -/
def body : Decoder (List ValType × Bytes) := do
  let locals ← vector localRun
  let code ← get
  guard (code.getLast? = some Opcode.finish)
  set ([] : Bytes)
  return (locals.flatten, code.dropLast)

/-- A body behind its length. -/
def sizedBody : Decoder (List ValType × Bytes) := do
  let bytes ← take (← u32)
  (whole body bytes : Option _)

end Decoder

/-- A module while its sections are read, in parts. The types of functions and
their bodies stand in different sections. -/
structure ModuleParts where
  module : Module := {}
  functionTypes : List Nat := []
  bodies : List (List ValType × Bytes) := []

def ModuleParts.addSection (m : ModuleParts) (id : SectionId) (contents : Bytes) :
    Option ModuleParts := do
  if id = .type then
    return { m with module.types := ← Decoder.whole (.vector .funcType) contents }
  else if id = .imports then
    return { m with module.imports := ← Decoder.whole (.vector .import_) contents }
  else if id = .function then
    return { m with functionTypes := ← Decoder.whole (.vector .u32) contents }
  else if id = .memory then
    return { m with module.memories := ← Decoder.whole (.vector .limits) contents }
  else if id = .global then
    return { m with module.globals := ← Decoder.whole (.vector .global) contents }
  else if id = .exports then
    return { m with module.exports := ← Decoder.whole (.vector .export_) contents }
  else if id = .code then
    return { m with bodies := ← Decoder.whole (.vector .sizedBody) contents }
  else
    -- The body of a custom section starts with a name.
    guard (id = .custom && (Decoder.name.run contents).isSome)
    return m

/-- Reads sections to the end of the input. There are fewer of them than
bytes. -/
def ModuleParts.addSections : Nat → ModuleParts → Bytes → Option ModuleParts
  | _, m, [] => some m
  | 0, _, _ :: _ => none
  | fuel + 1, m, id :: rest => do
    let (contents, rest) ← (do Decoder.take (← Decoder.u32) : Decoder Bytes).run rest
    addSections fuel (← m.addSection ⟨id⟩ contents) rest

def ModuleParts.finish? (m : ModuleParts) : Option Module := do
  guard (m.functionTypes.length = m.bodies.length)
  let functions :=
    List.zipWith (fun type (locals, code) => ⟨type, locals, code⟩) m.functionTypes m.bodies
  return { m.module with functions }

def Module.decode? (bin : Bytes) : Option Module := do
  guard (bin.take 8 = header)
  (← ModuleParts.addSections bin.length {} (bin.drop 8)).finish?

namespace Decoder

def blockType : Decoder BlockType := do
  let c ← byte
  (BlockType.all.find? (·.byte == c) : Option _)

/-- The alignment and offset of a memory access. Alignment is a hint that must
not exceed the size. -/
def memoryOffset : Decoder Nat := do
  guard ((← u32) ≤ Opcode.alignment)
  u32

/-- An instruction that only calculates, whose first byte was read. -/
def numOp (first : UInt8) : Decoder NumOp := do
  if first = 0xfc then
    let kind ← u32
    (NumOp.all.find? (·.bytes == Opcode.truncSat kind) : Option _)
  else (NumOp.all.find? (·.bytes == [first]) : Option _)

/-- Instructions up to the byte that ends them, and whether that byte starts the
alternate of a choice. -/
abbrev Sequence := Decoder (List Instr × Bool)

def closed (sequence : Sequence) : Decoder (List Instr) := do
  let (code, more) ← sequence
  guard !more
  return code

def instr (sequence : Sequence) (first : UInt8) : Decoder Instr := do
  match first with
  | 0x02 => return .block (← blockType) (← closed sequence)
  | 0x03 => return .loop (← blockType) (← closed sequence)
  | 0x04 =>
    let type ← blockType
    let (consequent, more) ← sequence
    return .choice type consequent (← if more then closed sequence else pure [])
  | 0x0c => return .br (← u32)
  | 0x0d => return .brIf (← u32)
  | 0x10 => return .call (← u32)
  | 0x1a => return .drop
  | 0x20 => return .localGet (← u32)
  | 0x21 => return .localSet (← u32)
  | 0x22 => return .localTee (← u32)
  | 0x23 => return .globalGet (← u32)
  | 0x24 => return .globalSet (← u32)
  | 0x2b => return .f64Load (← memoryOffset)
  | 0x39 => return .f64Store (← memoryOffset)
  | 0x41 => return .i32Const (← s32)
  | 0x44 => return .f64Const (← double)
  | _ => return .num (← numOp first)

def instrs : Nat → Sequence
  | 0 => failure
  | bound + 1 => do
    let first ← byte
    if first = Opcode.finish then return ([], false)
    if first = Opcode.alternate then return ([], true)
    let i ← instr (instrs bound) first
    let (rest, more) ← instrs bound
    return (i :: rest, more)

end Decoder

/-- The instructions of a function body, which is given without the byte that
closes it. -/
def Instr.ofBytes? (code : Bytes) : Option (List Instr) :=
  Decoder.whole (Decoder.closed (Decoder.instrs (code.length + 1))) (code ++ [Opcode.finish])

end Eel.Wasm
