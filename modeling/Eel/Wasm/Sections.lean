import Eel.Wasm.Module

/-!
Looking into an encoded module: its sections, imports and exports.

Offsets and sizes are 64-bit signed integers. A size of 2^63 or more is
therefore negative, and an end past 2^63 wraps round; both pass the check
against the length of the input. Where such a section's body would then be
looked at, or a section would start in front of the input, reading leaves the
input. A custom section's body is not looked at, so one may end in front of its
own start, and reading goes on from there.
-/

namespace Eel.Wasm

def wrapped (n : Int) : Int := n.bmod (Nat.pow 2 64)

/-- What is known of a section without decoding it. -/
structure SectionInfo where
  id : SectionId
  /-- Where the body starts. -/
  offset : Nat
  size : Int
  /-- How many items it holds; none are counted in a custom section. -/
  entries : Int
deriving DecidableEq, Repr

inductive ReadError where
  | notModule
  /-- A section's size cannot be read. -/
  | size (offset : Nat) (fault : Fault)
  /-- A section reaches past the end. -/
  | pastEnd (id : SectionId) (offset : Nat)
  /-- A section's count cannot be read. -/
  | count (id : SectionId) (fault : Fault)
  | exports (fault : Fault)
  | imports (fault : Fault)
  /-- An import that is neither a function nor a global. -/
  | importKind (moduleName name : Bytes) (kind : ExternKind)
  /-- A section lies outside the input. -/
  | outside
  /-- The sections lead back to one that was read before. -/
  | endless
deriving DecidableEq, Repr

namespace ReadError

def fault? : ReadError → Option Fault
  | size _ fault | count _ fault | exports fault | imports fault => some fault
  | pastEnd _ _ => some .truncated
  | _ => none

def message : ReadError → Bytes
  | notModule => utf8 "wasm: missing module header"
  | size offset fault =>
    utf8 "section at offset " ++ Bytes.decimal offset ++ utf8 ": " ++ fault.message
  | pastEnd id offset =>
    utf8 "section " ++ id.name ++ utf8 " at offset " ++ Bytes.decimal offset ++ utf8 ": "
      ++ Fault.message .truncated
  | count id fault => utf8 "section " ++ id.name ++ utf8 ": " ++ fault.message
  | exports fault => utf8 "export section: " ++ fault.message
  | imports fault => utf8 "import section: " ++ fault.message
  | importKind moduleName name kind =>
    utf8 "import " ++ moduleName ++ utf8 "." ++ name ++ utf8 ": unsupported kind " ++ kind.name
  | outside => utf8 "section outside the input"
  | endless => utf8 "sections without end"

end ReadError

def sectionAt (bin : Bytes) (position : Nat) (id : UInt8) : Except ReadError (SectionInfo × Int) :=
  let id : SectionId := ⟨id⟩
  let afterId := bin.drop (position + 1)
  match readUnsigned afterId with
  | .error fault => .error (.size position fault)
  | .ok (size, rest) =>
    let offset := position + 1 + (afterId.length - rest.length)
    let stop := wrapped (offset + wrapped size)
    if (bin.length : Int) < stop then .error (.pastEnd id position)
    else if id = .custom || size = 0 then .ok (⟨id, offset, wrapped size, 0⟩, stop)
    else if stop < offset then .error .outside
    else
      match readUnsigned ((bin.drop offset).take (stop - offset).toNat) with
      | .error fault => .error (.count id fault)
      | .ok (count, _) => .ok (⟨id, offset, wrapped size, wrapped count⟩, stop)

def sectionsWithin (bin : Bytes) : Nat → Int → Except ReadError (List SectionInfo)
  | 0, _ => .error .endless
  | fuel + 1, position =>
    if (bin.length : Int) ≤ position then .ok []
    else if position < 0 then .error .outside
    else
      match bin[position.toNat]? with
      | none => .ok []
      | some id => do
        let (info, next) ← sectionAt bin position.toNat id
        return info :: (← sectionsWithin bin fuel next)

/-- The sections of a module in the order of the input. No position is reached
twice unless reading never ends, so there are at most as many sections as
bytes. -/
def sections (bin : Bytes) : Except ReadError (List SectionInfo) :=
  if bin.take 8 ≠ header then .error .notModule else sectionsWithin bin (bin.length + 1) 8

def bodyOf? (bin : Bytes) (id : SectionId) (infos : List SectionInfo) : Option Bytes :=
  (infos.find? (·.id == id)).map fun info => (bin.drop info.offset).take info.size.toNat

abbrev ByteReader := StateT Bytes (Except Fault)

namespace ByteReader

def byte : ByteReader UInt8 := fun s =>
  match s with
  | [] => .error .truncated
  | c :: rest => .ok (c, rest)

def u32 : ByteReader Nat := fun s => do
  let (n, rest) ← readUnsigned s
  return (n % Nat.pow 2 32, rest)

def name : ByteReader Bytes := do
  let length ← u32
  let s ← get
  if s.length < length then throw .truncated
  set (s.drop length)
  return s.take length

end ByteReader

def readExport : ByteReader Export := do
  let name ← ByteReader.name
  let kind ← ByteReader.byte
  return ⟨name, ⟨kind⟩, ← ByteReader.u32⟩

def readExports : Nat → ByteReader (List Export)
  | 0 => return []
  | count + 1 => do
    let e ← readExport
    return e :: (← readExports count)

def exports (bin : Bytes) : Except ReadError (List Export) := do
  match bodyOf? bin .exports (← sections bin) with
  | none => return []
  | some body =>
    match (do readExports (← ByteReader.u32) : ByteReader (List Export)).run body with
    | .ok (es, _) => return es
    | .error fault => throw (.exports fault)

def readImportHead : ByteReader (Bytes × Bytes × ExternKind) := do
  let moduleName ← ByteReader.name
  let name ← ByteReader.name
  return (moduleName, name, ⟨← ByteReader.byte⟩)

def readGlobalType : ByteReader GlobalType := do
  let type ← ByteReader.byte
  return ⟨⟨type⟩, (← ByteReader.byte) == 0x01⟩

def readImport (s : Bytes) : Except ReadError (Import × Bytes) := do
  let ((moduleName, name, kind), s) ← (readImportHead.run s).mapError .imports
  if kind = .func then
    let (type, s) ← (ByteReader.u32.run s).mapError .imports
    return (⟨moduleName, name, .func type⟩, s)
  else if kind = .global then
    let (type, s) ← (readGlobalType.run s).mapError .imports
    return (⟨moduleName, name, .global type⟩, s)
  else throw (.importKind moduleName name kind)

def readImports : Nat → Bytes → Except ReadError (List Import)
  | 0, _ => return []
  | count + 1, s => do
    let (i, s) ← readImport s
    return i :: (← readImports count s)

def imports (bin : Bytes) : Except ReadError (List Import) := do
  match bodyOf? bin .imports (← sections bin) with
  | none => return []
  | some body =>
    let (count, s) ← (ByteReader.u32.run body).mapError .imports
    readImports count s

end Eel.Wasm
