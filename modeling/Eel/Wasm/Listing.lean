import Eel.Wasm.Sections

/-!
A listing of what a module holds: its sections, imports and exports, one a line.
-/

namespace Eel.Wasm

def SectionInfo.line (s : SectionInfo) : Bytes :=
  utf8 "section " ++ Bytes.padRight 8 s.id.name ++ utf8 " offset " ++
    Bytes.padLeft 6 (Bytes.decimal s.offset)
    ++ utf8 " size " ++ Bytes.padLeft 6 (Bytes.decimalInt s.size) ++ utf8 " entries " ++
      Bytes.decimalInt s.entries
    ++ utf8 "\n"

def Import.line (i : Import) : Bytes :=
  utf8 "import " ++ i.moduleName ++ utf8 "." ++ i.name ++ (match i.kind with
    | .global type =>
      utf8 " global " ++ type.type.name ++ if type.isMutable then utf8 " mut" else []
    | .func type =>
      utf8 " " ++ ExternKind.func.name ++ utf8 " type " ++ Bytes.decimal type) ++ utf8 "\n"

def Export.line (e : Export) : Bytes :=
  utf8 "export " ++ e.name ++ utf8 " " ++ e.kind.name ++ utf8 " " ++
    Bytes.decimal e.index ++ utf8 "\n"

def listing (bin : Bytes) : Except ReadError Bytes := do
  let sections ← sections bin
  let imports ← imports bin
  let exports ← exports bin
  return Bytes.decimal bin.length ++ utf8 " bytes\n" ++ sections.flatMap SectionInfo.line ++
    imports.flatMap Import.line
    ++ exports.flatMap Export.line

end Eel.Wasm
