import Eel.Double.Basic
import Eel.Wasm.Leb128

/-!
The pieces of the binary format.

Value types, section ids and kinds of imports and exports are single bytes. Any
byte may stand for one; those that the format knows have names.
-/

namespace Eel.Wasm

structure ValType where
  byte : UInt8
deriving DecidableEq, Repr

namespace ValType

def i32 : ValType := ⟨0x7f⟩

def i64 : ValType := ⟨0x7e⟩

def f32 : ValType := ⟨0x7d⟩

def f64 : ValType := ⟨0x7c⟩

def name (t : ValType) : Bytes :=
  match t.byte with
  | 0x7f => utf8 "i32"
  | 0x7e => utf8 "i64"
  | 0x7d => utf8 "f32"
  | 0x7c => utf8 "f64"
  | _ => utf8 "unknown"

end ValType

structure SectionId where
  byte : UInt8
deriving DecidableEq, Repr

namespace SectionId

def custom : SectionId := ⟨0⟩

def type : SectionId := ⟨1⟩

def imports : SectionId := ⟨2⟩

def function : SectionId := ⟨3⟩

def memory : SectionId := ⟨5⟩

def global : SectionId := ⟨6⟩

def exports : SectionId := ⟨7⟩

def code : SectionId := ⟨10⟩

def name (id : SectionId) : Bytes :=
  match id.byte with
  | 0 => utf8 "custom"
  | 1 => utf8 "type"
  | 2 => utf8 "import"
  | 3 => utf8 "function"
  | 4 => utf8 "table"
  | 5 => utf8 "memory"
  | 6 => utf8 "global"
  | 7 => utf8 "export"
  | 8 => utf8 "start"
  | 9 => utf8 "element"
  | 10 => utf8 "code"
  | 11 => utf8 "data"
  | _ => utf8 "unknown"

end SectionId

structure ExternKind where
  byte : UInt8
deriving DecidableEq, Repr

namespace ExternKind

def func : ExternKind := ⟨0⟩

def global : ExternKind := ⟨3⟩

def name (k : ExternKind) : Bytes :=
  match k.byte with
  | 0 => utf8 "func"
  | 1 => utf8 "table"
  | 2 => utf8 "memory"
  | 3 => utf8 "global"
  | _ => utf8 "unknown"

end ExternKind

def doubleBytes (x : Double) : Bytes := littleEndian 8 x.bits.toNat

def readDouble (s : Bytes) : Except Fault (Double × Bytes) :=
  if s.length < 8 then .error .truncated
  else .ok (⟨(ofLittleEndian (s.take 8)).toUInt64⟩, s.drop 8)

def vectorBytes (count : Nat) (contents : Bytes) : Bytes := unsigned count ++ contents

def nameBytes (name : Bytes) : Bytes := unsigned name.length ++ name

def sectionBytes (id : SectionId) (body : Bytes) : Bytes := id.byte :: unsigned body.length ++ body

end Eel.Wasm
