import Eel.Wasm.Value

/-!
Instructions, and their bytes.

The instructions are those that scripts are turned into. Blocks, loops and
choices hold their bodies, so that every list of instructions is balanced; the
bytes that open and close them appear only in the encoding.
-/

namespace Eel.Wasm

/-- What a block, loop or choice leaves on the stack: nothing, or one value. -/
inductive BlockType where
  | void
  | i32
  | f64
deriving DecidableEq, Repr

namespace BlockType

def byte : BlockType → UInt8
  | void => 0x40
  | i32 => 0x7f
  | f64 => 0x7c

def arity : BlockType → Nat
  | void => 0
  | i32 | f64 => 1

def all : List BlockType := [void, i32, f64]

end BlockType

/-- Instructions that only take values from the stack and put one there. -/
inductive NumOp where
  | i32Eqz
  | i32Ne
  | i32LtS
  | i32GtS
  | i32LeS
  | i32Add
  | i32Sub
  | i32Mul
  | i32RemS
  | i32And
  | i32Or
  | i64And
  | i64Or
  | f64Ne
  | f64Lt
  | f64Gt
  | f64Le
  | f64Ge
  | f64Abs
  | f64Neg
  | f64Ceil
  | f64Floor
  | f64Sqrt
  | f64Add
  | f64Sub
  | f64Mul
  | f64Div
  | f64Min
  | f64Max
  | i32TruncF64S
  | i32TruncSatF64S
  | i64TruncSatF64S
  | f64ConvertI32S
  | f64ConvertI64S
deriving DecidableEq, Repr

namespace NumOp

def all : List NumOp :=
  [i32Eqz, i32Ne, i32LtS, i32GtS, i32LeS, i32Add, i32Sub, i32Mul, i32RemS, i32And, i32Or, i64And,
    i64Or, f64Ne, f64Lt, f64Gt, f64Le, f64Ge, f64Abs, f64Neg, f64Ceil, f64Floor, f64Sqrt, f64Add,
    f64Sub, f64Mul, f64Div, f64Min, f64Max, i32TruncF64S, i32TruncSatF64S, i64TruncSatF64S,
    f64ConvertI32S, f64ConvertI64S]

/-- A saturating truncation has a number behind its first byte, every other
instruction is one byte. -/
def bytes : NumOp → Bytes
  | i32Eqz => [0x45]
  | i32Ne => [0x47]
  | i32LtS => [0x48]
  | i32GtS => [0x4a]
  | i32LeS => [0x4c]
  | i32Add => [0x6a]
  | i32Sub => [0x6b]
  | i32Mul => [0x6c]
  | i32RemS => [0x6f]
  | i32And => [0x71]
  | i32Or => [0x72]
  | i64And => [0x83]
  | i64Or => [0x84]
  | f64Ne => [0x62]
  | f64Lt => [0x63]
  | f64Gt => [0x64]
  | f64Le => [0x65]
  | f64Ge => [0x66]
  | f64Abs => [0x99]
  | f64Neg => [0x9a]
  | f64Ceil => [0x9b]
  | f64Floor => [0x9c]
  | f64Sqrt => [0x9f]
  | f64Add => [0xa0]
  | f64Sub => [0xa1]
  | f64Mul => [0xa2]
  | f64Div => [0xa3]
  | f64Min => [0xa4]
  | f64Max => [0xa5]
  | i32TruncF64S => [0xaa]
  | i32TruncSatF64S => [0xfc, 0x02]
  | i64TruncSatF64S => [0xfc, 0x06]
  | f64ConvertI32S => [0xb7]
  | f64ConvertI64S => [0xb9]

end NumOp

inductive Instr where
  | block (type : BlockType) (body : List Instr)
  | loop (type : BlockType) (body : List Instr)
  | choice (type : BlockType) (consequent alternate : List Instr)
  | br (depth : Nat)
  | brIf (depth : Nat)
  | call (index : Nat)
  | drop
  | localGet (index : Nat)
  | localSet (index : Nat)
  | localTee (index : Nat)
  | globalGet (index : Nat)
  | globalSet (index : Nat)
  | f64Load (offset : Nat)
  | f64Store (offset : Nat)
  | const (value : Value)
  | num (op : NumOp)
deriving Repr

namespace Instr

@[match_pattern]
abbrev i32Const (value : Int32) : Instr := .const (.i32 value)

@[match_pattern]
abbrev f64Const (value : Double) : Instr := .const (.f64 value)

end Instr

def Instr.isNested : Instr → Bool
  | block .. | loop .. | choice .. => true
  | _ => false

namespace Opcode

/-! The bytes of instructions with immediate values. A block, loop or choice is
opened here without its body. -/

def block (type : UInt8) : Bytes := [0x02, type]

def loop (type : UInt8) : Bytes := [0x03, type]

def choice (type : UInt8) : Bytes := [0x04, type]

def alternate : UInt8 := 0x05

def finish : UInt8 := 0x0b

def br (depth : Nat) : Bytes := 0x0c :: unsigned depth

def brIf (depth : Nat) : Bytes := 0x0d :: unsigned depth

def call (index : Nat) : Bytes := 0x10 :: unsigned index

def drop : Bytes := [0x1a]

def localGet (index : Nat) : Bytes := 0x20 :: unsigned index

def localSet (index : Nat) : Bytes := 0x21 :: unsigned index

def localTee (index : Nat) : Bytes := 0x22 :: unsigned index

def globalGet (index : Nat) : Bytes := 0x23 :: unsigned index

def globalSet (index : Nat) : Bytes := 0x24 :: unsigned index

def alignment : Nat := 3

def f64Load (offset : Nat) : Bytes := 0x2b :: unsigned alignment ++ unsigned offset

def f64Store (offset : Nat) : Bytes := 0x39 :: unsigned alignment ++ unsigned offset

def i32Const (value : Int) : Bytes := 0x41 :: signed value

def i64Const (value : Int) : Bytes := 0x42 :: signed value

def f64Const (value : Double) : Bytes := 0x44 :: doubleBytes value

/-- A saturating truncation, told apart by the number behind its first byte. -/
def truncSat (kind : Nat) : Bytes := 0xfc :: unsigned kind

end Opcode

mutual

def Instr.bytes : Instr → Bytes
  | .block type body => Opcode.block type.byte ++ Instr.bytesAll body ++ [Opcode.finish]
  | .loop type body => Opcode.loop type.byte ++ Instr.bytesAll body ++ [Opcode.finish]
  | .choice type consequent alternate =>
    Opcode.choice type.byte ++ Instr.bytesAll consequent ++ [Opcode.alternate] ++
      Instr.bytesAll alternate
      ++ [Opcode.finish]
  | .br depth => Opcode.br depth
  | .brIf depth => Opcode.brIf depth
  | .call index => Opcode.call index
  | .drop => Opcode.drop
  | .localGet index => Opcode.localGet index
  | .localSet index => Opcode.localSet index
  | .localTee index => Opcode.localTee index
  | .globalGet index => Opcode.globalGet index
  | .globalSet index => Opcode.globalSet index
  | .f64Load offset => Opcode.f64Load offset
  | .f64Store offset => Opcode.f64Store offset
  | .const (.i32 value) => Opcode.i32Const value.toInt
  | .const (.i64 value) => Opcode.i64Const value.toInt
  | .const (.f64 value) => Opcode.f64Const value
  | .num op => op.bytes

def Instr.bytesAll : List Instr → Bytes
  | [] => []
  | i :: rest => i.bytes ++ Instr.bytesAll rest

end

end Eel.Wasm
