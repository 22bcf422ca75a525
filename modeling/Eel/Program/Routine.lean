import Eel.Wasm.Instr

/-!
Routines that instructions of a program call.

A program holds only the routines that it calls. No routine calls another
function. Locals are numbered behind the parameters.
-/

namespace Eel

/-- Values of a smaller magnitude count as zero: 0.00001. -/
def epsilon : Double := ⟨0x3ee4f8b588e368f1⟩

def bufferSlots : Nat := 524288

/-- The bytes of one buffer; a slot holds a double. -/
def bufferBytes : Nat := bufferSlots * 8

/-- The pages of the memory that holds both buffers, one behind the other. -/
def memoryPages : Nat := 2 * bufferBytes / 65536

/-- How often the body of `while` runs at most. -/
def maxIterations : Int32 := 1048576

inductive Routine where
  | div
  | rem
  | bitwiseAnd
  | bitwiseOr
  | sign
  | isZeroish
  | isNotZeroish
  | bufferIndex
  | bufferStoreIndex
deriving DecidableEq, Repr

namespace Routine

open Wasm

def signature : Routine → List ValType × List ValType
  | div | rem | bitwiseAnd | bitwiseOr => ([.f64, .f64], [.f64])
  | sign => ([.f64], [.f64])
  | isZeroish | isNotZeroish | bufferIndex | bufferStoreIndex => ([.f64], [.i32])

def locals : Routine → List ValType
  | rem | bufferIndex | bufferStoreIndex => [.i32]
  | _ => []

def int32Bounds : Double × Double := (⟨0xc1e0000000000000⟩, ⟨0x41dfffffffc00000⟩)

/-- Turns the slot number on the stack into the slot's offset in bytes, or -1 if
there is no such slot. -/
def slotOffset : List Instr :=
  [.localTee 1, .i32Const 0, .num .i32LtS, .localGet 1, .i32Const (Int32.ofNat (bufferSlots - 1)),
    .num .i32GtS, .num .i32Or,
    .choice .i32 [.i32Const (-1)] [.localGet 1, .i32Const 8, .num .i32Mul]]

/-- The slot that a number stands for: its whole part, where a little less than
a whole number counts as that number. -/
def slotOf : List Instr := [.localGet 0, .f64Const epsilon, .num .f64Add, .num .i32TruncSatF64S]

def code : Routine → List Instr
  -- The quotient, or zero where the divisor is zero.
  | div =>
    [.localGet 1, .f64Const .zero, .num .f64Ne,
      .choice .f64 [.localGet 0, .localGet 1, .num .f64Div] [.f64Const .zero]]
  -- The remainder of the whole parts, or zero where one of them does not fit or the divisor is
  -- zero.
  | rem =>
    [.localGet 0, .f64Const int32Bounds.1, .num .f64Ge,
      .localGet 0, .f64Const int32Bounds.2, .num .f64Le, .num .i32And,
      .localGet 1, .f64Const int32Bounds.1, .num .f64Ge, .num .i32And,
      .localGet 1, .f64Const int32Bounds.2, .num .f64Le, .num .i32And,
      .choice .f64
        [.localGet 1, .num .i32TruncF64S, .localTee 2, .num .i32Eqz,
          .choice .f64
            [.f64Const .zero]
            [.localGet 0, .num .i32TruncF64S, .localGet 2, .num .i32RemS, .num .f64ConvertI32S]]
        [.f64Const .zero]]
  | bitwiseAnd =>
    [.localGet 0, .num .i64TruncSatF64S, .localGet 1, .num .i64TruncSatF64S, .num .i64And,
      .num .f64ConvertI64S]
  | bitwiseOr =>
    [.localGet 0, .num .i64TruncSatF64S, .localGet 1, .num .i64TruncSatF64S, .num .i64Or,
      .num .f64ConvertI64S]
  -- What is not a number is neither above nor below zero.
  | sign =>
    [.localGet 0, .f64Const .zero, .num .f64Gt,
      .choice .f64 [.f64Const .one]
        [.localGet 0, .f64Const .zero, .num .f64Lt,
          .choice .f64 [.f64Const .negOne] [.f64Const .zero]]]
  | isZeroish => [.localGet 0, .num .f64Abs, .f64Const epsilon, .num .f64Lt]
  | isNotZeroish => [.localGet 0, .num .f64Abs, .f64Const epsilon, .num .f64Lt, .num .i32Eqz]
  -- The whole part lies towards zero, so a number just above -1 reads slot 0.
  | bufferIndex => slotOf ++ slotOffset
  -- A negative number never stores.
  | bufferStoreIndex =>
    [.localGet 0, .f64Const .zero, .num .f64Lt, .choice .i32 [.i32Const (-1)] slotOf] ++ slotOffset

end Routine

end Eel
