import Eel.Machine.Arithmetic
import Eel.Wasm.Instr

/-!
The instructions that only calculate with values on the stack.
-/

namespace Eel.Machine

open Wasm

inductive Trap where
  /-- A number whose whole part does not fit. -/
  | truncation
  | divisionByZero
  | memoryAccess
  | callDepth
  /-- A loop that went on past all bounds. -/
  | endless
  /-- Values that no checked program meets. -/
  | illTyped
deriving DecidableEq, Repr

/-- What an instruction that only calculates does to the stack, whose top comes
first. -/
@[inline]
def calculate [a : Arithmetic] (op : NumOp) (stack : List Value) : Except Trap (List Value) :=
  match op, stack with
  | .i32Eqz, .i32 x :: s => .ok (.ofBool (x == 0) :: s)
  | .i32Ne, .i32 y :: .i32 x :: s => .ok (.ofBool (x != y) :: s)
  | .i32LtS, .i32 y :: .i32 x :: s => .ok (.ofBool (x < y) :: s)
  | .i32GtS, .i32 y :: .i32 x :: s => .ok (.ofBool (y < x) :: s)
  | .i32LeS, .i32 y :: .i32 x :: s => .ok (.ofBool (x ≤ y) :: s)
  | .i32Add, .i32 y :: .i32 x :: s => .ok (.i32 (x + y) :: s)
  | .i32Sub, .i32 y :: .i32 x :: s => .ok (.i32 (x - y) :: s)
  | .i32Mul, .i32 y :: .i32 x :: s => .ok (.i32 (x * y) :: s)
  | .i32RemS, .i32 y :: .i32 x :: s =>
    if y = 0 then .error .divisionByZero else .ok (.i32 (x % y) :: s)
  | .i32And, .i32 y :: .i32 x :: s => .ok (.i32 (x &&& y) :: s)
  | .i32Or, .i32 y :: .i32 x :: s => .ok (.i32 (x ||| y) :: s)
  | .i64And, .i64 y :: .i64 x :: s => .ok (.i64 (x &&& y) :: s)
  | .i64Or, .i64 y :: .i64 x :: s => .ok (.i64 (x ||| y) :: s)
  | .f64Ne, .f64 y :: .f64 x :: s => .ok (.ofBool (a.ne x y) :: s)
  | .f64Lt, .f64 y :: .f64 x :: s => .ok (.ofBool (a.lt x y) :: s)
  | .f64Gt, .f64 y :: .f64 x :: s => .ok (.ofBool (a.gt x y) :: s)
  | .f64Le, .f64 y :: .f64 x :: s => .ok (.ofBool (a.le x y) :: s)
  | .f64Ge, .f64 y :: .f64 x :: s => .ok (.ofBool (a.ge x y) :: s)
  | .f64Abs, .f64 x :: s => .ok (.f64 (a.abs x) :: s)
  | .f64Neg, .f64 x :: s => .ok (.f64 (a.neg x) :: s)
  | .f64Ceil, .f64 x :: s => .ok (.f64 (a.ceil x) :: s)
  | .f64Floor, .f64 x :: s => .ok (.f64 (a.floor x) :: s)
  | .f64Sqrt, .f64 x :: s => .ok (.f64 (a.sqrt x) :: s)
  | .f64Add, .f64 y :: .f64 x :: s => .ok (.f64 (a.add x y) :: s)
  | .f64Sub, .f64 y :: .f64 x :: s => .ok (.f64 (a.sub x y) :: s)
  | .f64Mul, .f64 y :: .f64 x :: s => .ok (.f64 (a.mul x y) :: s)
  | .f64Div, .f64 y :: .f64 x :: s => .ok (.f64 (a.div x y) :: s)
  | .f64Min, .f64 y :: .f64 x :: s => .ok (.f64 (a.min x y) :: s)
  | .f64Max, .f64 y :: .f64 x :: s => .ok (.f64 (a.max x y) :: s)
  | .i32TruncF64S, .f64 x :: s =>
    match a.toInt32? x with
    | some n => .ok (.i32 n :: s)
    | none => .error .truncation
  | .i32TruncSatF64S, .f64 x :: s => .ok (.i32 (a.toInt32 x) :: s)
  | .i64TruncSatF64S, .f64 x :: s => .ok (.i64 (a.toInt64 x) :: s)
  | .f64ConvertI32S, .i32 n :: s => .ok (.f64 (a.ofInt32 n) :: s)
  | .f64ConvertI64S, .i64 n :: s => .ok (.f64 (a.ofInt64 n) :: s)
  | _, _ => .error .illTyped

end Eel.Machine
