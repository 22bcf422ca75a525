import Eel.Wasm.Format

/-!
Values: what constants, locals and the stack hold.
-/

namespace Eel.Wasm

inductive Value where
  | i32 (value : Int32)
  | i64 (value : Int64)
  | f64 (value : Double)
deriving DecidableEq, Repr

namespace Value

def type : Value → ValType
  | i32 _ => .i32
  | i64 _ => .i64
  | f64 _ => .f64

@[inline]
def ofBool (b : Bool) : Value := if b then .i32 1 else .i32 0

def initial (t : ValType) : Value :=
  if t = .i32 then .i32 0
  else if t = .i64 then .i64 0
  else .f64 .zero

end Value

end Eel.Wasm
