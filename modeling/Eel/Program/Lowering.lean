import Eel.Program.Builtin
import Eel.Program.Error
import Eel.Program.HostFunction
import Eel.Program.Numbering
import Eel.Program.Routine
import Eel.Source.Basic

/-!
Instructions of a syntax tree.

The instructions of an expression leave one double on the stack. While they are
made, variables of the program, routines and locals get their numbers in the
order in which they come up.
-/

namespace Eel

open Wasm

/-- What the key of a variable is made of: the pool and the name, with a zero
byte between them. -/
def variableKey (pool name : Bytes) : Bytes := pool ++ 0 :: name

/-- The pool and the name of a key, cut at the first zero byte. -/
def splitKey (key : Bytes) : Bytes × Bytes :=
  match Bytes.cut? [0] key with
  | some parts => parts
  | none => (key, [])

namespace Lowering

/-- What a function is lowered against. -/
structure Scope where
  function : Bytes
  pool : Pool
  source : Source
  /-- The keys of the imported variables. -/
  externals : Numbering Bytes
  /-- The index of the first routine. -/
  routineBase : Nat

/-- What has come up so far. The locals are those of the function at hand, all
else is shared. -/
structure Draft where
  /-- The keys of the variables of the program. -/
  globals : Numbering Bytes := {}
  routines : Numbering Routine := {}
  usesMemory : Bool := false
  locals : List ValType := []
deriving Repr

abbrev Lower := StateT Draft (Except CompileError)

def Scope.error (s : Scope) (kind : CompileError.Kind) (span : Span) (cause : CompileError.Cause) :
    CompileError where
  kind
  function := s.function
  loc := if span.isNone then {} else .ofSpan (s.source.locateSpan span)
  source := s.source.text
  cause

def refuse {α : Type} (s : Scope) (span : Span) (cause : CompileError.Cause) : Lower α :=
  throw (s.error .user span cause)

/-- An error that no source can cause. -/
def fault {α : Type} (s : Scope) (span : Span) (cause : CompileError.Cause) : Lower α :=
  throw (s.error .compiler span cause)

/-- The index of the global of a variable: an imported one if the pool declares
the name, otherwise one of the program that belongs to the pool. -/
def globalIndex (s : Scope) (id : Ident) : Lower Nat := do
  match s.pool.find? id.name with
  | some declared =>
    match s.externals.find? (variableKey s.pool.name declared) with
    | some i => return i
    | none => fault s id.span (.uncollected s.pool.name declared)
  | none =>
    let draft ← get
    let (i, globals) := draft.globals.resolve (variableKey s.pool.name id.name)
    set { draft with globals }
    return s.externals.size + i

def callRoutine (s : Scope) (r : Routine) : Lower Instr := do
  let draft ← get
  let (i, routines) := draft.routines.resolve r
  set { draft with routines }
  return .call (s.routineBase + i)

def callHost (f : HostFunction) : Instr := .call f.index

def newLocal (type : ValType) : Lower Nat := do
  let draft ← get
  set { draft with locals := draft.locals ++ [type] }
  return draft.locals.length

def needMemory : Lower Unit := modify ({ · with usesMemory := true })

def asDouble : Instr := .num .f64ConvertI32S

def unaryCode (s : Scope) (span : Span) : UnaryOp → Lower (List Instr)
  | .neg => return [.num .f64Neg]
  | .plus => return []
  | .not => return [← callRoutine s .isZeroish, asDouble]
  | .other spelling => fault s span (.unknownOperator "unary" spelling)

def binaryCode (s : Scope) (span : Span) : BinaryOp → Lower (List Instr)
  | .add => return [.num .f64Add]
  | .sub => return [.num .f64Sub]
  | .mul => return [.num .f64Mul]
  | .div => return [← callRoutine s .div]
  | .rem => return [← callRoutine s .rem]
  | .bitAnd => return [← callRoutine s .bitwiseAnd]
  | .bitOr => return [← callRoutine s .bitwiseOr]
  | .pow => return [callHost .pow]
  | .eq => return [.num .f64Sub, ← callRoutine s .isZeroish, asDouble]
  | .ne => return [.num .f64Sub, ← callRoutine s .isNotZeroish, asDouble]
  | .lt => return [.num .f64Lt, asDouble]
  | .gt => return [.num .f64Gt, asDouble]
  | .le => return [.num .f64Le, asDouble]
  | .ge => return [.num .f64Ge, asDouble]
  | .other spelling => fault s span (.unknownOperator "binary" spelling)

/-- What is done with the arguments of a builtin that evaluates all of them
once. -/
def builtinCode (s : Scope) (span : Span) : Builtin → Lower (List Instr)
  | .abs => return [.num .f64Abs]
  | .sqrt => return [.num .f64Abs, .num .f64Sqrt]
  | .int | .floor => return [.num .f64Floor]
  | .ceil => return [.num .f64Ceil]
  | .min => return [.num .f64Min]
  | .max => return [.num .f64Max]
  | .sign => return [← callRoutine s .sign]
  | .sqr => do
    let x ← newLocal .f64
    return [.localTee x, .localGet x, .num .f64Mul]
  | .invsqrt => do
    let x ← newLocal .f64
    return [.localSet x, .f64Const .one, .localGet x, .num .f64Abs, .num .f64Sqrt, .num .f64Div]
  | .bor => bothTests .i32Or
  | .band => bothTests .i32And
  | .bnot => return [← callRoutine s .isZeroish, asDouble]
  | .above => return [.num .f64Gt, asDouble]
  | .below => return [.num .f64Lt, asDouble]
  | .equal => return [.num .f64Sub, ← callRoutine s .isZeroish, asDouble]
  | b => fault s span (.noLowering b.name)
where
  bothTests (op : NumOp) : Lower (List Instr) := do
    let right ← newLocal .f64
    let test ← callRoutine s .isNotZeroish
    return [.localSet right, test, .localGet right, test, .num op, asDouble]

def bufferBase? (name : Bytes) : Option Nat :=
  if name == Builtin.name .megabuf then some 0
  else if name == Builtin.name .gmegabuf then some bufferBytes
  else none

/-- Whether the offset in a local, which is on the stack as well, is one. -/
def slotExists (offset : Nat) : List Instr := [.localTee offset, .i32Const (-1), .num .i32Ne]

/-- A read of the slot whose number `index` leaves. A slot that does not exist
holds zero. -/
def bufferLoad (s : Scope) (base : Nat) (index : List Instr) : Lower (List Instr) := do
  let find ← callRoutine s .bufferIndex
  let offset ← newLocal .i32
  return index ++ [find] ++ slotExists offset
    ++ [.choice .f64 [.localGet offset, .f64Load base] [.f64Const .zero]]

/-- The loop that repeats a body while its value is not zero, up to the
limit. -/
def whileCode (s : Scope) (counter : Nat) (body : List Instr) : Lower (List Instr) := do
  let test ← callRoutine s .isNotZeroish
  return [.i32Const 0, .localSet counter,
    .loop .void (body ++ [test,
      .localGet counter, .i32Const 1, .num .i32Add, .localTee counter, .i32Const maxIterations,
      .num .i32LtS, .num .i32And, .brIf 0]),
    .f64Const .zero]

def countedCode (remaining : Nat) (body : List Instr) : List Instr :=
  [.block .void [.loop .void (
      [.localGet remaining, .i32Const 0, .num .i32LeS, .brIf 1] ++ body ++
      [.drop, .localGet remaining, .i32Const 1, .num .i32Sub, .localSet remaining, .br 0])],
    .f64Const .zero]

/-- The function of the host that a call means. Names with an underscore in
front are kept for routines. -/
def hostFunction (s : Scope) (callee : Ident) (args : Nat) (span : Span) : Lower HostFunction := do
  if callee.name.head? == some '_'.toUInt8 then refuse s callee.span (.privateFunction callee.name)
  match HostFunction.ofName? callee.name with
  | none => refuse s callee.span (.unknownFunction callee.name)
  | some f =>
    if args ≠ f.arity then refuse s span (.arity callee.name f.arity args)
    return f

mutual

def lower (s : Scope) : Node → Lower (List Instr)
  | .number value _ => return [.f64Const value]
  | .ident id => return [.globalGet (← globalIndex s id)]
  | .block body span => if body.isEmpty then fault s span .emptyBlock else lowerSequence s body
  | .unary op operand span => return (← lower s operand) ++ (← unaryCode s span op)
  | .binary op left right span =>
    return (← lower s left) ++ (← lower s right) ++ (← binaryCode s span op)
  | .logical op left right span => do
    let code ← lower s left
    let test ← callRoutine s .isNotZeroish
    match op with
    | .and =>
      let truth := (← lower s right) ++ [test, asDouble]
      return code ++ [test, .choice .f64 truth [.f64Const .zero]]
    | .or =>
      let truth := (← lower s right) ++ [test, asDouble]
      return code ++ [test, .choice .f64 [.f64Const .one] truth]
    | .other spelling => fault s span (.unknownOperator "logical" spelling)
  | .assign op (.ident id) value span => do
    let i ← globalIndex s id
    match op.combining? with
    | none => return (← lower s value) ++ [.globalSet i, .globalGet i]
    | some op =>
      return .globalGet i :: (← lower s value) ++ (← binaryCode s span op) ++
        [.globalSet i, .globalGet i]
  | .assign op (.call callee args callSpan) value span =>
    match bufferBase? callee.name with
    | none => refuse s callSpan (.assignedCall callee.name)
    | some base =>
      match args with
      | [index] => do
        needMemory
        let indexCode ← lower s index
        let find ← callRoutine s .bufferStoreIndex
        let offset ← newLocal .i32
        let stored ← newLocal .f64
        let valueCode ← lower s value
        let newValue ← match op.combining? with
          | none => pure valueCode
          | some op =>
            pure ([.localGet offset, .f64Load base] ++ valueCode ++ (← binaryCode s span op))
        -- The value is computed once: on one side of the choice it is stored as well.
        let skipped ← lower s value
        return indexCode ++ [find] ++ slotExists offset ++ [.choice .f64
          (newValue ++ [.localSet stored, .localGet offset, .localGet stored, .f64Store base,
            .localGet stored])
          skipped]
      | _ => refuse s callSpan (.arity callee.name 1 args.length)
  | .assign _ _ _ span => fault s span .noTarget
  | .call callee args span =>
    match Builtin.ofName? callee.name with
    | none => do
      let f ← hostFunction s callee args.length span
      return (← lowerAll s args) ++ [callHost f]
    | some b =>
      if args.length ≠ b.arity then refuse s span (.arity callee.name b.arity args.length)
      else
        match b, args with
        | .choose, [condition, consequent, alternate] => do
          let code ← lower s condition
          let test ← callRoutine s .isNotZeroish
          return code ++ [test, .choice .f64 (← lower s consequent) (← lower s alternate)]
        | .exec2, args => lowerSequence s args
        | .exec3, args => lowerSequence s args
        | .whileLoop, [body] => do
          let counter ← newLocal .i32
          whileCode s counter (← lower s body)
        | .countedLoop, [count, body] => do
          let code ← lower s count
          let remaining ← newLocal .i32
          return code ++ [.num .i32TruncSatF64S, .localSet remaining] ++
            countedCode remaining (← lower s body)
        | .megabuf, [index] => do
          needMemory
          bufferLoad s 0 (← lower s index)
        | .gmegabuf, [index] => do
          needMemory
          bufferLoad s bufferBytes (← lower s index)
        | b, args => return (← lowerAll s args) ++ (← builtinCode s span b)
  | n => fault s n.span .noExpression

/-- The instructions of expressions one after another, which leave all
values. -/
def lowerAll (s : Scope) : List Node → Lower (List Instr)
  | [] => return []
  | n :: rest => return (← lower s n) ++ (← lowerAll s rest)

/-- The instructions of expressions one after another, which leave the last
value. -/
def lowerSequence (s : Scope) : List Node → Lower (List Instr)
  | [] => return []
  | [n] => lower s n
  | n :: rest => return (← lower s n) ++ [.drop] ++ (← lowerSequence s rest)

end

def lowerStatements (s : Scope) : List Node → Lower (List Instr)
  | [] => return []
  | n :: rest => return (← lower s n) ++ [.drop] ++ (← lowerStatements s rest)

end Lowering

end Eel
