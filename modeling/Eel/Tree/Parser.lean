import Eel.Double.Decimal
import Eel.Text.LetterCase
import Eel.Token.Lexer
import Eel.Tree.Basic
import Eel.Tree.ParseError

/-!
Reading tokens as a tree.

A reader takes tokens from the front and gives a node, or the first error. The
grammar's levels are written over a reader `expr` for the expressions inside:
those in parentheses, arguments, branches of a choice and right sides of an
assignment. All of these start behind a token of the expression they are in, so
as many levels as there are tokens are enough, and that many are built. The same
number bounds the length of every chain and list.
-/

namespace Eel.Tree

/-- The tokens still to be read, the first of them apart, and the place behind
the one read last. -/
structure Cursor where
  current : Token
  rest : List Token
  lastStop : Position
deriving DecidableEq, Repr

abbrev Reader := StateT Cursor (Except ParseError)

namespace Reader

def current : Reader Token := do return (← get).current

def kind : Reader Token.Kind := do return (← get).current.kind

/-- What makes a token the end of reading, if it is no token of the language. -/
def lexicalError? (t : Token) : Option ParseError :=
  match t.kind with
  | .illegal byte => some (.atToken (.illegalByte byte) t [])
  | .openComment => some (.atToken .openComment t [])
  | _ => none

def advance : Reader Unit := fun c =>
  match c.rest with
  | [] => .ok ((), { c with lastStop := c.current.stop })
  | t :: rest =>
    match lexicalError? t with
    | some e => .error e
    | none => .ok ((), ⟨t, rest, c.current.stop⟩)

def unexpected {α : Type} (wanted : List ParseError.Wanted) : Reader α := do
  let t ← current
  throw (.atToken (.unexpected t) t wanted)

def expect (s : Symbol) (wanted : List ParseError.Wanted) : Reader Unit := do
  if (← kind) = .symbol s then advance else unexpected wanted

end Reader

open Reader

def wantOperand : List ParseError.Wanted :=
  [.number, .identifier, .symbol .openParen, .symbol .minus, .symbol .plus, .symbol .bang]

def wantStatementEnd : List ParseError.Wanted := [.symbol .semicolon, .finish]

def wantArgumentEnd : List ParseError.Wanted :=
  [.symbol .comma, .symbol .semicolon, .symbol .closeParen]

def wantBlockEnd : List ParseError.Wanted := [.symbol .semicolon, .symbol .closeParen]

/-- The value of a number's digits, unless it is past the greatest double. -/
def numberValue? (lexeme : Bytes) : Option Double :=
  let value (s : Bytes) : Nat := s.foldl (fun n c => 10 * n + (c.toNat - '0'.toNat)) 0
  let fraction := (lexeme.dropWhile (· ≠ '.'.toUInt8)).drop 1
  let decimal : Decimal := ⟨value (lexeme.filter (· ≠ '.'.toUInt8)), -(fraction.length : Int)⟩
  let x := decimal.toDouble
  if x.isInfinite then none else some x

def spanOver (left right : Node) : Span := ⟨left.span.start, right.span.stop⟩

def endsSequence : Token.Kind → Bool
  | .symbol .closeParen | .symbol .comma => true
  | _ => false

/-- The rest of a sequence: expressions behind semicolons, the last semicolon
followed by none if a list ends there. -/
def sequenceTail (expr : Reader Node) : Nat → Reader (List Node)
  | 0 => return []
  | bound + 1 => do
    if (← kind) ≠ .symbol .semicolon then return []
    advance
    if endsSequence (← kind) then return []
    let e ← expr
    return e :: (← sequenceTail expr bound)

/-- A sequence up to a closing parenthesis or a comma. A single expression
stands for itself, several are a block. -/
def sequence (expr : Reader Node) (bound : Nat) (start : Position)
    (wanted : List ParseError.Wanted) : Reader Node := do
  let first ← expr
  let others ← sequenceTail expr bound
  if !endsSequence (← kind) then unexpected wanted
  match others with
  | [] => return first
  | _ => return .block (first :: others) ⟨start, (← get).lastStop⟩

def arguments (expr : Reader Node) (bound : Nat) : Nat → Reader (List Node)
  | 0 => return []
  | count + 1 => do
    let arg ← sequence expr bound (← current).start wantArgumentEnd
    if (← kind) = .symbol .comma then
      advance
      return arg :: (← arguments expr bound count)
    else return [arg]

def callOf (expr : Reader Node) (bound : Nat) (callee : Ident) : Reader Node := do
  expect .openParen [.symbol .openParen]
  let args ← if (← kind) = .symbol .closeParen then pure [] else arguments expr bound bound
  expect .closeParen wantArgumentEnd
  return .call callee args ⟨callee.span.start, (← get).lastStop⟩

/-- A number, a variable, a call or a sequence in parentheses. -/
def primary (expr : Reader Node) (bound : Nat) : Reader Node := do
  let t ← current
  match t.kind with
  | .number =>
    match numberValue? t.lexeme with
    | none => throw (.atToken (.numberRange t.lexeme) t [])
    | some value => do
      advance
      return .number value t.span
  | .identifier =>
    advance
    let id : Ident := ⟨Text.lower t.lexeme, t.span⟩
    if (← kind) = .symbol .openParen then callOf expr bound id else return .ident id
  | .ifWord =>
    advance
    if (← kind) = .symbol .openParen then callOf expr bound ⟨Text.lower t.lexeme, t.span⟩
    else unexpected [.symbol .openParen]
  | .symbol .openParen =>
    advance
    let e ← sequence expr bound t.start wantBlockEnd
    expect .closeParen wantBlockEnd
    return e
  | _ => unexpected wantOperand

def unaryOp? : Token.Kind → Option UnaryOp
  | .symbol .minus => some .neg
  | .symbol .plus => some .plus
  | .symbol .bang => some .not
  | _ => none

/-- Any number of signs before an operand. -/
def unary (expr : Reader Node) (bound : Nat) : Nat → Reader Node
  | 0 => unexpected wantOperand
  | count + 1 => do
    let t ← current
    match unaryOp? t.kind with
    | some op =>
      advance
      let operand ← unary expr bound count
      return .unary op operand ⟨t.start, operand.span.stop⟩
    | none => primary expr bound

/-- The rest of a chain of operators of one rank, which group to the left. -/
def chainTail (operand : Reader Node) (joins? : Token.Kind → Option (Node → Node → Node)) :
    Nat → Node → Reader Node
  | 0, left => return left
  | bound + 1, left => do
    match joins? (← kind) with
    | none => return left
    | some join =>
      advance
      let right ← operand
      chainTail operand joins? bound (join left right)

def chain (operand : Reader Node) (joins? : Token.Kind → Option (Node → Node → Node))
    (bound : Nat) : Reader Node := do
  chainTail operand joins? bound (← operand)

def joinBinary (op : BinaryOp) (left right : Node) : Node :=
  .binary op left right (spanOver left right)

def joinLogical (op : LogicalOp) (left right : Node) : Node :=
  .logical op left right (spanOver left right)

def bitwiseOp? : Token.Kind → Option BinaryOp
  | .symbol .ampersand => some .bitAnd
  | .symbol .pipe => some .bitOr
  | _ => none

def multiplicativeOp? : Token.Kind → Option BinaryOp
  | .symbol .star => some .mul
  | .symbol .slash => some .div
  | .symbol .percent => some .rem
  | .symbol .caret => some .pow
  | _ => none

def additiveOp? : Token.Kind → Option BinaryOp
  | .symbol .plus => some .add
  | .symbol .minus => some .sub
  | _ => none

def comparisonOp? : Token.Kind → Option BinaryOp
  | .symbol .equalEqual => some .eq
  | .symbol .bangEqual => some .ne
  | .symbol .less => some .lt
  | .symbol .lessEqual => some .le
  | .symbol .greater => some .gt
  | .symbol .greaterEqual => some .ge
  | _ => none

def logicalOp? : Token.Kind → Option LogicalOp
  | .symbol .andAnd => some .and
  | .symbol .orOr => some .or
  | _ => none

def assignOp? : Token.Kind → Option AssignOp
  | .symbol .assign => some .set
  | .symbol .plusAssign => some .add
  | .symbol .minusAssign => some .sub
  | .symbol .starAssign => some .mul
  | .symbol .slashAssign => some .div
  | .symbol .percentAssign => some .rem
  | _ => none

def bitwise (expr : Reader Node) (bound : Nat) : Reader Node :=
  chain (unary expr bound bound) (fun k => (bitwiseOp? k).map joinBinary) bound

def multiplicative (expr : Reader Node) (bound : Nat) : Reader Node :=
  chain (bitwise expr bound) (fun k => (multiplicativeOp? k).map joinBinary) bound

def additive (expr : Reader Node) (bound : Nat) : Reader Node :=
  chain (multiplicative expr bound) (fun k => (additiveOp? k).map joinBinary) bound

def comparison (expr : Reader Node) (bound : Nat) : Reader Node :=
  chain (additive expr bound) (fun k => (comparisonOp? k).map joinBinary) bound

def logical (expr : Reader Node) (bound : Nat) : Reader Node :=
  chain (comparison expr bound) (fun k => (logicalOp? k).map joinLogical) bound

/-- A choice between two expressions, as a call of `if`. A second one that is
missing is zero. -/
def conditional (expr : Reader Node) (bound : Nat) : Reader Node := do
  let test ← logical expr bound
  let t ← current
  if t.kind ≠ .symbol .question then return test
  advance
  let consequent ← expr
  let alternate ←
    if (← kind) = .symbol .colon then do
      advance
      expr
    else pure (.number .zero .none)
  return .call ⟨utf8 "if", t.span⟩ [test, consequent, alternate] ⟨test.span.start, (← get).lastStop⟩

/-- Whether a value can be stored: in a variable, or in a slot of a buffer. -/
def isAssignable : Node → Bool
  | .ident _ => true
  | .call callee _ _ => isBufferName callee.name
  | _ => false

/-- A choice, or an assignment. Assignments group to the right. -/
def assignment (expr : Reader Node) (bound : Nat) : Reader Node := do
  let left ← conditional expr bound
  match assignOp? (← kind) with
  | none => return left
  | some op =>
    if !isAssignable left then
      throw {
        cause := .badTarget, start := left.span.start, stop := left.span.stop, token := op.text }
    advance
    let right ← expr
    return .assign op left right (spanOver left right)

/-- An expression with less than `levels` expressions inside one another. -/
def expression : Nat → Reader Node
  | 0 => unexpected wantOperand
  | levels + 1 => assignment (expression levels) (levels + 1)

def statements (expr : Reader Node) : Nat → Reader (List Node)
  | 0 => return []
  | bound + 1 => do
    match ← kind with
    | .finish => return []
    | .symbol .semicolon =>
      advance
      statements expr bound
    | _ =>
      let e ← expr
      match ← kind with
      | .finish | .symbol .semicolon => return e :: (← statements expr bound)
      | _ => unexpected wantStatementEnd

def script (bound : Nat) : Reader Script := do
  let start := (← current).start
  let body ← statements (expression bound) bound
  return ⟨body, ⟨start, (← current).start⟩⟩

def ofTokens : List Token → Except ParseError Script
  | [] => .ok ⟨[], .none⟩
  | t :: rest =>
    match lexicalError? t with
    | some e => .error e
    | none => do
      let (result, _) ← (script (rest.length + 1)).run ⟨t, rest, ⟨0, 0, 0⟩⟩
      return result

end Eel.Tree

def Eel.Script.parse (s : Eel.Bytes) : Except Eel.ParseError Eel.Script :=
  Eel.Tree.ofTokens (Eel.Token.list s)
