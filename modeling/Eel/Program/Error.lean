import Eel.Program.Declaration
import Eel.Tree.ParseError
import Eel.Wasm.Module

/-!
Why a program cannot be made.

Most errors lie in what was declared or written. The others would mean that the
compiler is at odds with itself.
-/

namespace Eel

namespace CompileError

inductive Kind where
  | user
  | compiler
deriving DecidableEq, Repr

def Kind.text : Kind → Bytes
  | user => utf8 "error"
  | compiler => utf8 "compiler error"

/-- A span of a source by lines and columns. A line of zero means that none is
known. -/
structure Loc where
  line : Int := 0
  column : Int := 0
  endLine : Int := 0
  endColumn : Int := 0
deriving DecidableEq, Repr

namespace Loc

def isNone (l : Loc) : Bool := l.line == 0

def ofSpan (s : Span) : Loc := ⟨s.start.line, s.start.column, s.stop.line, s.stop.column⟩

end Loc

inductive Cause where
  | parse (error : ParseError)
  | unnamedPool
  | reservedPool (pool : Bytes)
  | repeatedPool (pool : Bytes)
  | repeatedVariable (pool variable_ : Bytes)
  | unnamedFunction
  | repeatedFunction (function : Bytes)
  | undeclaredPool (function pool : Bytes) (declared : List Bytes)
  | privateFunction (name : Bytes)
  | unknownFunction (name : Bytes)
  | arity (name : Bytes) (wanted got : Nat)
  | assignedCall (name : Bytes)
  /-- A cause given in words. -/
  | stated (text : Bytes)
  | uncollected (pool variable_ : Bytes)
  | emptyBlock
  | noExpression
  | unknownOperator (rank : String) (spelling : Bytes)
  | noTarget
  | noLowering (name : Bytes)
  | notScript
  | refusedImport (refusal : Wasm.Refusal)
deriving DecidableEq, Repr

def plural (n : Nat) (word : String) : Bytes := utf8 word ++ if n = 1 then [] else utf8 "s"

/-- The pools that there are, in the order of their quoted names. -/
def describePools (declared : List Bytes) : Bytes :=
  if declared.isEmpty then utf8 "no pools are declared"
  else utf8 "declared pools are " ++ Bytes.join (utf8 ", ") (Bytes.sort (declared.map Text.quoted))

def Cause.text : Cause → Bytes
  | parse error => error.text
  | unnamedPool => utf8 "pool with an empty name"
  | reservedPool pool => utf8 "pool name " ++ Text.quoted pool ++ utf8 " is reserved"
  | repeatedPool pool => utf8 "pool " ++ Text.quoted pool ++ utf8 " is declared more than once"
  | repeatedVariable pool variable_ =>
    utf8 "pool " ++ Text.quoted pool ++ utf8 " declares " ++ Text.quoted variable_ ++
      utf8 " more than once"
  | unnamedFunction => utf8 "function with an empty name"
  | repeatedFunction function =>
    utf8 "function " ++ Text.quoted function ++ utf8 " is declared more than once"
  | undeclaredPool function pool declared =>
    utf8 "function " ++ Text.quoted function ++ utf8 " uses undeclared pool " ++
      Text.quoted pool ++ utf8 "; "
      ++ describePools declared
  | privateFunction name => Text.quoted name ++ utf8 " is a private function and cannot be called"
  | unknownFunction name => utf8 "unknown function " ++ Text.quoted name
  | arity name wanted got =>
    utf8 "function " ++ Text.quoted name ++ utf8 " expects " ++ Bytes.decimal wanted ++ utf8 " "
      ++ plural wanted "argument" ++ utf8 " but got " ++ Bytes.decimal got
  | assignedCall name => utf8 "cannot assign to a call of " ++ Text.quoted name
  | stated text => text
  | uncollected pool variable_ =>
    utf8 "pool variable " ++ pool ++ utf8 "." ++ variable_ ++
      utf8 " was not collected before emission"
  | emptyBlock => utf8 "empty expression block"
  | noExpression => utf8 "unexpected node in expression position"
  | unknownOperator rank spelling =>
    utf8 "unknown " ++ utf8 rank ++ utf8 " operator " ++ Text.quoted spelling
  | noTarget => utf8 "unexpected assignment target"
  | noLowering name => utf8 "builtin " ++ Text.quoted name ++ utf8 " has no lowering"
  | notScript => utf8 "optimizer returned no script for a script"
  | refusedImport refusal => refusal.message

end CompileError

/-- A program that cannot be made. Function and source are those that the error
lies in, if it lies in one. -/
structure CompileError where
  kind : CompileError.Kind := .user
  function : Bytes := []
  loc : CompileError.Loc := {}
  source : Bytes := []
  cause : CompileError.Cause
deriving DecidableEq, Repr

namespace CompileError

def text (e : CompileError) : Bytes := e.cause.text

def message (e : CompileError) : Bytes :=
  let place :=
    if e.loc.isNone then []
    else utf8 " at " ++ Bytes.decimalInt e.loc.line ++ utf8 ":" ++ Bytes.decimalInt e.loc.column
  (if e.kind = .compiler then utf8 "internal compiler error: " else [])
    ++ (if e.function.isEmpty then []
      else utf8 "function " ++ Text.quoted e.function ++ place ++ utf8 ": ")
    ++ e.text

def ofParseError (function source : Bytes) (e : ParseError) : CompileError where
  function
  loc := .ofSpan ⟨e.start, e.stop⟩
  source
  cause := .parse e

end CompileError

end Eel
