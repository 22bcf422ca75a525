import Eel.Engine.Load
import Eel.Program.Excerpt
import Eel.Tree.Printer

/-!
Sessions: inputs that are run one after the other and share their variables.

Every input is compiled as a function of one pool, and every variable that it
mentions belongs to that pool. When new names come up the pool grows: a new
engine takes the place of the old one, and the values are copied over. The
random numbers and the buffers start afresh then; buffers do so with every
input.
-/

namespace Eel

/-- What an input is run for: a variable with its value. -/
structure Result where
  name : Bytes
  value : Double
deriving DecidableEq, Repr

/-- Why an input has no result. -/
inductive SessionError where
  | compile (error : CompileError)
  | engine (error : EngineError)
deriving DecidableEq, Repr

/-- An error as it is shown. Those of a source show its lines. -/
def SessionError.report : SessionError → Bytes
  | compile error => error.report
  | engine error => utf8 "error: " ++ error.message ++ utf8 "\n"

namespace Session

def poolName : Bytes := utf8 "repl"

def functionName : Bytes := utf8 "input"

/-- The variable for the value of an input that does not end with an assignment
to one. -/
def resultName : Bytes := utf8 "_"

end Session

/-- A result as it is shown. The variable is named if the input names it. -/
def Result.text (r : Result) : Bytes :=
  if r.name == Session.resultName then r.value.text else r.name ++ utf8 " = " ++ r.value.text

/-- An input that is ready to be compiled. -/
structure Input where
  script : Script
  /-- The text of the script. -/
  text : Bytes
  /-- The variable that holds the result. -/
  shown : Bytes

namespace Input

def assigned? : Node → Option Bytes
  | .assign _ (.ident id) _ _ => some id.name
  | _ => none

def keepResult (statement : Node) : Node :=
  .assign .set (.ident ⟨Session.resultName, .none⟩) statement .none

/-- The input that a source stands for; none if there is nothing to run. A
script that ends with an assignment to a variable is taken as it was typed, so
that errors point to what was typed. -/
def ofSource? (source : Source) : Option Input :=
  match source.script.body.getLast? with
  | none => none
  | some last =>
    match assigned? last with
    | some name => some ⟨source.script, source.text, name⟩
    | none =>
      let script := { source.script with body := source.script.body.dropLast ++ [keepResult last] }
      some ⟨script, script.toNode.print, Session.resultName⟩

def names (i : Input) : List Bytes := i.script.toNode.variableNames

end Input

structure Session where
  seed : UInt64
  /-- The variables so far, in the order of their first use. -/
  vars : List Bytes := []
  /-- The engine that holds the values; none before the first input. -/
  engine : Option Engine := none

namespace Session

def pool (s : Session) : Pool := ⟨poolName, s.vars⟩

def values (s : Session) : Except EngineError (List (Bytes × Double)) :=
  match s.engine with
  | none => .ok []
  | some e => e.vars poolName

def engineFor (seed : UInt64) (pool : Pool) (values : List (Bytes × Double)) :
    Except EngineError Engine := do
  values.foldlM (fun e (name, x) => e.set poolName name x) (← Engine.create [pool] { seed })

/-- Adds names to the pool. An engine that holds all of them already is kept. An
error would leave the session as it was, without the names and with its engine;
but no session that inputs lead to meets one. -/
def grow (s : Session) (names : List Bytes) : Except EngineError (Session × Engine) := do
  let added := names.filter fun name => !s.vars.contains name
  match s.engine, added with
  | some e, [] => return (s, e)
  | _, _ =>
    let s' := { s with vars := s.vars ++ added }
    let e ← engineFor s.seed s'.pool (← s.values)
    return ({ s' with engine := some e }, e)

/-- Runs an input once. Its instance is closed behind it. -/
def run (pool : Pool) (input : Input) (e : Engine) : Except SessionError Result × Engine :=
  match compile { pools := [pool], functions := [⟨functionName, poolName, input.text⟩] } with
  | .error error => (.error (.compile error), e)
  | .ok bin =>
    match e.load bin with
    | (.error error, e) => (.error (.engine error), e)
    | (.ok _, e) =>
      let last := e.instances.length - 1
      let (called, e) := e.call last functionName
      let result : Except EngineError Result := do
        called
        return ⟨input.shown, ← e.get poolName input.shown⟩
      (result.mapError .engine, e.close last)

/-- Evaluates an input. An input that is empty, or no script, changes
nothing. -/
def eval (s : Session) (text : Bytes) : Except SessionError (Option Result) × Session :=
  match Source.parse text with
  | .error e => (.error (.compile (.ofParseError functionName text e)), s)
  | .ok source =>
    match Input.ofSource? source with
    | none => (.ok none, s)
    | some input =>
      match s.grow input.names with
      | .error error => (.error (.engine error), s)
      | .ok (s, e) =>
        let (result, e) := run s.pool input e
        (result.map some, { s with engine := some e })

end Session

end Eel
