import Eel.Command.Basic
import Eel.Manifest.Load
import Eel.Session.Transcript
import Eel.Wasm.Listing

/-!
What commands do.

Files and the standard input are reached through the monad that a command runs
in, so that the same commands work on real files and on a tree of files in
memory. A command either fails or shows something; nothing is shown before all
of its work is done.
-/

namespace Eel

inductive CommandError where
  | usage (error : UsageError)
  | manifest (error : ManifestLoadError)
  | compile (error : CompileError)
  | engine (error : EngineError)
  | unwritten (error : FileError)
  | unreadSource (error : FileError)
  | unreadModule (error : FileError)
  | module (path : Bytes) (error : Wasm.ReadError)
deriving DecidableEq, Repr

namespace CommandError

def message : CommandError → Bytes
  | usage error => error.message
  | manifest error => error.message
  | compile error => error.message
  | engine error => error.message
  | unwritten error => utf8 "write module: " ++ error.message
  | unreadSource error => utf8 "read source: " ++ error.message
  | unreadModule error => utf8 "read module: " ++ error.message
  | module path error => path ++ utf8 ": " ++ error.message

/-- An error as it is shown. Those of a source show its lines. -/
def report : CommandError → Bytes
  | compile error => error.report
  | error => utf8 "error: " ++ error.message ++ utf8 "\n"

end CommandError

structure Exit where
  succeeded : Bool
  output : Output
deriving DecidableEq, Repr

def Exit.status (e : Exit) : Nat := if e.succeeded then 0 else 1

namespace Command

def usage : Bytes := utf8 "Usage: eelwasm compile|run|fmt|inspect|repl\n"

def defaultOutput (manifest : Bytes) : Bytes := Path.withoutExtension manifest ++ utf8 ".wasm"

def valuesText (e : Engine) : Except EngineError Bytes := do
  let pools ← e.poolNames.mapM fun pool => do
    let vars ← e.vars pool
    return vars.flatMap fun (name, x) =>
      pool ++ utf8 "." ++ name ++ utf8 " = " ++ x.text ++ utf8 "\n"
  return pools.flatten

def callAll (e : Engine) : List Bytes → Except EngineError Engine
  | [] => .ok e
  | name :: rest =>
    match e.call 0 name with
    | (.ok (), e) => callAll e rest
    | (.error error, _) => .error error

def callFrames (names : List Bytes) : Nat → Engine → Except EngineError Engine
  | 0, e => .ok e
  | frames + 1, e => do callFrames names frames (← callAll e names)

/-- Runs a module on the pools of a manifest, and shows the variables. Without
names all its functions are called. -/
def runModule (m : Manifest) (bin : Bytes) (calls : List Bytes) (frames : Int) (seed : UInt64) :
    Except EngineError Bytes := do
  let e ← Engine.create m.pools { seed }
  let e ← m.initialValues.foldlM (fun e v => e.set v.pool v.name v.value) e
  match e.load bin with
  | (.error error, _) => throw error
  | (.ok exported, e) =>
    valuesText (← callFrames (if calls.isEmpty then exported else calls) frames.toNat e)

def formatted (path source : Bytes) (simplify : Bool) : Except CompileError Bytes :=
  match Source.parse source with
  | .error e => .error (.ofParseError path source e)
  | .ok s =>
    let node := if simplify then (Simplify.run .clamped 0 s.script.toNode).1.node
      else s.script.toNode
    let text := node.print
    .ok (if text.isEmpty then [] else text ++ utf8 "\n")

variable {m : Type → Type} [Monad m]

def compileManifest (files : FileAccess m) (path : Bytes) (settings : CompileSettings) :
    ExceptT CommandError m (Manifest × Bytes) := do
  let loaded : m (Except ManifestLoadError Manifest) := Manifest.load files path
  match ← loaded with
  | .error e => throw (.manifest e)
  | .ok manifest =>
    match Eel.compile
      { manifest.options with simplify := settings.simplify, maxRounds := settings.maxRounds } with
    | .error e => throw (.compile e)
    | .ok bin => return (manifest, bin)

def perform (files : FileAccess m) (stdin : m Bytes) : Command → ExceptT CommandError m Output
  | compile path settings output => do
    let (_, bin) ← compileManifest files path settings
    match ← files.write (if output.isEmpty then defaultOutput path else output) bin with
    | .ok () => return {}
    | .error e => throw (.unwritten e)
  | run path settings calls frames seed => do
    let (manifest, bin) ← compileManifest files path settings
    match runModule manifest bin calls frames seed with
    | .ok text => return { stdout := text }
    | .error e => throw (.engine e)
  | format path simplify => do
    let read : m (Except FileError Bytes) :=
      if path == [Flag.dash] then .ok <$> stdin else files.read path
    match ← read with
    | .error e => throw (.unreadSource e)
    | .ok source =>
      match formatted path source simplify with
      | .ok text => return { stdout := text }
      | .error e => throw (.compile e)
  | inspect path => do
    match ← files.read path with
    | .error e => throw (.unreadModule e)
    | .ok bin =>
      match Wasm.listing bin with
      | .ok text => return { stdout := text }
      | .error e => throw (.module path e)
  | repl seed => do
    return Session.transcript { seed } (← stdin)
  | help => return { stdout := usage }

def exit : Except CommandError Output → Exit
  | .ok output => ⟨true, output⟩
  | .error e => ⟨false, { stderr := e.report }⟩

def performArgs (files : FileAccess m) (stdin : m Bytes) (args : List Bytes) : m Exit := do
  match ofArgs args with
  | .error e => return exit (.error (.usage e))
  | .ok command => return exit (← (command.perform files stdin).run)

end Command

end Eel
