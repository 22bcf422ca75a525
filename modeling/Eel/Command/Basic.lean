import Eel.Command.Flag
import Eel.Text.LetterCase

/-!
Commands as they are given on a command line.

The first argument that is neither a flag nor the value of one names the
command. The flags that all commands share may stand in front of it.
-/

namespace Eel

inductive Verb where
  | compile
  | run
  | format
  | inspect
  | repl
  | help
  | completion
deriving DecidableEq, Repr

namespace Verb

def name : Verb → Bytes
  | compile => utf8 "compile"
  | run => utf8 "run"
  | format => utf8 "fmt"
  | inspect => utf8 "inspect"
  | repl => utf8 "repl"
  | help => utf8 "help"
  | completion => utf8 "completion"

def all : List Verb := [compile, run, format, inspect, repl, help, completion]

def ofName? (name : Bytes) : Option Verb := all.find? (·.name == name)

def sharedFlags : List Flag := [.logToStderr, .verbose]

def flags : Verb → List Flag
  | compile => [.parallel, .noOptimize, .maxRounds, .output] ++ sharedFlags ++ [.help]
  | run => [.parallel, .noOptimize, .maxRounds, .call, .frames, .seed] ++ sharedFlags ++ [.help]
  | format => .optimize :: sharedFlags ++ [.help]
  | inspect | help | completion => sharedFlags ++ [.help]
  | repl => .seed :: sharedFlags ++ [.help]

end Verb

structure CompileSettings where
  simplify : Bool
  maxRounds : Int
deriving DecidableEq, Repr

inductive Command where
  | compile (manifest : Bytes) (settings : CompileSettings) (output : Bytes)
  | run (manifest : Bytes) (settings : CompileSettings) (calls : List Bytes) (frames : Int)
      (seed : UInt64)
  | format (path : Bytes) (simplify : Bool)
  | inspect (path : Bytes)
  | repl (seed : UInt64)
  | help
deriving DecidableEq, Repr

inductive UsageError where
  | unknownCommand (word : Bytes) (similar : List Bytes)
  | flag (error : FlagError)
  | argumentCount (wanted got : Nat)
  | unexpected (verb : Verb) (arg : Bytes)
deriving DecidableEq, Repr

def programName : Bytes := utf8 "eelwasm"

def UsageError.message : UsageError → Bytes
  | unknownCommand word similar =>
    utf8 "unknown command " ++ Text.quoted word ++ utf8 " for " ++ Text.quoted programName ++
      hint similar
  | flag error => error.message
  | argumentCount wanted got =>
    utf8 "accepts " ++ Bytes.decimal wanted ++ utf8 " arg(s), received " ++ Bytes.decimal got
  | unexpected verb arg =>
    utf8 "unknown command " ++ Text.quoted arg ++ utf8 " for "
      ++ Text.quoted (programName ++ utf8 " " ++ verb.name)
where
  hint (similar : List Bytes) : Bytes :=
    if similar.isEmpty then []
    else utf8 "\n\nDid you mean this?\n" ++ similar.flatMap fun name =>
      utf8 "\t" ++ name ++ utf8 "\n"

/-- One row of a table of distances behind the row for a text that is one byte
shorter; `left` and `corner` are the distances beside the next cell. -/
def distanceRow (c : UInt8) : Nat → Nat → Bytes → List Nat → List Nat
  | left, corner, d :: word, above :: row =>
    let cell := if c == d then corner else min (min above left) corner + 1
    cell :: distanceRow c cell above word row
  | _, _, _, _ => []

/-- The number of bytes to insert, to remove or to change that makes a text of
another one. -/
def distance (a b : Bytes) : Nat :=
  let row := a.foldl (fun row c =>
    let corner := row.headD 0
    (corner + 1) :: distanceRow c (corner + 1) corner b (row.drop 1)) (List.range (b.length + 1))
  row.getLastD 0

namespace Verb

/-- The verbs whose names are close to a word or go on from it. -/
def similar (word : Bytes) : List Bytes :=
  let typed := Text.lower word
  ((all.filter (· != .help)).map name).filter fun name =>
    distance typed name ≤ 2 || (Bytes.dropFront? typed name).isSome

/-- Whether an argument in front of the verb takes the next one as its value. A
flag that is not known is taken for one that does. -/
def takesNext (arg : Bytes) : Bool :=
  let isSwitch (named : Flag → Bool) : Bool := (sharedFlags.find? named).any (·.isSwitch)
  if arg.contains Flag.equals then false
  else if (Bytes.dropFront? Flag.endMark arg).isSome then !isSwitch (·.name == arg.drop 2)
  else arg.head? == some Flag.dash && arg.length == 2 && !isSwitch (·.letter? == (arg.drop 1).head?)

def word? : List Bytes → Option Bytes
  | [] => none
  | arg :: rest =>
    if arg == Flag.endMark then none
    else if takesNext arg then
      match rest with
      | _ :: next :: more => word? (next :: more)
      | _ => none
    else if arg.isEmpty || arg.head? == some Flag.dash then word? rest
    else some arg

def withoutWord (word : Bytes) : List Bytes → List Bytes
  | [] => []
  | arg :: rest =>
    if arg == Flag.endMark then arg :: rest
    else if takesNext arg then
      match rest with
      | value :: more => arg :: value :: withoutWord word more
      | [] => [arg]
    else if arg == word then rest
    else arg :: withoutWord word rest

end Verb

namespace Command

def compileSettings (s : Settings) : CompileSettings := ⟨!s.noOptimize, s.maxRounds⟩

def ofPath : Verb → Settings → Bytes → Command
  | .compile, s, path => compile path (compileSettings s) s.output
  | .run, s, path => run path (compileSettings s) s.calls s.frames s.seed
  | .format, s, path => format path s.optimize
  | .inspect, _, path => inspect path
  | .repl, s, _ => repl s.seed
  | .help, _, _ | .completion, _, _ => help

def ofVerb (verb : Verb) (s : Settings) (args : List Bytes) : Except UsageError Command :=
  if s.help then .ok help
  else
    match verb, args with
    | .help, _ | .completion, _ => .ok help
    | .repl, [] => .ok (repl s.seed)
    | .repl, arg :: _ => .error (.unexpected .repl arg)
    | verb, [path] => .ok (ofPath verb s path)
    | _, args => .error (.argumentCount 1 args.length)

/-- Reads a command line. One that names no command asks for help. -/
def ofArgs (args : List Bytes) : Except UsageError Command :=
  match Verb.word? args with
  | none => do
    let _ ← (Flag.readAll (Verb.sharedFlags ++ [.help]) {} args).mapError .flag
    return help
  | some word =>
    match Verb.ofName? word with
    | none => .error (.unknownCommand word (Verb.similar word))
    | some verb => do
      let (s, args) ← (Flag.readAll verb.flags {} (Verb.withoutWord word args)).mapError .flag
      ofVerb verb s args

end Command

end Eel
