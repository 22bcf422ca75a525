import Eel.Command.Numeral
import Eel.Command.Record
import Eel.Text.Quoted

/-!
Flags: settings that are given by name on a command line.

A flag is written `--name value` or `--name=value`, and with its letter
`-l value`, `-l=value` or `-lvalue`. A switch takes a value only behind an equals
sign. Two dashes alone end the flags; all that is no flag is an argument.
-/

namespace Eel

inductive Flag where
  | help
  | logToStderr
  | verbose
  | parallel
  | noOptimize
  | maxRounds
  | output
  | call
  | frames
  | seed
  | optimize
deriving DecidableEq, Repr

namespace Flag

def name : Flag → Bytes
  | help => utf8 "help"
  | logToStderr => utf8 "logtostderr"
  | verbose => utf8 "verbose"
  | parallel => utf8 "parallel"
  | noOptimize => utf8 "no-optimize"
  | maxRounds => utf8 "max-rounds"
  | output => utf8 "output"
  | call => utf8 "call"
  | frames => utf8 "frames"
  | seed => utf8 "seed"
  | optimize => utf8 "optimize"

def letter? : Flag → Option UInt8
  | help => some 'h'.toUInt8
  | verbose => some 'v'.toUInt8
  | output => some 'o'.toUInt8
  | _ => none

def isSwitch : Flag → Bool
  | help | logToStderr | parallel | noOptimize | optimize => true
  | _ => false

def shown (flag : Flag) : Bytes :=
  match flag.letter? with
  | some letter => utf8 "-" ++ [letter] ++ utf8 ", --" ++ flag.name
  | none => utf8 "--" ++ flag.name

end Flag

structure Settings where
  help : Bool := false
  logToStderr : Bool := false
  verbose : Int := 0
  parallel : Bool := false
  noOptimize : Bool := false
  maxRounds : Int := 0
  output : Bytes := []
  calls : List Bytes := []
  frames : Int := 1
  seed : UInt64 := 0
  optimize : Bool := false
deriving DecidableEq, Repr

inductive FlagError where
  | malformed (arg : Bytes)
  | unknown (name : Bytes)
  | unknownLetter (letter : UInt8) (letters : Bytes)
  | noValue (arg : Bytes)
  | noLetterValue (letter : UInt8) (letters : Bytes)
  | invalid (flag : Flag) (value reason : Bytes)
deriving DecidableEq, Repr

def FlagError.message : FlagError → Bytes
  | malformed arg => utf8 "bad flag syntax: " ++ arg
  | unknown name => utf8 "unknown flag: --" ++ name
  | unknownLetter letter letters =>
    utf8 "unknown shorthand flag: " ++ Text.quotedPoint letter.toNat ++ utf8 " in -" ++ letters
  | noValue arg => utf8 "flag needs an argument: " ++ arg
  | noLetterValue letter letters =>
    utf8 "flag needs an argument: " ++ Text.quotedPoint letter.toNat ++ utf8 " in -" ++ letters
  | invalid flag value reason =>
    utf8 "invalid argument " ++ Text.quoted value ++ utf8 " for " ++ Text.quoted flag.shown ++
      utf8 " flag: " ++ reason

namespace Settings

def numeralReason (reader value : Bytes) (fault : Numeral.Fault) : Bytes :=
  utf8 "strconv." ++ reader ++ utf8 ": parsing " ++ Text.quoted value ++ utf8 ": " ++ fault.text

/-- Sets a flag, or tells why the value does not fit. The calls of several flags
add up; of the others the last one counts. -/
def set (s : Settings) (flag : Flag) (value : Bytes) : Except Bytes Settings :=
  let switch : Except Bytes Bool :=
    (Numeral.switch value).mapError (numeralReason (utf8 "ParseBool") value)
  let integer : Except Bytes Int :=
    (Numeral.integer value).mapError (numeralReason (utf8 "ParseInt") value)
  let natural : Except Bytes UInt64 :=
    (Numeral.natural value).mapError (numeralReason (utf8 "ParseUint") value)
  match flag with
  | .help => return { s with help := ← switch }
  | .logToStderr => return { s with logToStderr := ← switch }
  | .verbose => return { s with verbose := ← integer }
  | .parallel => return { s with parallel := ← switch }
  | .noOptimize => return { s with noOptimize := ← switch }
  | .maxRounds => return { s with maxRounds := ← integer }
  | .output => return { s with output := value }
  | .call => return { s with calls := s.calls ++ (← (Record.fields value).mapError (·.text)) }
  | .frames => return { s with frames := ← integer }
  | .seed => return { s with seed := ← natural }
  | .optimize => return { s with optimize := ← switch }

def give (s : Settings) (flag : Flag) (value : Bytes) : Except FlagError Settings :=
  (s.set flag value).mapError (.invalid flag value)

end Settings

namespace Flag

def dash : UInt8 := '-'.toUInt8

def equals : UInt8 := '='.toUInt8

def on : Bytes := utf8 "true"

/-- Reads a flag by its name. Tells also whether it took the next argument as
its value. -/
def readNamed (flags : List Flag) (s : Settings) (arg : Bytes) (next? : Option Bytes) :
    Except FlagError (Settings × Bool) :=
  let text := arg.drop 2
  if text.head?.all fun c => c == dash || c == equals then .error (.malformed arg)
  else
    let (name, value?) := match Bytes.cut? [equals] text with
      | some (name, value) => (name, some value)
      | none => (text, none)
    match flags.find? (·.name == name) with
    | none => .error (.unknown name)
    | some flag =>
      match value?, flag.isSwitch, next? with
      | some value, _, _ => return (← s.give flag value, false)
      | none, true, _ => return (← s.give flag on, false)
      | none, false, some value => return (← s.give flag value, true)
      | none, false, none => .error (.noValue arg)

/-- Reads flags by their letters. Tells also whether the last one took the next
argument as its value. -/
def readLetters (flags : List Flag) (next? : Option Bytes) :
    Settings → Bytes → Except FlagError (Settings × Bool)
  | s, [] => return (s, false)
  | s, c :: rest =>
    if (Bytes.dropFront? (utf8 "test.") (c :: rest)).isSome then return (s, false)
    else
      match flags.find? (·.letter? == some c) with
      | none => .error (.unknownLetter c (c :: rest))
      | some flag =>
        if rest.head? == some equals && 1 < rest.length then
          return (← s.give flag (rest.drop 1), false)
        else if flag.isSwitch then do readLetters flags next? (← s.give flag on) rest
        else if !rest.isEmpty then return (← s.give flag rest, false)
        else
          match next? with
          | some value => return (← s.give flag value, true)
          | none => .error (.noLetterValue c [c])

/-- Whether an argument is written like a flag. A dash alone is not. -/
def isFlag (arg : Bytes) : Bool := arg.head? == some dash && 1 < arg.length

def endMark : Bytes := [dash, dash]

def readOne (flags : List Flag) (s : Settings) (arg : Bytes) (next? : Option Bytes) :
    Except FlagError (Settings × Bool) :=
  if (arg.drop 1).head? == some dash then readNamed flags s arg next?
  else readLetters flags next? s (arg.drop 1)

/-- Reads a command line: the settings, and the arguments in their order. -/
def readAll (flags : List Flag) (s : Settings) :
    List Bytes → Except FlagError (Settings × List Bytes)
  | [] => return (s, [])
  | arg :: rest =>
    if arg == endMark then return (s, rest)
    else if !isFlag arg then do
      let (s, args) ← readAll flags s rest
      return (s, arg :: args)
    else do
      let (s, tookNext) ← readOne flags s arg rest.head?
      if !tookNext then readAll flags s rest
      else
        match rest with
        | _ :: more => readAll flags s more
        | [] => return (s, [])

end Flag

end Eel
