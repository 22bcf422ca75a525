import Eel.Text.Quoted
import Eel.Wasm.Sections

/-!
What can go wrong with an engine.
-/

namespace Eel

inductive EngineError where
  | noHostFunction (name : Bytes)
  | unsupportedReplacement (name type : Bytes)
  | replacementArity (name : Bytes) (wanted got : Nat)
  | reservedPool (pool : Bytes)
  | repeatedPool (pool : Bytes)
  | repeatedVariable (pool variable_ : Bytes)
  /-- A variable's name is no text. -/
  | poolNames (pool : Bytes)
  | unknownPool (pool : Bytes)
  | noVariable (pool variable_ : Bytes)
  | exports (error : Wasm.ReadError)
  /-- Bytes that are no valid module. -/
  | invalidModule
  /-- A module whose imports are missing, or whose name is in use. -/
  | instantiation
  | noFunction (name : Bytes)
  /-- A call that did not end well. -/
  | call (name : Bytes)
deriving DecidableEq, Repr

def EngineError.message : EngineError → Bytes
  | noHostFunction name => utf8 "no shim named " ++ Text.quoted name
  | unsupportedReplacement name type =>
    utf8 "shim " ++ Text.quoted name ++ utf8 ": unsupported implementation type " ++ type
  | replacementArity name wanted got =>
    utf8 "shim " ++ Text.quoted name ++ utf8 " takes " ++ Bytes.decimal wanted
      ++ utf8 " arguments, replacement takes " ++ Bytes.decimal got
  | reservedPool pool => utf8 "pool name " ++ Text.quoted pool ++ utf8 " is reserved"
  | repeatedPool pool => utf8 "pool " ++ Text.quoted pool ++ utf8 " is declared more than once"
  | repeatedVariable pool variable_ =>
    utf8 "pool " ++ Text.quoted pool ++ utf8 " declares " ++ Text.quoted variable_ ++
      utf8 " more than once"
  | poolNames name => utf8 "instantiate pool " ++ Text.quoted name
  | unknownPool pool => utf8 "unknown pool " ++ Text.quoted pool
  | noVariable pool variable_ =>
    utf8 "pool " ++ Text.quoted pool ++ utf8 " has no variable " ++ Text.quoted variable_
  | exports error => utf8 "decode exports: " ++ error.message
  | invalidModule => utf8 "compile module"
  | instantiation => utf8 "instantiate module"
  | noFunction name => utf8 "module exports no function " ++ Text.quoted name
  | call name => utf8 "call " ++ Text.quoted name

end Eel
