import Eel.Yaml.Tag

/-!
The tokens of a YAML text.

Collections of a block start and end by indentation, and tokens stand where the
indentation changes.
-/

namespace Eel.Yaml

namespace Token

inductive Kind where
  | start
  | finish
  | directive (directive : Directive)
  | documentStart
  | documentEnd
  | blockSequence
  | blockMapping
  | blockEnd
  | openBracket
  | closeBracket
  | openBrace
  | closeBrace
  | entry
  | comma
  | key
  | value
  | anchor (name : Bytes)
  | reference (name : Bytes)
  | tag (handle suffix : Bytes)
  | scalar (text : Bytes) (isPlain : Bool)
deriving DecidableEq, Repr

end Token

structure Token where
  kind : Token.Kind
  line : Nat
deriving DecidableEq, Repr

end Eel.Yaml
