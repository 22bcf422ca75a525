import Eel.Text.Quoted
import Eel.Token.Basic

/-!
Why a text is no script.
-/

namespace Eel

namespace ParseError

inductive Cause where
  /-- A byte that starts no token. -/
  | illegalByte (byte : UInt8)
  /-- A block comment that is never closed. -/
  | openComment
  /-- A token where another one is needed. -/
  | unexpected (token : Token)
  /-- A number past the greatest double. -/
  | numberRange (lexeme : Bytes)
  /-- An assignment to something that cannot be assigned. -/
  | badTarget
deriving DecidableEq, Repr

inductive Wanted where
  | number
  | identifier
  | symbol (s : Symbol)
  | finish
deriving DecidableEq, Repr

def Wanted.text : Wanted → Bytes
  | number => utf8 "number"
  | identifier => utf8 "identifier"
  | symbol s => utf8 "\"" ++ s.text ++ utf8 "\""
  | finish => utf8 "end of input"

/-- The lexeme of a number with a digit on both sides of its point. -/
def fullNumber (lexeme : Bytes) : Bytes :=
  let text := if lexeme.getLast? = some '.'.toUInt8 then lexeme ++ utf8 "0" else lexeme
  if text.head? = some '.'.toUInt8 then utf8 "0" ++ text else text

def Cause.text : Cause → Bytes
  | illegalByte byte => utf8 "unexpected character " ++ Text.quotedPoint byte.toNat
  | openComment => utf8 "unterminated block comment"
  | unexpected token => utf8 "unexpected " ++ token.describe
  | numberRange lexeme =>
    utf8 "invalid number literal " ++ Text.quoted lexeme ++ utf8 ": strconv.ParseFloat: parsing "
      ++ Text.quoted (fullNumber lexeme) ++ utf8 ": value out of range"
  | badTarget =>
    utf8 "invalid assignment target; only variables and megabuf/gmegabuf slots can be assigned"

end ParseError

/-- A text that is no script: what went wrong and where. -/
structure ParseError where
  cause : ParseError.Cause
  start : Position
  stop : Position
  /-- The token as written; empty at the end of the text. -/
  token : Bytes
  wanted : List ParseError.Wanted := []
  /-- Whether the text ended before something was closed. -/
  incomplete : Bool := false
deriving DecidableEq, Repr

namespace ParseError

/-- An error at a token. It is one of incompleteness at the end of the text. -/
def atToken (cause : Cause) (t : Token) (wanted : List Wanted) : ParseError where
  cause
  start := t.start
  stop := t.stop
  token := t.lexeme
  wanted
  incomplete := t.kind == .finish || t.kind == .openComment

def text (e : ParseError) : Bytes :=
  match e.wanted with
  | [] => e.cause.text
  | [w] => e.cause.text ++ utf8 ", expected " ++ w.text
  | ws => e.cause.text ++ utf8 ", expected one of " ++ Bytes.join (utf8 ", ") (ws.map (·.text))

def message (e : ParseError) : Bytes :=
  Bytes.decimalInt e.start.line ++ utf8 ":" ++ Bytes.decimalInt e.start.column ++
    utf8 ": " ++ e.text

end ParseError

end Eel
