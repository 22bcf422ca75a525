import Eel.Source.Position
import Eel.Text.Utf8

/-!
Tokens of the language.

A text is read as tokens up to its end, or up to the first place where no token
can be read. Both are tokens as well, so that every text is a list of tokens
closed by one of these.
-/

namespace Eel

inductive Symbol where
  | assign
  | plusAssign
  | minusAssign
  | starAssign
  | slashAssign
  | percentAssign
  | equalEqual
  | bangEqual
  | less
  | lessEqual
  | greater
  | greaterEqual
  | andAnd
  | orOr
  | plus
  | minus
  | star
  | slash
  | percent
  | caret
  | ampersand
  | pipe
  | bang
  | question
  | colon
  | comma
  | semicolon
  | openParen
  | closeParen
deriving DecidableEq, Repr

namespace Symbol

def spelling : Symbol → String
  | assign => "="
  | plusAssign => "+="
  | minusAssign => "-="
  | starAssign => "*="
  | slashAssign => "/="
  | percentAssign => "%="
  | equalEqual => "=="
  | bangEqual => "!="
  | less => "<"
  | lessEqual => "<="
  | greater => ">"
  | greaterEqual => ">="
  | andAnd => "&&"
  | orOr => "||"
  | plus => "+"
  | minus => "-"
  | star => "*"
  | slash => "/"
  | percent => "%"
  | caret => "^"
  | ampersand => "&"
  | pipe => "|"
  | bang => "!"
  | question => "?"
  | colon => ":"
  | comma => ","
  | semicolon => ";"
  | openParen => "("
  | closeParen => ")"

def text (s : Symbol) : Bytes := utf8 s.spelling

def ofPair? (a b : Char) : Option Symbol :=
  match a, b with
  | '+', '=' => some plusAssign
  | '-', '=' => some minusAssign
  | '*', '=' => some starAssign
  | '/', '=' => some slashAssign
  | '%', '=' => some percentAssign
  | '=', '=' => some equalEqual
  | '!', '=' => some bangEqual
  | '<', '=' => some lessEqual
  | '>', '=' => some greaterEqual
  | '&', '&' => some andAnd
  | '|', '|' => some orOr
  | _, _ => none

def ofChar? (a : Char) : Option Symbol :=
  match a with
  | '+' => some plus
  | '-' => some minus
  | '*' => some star
  | '/' => some slash
  | '%' => some percent
  | '=' => some assign
  | '!' => some bang
  | '<' => some less
  | '>' => some greater
  | '&' => some ampersand
  | '|' => some pipe
  | '^' => some caret
  | '?' => some question
  | ':' => some colon
  | ',' => some comma
  | ';' => some semicolon
  | '(' => some openParen
  | ')' => some closeParen
  | _ => none

end Symbol

namespace Token

/-- What a token is. The word `if` is no name of a variable, so it is a kind of
its own. -/
inductive Kind where
  | identifier
  | number
  | ifWord
  | symbol (s : Symbol)
  /-- The end of the text. -/
  | finish
  /-- A byte that starts no token. -/
  | illegal (byte : UInt8)
  /-- The start of a block comment that is never closed. -/
  | openComment
deriving DecidableEq, Repr

end Token

structure Token where
  kind : Token.Kind
  lexeme : Bytes
  start : Position
deriving DecidableEq, Repr

namespace Token

/-- The place behind a token. No token reaches over a line end. -/
def stop (t : Token) : Position := t.start.along t.lexeme.length

def span (t : Token) : Span := ⟨t.start, t.stop⟩

def describe (t : Token) : Bytes :=
  match t.kind with
  | .finish => utf8 "end of input"
  | .identifier | .number | .illegal _ | .openComment => utf8 "\"" ++ t.lexeme ++ utf8 "\""
  | .ifWord => utf8 "\"if\""
  | .symbol s => utf8 "\"" ++ s.text ++ utf8 "\""

end Token

end Eel
