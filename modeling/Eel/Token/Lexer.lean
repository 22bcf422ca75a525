import Eel.Source.Cleaned
import Eel.Token.Basic

/-!
The tokens of a text.

Blanks and comments separate tokens. A name takes every letter, digit,
underscore and point that follows its first character, a number takes digits,
one point and further digits, and of the symbols the longer one is read.
-/

namespace Eel.Token

def isSpace (c : UInt8) : Bool := c == 0x20 || (0x09 ≤ c && c ≤ 0x0d)

def startsName (c : UInt8) : Bool := Bytes.isLetter c || c == '_'.toUInt8

def continuesName (c : UInt8) : Bool :=
  Bytes.isLetter c || Bytes.isDigit c || c == '_'.toUInt8 || c == '.'.toUInt8

def isIfWord (s : Bytes) : Bool := s.map Bytes.toLower == utf8 "if"

def isName (s : Bytes) : Bool :=
  match s with
  | [] => false
  | c :: rest => startsName c && !isIfWord s && rest.all continuesName

/-- Where the next token starts and the text from there on, or the place of a
block comment that is not closed. -/
inductive Gap where
  | token (at_ : Position) (rest : Bytes)
  | openComment (start : Position)
deriving DecidableEq, Repr

/-- Passes over blanks and comments. `opened` is where the comment that is being
passed over starts. -/
def skipGap : Cleaned.Mode → Position → Position → Bytes → Gap
  | .code, _, p, Bytes.slash :: Bytes.slash :: s => skipGap .lineComment p (p.along 2) s
  | .code, _, p, Bytes.slash :: Bytes.star :: s => skipGap .blockComment p (p.along 2) s
  | .code, opened, p, c :: s =>
    if isSpace c then skipGap .code opened (p.past c) s else .token p (c :: s)
  | .lineComment, opened, p, c :: s =>
    skipGap (if c = Bytes.lineFeed then .code else .lineComment) opened (p.past c) s
  | .blockComment, opened, p, Bytes.star :: Bytes.slash :: s => skipGap .code opened (p.along 2) s
  | .blockComment, opened, p, c :: s => skipGap .blockComment opened (p.past c) s
  | .blockComment, opened, _, [] => .openComment opened
  | _, _, p, [] => .token p []

/-- The digits, the point and the digits that a number starts with. -/
def numberText (s : Bytes) : Bytes :=
  let whole := s.takeWhile Bytes.isDigit
  match s.drop whole.length with
  | c :: rest => if c = '.'.toUInt8 then whole ++ c :: rest.takeWhile Bytes.isDigit else whole
  | [] => whole

/-- Whether a number starts here: with a digit, or with a point before one. -/
def startsNumber : Bytes → Bool
  | c :: d :: _ => Bytes.isDigit c || (c == '.'.toUInt8 && Bytes.isDigit d)
  | [c] => Bytes.isDigit c
  | [] => false

/-- Kind and text of the token that a text without blanks in front starts
with. -/
def classify : Bytes → Kind × Bytes
  | [] => (.finish, [])
  | c :: s =>
    if startsName c then
      let name := (c :: s).takeWhile continuesName
      (if isIfWord name then .ifWord else .identifier, name)
    else if startsNumber (c :: s) then (.number, numberText (c :: s))
    else
      let pair : Option (Symbol × Bytes) := do
        let d ← s.head?
        return (← Symbol.ofPair? (Char.ofUInt8 c) (Char.ofUInt8 d), [c, d])
      match pair with
      | some (symbol, text) => (.symbol symbol, text)
      | none =>
        match Symbol.ofChar? (Char.ofUInt8 c) with
        | some symbol => (.symbol symbol, [c])
        | none => (.illegal c, Text.encodePoint c.toNat)

def Kind.isLast : Kind → Bool
  | .finish | .illegal _ | .openComment => true
  | _ => false

def listWithin : Nat → Position → Bytes → List Token
  | 0, p, _ => [⟨.finish, [], p⟩]
  | fuel + 1, p, s =>
    match skipGap .code p p s with
    | .openComment start => [⟨.openComment, utf8 "/*", start⟩]
    | .token p s =>
      let (kind, lexeme) := classify s
      let t : Token := ⟨kind, lexeme, p⟩
      if kind.isLast then [t] else t :: listWithin fuel t.stop (s.drop lexeme.length)

/-- The tokens of a text, the last of them being its end or what cannot be read.
A text of `n` bytes has no more than `n` other tokens. -/
def list (s : Bytes) : List Token := listWithin (s.length + 1) .start s

end Eel.Token
