import Eel.Yaml.Token

/-!
How the tokens of a text are found.

What stands in front of a colon is known to be a key only when the colon is
reached. The place of every token that could start a key is kept, and the tokens
for the key are put there afterwards. So tokens are read ahead: a token can be
taken when two more are known behind it, and when it is settled whether it
starts a key. Nothing is read further ahead, and a fault there is not seen.
-/

namespace Eel.Yaml

/-- A token that may turn out to start a key. -/
structure KeyStart where
  /-- The number of the token. -/
  number : Nat
  /-- Whether nothing but a key can stand there. -/
  isRequired : Bool
  line : Nat
  column : Nat
  index : Nat
  /-- Whether the token is held back until it is settled. -/
  isHeld : Bool := true
deriving Repr

def KeyStart.reach : Nat := 1024

/-- Whether a place is too far away for the end of a key. A key lies in one
line. -/
def KeyStart.isOutdated (key : KeyStart) (c : Cursor) : Bool :=
  key.line < c.line || key.index + KeyStart.reach < c.index

/-- What is known about keys inside a bracket, or outside all of them. -/
structure Level where
  /-- The number of the last token that could start a key here, at first that of
  the bracket. -/
  number : Nat := 0
  key : Option KeyStart := none
deriving Repr

/-- The level around a bracket that closes. Where nothing in the bracket could
start a key, its own token is not held back any longer. -/
def Level.afterBracket (inner outer : Level) : Level :=
  { outer with
    key := outer.key.map fun key =>
      { key with isHeld := key.isHeld && key.number != inner.number } }

structure Scanner where
  cursor : Cursor
  /-- The tokens that are found and not yet taken. -/
  queue : List Token := []
  /-- How many tokens have been taken. -/
  taken : Nat := 0
  /-- The column of the innermost block collection, or -1. -/
  indent : Int := -1
  /-- The columns of the collections around it. -/
  outer : List Int := []
  /-- The innermost level, and the levels around it. -/
  level : Level := {}
  around : List Level := []
  /-- Whether a key may start here. -/
  allowsKey : Bool := true

namespace Scanner

def isFlow (s : Scanner) : Bool := !s.around.isEmpty

def nextNumber (s : Scanner) : Nat := s.taken + s.queue.length

def push (s : Scanner) (kind : Token.Kind) (line : Nat) : Scanner :=
  { s with queue := s.queue ++ [⟨kind, line + 1⟩] }

def pushHere (s : Scanner) (kind : Token.Kind) : Scanner := s.push kind s.cursor.line

/-- Puts a token in front of the one with a number, or behind all if that one
has been taken. -/
def insert (s : Scanner) (number : Nat) (kind : Token.Kind) (line : Nat) : Scanner :=
  if number < s.taken then s.push kind line
  else
    let place := number - s.taken
    { s with queue := s.queue.take place ++ [⟨kind, line + 1⟩] ++ s.queue.drop place }

def skip (s : Scanner) (n : Nat) : Scanner := { s with cursor := s.cursor.skip n }

def setKey (s : Scanner) (key : Option KeyStart) : Scanner :=
  { s with level := { s.level with key } }

def dropKey (s : Scanner) : Option Scanner :=
  match s.level.key with
  | some key => if key.isRequired then none else some (s.setKey none)
  | none => some s

/-- Keeps the place of the next token if a key may start there. -/
def keepKey (s : Scanner) : Option Scanner :=
  if !s.allowsKey then some s
  else do
    let s ← s.dropKey
    let key : KeyStart := {
      number := s.nextNumber
      isRequired := !s.isFlow && s.indent == s.cursor.column
      line := s.cursor.line
      column := s.cursor.column
      index := s.cursor.index }
    return { s with level := ⟨key.number, some key⟩ }

def endedKey? (s : Scanner) : Option (Option KeyStart) :=
  match s.level.key with
  | none => some none
  | some key =>
    if !key.isOutdated s.cursor then some (some key) else if key.isRequired then none else some none

def heldKeys (s : Scanner) : List KeyStart :=
  ((s.level :: s.around).filterMap (·.key)).filter fun key => key.isHeld && key.number == s.taken

/-- Starts a block collection at a column if it lies deeper than the one around
it. -/
def openBlock (s : Scanner) (column : Nat) (kind : Token.Kind) (number : Nat)
    (line : Nat) : Scanner :=
  if s.isFlow || (column : Int) ≤ s.indent then s
  else { (s.insert number kind line) with outer := s.indent :: s.outer, indent := column }

def openBlockHere (s : Scanner) (kind : Token.Kind) : Scanner :=
  s.openBlock s.cursor.column kind s.nextNumber s.cursor.line

def closeBlocks (s : Scanner) (column : Int) : Scanner :=
  if s.isFlow then s
  else
    let closed := (s.indent :: s.outer).takeWhile (column < ·)
    let open_ := (s.indent :: s.outer).drop closed.length
    let s := closed.foldl (fun s _ => s.pushHere .blockEnd) s
    { s with indent := open_.headD (-1), outer := open_.drop 1 }

def commentReach : Nat := 512

def skipComment (s : Scanner) : Scanner :=
  let (blanks, c) := s.cursor.span isBlank
  if blanks.length < commentReach && c.isAt '#' then { s with cursor := (c.span fun _ => true).2 }
  else s

/-- Where the next comment starts, if only blanks and line breaks lie in front
of it. -/
def nextComment? (c : Cursor) : Nat → Option Cursor
  | 0 => none
  | fuel + 1 =>
    match c.head? with
    | some x =>
      if x == '#' then some c
      else if isBlank x then nextComment? (c.skip 1) fuel
      else if x == '\n' || x == '\r' then nextComment? c.lineBreak.2 fuel
      else none
    | none => none

/-- Moves over a comment and the ones behind it, up to the end of the last one's
line. -/
def skipComments (c : Cursor) : Nat → Cursor
  | 0 => c
  | fuel + 1 =>
    let c := (c.span fun _ => true).2
    match nextComment? c (c.rest.length + 1) with
    | some next => if next.index < c.index + commentReach then skipComments next fuel else c
    | none => c

/-- Moves to the next token. In a block a tab cannot stand where a key may
start. -/
def skipToToken (s : Scanner) : Nat → Scanner
  | 0 => s
  | fuel + 1 =>
    let (_, c) := s.cursor.span fun x => x == ' ' || (x == '\t' && (s.isFlow || !s.allowsKey))
    let c := if c.isAt '#' then skipComments c (c.rest.length + 1) else c
    if c.head?.any isBreak then
      skipToToken { s with cursor := c.lineBreak.2, allowsKey := s.allowsKey || !s.isFlow } fuel
    else { s with cursor := c }

def openFlow (s : Scanner) (kind : Token.Kind) : Option Scanner := do
  let s ← s.keepKey
  return { (s.pushHere kind).skip 1 with
    level := { number := s.nextNumber }, around := s.level :: s.around, allowsKey := true }

def closeFlow (s : Scanner) (kind : Token.Kind) : Option Scanner := do
  let s ← s.dropKey
  let closed : Scanner :=
    match s.around with
    | outer :: around => { s with level := Level.afterBracket s.level outer, around }
    | [] => s
  return { (closed.pushHere kind).skip 1 with allowsKey := false }

def comma (s : Scanner) : Option Scanner := do
  let s ← s.dropKey
  return { (s.pushHere .comma).skip 1 with allowsKey := true }

def entry (s : Scanner) : Option Scanner := do
  guard (s.isFlow || s.allowsKey)
  let s ← (s.openBlockHere .blockSequence).dropKey
  return { (s.pushHere .entry).skip 1 with allowsKey := true }

def explicitKey (s : Scanner) : Option Scanner := do
  guard (s.isFlow || s.allowsKey)
  let s ← (s.openBlockHere .blockMapping).dropKey
  return { (s.pushHere .key).skip 1 with allowsKey := !s.isFlow }

def value (s : Scanner) : Option Scanner := do
  match ← s.endedKey? with
  | some key =>
    let s := s.insert key.number .key key.line
    let s := (s.openBlock key.column .blockMapping key.number key.line).setKey none
    return { (s.pushHere .value).skip 1 with allowsKey := false }
  | none =>
    guard (s.isFlow || s.allowsKey)
    let s := (s.openBlockHere .blockMapping).setKey none
    return { (s.pushHere .value).skip 1 with allowsKey := !s.isFlow }

def documentMarker (s : Scanner) (kind : Token.Kind) : Option Scanner := do
  let s ← (s.closeBlocks (-1)).dropKey
  return { (s.pushHere kind).skip 3 with allowsKey := false }

def directive (s : Scanner) : Option Scanner := do
  let s ← (s.closeBlocks (-1)).dropKey
  let (directive, cursor) ← scanDirective (s.cursor.skip 1)
  return { s.pushHere (.directive directive) with cursor, allowsKey := false }

/-- A name behind a mark, as a token of the kind that the mark tells. -/
def name (s : Scanner) (kind : Bytes → Token.Kind) : Option Scanner := do
  let s ← s.keepKey
  let (name, cursor) := (s.cursor.skip 1).span isNameChar
  guard (!name.isEmpty && (cursor.isGapAt 0 || cursor.head?.any fun c =>
    "?:,]%@".toList.contains c || c == '\x7d' || c == '\x60'))
  return { s.pushHere (kind (textOf name)) with cursor, allowsKey := false }

def tag (s : Scanner) : Option Scanner := do
  let s ← s.keepKey
  let (handle, suffix, cursor) ← scanTag s.cursor
  return { s.pushHere (.tag handle suffix) with cursor, allowsKey := false }

def block (s : Scanner) (isLiteral : Bool) : Option Scanner := do
  let s ← s.dropKey
  let (text, cursor) ← scanBlock isLiteral s.indent (s.cursor.skip 1)
  return { s.pushHere (.scalar (textOf text) false) with cursor, allowsKey := true }

def quoted (s : Scanner) (isSingle : Bool) : Option Scanner := do
  let s ← s.keepKey
  let (text, cursor) ← scanQuoted isSingle (s.cursor.rest.length + 1) [] (s.cursor.skip 1)
  return { s.pushHere (.scalar (textOf text) false) with cursor, allowsKey := false }

def plain (s : Scanner) : Option Scanner := do
  let s ← s.keepKey
  let (text, isBroken, cursor) ←
    scanPlain s.isFlow (s.indent + 1).toNat (s.cursor.rest.length + 1) [] {} s.cursor
  let s := { s.pushHere (.scalar (textOf text) true) with cursor, allowsKey := isBroken }
  return if isBroken then s else s.skipComment

/-- Whether a plain scalar can start with a character that has a meaning of its
own. -/
def startsPlain (s : Scanner) (c : Char) : Bool :=
  if c == '-' then !(s.cursor.ahead? 1).any isBlank
  else if c == '?' || c == ':' then !s.isFlow && !s.cursor.isGapAt 1
  else !isSpace c &&
    !(",[]#&*!|>%@".toList.contains c || c == '\x7b' || c == '\x7d' || c == '\x27' || c == '\x22'
    || c == '\x60')

/-- Ends all that is open at the end of the text. The end counts as the start of
a line. -/
def finish (s : Scanner) : Option Scanner := do
  let c := s.cursor
  let c := if c.column = 0 then c else { c with column := 0, line := c.line + 1 }
  let s ← (Scanner.closeBlocks { s with cursor := c } (-1)).dropKey
  return { s.pushHere .finish with allowsKey := false }

/-- Reads the token that starts here. A comment in the line behind it goes with
it, unless the token has ended its line already, or is a dash. -/
def fetchHere (s : Scanner) : Option Scanner :=
  match s.cursor.head? with
  | none => s.finish
  | some c =>
    if s.cursor.column = 0 && c == '%' then s.directive
    else if s.cursor.isMarker '-' then s.documentMarker .documentStart
    else if s.cursor.isMarker '.' then s.documentMarker .documentEnd
    else if c == '[' then (s.openFlow .openBracket).map skipComment
    else if c == '\x7b' then (s.openFlow .openBrace).map skipComment
    else if c == ']' then (s.closeFlow .closeBracket).map skipComment
    else if c == '\x7d' then (s.closeFlow .closeBrace).map skipComment
    else if c == ',' then s.comma.map skipComment
    else if c == '-' && s.cursor.isGapAt 1 then s.entry
    else if c == '?' && (s.isFlow || s.cursor.isGapAt 1) then s.explicitKey.map skipComment
    else if c == ':' && (s.isFlow || s.cursor.isGapAt 1) then s.value.map skipComment
    else if c == '*' then (s.name .reference).map skipComment
    else if c == '&' then (s.name .anchor).map skipComment
    else if c == '!' then s.tag.map skipComment
    else if c == '|' && !s.isFlow then s.block true
    else if c == '>' && !s.isFlow then s.block false
    else if c == '\x27' then (s.quoted true).map skipComment
    else if c == '\x22' then (s.quoted false).map skipComment
    else if s.startsPlain c then s.plain
    else none

def fetch (s : Scanner) : Option Scanner :=
  let s := s.skipToToken (s.cursor.rest.length + 1)
  (s.closeBlocks s.cursor.column).fetchHere

def prepareWith : Nat → Scanner → Option Scanner
  | 0, _ => none
  | fuel + 1, s =>
    if s.queue.length < 3 then s.fetch.bind (prepareWith fuel)
    else
      match s.heldKeys with
      | [] => some s
      | key :: _ =>
        if !key.isOutdated s.cursor then s.fetch.bind (prepareWith fuel)
        else if key.isRequired then none
        else some s

/-- Reads tokens until the first can be taken. Each takes a character, but the
end can be read more than once. -/
def prepare (s : Scanner) : Option Scanner := prepareWith (s.cursor.rest.length + 4) s

def take (s : Scanner) : Scanner := { s with queue := s.queue.drop 1, taken := s.taken + 1 }

/-- The start of a text. A mark in front of it does not count. -/
def ofChars (cs : List Char) : Scanner :=
  let cursor : Cursor := { rest := if cs.head? == some byteOrderMark then cs.drop 1 else cs }
  { cursor, queue := [⟨.start, 1⟩] }

end Scanner

end Eel.Yaml
