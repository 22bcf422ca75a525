import Eel.Yaml.Scalar

/-!
Tags: the names of the kinds of nodes.

A tag is written with a handle, which stands for the first part of its name, and
a suffix. Directives in front of a document say what its handles stand for.
-/

namespace Eel.Yaml

namespace Tag

def null : Bytes := utf8 "!!null"

def bool : Bytes := utf8 "!!bool"

def int : Bytes := utf8 "!!int"

def float : Bytes := utf8 "!!float"

def timestamp : Bytes := utf8 "!!timestamp"

def text : Bytes := utf8 "!!str"

def binary : Bytes := utf8 "!!binary"

def merge : Bytes := utf8 "!!merge"

def sequence : Bytes := utf8 "!!seq"

def mapping : Bytes := utf8 "!!map"

def common : Bytes := utf8 "tag:yaml.org,2002:"

def short (tag : Bytes) : Bytes :=
  match Bytes.dropFront? common tag with
  | some name => utf8 "!!" ++ name
  | none => tag

def commonHandles : List (Bytes × Bytes) := [(utf8 "!", utf8 "!"), (utf8 "!!", common)]

end Tag

/-- Whether a character can stand in the name of an anchor, a handle or a
directive. -/
def isNameChar (c : Char) : Bool := c.isAlphanum || c == '_' || c == '-'

def isTagChar (c : Char) : Bool :=
  isNameChar c || c == '\x27' || ";/?:@&=+$,.!~*()[]".toList.contains c

/-- How many bytes the form of a character has whose first byte is given. -/
def encodedLength? (first : UInt8) : Option Nat :=
  if first < 0x80 then some 1
  else if 0xc0 ≤ first && first < 0xe0 then some 2
  else if 0xe0 ≤ first && first < 0xf0 then some 3
  else if 0xf0 ≤ first && first < 0xf8 then some 4
  else none

def scanOctet (c : Cursor) : Option (UInt8 × Cursor) := do
  guard (c.isAt '%')
  let high ← hexValue? (← c.ahead? 1)
  let low ← hexValue? (← c.ahead? 2)
  return ((high * 16 + low).toUInt8, c.skip 3)

def scanFurtherOctets : Nat → Cursor → Option (Bytes × Cursor)
  | 0, c => some ([], c)
  | count + 1, c => do
    let (octet, c) ← scanOctet c
    guard (0x80 ≤ octet && octet < 0xc0)
    let (rest, c) ← scanFurtherOctets count c
    return (octet :: rest, c)

def scanOctets (c : Cursor) : Option (Bytes × Cursor) := do
  let (first, c) ← scanOctet c
  let (rest, c) ← scanFurtherOctets ((← encodedLength? first) - 1) c
  return (first :: rest, c)

def scanTagText : Nat → Bytes → Cursor → Option (Bytes × Cursor)
  | 0, text, c => some (text, c)
  | fuel + 1, text, c =>
    if c.isAt '%' then do
      let (octets, c) ← scanOctets c
      scanTagText fuel (text ++ octets) c
    else
      match c.head? with
      | some x =>
        if isTagChar x then scanTagText fuel (text ++ textOf [x]) (c.skip 1) else some (text, c)
      | none => some (text, c)

def scanTagPart (c : Cursor) : Option (Bytes × Cursor) := do
  let (text, c) ← scanTagText (c.rest.length + 1) [] c
  guard !text.isEmpty
  return (text, c)

/-- Reads an exclamation mark and a name, and tells whether a second mark ends
them. Only then they are sure to be a handle. -/
def scanHandle (c : Cursor) : Option (Bytes × Bool × Cursor) := do
  guard (c.isAt '!')
  let (name, c) := (c.skip 1).span isNameChar
  return if c.isAt '!' then (textOf (['!'] ++ name ++ ['!']), true, c.skip 1)
    else (textOf ('!' :: name), false, c)

/-- Reads a tag: its handle, which is empty for a name written in full, and its
suffix. -/
def scanTag (c : Cursor) : Option (Bytes × Bytes × Cursor) := do
  let (handle, suffix, c) ←
    if c.ahead? 1 == some '<' then
      let (name, c) ← scanTagPart (c.skip 2)
      guard (c.isAt '>')
      pure (([], name, c.skip 1) : Bytes × Bytes × Cursor)
    else
      let (handle, isHandle, c) ← scanHandle c
      if isHandle then
        let (suffix, c) ← scanTagPart c
        pure (handle, suffix, c)
      else
        let (suffix, c) ← scanTagText (c.rest.length + 1) (handle.drop 1) c
        pure (if suffix.isEmpty then ([], utf8 "!", c) else (utf8 "!", suffix, c))
  guard (c.isGapAt 0)
  return (handle, suffix, c)

inductive Directive where
  | version (major minor : Nat)
  | handle (name expansion : Bytes)
deriving DecidableEq, Repr

def scanVersionNumber (c : Cursor) : Option (Nat × Cursor) := do
  let (digits, c) := c.span Char.isDigit
  guard (!digits.isEmpty && digits.length ≤ 2)
  return (digits.foldl (fun n d => n * 10 + (d.toNat - '0'.toNat)) 0, c)

def scanDirective (c : Cursor) : Option (Directive × Cursor) := do
  let (name, c) := c.span isNameChar
  guard (c.isGapAt 0)
  let (_, c) := c.span isBlank
  if name == "YAML".toList then
    let (major, c) ← scanVersionNumber c
    guard (c.isAt '.')
    let (minor, c) ← scanVersionNumber (c.skip 1)
    return (.version major minor, ← scanLineRest c)
  else if name == "TAG".toList then
    let (handle, isHandle, c) ← scanHandle c
    guard (isHandle || handle == utf8 "!")
    guard (c.head?.any isBlank)
    let (expansion, c) ← scanTagPart (c.span isBlank).2
    guard (c.isGapAt 0)
    return (.handle handle expansion, ← scanLineRest c)
  else none

end Eel.Yaml
