import Eel.Yaml.Cursor

/-!
The text of scalars: plain ones, quoted ones, and blocks of lines.

Blanks around a line break count as nothing, and a single break as a blank;
further breaks stay. Blocks keep their lines, or fold them in the same way.
-/

namespace Eel.Yaml

/-- What stands between two runs of characters: blanks of one line, or a first
line break and further ones. -/
structure Gap where
  blanks : List Char := []
  isBroken : Bool := false
  first : List Char := []
  further : List Char := []

namespace Gap

def folded (g : Gap) : List Char :=
  if !g.isBroken then g.blanks
  else if g.first == ['\n'] then if g.further.isEmpty then [' '] else g.further
  else g.first ++ g.further

/-- Reads the rest of a gap. A tab in front of the given column of a further
line is not allowed. -/
def scan (column : Nat) : Nat → Gap → Cursor → Option (Gap × Cursor)
  | 0, g, c => some (g, c)
  | fuel + 1, g, c =>
    match c.head? with
    | none => some (g, c)
    | some x =>
      if isBlank x then
        if g.isBroken then
          if x == '\t' && c.column < column then none else scan column fuel g (c.skip 1)
        else scan column fuel { g with blanks := g.blanks ++ [x] } (c.skip 1)
      else if isBreak x then
        let (text, c) := c.lineBreak
        if g.isBroken then scan column fuel { g with further := g.further ++ text } c
        else scan column fuel { isBroken := true, first := text } c
      else some (g, c)

end Gap

/-- The characters of a plain scalar up to a gap or to a mark that ends it.
Inside brackets there are more of those. -/
def plainRun (isFlow : Bool) : List Char → List Char
  | [] => []
  | x :: rest =>
    if isSpace x then []
    else if x == ':' && rest.head?.all isSpace then []
    else if isFlow && (x == ',' || x == '?' || x == '[' || x == ']' || x == '\x7b' || x == '\x7d')
    then []
    else x :: plainRun isFlow rest

/-- Reads a plain scalar whose further lines start at the given column or behind
it. Tells whether a line break was read behind the text. -/
def scanPlain (isFlow : Bool) (column : Nat) :
    Nat → List Char → Gap → Cursor → Option (List Char × Bool × Cursor)
  | 0, text, g, c => some (text, g.isBroken, c)
  | fuel + 1, text, g, c =>
    if c.isDocumentMarker || c.isAt '#' then some (text, g.isBroken, c)
    else
      let run := plainRun isFlow c.rest
      let (text, g) := if run.isEmpty then (text, g) else (text ++ g.folded ++ run, {})
      let c := c.skip run.length
      if !c.head?.any isSpace then some (text, g.isBroken, c)
      else
        match g.scan column (c.rest.length + 1) c with
        | none => none
        | some (g, c) =>
          if !isFlow && c.column < column then some (text, g.isBroken, c)
          else scanPlain isFlow column fuel text g c

def hexValue? (c : Char) : Option Nat :=
  if '0' ≤ c && c ≤ '9' then some (c.toNat - '0'.toNat)
  else if 'a' ≤ c && c ≤ 'f' then some (c.toNat - 'a'.toNat + 10)
  else if 'A' ≤ c && c ≤ 'F' then some (c.toNat - 'A'.toNat + 10)
  else none

def hexEscape? (digits : List Char) (count : Nat) : Option Char := do
  guard (digits.length = count)
  let n ← digits.foldlM (fun n c => return n * 16 + (← hexValue? c)) 0
  if n.isValidChar then some (Char.ofNat n) else none

/-- The character that an escape stands for, and how many characters follow its
backslash. -/
def escape? (rest : List Char) : Option (Char × Nat) := do
  match rest with
  | [] => none
  | c :: digits =>
    match c with
    | '0' => some ('\x00', 1)
    | 'a' => some ('\x07', 1)
    | 'b' => some ('\x08', 1)
    | 't' | '\t' => some ('\t', 1)
    | 'n' => some ('\n', 1)
    | 'v' => some ('\x0b', 1)
    | 'f' => some ('\x0c', 1)
    | 'r' => some ('\r', 1)
    | 'e' => some ('\x1b', 1)
    | ' ' | '\x22' | '\x27' | '\\' => some (c, 1)
    | 'N' => some ('\u0085', 1)
    | '_' => some ('\u00a0', 1)
    | 'L' => some ('\u2028', 1)
    | 'P' => some ('\u2029', 1)
    | 'x' => return (← hexEscape? (digits.take 2) 2, 3)
    | 'u' => return (← hexEscape? (digits.take 4) 4, 5)
    | 'U' => return (← hexEscape? (digits.take 8) 8, 9)
    | _ => none

/-- Reads a quoted scalar behind its first quote. A single quote is doubled
inside, a double one escaped. -/
def scanQuoted (isSingle : Bool) : Nat → List Char → Cursor → Option (List Char × Cursor)
  | 0, _, _ => none
  | fuel + 1, text, c =>
    if c.isDocumentMarker then none
    else
      match c.rest with
      | [] => none
      | x :: rest =>
        let gap (g : Gap) (c : Cursor) : Option (List Char × Cursor) :=
          match g.scan 0 (c.rest.length + 1) c with
          | none => none
          | some (g, c) => scanQuoted isSingle fuel (text ++ g.folded) c
        if isSpace x then gap {} c
        else if isSingle && x == '\x27' then
          if rest.head? == some '\x27' then scanQuoted isSingle fuel (text ++ ['\x27']) (c.skip 2)
          else some (text, c.skip 1)
        else if !isSingle && x == '\x22' then some (text, c.skip 1)
        else if !isSingle && x == '\\' then
          if rest.head?.any isBreak then gap { isBroken := true } (c.skip 1).lineBreak.2
          else
            match escape? rest with
            | some (y, length) => scanQuoted isSingle fuel (text ++ [y]) (c.skip (length + 1))
            | none => none
        else scanQuoted isSingle fuel (text ++ [x]) (c.skip 1)

def scanLineRest (c : Cursor) : Option Cursor := do
  let (_, c) := c.span isBlank
  let c := if c.isAt '#' then (c.span fun _ => true).2 else c
  guard c.isLineEnd
  return if c.rest.isEmpty then c else c.lineBreak.2

/-- What happens to the line breaks at the end of a block: one stays, none, or
all. -/
inductive Chomping where
  | clip
  | strip
  | keep
deriving DecidableEq, Repr

/-- Indentation of so many columns; zero stands for that of the first line. -/
structure BlockHeader where
  chomping : Chomping := .clip
  indent : Nat := 0

/-- Reads the marks behind the one that starts a block, in either order. -/
def scanBlockHeader (c : Cursor) : Option (BlockHeader × Cursor) := do
  let chomping? (c : Cursor) : Option Chomping :=
    if c.isAt '+' then some .keep else if c.isAt '-' then some .strip else none
  let indent? (c : Cursor) : Option (Option Nat) :=
    match c.head? with
    | some x =>
      if x == '0' then none else if x.isDigit then some (some (x.toNat - '0'.toNat)) else some none
    | none => some none
  match chomping? c with
  | some chomping =>
    let c := c.skip 1
    match ← indent? c with
    | some indent => return (⟨chomping, indent⟩, c.skip 1)
    | none => return (⟨chomping, 0⟩, c)
  | none =>
    match ← indent? c with
    | some indent =>
      let c := c.skip 1
      match chomping? c with
      | some chomping => return (⟨chomping, indent⟩, c.skip 1)
      | none => return (⟨.clip, indent⟩, c)
    | none => return ({}, c)

/-- Reads indentation and empty lines in front of a line of a block. Without a
given indentation it runs to the first character that is no blank. Gives the
line breaks and the deepest column. -/
def scanBlockBreaks (indent : Nat) :
    Nat → Nat → List Char → Cursor → Option (Nat × List Char × Cursor)
  | 0, deepest, breaks, c => some (deepest, breaks, c)
  | fuel + 1, deepest, breaks, c =>
    let blanks := c.rest.takeWhile (· == ' ')
    let c := c.skip (if indent = 0 then blanks.length else min blanks.length (indent - c.column))
    let deepest := max deepest c.column
    if (indent = 0 || c.column < indent) && c.isAt '\t' then none
    else if !c.head?.any isBreak then some (deepest, breaks, c)
    else
      let (text, c) := c.lineBreak
      scanBlockBreaks indent fuel deepest (breaks ++ text) c

/-- Reads the lines of a block at an indentation. The break behind the last line
read, and the ones behind it, are not yet part of the text. -/
def scanBlockLines (isLiteral : Bool) (indent : Nat) :
    Nat → List Char → List Char → List Char → Bool → Cursor →
    Option (List Char × List Char × List Char × Cursor)
  | 0, text, first, further, _, c => some (text, first, further, c)
  | fuel + 1, text, first, further, wasIndented, c =>
    if c.column ≠ indent || c.rest.isEmpty then some (text, first, further, c)
    else
      let isIndented := c.head?.any isBlank
      let joint :=
        if !isLiteral && !wasIndented && !isIndented && first == ['\n'] then
          if further.isEmpty then [' '] else []
        else first
      let (line, c) := c.span fun _ => true
      let text := text ++ joint ++ further ++ line
      let (first, c) := if c.rest.isEmpty then ([], c) else c.lineBreak
      match scanBlockBreaks indent (c.rest.length + 1) 0 [] c with
      | none => none
      | some (_, further, c) => scanBlockLines isLiteral indent fuel text first further isIndented c

/-- Reads a block of lines behind the mark that starts it. The block lies inside
a collection at `outer`, which is -1 outside all. -/
def scanBlock (isLiteral : Bool) (outer : Int) (c : Cursor) : Option (List Char × Cursor) := do
  let (header, c) ← scanBlockHeader c
  let c ← scanLineRest c
  let given := if header.indent = 0 then 0 else (max outer 0).toNat + header.indent
  let (deepest, breaks, c) ← scanBlockBreaks given (c.rest.length + 1) 0 [] c
  let indent := if given ≠ 0 then given else max (max deepest (outer + 1).toNat) 1
  let (text, first, further, c) ← scanBlockLines isLiteral indent
      (c.rest.length + 1) [] [] breaks false c
  let text := if header.chomping = .strip then text else text ++ first
  return (if header.chomping = .keep then text ++ further else text, c)

end Eel.Yaml
