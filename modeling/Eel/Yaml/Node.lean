import Eel.Yaml.Resolve
import Eel.Yaml.Scanner

/-!
The nodes of a YAML document, read from its tokens.

Only the first document of a text is read. What lies behind it does not count,
but a fault in its first tokens is seen.
-/

namespace Eel.Yaml

/-- A node with its tag and the line it starts in. A reference stands for a node
with a number, and may lie inside of it; its own name is kept. -/
inductive Node where
  | scalar (tag text : Bytes) (line : Nat)
  | sequence (tag : Bytes) (items : List Node) (line : Nat)
  | mapping (tag : Bytes) (entries : List (Node × Node)) (line : Nat)
  | reference (name : Bytes) (target : Nat) (line : Nat)
deriving Inhabited

def Node.line : Node → Nat
  | scalar _ _ line | sequence _ _ line | mapping _ _ line | reference _ _ line => line

/-- A document: its node, the numbered nodes that references stand for, and a
bound on the number of all nodes. -/
structure Document where
  root : Node
  anchored : List (Nat × Node)
  size : Nat
deriving Inhabited

def Document.target? (d : Document) : Node → Option Node
  | .reference _ target _ => d.anchored.lookup target
  | node => some node

structure NodeProgress where
  scanner : Scanner
  /-- What the handles of tags stand for. -/
  handles : List (Bytes × Bytes) := []
  /-- The names of anchors, the latest first, with the numbers of their
  nodes. -/
  names : List (Bytes × Nat) := []
  /-- The nodes with anchors that have been read to their end. -/
  anchored : List (Nat × Node) := []

abbrev NodeReader := StateT NodeProgress Option

namespace NodeReader

def peek : NodeReader Token := do
  let progress ← get
  let scanner ← progress.scanner.prepare
  set { progress with scanner }
  scanner.queue.head?

def peekKind : NodeReader Token.Kind := return (← peek).kind

def skip : NodeReader Unit := do
  let _ ← peek
  modify fun progress => { progress with scanner := progress.scanner.take }

def accept (kind : Token.Kind) : NodeReader Bool := do
  if (← peekKind) == kind then
    skip
    return true
  else return false

def expect (kind : Token.Kind) : NodeReader Nat := do
  let next ← peek
  guard (next.kind == kind)
  skip
  return next.line

def emptyNode (line : Nat) : Node := .scalar Tag.null [] line

/-- What stands in front of the next token where nothing is written. -/
def emptyHere : NodeReader Node := return emptyNode (← peek).line

def declare (name : Bytes) : NodeReader Nat := do
  let number := (← get).names.length
  modify fun progress => { progress with names := (name, number) :: progress.names }
  return number

def keep (number : Nat) (node : Node) : NodeReader Unit :=
  modify fun progress => { progress with anchored := (number, node) :: progress.anchored }

end NodeReader

open NodeReader

/-- Where a node stands: in a block, in a block whose sequences need no
indentation, or in brackets. -/
inductive Place where
  | block
  | mappingBlock
  | flow
deriving DecidableEq, Repr

/-- A node, or the empty node of a line in front of some tokens. -/
def nodeOrEmpty (node : Place → NodeReader Node) (place : Place) (ends : List Token.Kind)
    (line : Nat) : NodeReader Node := do
  if ends.contains (← peekKind) then return emptyNode line else node place

def blockItems (node : Place → NodeReader Node) : Nat → NodeReader (List Node)
  | 0 => failure
  | fuel + 1 => do
    if ← accept .blockEnd then return []
    let line ← expect .entry
    let item ← nodeOrEmpty node .block [.entry, .blockEnd] line
    return item :: (← blockItems node fuel)

/-- The entries of a sequence that lies as deep as the mapping around it. -/
def plainItems (node : Place → NodeReader Node) : Nat → NodeReader (List Node)
  | 0 => failure
  | fuel + 1 => do
    if (← peekKind) != .entry then return []
    let line ← expect .entry
    let item ← nodeOrEmpty node .block [.entry, .key, .value, .blockEnd] line
    return item :: (← plainItems node fuel)

def blockEntries (node : Place → NodeReader Node) : Nat → NodeReader (List (Node × Node))
  | 0 => failure
  | fuel + 1 => do
    if ← accept .blockEnd then return []
    let line ← expect .key
    let key ← nodeOrEmpty node .mappingBlock [.key, .value, .blockEnd] line
    let next ← peek
    let value ←
      if ← accept .value then nodeOrEmpty node .mappingBlock [.key, .value, .blockEnd] next.line
      else pure (emptyNode next.line)
    return (key, value) :: (← blockEntries node fuel)

def flowNode (node : Place → NodeReader Node) (ends : List Token.Kind) : NodeReader Node := do
  nodeOrEmpty node .flow ends (← peek).line

def flowValue (node : Place → NodeReader Node) (close : Token.Kind) : NodeReader Node := do
  if ← accept .value then flowNode node [.comma, close] else emptyHere

/-- The key of a mapping that is an item of a sequence. The token behind an
empty key counts as part of it. -/
def itemKey (node : Place → NodeReader Node) : NodeReader Node := do
  let next ← peek
  if [.value, .comma, .closeBracket].contains next.kind then
    skip
    return emptyNode next.line
  else node .flow

/-- The items of a sequence in brackets up to the closing one. A key in it is a
mapping of its own. -/
def flowItems (node : Place → NodeReader Node) : Nat → Bool → NodeReader (List Node)
  | 0, _ => failure
  | fuel + 1, isFirst => do
    if ← accept .closeBracket then return []
    if !isFirst then
      let _ ← expect .comma
      if ← accept .closeBracket then return []
    let next ← peek
    let item ←
      if ← accept .key then
        let key ← itemKey node
        pure (.mapping Tag.mapping [(key, ← flowValue node .closeBracket)] next.line)
      else node .flow
    return item :: (← flowItems node fuel false)

def flowEntries (node : Place → NodeReader Node) : Nat → Bool → NodeReader (List (Node × Node))
  | 0, _ => failure
  | fuel + 1, isFirst => do
    if ← accept .closeBrace then return []
    if !isFirst then
      let _ ← expect .comma
      if ← accept .closeBrace then return []
    let item ←
      if ← accept .key then
        let key ← flowNode node [.value, .comma, .closeBrace]
        pure (key, ← flowValue node .closeBrace)
      else
        let key ← node .flow
        pure (key, ← emptyHere)
    return item :: (← flowEntries node fuel false)

/-- What stands in front of the content of a node. -/
structure Properties where
  anchor : Option Bytes := none
  tag : Option Bytes := none

def acceptAnchor : NodeReader (Option Bytes) := do
  match ← peekKind with
  | .anchor name =>
    skip
    return some name
  | _ => return none

/-- The name of a tag in full. Its handle has to be known. -/
def acceptTag : NodeReader (Option Bytes) := do
  match ← peekKind with
  | .tag handle suffix =>
    skip
    if handle.isEmpty then return some suffix
    let expansion ← (← get).handles.lookup handle
    return some (expansion ++ suffix)
  | _ => return none

/-- An anchor and a tag in either order. -/
def properties : NodeReader Properties := do
  match ← acceptAnchor with
  | some name => return ⟨name, ← acceptTag⟩
  | none =>
    match ← acceptTag with
    | some tag => return ⟨← acceptAnchor, tag⟩
    | none => return {}

/-- The tag of a node: the written one, unless it tells nothing, or else the
usual one. -/
def Properties.tagOr (p : Properties) (usual : Bytes) : Bytes :=
  match p.tag with
  | some tag => if tag == utf8 "!" then usual else Tag.short tag
  | none => usual

/-- The content of a node behind its properties. It may be missing if there are
some. -/
def content (node : Place → NodeReader Node) (fuel : Nat) (place : Place) (p : Properties)
    (line : Nat) : NodeReader Node := do
  match ← peekKind with
  | .scalar text isPlain =>
    skip
    return .scalar (p.tagOr (if isPlain then (resolve text).tag else Tag.text)) text line
  | .openBracket =>
    skip
    return .sequence (p.tagOr Tag.sequence) (← flowItems node fuel true) line
  | .openBrace =>
    skip
    return .mapping (p.tagOr Tag.mapping) (← flowEntries node fuel true) line
  | kind =>
    if kind == .entry && place == .mappingBlock then
      return .sequence (p.tagOr Tag.sequence) (← plainItems node fuel) line
    else if kind == .blockSequence && place != .flow then
      skip
      return .sequence (p.tagOr Tag.sequence) (← blockItems node fuel) line
    else if kind == .blockMapping && place != .flow then
      skip
      return .mapping (p.tagOr Tag.mapping) (← blockEntries node fuel) line
    else
      guard (p.anchor.isSome || p.tag.isSome)
      return .scalar (p.tagOr Tag.null) [] line

def node : Nat → Place → NodeReader Node
  | 0, _ => failure
  | bound + 1, place => do
    let next ← peek
    match next.kind with
    | .reference name =>
      let target ← (← get).names.lookup name
      skip
      return .reference name target next.line
    | _ =>
      let p ← properties
      match p.anchor with
      | none => content (node bound) bound place p next.line
      | some name =>
        let number ← declare name
        let content ← content (node bound) bound place p next.line
        keep number content
        return content

/-- Reads directives. The version can be told once, and only one version is
known; every handle can be told once. -/
def directives : Nat → Bool → NodeReader Unit
  | 0, _ => failure
  | fuel + 1, hasVersion => do
    match ← peekKind with
    | .directive (.version major minor) =>
      guard (!hasVersion && major == 1 && minor == 1)
      skip
      directives fuel true
    | .directive (.handle name expansion) =>
      guard ((← get).handles.lookup name).isNone
      modify fun progress => { progress with handles := progress.handles ++ [(name, expansion)] }
      skip
      directives fuel hasVersion
    | _ => modify fun progress => { progress with handles := progress.handles ++ Tag.commonHandles }

def isBetween : Token.Kind → Bool
  | .directive _ | .documentStart | .documentEnd | .finish => true
  | _ => false

/-- The first document; none if there is no document at all. -/
def document (bound : Nat) : NodeReader (Option Node) := do
  let _ ← expect .start
  let first ← peekKind
  if first == .finish then return none
  directives bound false
  let isExplicit ← accept .documentStart
  let next ← peek
  guard (isExplicit || first == next.kind)
  let root ← if isExplicit && isBetween next.kind then pure (emptyNode next.line)
    else node bound .block
  let _ ← peek
  return some root

inductive Malformed where
  | malformed
deriving DecidableEq, Repr

/-- The first document of a text; none if there is no document at all. A
character gives at most three tokens and the end of a block. -/
def parse (s : Bytes) : Except Malformed (Option Document) :=
  match characters? s with
  | none => .error .malformed
  | some cs =>
    let size := 4 * cs.length + 4
    match (document size).run { scanner := Scanner.ofChars cs } with
    | some (some root, progress) => .ok (some ⟨root, progress.anchored, size⟩)
    | some (none, _) => .ok none
    | none => .error .malformed

end Eel.Yaml
