import Eel.Manifest.Basic
import Eel.Yaml.Node

/-!
Manifests as nodes of a document: which fields there are, and which kind of node
each of them takes.

Reading goes on behind a mismatch, so that all of them are told in the order of
the document. Where nothing is written, or a null, a field stays as it is. A
mapping can take over the entries of other mappings, for keys that it has not
got itself.
-/

namespace Eel.Manifest

inductive Shape where
  | manifest
  | pools
  | pool
  | functions
  | function
  | texts
  | values
  | text
  | number
deriving DecidableEq, Repr

def Shape.name : Shape → Bytes
  | manifest => utf8 "manifest.Manifest"
  | pools => utf8 "[]manifest.Pool"
  | pool => utf8 "manifest.Pool"
  | functions => utf8 "[]manifest.Function"
  | function => utf8 "manifest.Function"
  | texts => utf8 "[]string"
  | values => utf8 "map[string]float64"
  | text => utf8 "string"
  | number => utf8 "float64"

/-- A place where a document does not have the shape of a manifest. -/
inductive Mismatch where
  /-- A node of another kind; a collection has no text. -/
  | kind (line : Nat) (tag text : Bytes) (shape : Shape)
  | unknownField (line : Nat) (field : Bytes) (shape : Shape)
  | repeatedField (line : Nat) (field : Bytes) (shape : Shape)
  | repeatedKey (line : Nat) (key : Bytes) (first : Nat)
deriving DecidableEq, Repr

/-- A text as messages show it: at most ten bytes. -/
def abridged (text : Bytes) : Bytes := if 10 < text.length then text.take 7 ++ utf8 "..." else text

def Mismatch.text : Mismatch → Bytes
  | kind line tag text shape =>
    let shown :=
      if tag == Yaml.Tag.sequence || tag == Yaml.Tag.mapping then []
      else utf8 " \x60" ++ abridged text ++ utf8 "\x60"
    at_ line ++ utf8 "cannot unmarshal " ++ tag ++ shown ++ utf8 " into " ++ shape.name
  | unknownField line field shape =>
    at_ line ++ utf8 "field " ++ field ++ utf8 " not found in type " ++ shape.name
  | repeatedField line field shape =>
    at_ line ++ utf8 "field " ++ field ++ utf8 " already set in type " ++ shape.name
  | repeatedKey line key first =>
    at_ line ++ utf8 "mapping key " ++ Text.quoted key ++ utf8 " already defined at line "
      ++ Bytes.decimal first
where
  at_ (line : Nat) : Bytes := utf8 "line " ++ Bytes.decimal line ++ utf8 ": "

/-- Readers of nodes note what does not fit. They fail where a node has no
meaning at all. -/
abbrev Reading := ReaderT Yaml.Document (StateT (List Mismatch) Option)

def note (found : List Mismatch) : Reading Unit := modify (· ++ found)

/-- Notes a mismatch. Nothing is read. -/
def mismatch {α : Type} (m : Mismatch) : Reading (Option α) := do
  note [m]
  return none

def targetOf (node : Yaml.Node) : Reading Yaml.Node := do
  let target ← (← read).target? node
  return target

def meaning (tag text : Bytes) : Reading Yaml.Meaning := do
  let meaning ← Yaml.resolveAs tag text
  return meaning

def scalarMismatch {α : Type} (shape : Shape) (tag text : Bytes) (line : Nat) :
    Reading (Option α) := do
  match ← meaning tag text with
  | .null => return none
  | _ => mismatch (.kind line tag text shape)

/-- Whether two keys count as one. Collections are told apart from scalars only,
and references by their names. -/
def sameKey : Yaml.Node → Yaml.Node → Bool
  | .scalar _ a _, .scalar _ b _ => a == b
  | .reference a _ _, .reference b _ _ => a == b
  | .sequence _ _ _, .sequence _ _ _ => true
  | .mapping _ _ _, .mapping _ _ _ => true
  | _, _ => false

def keyText : Yaml.Node → Bytes
  | .scalar _ text _ => text
  | .reference name _ _ => name
  | _ => []

def repeatedKeys : List (Yaml.Node × Yaml.Node) → List Mismatch
  | [] => []
  | (key, _) :: rest =>
    ((rest.filter fun (other, _) => sameKey key other).map fun (other, _) =>
      Mismatch.repeatedKey other.line (keyText other) key.line) ++ repeatedKeys rest

def mappingMismatch {α : Type} (shape : Shape) (tag : Bytes)
    (entries : List (Yaml.Node × Yaml.Node)) (line : Nat) : Reading (Option α) :=
  match repeatedKeys entries with
  | [] => mismatch (.kind line tag [] shape)
  | repeated => do
    note repeated
    return none

/-- Reads a text. Every scalar but a null counts, as it is written. -/
def readText (node : Yaml.Node) : Reading (Option Bytes) := do
  match ← targetOf node with
  | .scalar tag text _ =>
    match ← meaning tag text with
    | .null => return none
    | .text value => return some value
    | _ => return some text
  | .sequence tag _ line => mismatch (.kind line tag [] .text)
  | .mapping tag entries line => mappingMismatch .text tag entries line
  | .reference _ _ _ => failure

def readNumber (node : Yaml.Node) : Reading (Option Double) := do
  match ← targetOf node with
  | .scalar tag text line =>
    match ← meaning tag text with
    | .int n => return some (Double.ofInt n)
    | .float x => return some x
    | _ => scalarMismatch .number tag text line
  | .sequence tag _ line => mismatch (.kind line tag [] .number)
  | .mapping tag entries line => mappingMismatch .number tag entries line
  | .reference _ _ _ => failure

/-- Whether a key says that its value is a mapping, or a sequence of mappings,
to take entries from. -/
def isMerge : Yaml.Node → Bool
  | .scalar tag text _ => text == utf8 "<<" && tag == Yaml.Tag.merge
  | _ => false

def isMapping (node : Yaml.Node) : Reading Bool := do
  match ← targetOf node with
  | .mapping _ _ _ => return true
  | _ => return false

def mergeSources (value : Yaml.Node) : Reading (List Yaml.Node) := do
  let sources := match value with
    | .sequence _ items _ => items
    | _ => [value]
  let areMappings : Bool ← sources.allM isMapping
  guard areMappings
  return sources

/-- The text of a key that counts when other mappings are taken over. Only texts
do. -/
def heldName? (key : Yaml.Node) : Reading (Option Bytes) := do
  match ← targetOf key with
  | .scalar tag text _ =>
    match ← meaning tag text with
    | .text value => return some value
    | _ => return none
  | .mapping _ entries _ =>
    let repeated := repeatedKeys entries
    guard !repeated.isEmpty
    note repeated
    return none
  | _ => failure

structure Entry where
  name : Bytes
  /-- The line of the key. -/
  line : Nat
  value : Yaml.Node
  /-- Whether the mapping has an entry with the name in front of this one. -/
  isRepeated : Bool
  /-- Whether the entry is taken from another mapping. -/
  isMerged : Bool

/-- What has been read of a mapping: the result so far, the names of its
entries, and, for one whose entries are taken over, the names that are not taken
again. -/
structure Merging (α : Type) where
  result : α
  names : List Bytes := []
  held : Option (List Bytes) := none

def readEntry {α : Type} (put : α → Entry → Reading α) (m : Merging α) (key value : Yaml.Node) :
    Reading (Merging α) := do
  if isMerge key then return m
  match ← readText key with
  | none => return m
  | some name =>
    if m.held.any (·.contains name) then return m
    let entry : Entry := ⟨name, key.line, value, m.names.contains name, m.held.isSome⟩
    return ⟨← put m.result entry, name :: m.names, m.held.map (name :: ·)⟩

/-- Reads a mapping entry by entry, if no key is there twice, and then the
mappings whose entries it takes over. A mapping that takes over its own entries
has no meaning. -/
def readMapping {α : Type} (shape : Shape) (put : α → Entry → Reading α) :
    Nat → α → Option (List Bytes) → Yaml.Node → Reading (Option (α × Option (List Bytes)))
  | 0, _, _, _ => failure
  | fuel + 1, start, held, node => do
    match ← targetOf node with
    | .scalar tag text line => scalarMismatch shape tag text line
    | .sequence tag _ line => mismatch (.kind line tag [] shape)
    | .reference _ _ _ => failure
    | .mapping _ entries _ =>
      match repeatedKeys entries with
      | [] =>
        let read ← entries.foldlM (fun m (key, value) => readEntry put m key value)
            (⟨start, [], held⟩ : Merging α)
        match entries.find? fun (key, _) => isMerge key with
        | none => return some (read.result, read.held)
        | some (_, value) =>
          let names ← match read.held with
            | some names => pure names
            | none => (·.filterMap id) <$> entries.mapM fun (key, _) => heldName? key
          let (result, names) ← (← mergeSources value).foldlM (fun (result, names) source => do
            match ← readMapping shape put fuel result (some names) source with
            | some (result, held) => return (result, held.getD names)
            | none => return (result, names)) (read.result, names)
          return some (result, held.map fun _ => names)
      | repeated =>
        note repeated
        return none

def readEntries {α : Type} (shape : Shape) (put : α → Entry → Reading α) (start : α)
    (node : Yaml.Node) : Reading (Option α) := do
  return (← readMapping shape put (← read).size start none node).map (·.1)

def readFields {α : Type} (shape : Shape) (field? : Bytes → Option (α → Yaml.Node → Reading α))
    (start : α) : Yaml.Node → Reading (Option α) :=
  readEntries shape (fun a entry => do
    match field? entry.name with
    | some set =>
      if entry.isRepeated then
        note [.repeatedField entry.line entry.name shape]
        return a
      else set a entry.value
    | none =>
      note [.unknownField entry.line entry.name shape]
      return a) start

/-- Reads the items of a sequence. Those that are null are left out. -/
def readItems {α : Type} (shape : Shape) (item : Yaml.Node → Reading (Option α))
    (node : Yaml.Node) : Reading (Option (List α)) := do
  match ← targetOf node with
  | .scalar tag text line => scalarMismatch shape tag text line
  | .sequence _ items _ => return some ((← items.mapM item).filterMap id)
  | .mapping tag entries line => mappingMismatch shape tag entries line
  | .reference _ _ _ => failure

def setting {α β : Type} (read : Yaml.Node → Reading (Option β)) (set : α → β → α) (a : α)
    (value : Yaml.Node) : Reading α := do
  match ← read value with
  | some b => return set a b
  | none => return a

def readPool : Yaml.Node → Reading (Option Pool) :=
  readFields .pool (fun name =>
    if name == utf8 "name" then some (setting readText fun p text => { p with name := text })
    else if name == utf8 "vars" then
      some (setting (readItems .texts readText) fun p vars => { p with vars })
    else none) ⟨[], []⟩

def readFunction : Yaml.Node → Reading (Option ManifestFunction) :=
  readFields .function (fun name =>
    if name == utf8 "name" then some (setting readText fun f text => { f with name := text })
    else if name == utf8 "pool" then some (setting readText fun f pool => { f with pool })
    else if name == utf8 "source" then some (setting readText fun f source => { f with source })
    else if name == utf8 "file" then some (setting readText fun f file => { f with file })
    else none) {}

def setValue (values : List (Bytes × Double)) (name : Bytes) (x : Double) : List (Bytes × Double) :=
  if values.any (·.1 == name) then
    values.map fun (other, y) => (other, if other == name then x else y)
  else values ++ [(name, x)]

/-- Reads the values that variables start with. A value that is not written is
zero, unless it is taken from another mapping and there is one already. -/
def readValues : Yaml.Node → Reading (Option (List (Bytes × Double))) :=
  readEntries .values (fun values entry => do
    match ← readNumber entry.value with
    | some x => return setValue values entry.name x
    | none =>
      if entry.isMerged && values.any (·.1 == entry.name) then return values
      else return setValue values entry.name .zero) []

def readManifest : Yaml.Node → Reading (Option Manifest) :=
  readFields .manifest (fun name =>
    if name == utf8 "pools" then
      some (setting (readItems .pools readPool) fun m pools => { m with pools })
    else if name == utf8 "functions" then
      some (setting (readItems .functions readFunction) fun m functions => { m with functions })
    else if name == utf8 "values" then some (setting readValues fun m values => { m with values })
    else none) {}

end Eel.Manifest
