import Eel.Files.Access
import Eel.Program.Declaration
import Eel.Program.HostFunction
import Eel.Text.Quoted
import Eel.Token.Lexer
import Eel.Tree.Basic

/-!
Manifests: the pools and functions of a program, and values that its variables
start with.

A manifest is checked as a whole, and all problems are told.
-/

namespace Eel

/-- A function of a manifest. Its text is given, or stands in a file. -/
structure ManifestFunction where
  name : Bytes := []
  pool : Bytes := []
  source : Bytes := []
  file : Bytes := []
  /-- The contents of the file. -/
  loaded : Bytes := []
deriving DecidableEq, Repr

def ManifestFunction.body (f : ManifestFunction) : Bytes :=
  if f.file.isEmpty then f.source else f.loaded

structure InitialValue where
  pool : Bytes
  name : Bytes
  value : Double
deriving DecidableEq, Repr

def InitialValue.le (a b : InitialValue) : Bool :=
  if a.pool == b.pool then Bytes.le a.name b.name else Bytes.le a.pool b.pool

structure Manifest where
  pools : List Pool := []
  functions : List ManifestFunction := []
  /-- The values by keys of the form `pool.variable`. No key is there twice. -/
  values : List (Bytes × Double) := []
deriving DecidableEq, Repr

namespace Manifest

inductive Problem where
  | unreadFile (function : Bytes) (error : FileError)
  | unnamedPool (number : Nat)
  | reservedPool (pool : Bytes)
  | dottedPool (pool : Bytes)
  | repeatedPool (pool : Bytes)
  | badVariable (pool name : Bytes)
  | bufferVariable (pool name : Bytes)
  | repeatedVariable (pool name : Bytes)
  | unnamedFunction (number : Nat)
  | repeatedFunction (function : Bytes)
  | undeclaredPool (function pool : Bytes)
  | twoBodies (function : Bytes)
  | noBody (function : Bytes)
  | badKey (key : Bytes)
  | keyPool (key pool : Bytes)
  | keyVariable (key name pool : Bytes)
deriving DecidableEq, Repr

def Problem.text : Problem → Bytes
  | unreadFile function error =>
    utf8 "function " ++ Text.quoted function ++ utf8 ": " ++ error.message
  | unnamedPool number => utf8 "pool #" ++ Bytes.decimal number ++ utf8 " has no name"
  | reservedPool pool => utf8 "pool name " ++ Text.quoted pool ++ utf8 " is reserved"
  | dottedPool pool => utf8 "pool name " ++ Text.quoted pool ++ utf8 " must not contain '.'"
  | repeatedPool pool => utf8 "pool " ++ Text.quoted pool ++ utf8 " is declared more than once"
  | badVariable pool name =>
    utf8 "pool " ++ Text.quoted pool ++ utf8 ": " ++ Text.quoted name ++
      utf8 " is not a valid variable name"
  | bufferVariable pool name =>
    utf8 "pool " ++ Text.quoted pool ++ utf8 ": " ++ Text.quoted name ++ utf8 " names a buffer"
  | repeatedVariable pool name =>
    utf8 "pool " ++ Text.quoted pool ++ utf8 ": variable " ++ Text.quoted name ++
      utf8 " is declared more than once"
  | unnamedFunction number => utf8 "function #" ++ Bytes.decimal number ++ utf8 " has no name"
  | repeatedFunction function =>
    utf8 "function " ++ Text.quoted function ++ utf8 " is declared more than once"
  | undeclaredPool function pool =>
    utf8 "function " ++ Text.quoted function ++ utf8 " uses undeclared pool " ++ Text.quoted pool
  | twoBodies function =>
    utf8 "function " ++ Text.quoted function ++ utf8 " sets both source and file"
  | noBody function =>
    utf8 "function " ++ Text.quoted function ++ utf8 " has neither source nor file"
  | badKey key => utf8 "value " ++ Text.quoted key ++ utf8 " is not of the form pool.variable"
  | keyPool key pool =>
    utf8 "value " ++ Text.quoted key ++ utf8 " refers to undeclared pool " ++ Text.quoted pool
  | keyVariable key name pool =>
    utf8 "value " ++ Text.quoted key ++ utf8 " refers to unknown variable " ++ Text.quoted name ++
      utf8 " of pool "
      ++ Text.quoted pool

/-- What is wrong with the variables of a pool behind those already seen. -/
def variableProblems (pool : Bytes) (seen : List Bytes) : List Bytes → List Problem
  | [] => []
  | name :: rest =>
    let key := Text.lower name
    let found : List Problem :=
      if !Token.isName name then [.badVariable pool name]
      else if isBufferName key then [.bufferVariable pool name]
      else if seen.contains key then [.repeatedVariable pool name]
      else []
    found ++ variableProblems pool (key :: seen) rest

def poolNameProblems (pool : Bytes) : List Problem :=
  if pool == HostFunction.moduleName then [.reservedPool pool]
  else if pool.contains '.'.toUInt8 then [.dottedPool pool]
  else []

/-- What is wrong with the pools from a number on, behind those already
declared. -/
def poolProblems (declared : List Bytes) (number : Nat) : List Pool → List Problem
  | [] => []
  | pool :: rest =>
    if pool.name.isEmpty then .unnamedPool number :: poolProblems declared (number + 1) rest
    else if declared.contains pool.name then
      poolNameProblems pool.name ++ .repeatedPool pool.name ::
        poolProblems declared (number + 1) rest
    else
      poolNameProblems pool.name ++ variableProblems pool.name [] pool.vars
        ++ poolProblems (pool.name :: declared) (number + 1) rest

def pool? (m : Manifest) (name : Bytes) : Option Pool :=
  if name.isEmpty then none else m.pools.find? (·.name == name)

/-- What is wrong with the functions from a number on, behind those already
seen. A function without a name goes by its number. -/
def functionProblems (m : Manifest) (seen : List Bytes) (number : Nat) :
    List ManifestFunction → List Problem
  | [] => []
  | f :: rest =>
    let name := if f.name.isEmpty then utf8 "#" ++ Bytes.decimal number else f.name
    let naming : List Problem :=
      if f.name.isEmpty then [.unnamedFunction number]
      else if seen.contains name then [.repeatedFunction name]
      else []
    let pool : List Problem := if (m.pool? f.pool).isNone then [.undeclaredPool name f.pool] else []
    let body : List Problem :=
      if !f.source.isEmpty && !f.file.isEmpty then [.twoBodies name]
      else if f.source.isEmpty && f.file.isEmpty then [.noBody name]
      else []
    naming ++ pool ++ body ++ functionProblems m (name :: seen) (number + 1) rest

def splitDot? (key : Bytes) : Option (Bytes × Bytes) := Bytes.cut? ['.'.toUInt8] key

def keyProblem? (m : Manifest) (key : Bytes) : Option Problem :=
  match splitDot? key with
  | none => some (.badKey key)
  | some (pool, name) =>
    match m.pool? pool with
    | none => some (.keyPool key pool)
    | some p => if (p.find? name).isSome then none else some (.keyVariable key name pool)

/-- All that is wrong with a manifest apart from its files. Values are told in
the order of their keys. -/
def problems (m : Manifest) : List Problem :=
  poolProblems [] 1 m.pools ++ functionProblems m [] 1 m.functions
    ++ (Bytes.sort (m.values.map (·.1))).filterMap m.keyProblem?

def options (m : Manifest) : Options where
  pools := m.pools
  functions := m.functions.map fun f => ⟨f.name, f.pool, f.body⟩

def initialValues (m : Manifest) : List InitialValue :=
  (m.values.map fun (key, value) =>
    let (pool, name) := (splitDot? key).getD (key, [])
    (⟨pool, name, value⟩ : InitialValue)).mergeSort InitialValue.le

end Manifest

end Eel
