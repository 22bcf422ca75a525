import Eel.Files.Path

/-!
Reading and writing files, and a tree of files held in memory.
-/

namespace Eel

inductive FileError where
  | missing (path : Bytes)
  /-- A part in front of the last one is a file. -/
  | notDirectory (path : Bytes)
  | readDirectory (path : Bytes)
  | writeDirectory (path : Bytes)
  | other (text : Bytes)
deriving DecidableEq, Repr

def FileError.message : FileError → Bytes
  | missing path => utf8 "open " ++ path ++ utf8 ": no such file or directory"
  | notDirectory path => utf8 "open " ++ path ++ utf8 ": not a directory"
  | readDirectory path => utf8 "read " ++ path ++ utf8 ": is a directory"
  | writeDirectory path => utf8 "open " ++ path ++ utf8 ": is a directory"
  | other text => text

structure FileAccess (m : Type → Type) where
  read : Bytes → m (Except FileError Bytes)
  write : Bytes → Bytes → m (Except FileError Unit)

/-- Files by the parts of their paths. A directory is there as soon as a file is
in it. -/
structure FileTree where
  files : List (List Bytes × Bytes) := []
deriving DecidableEq, Repr

namespace FileTree

def ofList (files : List (Bytes × Bytes)) : FileTree :=
  ⟨files.map fun (path, contents) => (Bytes.splitOn Path.slash (Path.clean path), contents)⟩

inductive Target where
  | file (parts : List Bytes) (contents : Bytes)
  | directory
  /-- Nothing, in a directory that is there. -/
  | vacant (parts : List Bytes)
  | missing
  | throughFile
deriving DecidableEq, Repr

def file? (t : FileTree) (parts : List Bytes) : Option Bytes :=
  (t.files.find? (·.1 == parts)).map (·.2)

def isDirectory (t : FileTree) (parts : List Bytes) : Bool :=
  t.files.any fun (path, _) => parts.length < path.length && path.take parts.length == parts

/-- Follows the parts of a path from a directory on. What lies around the tree
is not known. -/
def follow (t : FileTree) (at_ : List Bytes) : List Bytes → Target
  | [] => .directory
  | part :: rest =>
    if part.isEmpty || part == Path.here then follow t at_ rest
    else if part == Path.up then if at_.isEmpty then .missing else follow t at_.dropLast rest
    else
      let next := at_ ++ [part]
      match t.file? next with
      | some contents => if rest.isEmpty then .file next contents else .throughFile
      | none =>
        if t.isDirectory next then follow t next rest
        else if rest.isEmpty then .vacant next
        else .missing

def target (t : FileTree) (path : Bytes) : Target :=
  if path.isEmpty || Path.isAbsolute path then .missing
  else t.follow [] (Bytes.splitOn Path.slash path)

def read (t : FileTree) (path : Bytes) : Except FileError Bytes :=
  match t.target path with
  | .file _ contents => .ok contents
  | .directory => .error (.readDirectory path)
  | .vacant _ | .missing => .error (.missing path)
  | .throughFile => .error (.notDirectory path)

def write (t : FileTree) (path contents : Bytes) : Except FileError FileTree :=
  match t.target path with
  | .file parts _ =>
    .ok ⟨t.files.map fun (other, old) => (other, if other == parts then contents else old)⟩
  | .vacant parts => .ok ⟨t.files ++ [(parts, contents)]⟩
  | .directory => .error (.writeDirectory path)
  | .missing => .error (.missing path)
  | .throughFile => .error (.notDirectory path)

def access : FileAccess (StateM FileTree) where
  read path := return (← get).read path
  write path contents := do
    match (← get).write path contents with
    | .ok t =>
      set t
      return .ok ()
    | .error e => return .error e

/-- The files that another tree does not hold with the same contents. -/
def changes (t old : FileTree) : List (Bytes × Bytes) :=
  (t.files.filter fun (parts, contents) => old.file? parts != some contents).map
    fun (parts, contents) =>
    (Bytes.join [Path.slash] parts, contents)

end FileTree

end Eel
