import Eel.Manifest.Fields

/-!
Manifests from files, together with the files that hold the texts of their
functions.
-/

namespace Eel

inductive ManifestError where
  | malformed
  | mismatches (found : List Manifest.Mismatch)
  | problems (found : List Manifest.Problem)
deriving DecidableEq, Repr

def Manifest.problemsText (found : List Manifest.Problem) : Bytes :=
  let count :=
    if found.length == 1 then utf8 "1 error" else Bytes.decimal found.length ++ utf8 " errors"
  count ++ utf8 " occurred:\n\t" ++
    Bytes.join (utf8 "\n\t") (found.map fun p => utf8 "* " ++ p.text) ++ utf8 "\n\n"

def ManifestError.message : ManifestError → Bytes
  | malformed => utf8 "decode manifest: yaml: syntax"
  | mismatches found => utf8 "decode manifest: yaml: unmarshal errors:\n"
      ++ Bytes.join (utf8 "\n") (found.map fun m => utf8 "  " ++ m.text)
  | problems found => Manifest.problemsText found

inductive ManifestLoadError where
  | unread (error : FileError)
  | invalid (path : Bytes) (error : ManifestError)
deriving DecidableEq, Repr

def ManifestLoadError.message : ManifestLoadError → Bytes
  | unread error => utf8 "read manifest: " ++ error.message
  | invalid path error => utf8 "manifest " ++ path ++ utf8 ": " ++ error.message

namespace Manifest

/-- Reads the manifest that a text describes. A text without a document
describes an empty one. -/
def ofText (text : Bytes) : Except ManifestError Manifest :=
  match Yaml.parse text with
  | .error _ => .error .malformed
  | .ok none => .ok {}
  | .ok (some d) =>
    match ((readManifest d.root).run d).run [] with
    | some (m, []) => .ok (m.getD {})
    | some (_, found) => .error (.mismatches found)
    | none => .error .malformed

def filePath (directory file : Bytes) : Bytes :=
  if Path.isAbsolute file || directory.isEmpty then file else Path.join directory file

variable {m : Type → Type} [Monad m]

def loadFunction (files : FileAccess m) (directory : Bytes) (f : ManifestFunction) :
    m (ManifestFunction × List Problem) := do
  if f.file.isEmpty then return (f, [])
  match ← files.read (filePath directory f.file) with
  | .ok loaded => return ({ f with loaded }, [])
  | .error e => return (f, [.unreadFile f.name e])

/-- Reads a manifest whose files lie in a directory. All problems are told,
those with files first. -/
def parse (files : FileAccess m) (directory text : Bytes) : m (Except ManifestError Manifest) := do
  match ofText text with
  | .error e => return .error e
  | .ok manifest =>
    let loads ← manifest.functions.mapM (loadFunction files directory)
    let manifest := { manifest with functions := loads.map (·.1) }
    match loads.flatMap (·.2) ++ manifest.problems with
    | [] => return .ok manifest
    | found => return .error (.problems found)

/-- Loads a manifest. Its files lie beside it. -/
def load (files : FileAccess m) (path : Bytes) : m (Except ManifestLoadError Manifest) := do
  match ← files.read path with
  | .error e => return .error (.unread e)
  | .ok text => return (← parse files (Path.directory path) text).mapError (.invalid path)

end Manifest

end Eel
