import Eel.Command.Perform

/-!
The command line, on real files and the standard streams. A session reads its
inputs line by line and answers each of them at once.
-/

namespace Eel.Main

def pathOf (path : Bytes) : String := (String.fromUTF8? ⟨path.toArray⟩).getD ""

def notDirectoryCode : UInt32 := 20

/-- The cause of a failure with a file; `taken` is the one for a directory in
its place. -/
def fileError (path : Bytes) (taken : FileError) : IO.Error → FileError
  | .noFileOrDirectory .. => .missing path
  | .inappropriateType _ code _ => if code == notDirectoryCode then .notDirectory path else taken
  | e => .other (utf8 (toString e))

def files : FileAccess IO where
  read path := do
    try return .ok (← IO.FS.readBinFile (pathOf path)).toList
    catch e => return .error (fileError path (.readDirectory path) e)
  write path contents := do
    try
      IO.FS.writeBinFile (pathOf path) ⟨contents.toArray⟩
      return .ok ()
    catch e => return .error (fileError path (.writeDirectory path) e)

partial def readRest (stream : IO.FS.Stream) (front : ByteArray) : IO ByteArray := do
  let chunk ← stream.read 65536
  if chunk.isEmpty then return front else readRest stream (front ++ chunk)

def write (output : Output) : IO Unit := do
  (← IO.getStdout).write ⟨output.stdout.toArray⟩
  (← IO.getStderr).write ⟨output.stderr.toArray⟩
  (← IO.getStdout).flush

partial def converse (stream : IO.FS.Stream) (s : Session) (pending : Bytes) : IO Unit := do
  let line := utf8 (← stream.getLine)
  let text := pending ++ line
  if line.isEmpty && text.isEmpty then return
  else if !line.isEmpty && Source.needsMore text then converse stream s text
  else
    let (output, s) := s.respond text
    write output
    if !line.isEmpty then converse stream s []

end Eel.Main

open Eel in
def main (args : List String) : IO UInt32 := do
  let args := args.map utf8
  match Command.ofArgs args with
  | .ok (.repl seed) =>
    Main.converse (← IO.getStdin) { seed } []
    return 0
  | _ =>
    let stdin : IO Bytes := return (← Main.readRest (← IO.getStdin) .empty).toList
    let exit ← Command.performArgs Main.files stdin args
    Main.write exit.output
    return exit.status.toUInt32
