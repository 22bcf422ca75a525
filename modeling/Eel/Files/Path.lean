import Eel.Bytes

/-!
Names of files: parts with slashes between them.
-/

namespace Eel.Path

def slash : UInt8 := '/'.toUInt8

def isAbsolute (path : Bytes) : Bool := path.head? == some slash

def here : Bytes := utf8 "."

def up : Bytes := utf8 ".."

/-- Takes a further part into a list of clean parts. Nothing lies above the
root. -/
def addPart (isRooted : Bool) (parts : List Bytes) (part : Bytes) : List Bytes :=
  if part.isEmpty || part == here then parts
  else if part == up then
    match parts.getLast? with
    | some last => if last == up then parts ++ [up] else parts.dropLast
    | none => if isRooted then [] else [up]
  else parts ++ [part]

/-- The shortest path that means the same by its letters alone. -/
def clean (path : Bytes) : Bytes :=
  let isRooted := isAbsolute path
  let parts := (Bytes.splitOn slash path).foldl (addPart isRooted) []
  let text := Bytes.join [slash] parts
  if isRooted then slash :: text
  else if parts.isEmpty then here
  else text

def join (directory path : Bytes) : Bytes :=
  if directory.isEmpty && path.isEmpty then []
  else if directory.isEmpty then clean path
  else if path.isEmpty then clean directory
  else clean (directory ++ [slash] ++ path)

def base (path : Bytes) : Bytes := (Bytes.splitOn slash path).getLastD []

def directory (path : Bytes) : Bytes := clean (path.take (path.length - (base path).length))

def withoutExtension (path : Bytes) : Bytes :=
  let name := base path
  if !name.contains '.'.toUInt8 then path
  else
    let extension := (Bytes.splitOn '.'.toUInt8 name).getLastD []
    path.take (path.length - extension.length - 1)

end Eel.Path
