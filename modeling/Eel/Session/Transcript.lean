import Eel.Session.Basic

/-!
Sessions that take their inputs from a stream of lines.

An input takes as many lines as it needs: while a text stops inside an unclosed
call or comment, the next line belongs to it too. At the end of the stream what
is left is taken as it is.
-/

namespace Eel

structure Output where
  stdout : Bytes := []
  stderr : Bytes := []
deriving DecidableEq, Repr

namespace Output

def append (a b : Output) : Output := ⟨a.stdout ++ b.stdout, a.stderr ++ b.stderr⟩

instance : Append Output := ⟨append⟩

end Output

namespace Session

def lines : Bytes → List Bytes
  | [] => []
  | c :: rest =>
    if c == Bytes.lineFeed then [c] :: lines rest
    else
      match lines rest with
      | [] => [[c]]
      | line :: others => (c :: line) :: others

/-- Cuts lines into inputs; `pending` is the part of an input that is read
already. -/
def inputsFrom (pending : Bytes) : List Bytes → List Bytes
  | [] => if pending.isEmpty then [] else [pending]
  | line :: rest =>
    let text := pending ++ line
    if Source.needsMore text then inputsFrom text rest else text :: inputsFrom [] rest

def inputs (stream : Bytes) : List Bytes := inputsFrom [] (lines stream)

def shown : Except SessionError (Option Result) → Output
  | .error e => { stderr := e.report }
  | .ok none => {}
  | .ok (some r) => { stdout := r.text ++ utf8 "\n" }

def respond (s : Session) (text : Bytes) : Output × Session :=
  let (result, s) := s.eval text
  (shown result, s)

def respondAll (s : Session) : List Bytes → Output
  | [] => {}
  | text :: rest =>
    let (output, s) := s.respond text
    output ++ respondAll s rest

def transcript (s : Session) (stream : Bytes) : Output := s.respondAll (inputs stream)

end Session

end Eel
