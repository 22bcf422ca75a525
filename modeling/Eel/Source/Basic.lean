import Eel.Tree.Parser

/-!
Sources as written, with the script they hold.

Places in the script are places in the cleaned text and are led back to the
source when they are shown. Places in an error are those of the source already.
-/

namespace Eel

structure Source where
  text : Bytes
  cleaned : Cleaned
  script : Script

namespace Source

def relocate (anchors : List Anchor) (e : ParseError) : ParseError :=
  { e with
    start := Cleaned.locate anchors e.start.offset
    stop := Cleaned.locateStop anchors e.start.offset e.stop.offset }

def parse (s : Bytes) : Except ParseError Source :=
  let cleaned := Cleaned.ofSource s
  match Script.parse cleaned.text with
  | .ok script => .ok ⟨s, cleaned, script⟩
  | .error e => .error (relocate cleaned.anchors e)

def locate (s : Source) (p : Position) : Position := Cleaned.locate s.cleaned.anchors p.offset

def locateSpan (s : Source) (span : Span) : Span := Cleaned.locateSpan s.cleaned.anchors span

/-- Whether a text stops inside something that a further line could close. -/
def needsMore (s : Bytes) : Bool :=
  endsInComment s ||
    match parse s with
    | .ok _ => false
    | .error e => e.incomplete

end Source

end Eel
