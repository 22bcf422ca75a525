import Eel.Source.Position

/-!
Sources without comments, and the way back to what was written.

Cleaning a source drops the comments that start with two slashes, puts one blank
for every comment between a slash-star and a star-slash, and ends every line
with a line feed alone. A block comment that is never closed takes the rest of
the source with it. Between two anchors the cleaned text is a copy of the
source, so a place in it is found in the source by counting on from the last
anchor before it.
-/

namespace Eel

@[match_pattern] abbrev Bytes.lineFeed : UInt8 := 0x0a

@[match_pattern] abbrev Bytes.carriageReturn : UInt8 := 0x0d

@[match_pattern] abbrev Bytes.blank : UInt8 := 0x20

@[match_pattern] abbrev Bytes.star : UInt8 := 0x2a

@[match_pattern] abbrev Bytes.slash : UInt8 := 0x2f

def Bytes.isBreak (c : UInt8) : Bool := c == Bytes.lineFeed || c == Bytes.carriageReturn

/-- An offset in a cleaned text with the place it comes from. -/
structure Anchor where
  dest : Int
  offset : Int
  line : Int
  column : Int
deriving DecidableEq, Repr

namespace Anchor

def start : Anchor := ⟨0, 0, 1, 1⟩

/-- Behind a byte that is copied. -/
def copy (a : Anchor) : Anchor := ⟨a.dest + 1, a.offset + 1, a.line, a.column + 1⟩

/-- Behind some bytes of the same line that leave no trace. -/
def skip (a : Anchor) (count : Int) : Anchor :=
  { a with offset := a.offset + count, column := a.column + count }

/-- Behind a line break of `width` bytes that leaves no trace. -/
def skipBreak (a : Anchor) (width : Int) : Anchor := ⟨a.dest, a.offset + width, a.line + 1, 1⟩

/-- Behind a byte of the cleaned text that stands for none of the source. -/
def put (a : Anchor) : Anchor := { a with dest := a.dest + 1 }

end Anchor

/-- A source without comments and the anchors that lead back. -/
structure Cleaned where
  text : Bytes
  anchors : List Anchor
deriving DecidableEq, Repr

namespace Cleaned

/-- What a byte of the source belongs to. -/
inductive Mode where
  | code
  | lineComment
  | blockComment
deriving DecidableEq, Repr

def put (c : UInt8) (r : Cleaned) : Cleaned := { r with text := c :: r.text }

def mark (a : Anchor) (r : Cleaned) : Cleaned := { r with anchors := a :: r.anchors }

/-- The rest of a source, cleaned; `a` is the place reached so far. An anchor is
set behind every line break and behind every comment. -/
def scan : Mode → Anchor → Bytes → Cleaned
  | .code, _, [] => ⟨[], []⟩
  | .code, a, Bytes.slash :: Bytes.slash :: s => scan .lineComment (a.skip 2) s
  | .code, a, Bytes.slash :: Bytes.star :: s =>
    put Bytes.blank (scan .blockComment (a.put.skip 2) s)
  | .code, a, Bytes.carriageReturn :: Bytes.lineFeed :: s =>
    let b := a.put.skipBreak 2
    put Bytes.lineFeed (mark b (scan .code b s))
  | .code, a, c :: s =>
    if Bytes.isBreak c then
      let b := a.put.skipBreak 1
      put Bytes.lineFeed (mark b (scan .code b s))
    else put c (scan .code a.copy s)
  | .lineComment, a, [] => ⟨[], [a]⟩
  | .lineComment, a, Bytes.carriageReturn :: Bytes.lineFeed :: s =>
    let b := a.put.skipBreak 2
    mark a (put Bytes.lineFeed (mark b (scan .code b s)))
  | .lineComment, a, c :: s =>
    if Bytes.isBreak c then
      let b := a.put.skipBreak 1
      mark a (put Bytes.lineFeed (mark b (scan .code b s)))
    else scan .lineComment (a.skip 1) s
  | .blockComment, a, [] => ⟨[], [a]⟩
  | .blockComment, a, Bytes.star :: Bytes.slash :: s => mark (a.skip 2) (scan .code (a.skip 2) s)
  | .blockComment, a, Bytes.carriageReturn :: Bytes.lineFeed :: s =>
    scan .blockComment (a.skipBreak 2) s
  | .blockComment, a, c :: s =>
    if Bytes.isBreak c then scan .blockComment (a.skipBreak 1) s
    else scan .blockComment (a.skip 1) s

/-- A source cleaned; the first anchor stands in front of it. -/
def ofSource (s : Bytes) : Cleaned := mark .start (scan .code .start s)

/-- The least index from `low` on that meets a condition, or `high`, if the
condition once met stays met. -/
def firstIndex (p : Nat → Bool) (low high : Nat) : Nat :=
  if low < high then
    let middle := (low + high) / 2
    if p middle then firstIndex p low middle else firstIndex p (middle + 1) high
  else low
termination_by high - low

/-- The place that an offset in a cleaned text comes from, by the last anchor
that does not lie past it. -/
def locate (anchors : List Anchor) (dest : Int) : Position :=
  let marks := anchors.toArray
  let past (i : Nat) : Bool :=
    match marks[i]? with
    | some a => dest < a.dest
    | none => true
  match firstIndex past 0 marks.size with
  | 0 => ⟨dest, 1, dest + 1⟩
  | i + 1 =>
    match marks[i]? with
    | some a => ⟨a.offset + (dest - a.dest), a.line, a.column + (dest - a.dest)⟩
    | none => ⟨dest, 1, dest + 1⟩

/-- The place behind a span, found through the last byte that the span covers.
So a span that ends right before a comment does not reach behind it. -/
def locateStop (anchors : List Anchor) (start stop : Int) : Position :=
  if stop ≤ start then locate anchors start else (locate anchors (stop - 1)).along 1

def locateSpan (anchors : List Anchor) (span : Span) : Span :=
  ⟨locate anchors span.start.offset, locateStop anchors span.start.offset span.stop.offset⟩

end Cleaned

namespace Source

def afterClosing? : Bytes → Option Bytes
  | [] => none
  | Bytes.star :: Bytes.slash :: s => some s
  | _ :: s => afterClosing? s

theorem length_afterClosing?_lt {s rest : Bytes} (h : afterClosing? s = some rest) :
    rest.length < s.length := by
  fun_induction afterClosing? s with
  | case1 => simp at h
  | case2 s => simp at h; subst h; simp only [List.length_cons]; omega
  | case3 c s _ ih => have := ih h; simp only [List.length_cons]; omega

def endsInComment (s : Bytes) : Bool :=
  match s with
  | [] => false
  | Bytes.slash :: Bytes.slash :: rest => endsInComment (rest.dropWhile (!Bytes.isBreak ·))
  | Bytes.slash :: Bytes.star :: rest =>
    match _closing : afterClosing? rest with
    | none => true
    | some rest' => endsInComment rest'
  | _ :: rest => endsInComment rest
termination_by s.length
decreasing_by
  · have := (List.dropWhile_sublist (l := rest) (!Bytes.isBreak ·)).length_le
    simp; omega
  · have := length_afterClosing?_lt _closing
    simp; omega
  · simp

end Source

end Eel
