import Eel.Proofs.Source.Pieces

/-!
Anchors of a source.

Lines and columns of a source are said by its line breaks alone, wherever these
stand. Cleaning keeps track of both byte by byte, in code and in comments, and
sets an anchor behind every piece that is not copied. Each anchor holds the
place that its piece ends at.
-/

namespace Eel.Cleaned

open Bytes Piece List

variable {c : UInt8} {body : Bytes}

/-- Whether a line break ends right before an offset. -/
def endsBreak (s : Bytes) : Nat → Bool
  | 0 => false
  | i + 1 => s[i]? == some lineFeed ||
      (s[i]? == some carriageReturn && s[i + 1]? != some lineFeed)

/-- Where the line of an offset starts: behind the last line break that ends at
or before it. -/
def lineStart (s : Bytes) (offset : Nat) : Nat :=
  Nat.findGreatest (fun i => endsBreak s i = true) offset

/-- The place of an offset in a text. Its line is found by counting the breaks
that end at or before it. -/
def positionIn (s : Bytes) (offset : Nat) : Position :=
  ⟨offset, 1 + Nat.count (fun i => endsBreak s i = true) (offset + 1),
    1 + (offset - lineStart s offset)⟩

variable {s t : Bytes} {o : Nat}

theorem endsBreak_of_drop (h : s.drop o = c :: t) :
    endsBreak s (o + 1) =
      (c == lineFeed || (c == carriageReturn && t.head? != some lineFeed)) := by
  have hfirst : s[o]? = some c := by
    rw [← head?_drop, h]
    rfl
  have hsecond : s[o + 1]? = t.head? := by
    rw [← head?_drop, ← drop_drop, h]
    rfl
  simp [endsBreak, hfirst, hsecond]

theorem positionIn_zero (s : Bytes) : positionIn s 0 = .start := by
  rw [positionIn, lineStart, Nat.findGreatest_zero, Nat.count_succ, Nat.count_zero]
  simp [endsBreak, Position.start]

/-- Inside a line the column grows with the offset. -/
theorem positionIn_succ (h : endsBreak s (o + 1) = false) :
    positionIn s (o + 1) = (positionIn s o).along 1 := by
  have hstart : lineStart s (o + 1) = lineStart s o := by
    simp [lineStart, h]
  have hcount : Nat.count (fun i => endsBreak s i = true) (o + 1 + 1) =
      Nat.count (fun i => endsBreak s i = true) (o + 1) := by
    rw [Nat.count_succ]
    simp [h]
  simp only [positionIn, Position.along, hstart, hcount, Position.mk.injEq]
  refine ⟨by push_cast; ring, trivial, by push_cast; ring⟩

/-- Behind a line break the next line starts. -/
theorem positionIn_succ_break (h : endsBreak s (o + 1) = true) :
    positionIn s (o + 1) = ⟨o + 1, (positionIn s o).line + 1, 1⟩ := by
  have hstart : lineStart s (o + 1) = o + 1 := by
    simp [lineStart, h]
  have hcount : Nat.count (fun i => endsBreak s i = true) (o + 1 + 1) =
      Nat.count (fun i => endsBreak s i = true) (o + 1) + 1 := by
    rw [Nat.count_succ]
    simp [h]
  simp only [positionIn, hstart, hcount, Position.mk.injEq]
  refine ⟨by push_cast; ring, by push_cast; ring, by push_cast; ring⟩

/-- The anchor from an offset in a cleaned text to one in the source. -/
def anchorAt (s : Bytes) (d o : Nat) : Anchor :=
  ⟨d, o, (positionIn s o).line, (positionIn s o).column⟩

variable {d : Nat}

theorem anchorAt_put : (anchorAt s d o).put = anchorAt s (d + 1) o := by
  simp [anchorAt, Anchor.put]

theorem anchorAt_skipBreak (h : endsBreak s (o + 1) = true) :
    (anchorAt s d o).skipBreak 1 = anchorAt s d (o + 1) := by
  simp [anchorAt, Anchor.skipBreak, positionIn_succ_break h]

section SameLine

variable (h : endsBreak s (o + 1) = false)

include h

theorem anchorAt_copy : (anchorAt s d o).copy = anchorAt s (d + 1) (o + 1) := by
  simp [anchorAt, Anchor.copy, positionIn_succ h, Position.along]

theorem anchorAt_skip : (anchorAt s d o).skip 1 = anchorAt s d (o + 1) := by
  simp [anchorAt, Anchor.skip, positionIn_succ h, Position.along]

theorem anchorAt_skip_two (h' : endsBreak s (o + 2) = false) :
    (anchorAt s d o).skip 2 = anchorAt s d (o + 2) := by
  rw [← anchorAt_skip h', ← anchorAt_skip h]
  simp only [Anchor.skip, Anchor.mk.injEq]
  refine ⟨trivial, by ring, trivial, by ring⟩

theorem anchorAt_skipBreak_two (h' : endsBreak s (o + 2) = true) :
    (anchorAt s d o).skipBreak 2 = anchorAt s d (o + 2) := by
  rw [← anchorAt_skipBreak h', ← anchorAt_skip h]
  simp only [Anchor.skipBreak, Anchor.skip, Anchor.mk.injEq]
  refine ⟨trivial, by ring, trivial, trivial⟩

end SameLine

theorem drop_add_of_drop {a b : Bytes} (h : s.drop o = a ++ b) : s.drop (o + a.length) = b := by
  rw [← drop_drop, h, drop_left]

theorem endsBreak_of_not_isBreak (h : s.drop o = c :: t) (hc : isBreak c = false) :
    endsBreak s (o + 1) = false := by
  simp only [isBreak, Bool.or_eq_false_iff] at hc
  rw [endsBreak_of_drop h, hc.1, hc.2]
  rfl

theorem endsBreak_of_pair (h : s.drop o = carriageReturn :: lineFeed :: t) :
    endsBreak s (o + 1) = false ∧ endsBreak s (o + 2) = true := by
  have hnext : s.drop (o + 1) = lineFeed :: t := drop_add_of_drop (a := [_]) h
  rw [endsBreak_of_drop h, endsBreak_of_drop hnext]
  exact ⟨rfl, rfl⟩

/-- Behind two bytes of one line, as those that open or close a comment are. -/
theorem anchorAt_skip_pair {c' : UInt8} (h : s.drop o = c :: c' :: t) (hc : isBreak c = false)
    (hc' : isBreak c' = false) : (anchorAt s d o).skip 2 = anchorAt s d (o + 2) := by
  have hnext : s.drop (o + 1) = c' :: t := drop_add_of_drop (a := [c]) h
  exact anchorAt_skip_two (endsBreak_of_not_isBreak h hc) (endsBreak_of_not_isBreak hnext hc')

section Scan

variable (a : Anchor)

theorem opensComment_of_isBreak (hc : isBreak c = true) (t : Bytes) :
    opensComment (c :: t) = false := by
  simp only [isBreak, Bool.or_eq_true, beq_iff_eq] at hc
  rcases hc with rfl | rfl
  · rfl
  · rfl

theorem ne_carriageReturn (hc : isBreak c = false) : c ≠ carriageReturn := by
  rintro rfl
  cases hc

theorem scan_breakPair (t : Bytes) :
    scan .code a (carriageReturn :: lineFeed :: t) =
      put lineFeed (mark (a.put.skipBreak 2) (scan .code (a.put.skipBreak 2) t)) := rfl

section Single

-- The byte does not start a line break of two bytes.
variable (hpair : c = carriageReturn → t.head? ≠ some lineFeed)

include hpair

theorem endsBreak_of_isBreak (h : s.drop o = c :: t) (hc : isBreak c = true) :
    endsBreak s (o + 1) = true := by
  rw [endsBreak_of_drop h]
  simp only [isBreak, Bool.or_eq_true, beq_iff_eq] at hc
  rcases hc with rfl | rfl
  · rfl
  · simpa using Or.inr (hpair rfl)

/-- A byte of code that does not open a comment. -/
theorem scan_code_cons (hopens : opensComment (c :: t) = false) :
    scan .code a (c :: t) =
      if isBreak c then put lineFeed (mark (a.put.skipBreak 1) (scan .code (a.put.skipBreak 1) t))
      else put c (scan .code a.copy t) := by
  rw [scan]
  · rintro t' rfl rfl
    cases hopens
  · rintro t' rfl rfl
    cases hopens
  · rintro t' rfl rfl
    exact hpair rfl rfl

theorem scan_lineComment_cons :
    scan .lineComment a (c :: t) =
      if isBreak c then
        mark a (put lineFeed (mark (a.put.skipBreak 1) (scan .code (a.put.skipBreak 1) t)))
      else scan .lineComment (a.skip 1) t := by
  rw [scan]
  rintro t' rfl rfl
  exact hpair rfl rfl

theorem scan_blockComment_cons (hclose : c = star → t.head? ≠ some slash) :
    scan .blockComment a (c :: t) =
      if isBreak c then scan .blockComment (a.skipBreak 1) t
      else scan .blockComment (a.skip 1) t := by
  rw [scan]
  · rintro t' rfl rfl
    exact hclose rfl rfl
  · rintro t' rfl rfl
    exact hpair rfl rfl

theorem scan_breakByte (hc : isBreak c = true) :
    scan .code a (c :: t) =
      put lineFeed (mark (a.put.skipBreak 1) (scan .code (a.put.skipBreak 1) t)) := by
  rw [scan_code_cons a hpair (opensComment_of_isBreak hc t), if_pos hc]

end Single

theorem scan_copied (hc : isBreak c = false) (hopens : opensComment (c :: t) = false) :
    scan .code a (c :: t) = put c (scan .code a.copy t) := by
  rw [scan_code_cons a (fun h => absurd h (ne_carriageReturn hc)) hopens, if_neg (by simp [hc])]

end Scan

/-- At the end of a line a line comment is over. -/
theorem scan_lineComment_end (a : Anchor) (hend : ∀ c, t.head? = some c → isBreak c = true) :
    scan .lineComment a t = mark a (scan .code a t) := by
  cases t with
  | nil => rfl
  | cons c t =>
    have hc := hend c rfl
    by_cases hpair : c = carriageReturn ∧ t.head? = some lineFeed
    · obtain ⟨rfl, hhead⟩ := hpair
      obtain ⟨t', rfl⟩ := head?_eq_some_iff.mp hhead
      rfl
    · rw [not_and] at hpair
      rw [scan_breakByte a hpair hc, scan_lineComment_cons a hpair, if_pos hc]

theorem scan_lineComment (hbody : ∀ c ∈ body, isBreak c = false)
    (hend : ∀ c, t.head? = some c → isBreak c = true) (h : s.drop o = body ++ t) :
    scan .lineComment (anchorAt s d o) (body ++ t) =
      mark (anchorAt s d (o + body.length)) (scan .code (anchorAt s d (o + body.length)) t) := by
  induction body generalizing o with
  | nil => exact scan_lineComment_end _ hend
  | cons c body ih =>
    have hc := hbody c (by simp)
    have hnext : s.drop (o + 1) = body ++ t := drop_add_of_drop (a := [c]) h
    have hstep : scan .lineComment (anchorAt s d o) (c :: (body ++ t)) =
        scan .lineComment ((anchorAt s d o).skip 1) (body ++ t) := by
      rw [scan_lineComment_cons _ fun h => absurd h (ne_carriageReturn hc), if_neg (by simp [hc])]
    rw [cons_append, hstep, anchorAt_skip (endsBreak_of_not_isBreak h hc),
      ih (fun c' hc' => hbody c' (mem_cons_of_mem _ hc')) hnext, length_cons,
      Nat.add_assoc, Nat.add_comm 1]

/-- One step inside a block comment: over a line break or over another byte. -/
theorem scan_blockComment_step (hopen : c = star → t.head? ≠ some slash) (h : s.drop o = c :: t) :
    (∃ t', c = carriageReturn ∧ t = lineFeed :: t' ∧
      scan .blockComment (anchorAt s d o) (c :: t) = scan .blockComment (anchorAt s d (o + 2)) t') ∨
    scan .blockComment (anchorAt s d o) (c :: t) = scan .blockComment (anchorAt s d (o + 1)) t := by
  by_cases hpair : c = carriageReturn ∧ t.head? = some lineFeed
  · obtain ⟨rfl, hhead⟩ := hpair
    obtain ⟨t', rfl⟩ := head?_eq_some_iff.mp hhead
    obtain ⟨hfirst, hsecond⟩ := endsBreak_of_pair h
    refine .inl ⟨t', rfl, rfl, ?_⟩
    rw [← anchorAt_skipBreak_two hfirst hsecond]
    rfl
  · rw [not_and] at hpair
    right
    rw [scan_blockComment_cons _ hpair hopen]
    cases hc : isBreak c with
    | true => rw [if_pos rfl, anchorAt_skipBreak (endsBreak_of_isBreak hpair h hc)]
    | false => rw [if_neg (by simp), anchorAt_skip (endsBreak_of_not_isBreak h hc)]

theorem not_infix_tail (h : ¬[star, slash] <:+: c :: body) :
    ¬[star, slash] <:+: body :=
  fun hinner => h (hinner.trans (suffix_cons c body).isInfix)

theorem head?_ne_of_not_isInfix (h : ¬[star, slash] <:+: c :: body) :
    c = star → body.head? ≠ some slash := by
  rintro rfl hhead
  obtain ⟨rest, rfl⟩ := head?_eq_some_iff.mp hhead
  exact h (prefix_append [star, slash] rest).isInfix

/-- Inside a block comment every byte is passed over up to what closes it. -/
theorem scan_blockComment (hbody : ¬[star, slash] <:+: body ++ t.take 1)
    (hpair : t.head? ≠ some lineFeed) (h : s.drop o = body ++ t) :
    scan .blockComment (anchorAt s d o) (body ++ t) =
      scan .blockComment (anchorAt s d (o + body.length)) t := by
  induction hn : body.length using Nat.strong_induction_on generalizing body o with
  | _ n ih =>
    cases body with
    | nil =>
      obtain rfl : 0 = n := hn
      rfl
    | cons c body =>
      rw [cons_append] at hbody h
      rw [length_cons] at hn
      have hopen : c = star → (body ++ t).head? ≠ some slash := by
        have hhead : (body ++ t).head? = (body ++ t.take 1).head? := by
          cases body <;> cases t <;> rfl
        rw [hhead]
        exact head?_ne_of_not_isInfix hbody
      rcases scan_blockComment_step (d := d) hopen h with ⟨behind, rfl, hbehind, hstep⟩ | hstep
      · cases body with
        | nil =>
          rw [nil_append] at hbehind
          exact absurd (hbehind ▸ rfl) hpair
        | cons c' body =>
          rw [cons_append, List.cons.injEq] at hbehind
          obtain ⟨rfl, rfl⟩ := hbehind
          have hnext : s.drop (o + 2) = body ++ t := drop_add_of_drop (a := [_, _]) h
          rw [length_cons] at hn
          rw [cons_append, cons_append] at *
          rw [hstep, ih body.length (by omega) (not_infix_tail (not_infix_tail hbody)) hnext rfl,
            ← hn, Nat.add_assoc, Nat.add_comm 2]
      · have hnext : s.drop (o + 1) = body ++ t := drop_add_of_drop (a := [c]) h
        rw [cons_append, hstep, ih body.length (by omega) (not_infix_tail hbody) hnext rfl, ← hn,
          Nat.add_assoc, Nat.add_comm 1]

/-- The anchors behind the pieces that are not copied. -/
def anchorsFrom (s : Bytes) : Nat → Nat → List Piece → List Anchor
  | _, _, [] => []
  | d, o, p :: ps =>
    let behind := anchorAt s (d + p.cleaned.length) (o + p.source.length)
    (if p.isCopied then [] else [behind]) ++
      anchorsFrom s (d + p.cleaned.length) (o + p.source.length) ps

/-- Cleaning sets its anchors behind the pieces, and leaves what these leave. -/
theorem Cuts.scan_eq {ps : List Piece} (h : Cuts t ps) (hs : s.drop o = t) :
    scan .code (anchorAt s d o) t = ⟨ps.flatMap cleaned, anchorsFrom s d o ps⟩ := by
  induction h generalizing d o with
  | nil => rfl
  | @copied c t ps hbreak hcomment _ ih =>
    have hnext : s.drop (o + 1) = t := drop_add_of_drop (a := [c]) hs
    rw [scan_copied _ hbreak hcomment, anchorAt_copy (endsBreak_of_not_isBreak hs hbreak), ih hnext]
    rfl
  | @breakPair t ps _ ih =>
    have hnext : s.drop (o + 2) = t := drop_add_of_drop (a := [_, _]) hs
    obtain ⟨hfirst, hsecond⟩ := endsBreak_of_pair hs
    rw [scan_breakPair, anchorAt_put, anchorAt_skipBreak_two hfirst hsecond, ih hnext]
    rfl
  | @breakByte c t ps hbreak hpair _ ih =>
    have hnext : s.drop (o + 1) = t := drop_add_of_drop (a := [c]) hs
    rw [scan_breakByte _ hpair hbreak, anchorAt_put,
      anchorAt_skipBreak (endsBreak_of_isBreak hpair hs hbreak), ih hnext]
    rfl
  | @lineComment body t ps hbody hend _ ih =>
    have hopening : s.drop (o + 2) = body ++ t := drop_add_of_drop (a := [_, _]) hs
    have hnext : s.drop (o + 2 + body.length) = t := drop_add_of_drop hopening
    have hskip := anchorAt_skip_pair (d := d) hs rfl rfl
    change scan .lineComment ((anchorAt s d o).skip 2) (body ++ t) = _
    rw [hskip, scan_lineComment hbody hend hopening, ih hnext]
    simp [mark, anchorsFrom, isCopied, cleaned, source, Nat.add_assoc, Nat.add_comm 2]
  | @blockComment body t ps hbody _ ih =>
    have hopening : s.drop (o + 2) = body ++ star :: slash :: t := drop_add_of_drop (a := [_, _]) hs
    have hclosing : s.drop (o + 2 + body.length) = star :: slash :: t := drop_add_of_drop hopening
    have hnext : s.drop (o + 2 + body.length + 2) = t := drop_add_of_drop (a := [_, _]) hclosing
    have hskip := anchorAt_skip_pair (d := d + 1) hs rfl rfl
    have hskip' := anchorAt_skip_pair (d := d + 1) hclosing rfl rfl
    have hstar : (star :: slash :: t).head? ≠ some lineFeed := by
      rw [head?_cons]
      decide
    change put blank (scan .blockComment ((anchorAt s d o).put.skip 2) _) = _
    rw [anchorAt_put, hskip, scan_blockComment hbody hstar hopening]
    change put blank
      (mark ((anchorAt s (d + 1) _).skip 2) (scan .code ((anchorAt s (d + 1) _).skip 2) t)) = _
    rw [hskip', ih hnext]
    have hlength : o + (body.length + 2 + 2) = o + 2 + body.length + 2 := by omega
    simp [put, mark, anchorsFrom, isCopied, cleaned, source, hlength]
  | @openComment body hbody =>
    have hopening : s.drop (o + 2) = body ++ [] := by
      rw [append_nil]
      exact drop_add_of_drop (a := [_, _]) hs
    have hskip := anchorAt_skip_pair (d := d + 1) hs rfl rfl
    have hpassed :=
      scan_blockComment (d := d + 1) (t := []) (by simpa using hbody) (by simp) hopening
    rw [append_nil] at hpassed
    change put blank (scan .blockComment ((anchorAt s d o).put.skip 2) body) = _
    have hend : scan .blockComment (anchorAt s (d + 1) (o + 2 + body.length)) [] = ⟨[], [_]⟩ := rfl
    rw [anchorAt_put, hskip, hpassed, hend]
    simp [put, anchorsFrom, isCopied, cleaned, source, Nat.add_assoc, Nat.add_comm 2]

end Eel.Cleaned
