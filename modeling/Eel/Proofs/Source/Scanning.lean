import Eel.Proofs.Source.Continuation

/-!
Cleaning step by step.

A scan goes on behind a byte, behind a line break, or behind the two bytes that
open or close a comment. Whether a source ends inside a comment is found in
another way, by a search for what closes each comment that opens. Both agree,
since the answer of the search stays the same from one step of the scan to the
next.
-/

namespace Eel.Cleaned

open Source Bytes List

/-- A scan under way: what the next byte belongs to, the place that is reached,
and what is left of the source. -/
structure Scan where
  mode : Mode
  place : Anchor
  rest : Bytes

namespace Scan

/-- The scan of a source before its first step. -/
def start (s : Bytes) : Scan := ⟨.code, .start, s⟩

/-- What the rest is cleaned to. -/
def result (x : Scan) : Cleaned := scan x.mode x.place x.rest

/-- One step of a scan. A line break ends a line comment, but is passed over
inside a block comment. -/
inductive Step : Scan → Scan → Prop
  | openLine (a : Anchor) (s : Bytes) :
      Step ⟨.code, a, slash :: slash :: s⟩ ⟨.lineComment, a.skip 2, s⟩
  | openBlock (a : Anchor) (s : Bytes) :
      Step ⟨.code, a, slash :: star :: s⟩ ⟨.blockComment, a.put.skip 2, s⟩
  | copied (a : Anchor) {c : UInt8} {s : Bytes} (hbreak : isBreak c = false)
      (hopens : opensComment (c :: s) = false) : Step ⟨.code, a, c :: s⟩ ⟨.code, a.copy, s⟩
  | breakPair {m : Mode} (a : Anchor) (s : Bytes) (hmode : m ≠ .blockComment) :
      Step ⟨m, a, carriageReturn :: lineFeed :: s⟩ ⟨.code, a.put.skipBreak 2, s⟩
  | breakByte {m : Mode} (a : Anchor) {c : UInt8} {s : Bytes} (hmode : m ≠ .blockComment)
      (hbreak : isBreak c = true) (hpair : c = carriageReturn → s.head? ≠ some lineFeed) :
      Step ⟨m, a, c :: s⟩ ⟨.code, a.put.skipBreak 1, s⟩
  | inLine (a : Anchor) {c : UInt8} {s : Bytes} (hbreak : isBreak c = false) :
      Step ⟨.lineComment, a, c :: s⟩ ⟨.lineComment, a.skip 1, s⟩
  | closeBlock (a : Anchor) (s : Bytes) :
      Step ⟨.blockComment, a, star :: slash :: s⟩ ⟨.code, a.skip 2, s⟩
  | pairInBlock (a : Anchor) (s : Bytes) :
      Step ⟨.blockComment, a, carriageReturn :: lineFeed :: s⟩ ⟨.blockComment, a.skipBreak 2, s⟩
  | inBlock (a : Anchor) {c : UInt8} {s : Bytes} (hcloses : c = star → s.head? ≠ some slash)
      (hpair : c = carriageReturn → s.head? ≠ some lineFeed) :
      Step ⟨.blockComment, a, c :: s⟩ ⟨.blockComment, if isBreak c then a.skipBreak 1
        else a.skip 1, s⟩

/-- That a scan comes to another one after some steps. -/
def Reaches : Scan → Scan → Prop := Relation.ReflTransGen Step

/-- That a scan leaves some bytes and sets some anchors before it comes to
another one. -/
structure Leaves (x y : Scan) (w : Bytes) (marks : List Anchor) : Prop where
  result : x.result = ⟨w ++ y.result.text, marks ++ y.result.anchors⟩
  dest : y.place.dest = x.place.dest + w.length

variable {x y : Scan}

/-- A step leaves a byte or none, and the rest is cleaned from there on. -/
theorem Step.leaves (h : x.Step y) : ∃ w marks, x.Leaves y w marks := by
  cases h with
  | openLine => exact ⟨[], [], rfl, (add_zero _).symm⟩
  | openBlock => exact ⟨[blank], [], rfl, rfl⟩
  | @copied a c s hbreak hopens => exact ⟨[c], [], scan_copied a hbreak hopens, rfl⟩
  | @breakPair m a s hmode =>
    cases m with
    | code => exact ⟨[lineFeed], [_], rfl, rfl⟩
    | lineComment => exact ⟨[lineFeed], [_, _], rfl, rfl⟩
    | blockComment => exact absurd rfl hmode
  | @breakByte m a c s hmode hbreak hpair =>
    cases m with
    | code => exact ⟨[lineFeed], [_], scan_breakByte a hpair hbreak, rfl⟩
    | lineComment =>
      refine ⟨[lineFeed], [a, a.put.skipBreak 1], ?_, rfl⟩
      rw [result, scan_lineComment_cons a hpair, if_pos hbreak]
      rfl
    | blockComment => exact absurd rfl hmode
  | @inLine a c s hbreak =>
    refine ⟨[], [], ?_, (add_zero _).symm⟩
    rw [result, scan_lineComment_cons a fun hc => absurd hc (ne_carriageReturn hbreak),
      if_neg (by simp [hbreak])]
    rfl
  | closeBlock => exact ⟨[], [_], rfl, (add_zero _).symm⟩
  | pairInBlock => exact ⟨[], [], rfl, (add_zero _).symm⟩
  | @inBlock a c s hcloses hpair =>
    refine ⟨[], [], ?_, ?_⟩
    · rw [result, scan_blockComment_cons a hpair hcloses, ← apply_ite (scan .blockComment · s)]
      rfl
    · dsimp only
      split <;> exact (add_zero _).symm

theorem Reaches.leaves (h : x.Reaches y) : ∃ w marks, x.Leaves y w marks := by
  induction h with
  | refl => exact ⟨[], [], rfl, (add_zero _).symm⟩
  | tail _ hstep ih =>
    obtain ⟨w, marks, hresult, hdest⟩ := ih
    obtain ⟨w', marks', hresult', hdest'⟩ := hstep.leaves
    refine ⟨w ++ w', marks ++ marks', ?_, ?_⟩
    · rw [hresult, hresult', append_assoc, append_assoc]
    · rw [hdest', hdest, length_append]
      push_cast
      ring

/-- Until nothing is left, there is a further step. -/
theorem exists_step (m : Mode) (a : Anchor) (c : UInt8) (s : Bytes) :
    ∃ y, Step ⟨m, a, c :: s⟩ y := by
  by_cases hpair : c = carriageReturn ∧ s.head? = some lineFeed
  · obtain ⟨rfl, hhead⟩ := hpair
    obtain ⟨s, rfl⟩ := head?_eq_some_iff.mp hhead
    cases m with
    | code | lineComment => exact ⟨_, .breakPair a s (by decide)⟩
    | blockComment => exact ⟨_, .pairInBlock a s⟩
  · rw [not_and] at hpair
    cases m with
    | code =>
      cases hopens : opensComment (c :: s) with
      | true =>
        obtain ⟨rest, hrest | hrest⟩ := opensComment_eq_true hopens
        · exact hrest ▸ ⟨_, .openLine a rest⟩
        · exact hrest ▸ ⟨_, .openBlock a rest⟩
      | false =>
        cases hbreak : isBreak c with
        | true => exact ⟨_, .breakByte a (by decide) hbreak hpair⟩
        | false => exact ⟨_, .copied a hbreak hopens⟩
    | lineComment =>
      cases hbreak : isBreak c with
      | true => exact ⟨_, .breakByte a (by decide) hbreak hpair⟩
      | false => exact ⟨_, .inLine a hbreak⟩
    | blockComment =>
      by_cases hcloses : c = star ∧ s.head? = some slash
      · obtain ⟨rfl, hhead⟩ := hcloses
        obtain ⟨s, rfl⟩ := head?_eq_some_iff.mp hhead
        exact ⟨_, .closeBlock a s⟩
      · exact ⟨_, .inBlock a (not_and.mp hcloses) hpair⟩

theorem Step.length_lt (h : x.Step y) : y.rest.length < x.rest.length := by
  cases h <;> simp only [length_cons] <;> omega

/-- Every scan comes to the end of its source. -/
theorem exists_reaches_end (x : Scan) : ∃ m a, x.Reaches ⟨m, a, []⟩ := by
  induction hn : x.rest.length using Nat.strong_induction_on generalizing x with
  | _ n ih =>
    obtain ⟨m, a, s⟩ := x
    cases s with
    | nil => exact ⟨m, a, .refl⟩
    | cons c s =>
      obtain ⟨y, hstep⟩ := exists_step m a c s
      obtain ⟨m', a', hend⟩ := ih y.rest.length (hn ▸ hstep.length_lt) y rfl
      exact ⟨m', a', .head hstep hend⟩

/-- Whether the rest of a source ends inside a comment, depending on what it
starts inside of. -/
def endsOpen (x : Scan) : Bool :=
  match x.mode with
  | .code => endsInComment x.rest
  | .lineComment => endsInComment (x.rest.dropWhile (!isBreak ·))
  | .blockComment => (afterClosing? x.rest).elim true endsInComment

theorem endsInComment_pair (s : Bytes) :
    endsInComment (carriageReturn :: lineFeed :: s) = endsInComment s := by
  rw [endsInComment_cons rfl, endsInComment_cons rfl]

theorem afterClosing?_pair (s : Bytes) :
    afterClosing? (carriageReturn :: lineFeed :: s) = afterClosing? s := by
  have hreturn : carriageReturn ≠ star := by decide
  have hfeed : lineFeed ≠ star := by decide
  rw [afterClosing?_cons fun h => absurd h hreturn, afterClosing?_cons fun h => absurd h hfeed]

/-- Each step leaves the answer as it is. -/
theorem Step.endsOpen_eq (h : x.Step y) : y.endsOpen = x.endsOpen := by
  cases h with
  | openLine a s => exact (endsInComment_lineComment s).symm
  | openBlock a s => exact (endsInComment_blockComment s).symm
  | copied a _ hopens => exact (endsInComment_cons hopens).symm
  | @breakPair m a s hmode =>
    cases m with
    | code | lineComment => exact (endsInComment_pair s).symm
    | blockComment => exact absurd rfl hmode
  | @breakByte m a c s hmode hbreak _ =>
    have hrest := endsInComment_cons (opensComment_of_isBreak hbreak s)
    cases m with
    | code => exact hrest.symm
    | lineComment =>
      rw [endsOpen, endsOpen, dropWhile_cons_of_neg (by simp [hbreak]), hrest]
    | blockComment => exact absurd rfl hmode
  | inLine a hbreak => rw [endsOpen, endsOpen, dropWhile_cons_of_pos (by simp [hbreak])]
  | closeBlock => rfl
  | pairInBlock a s => rw [endsOpen, endsOpen, afterClosing?_pair]
  | inBlock a hcloses _ => rw [endsOpen, endsOpen, afterClosing?_cons hcloses]

theorem Reaches.endsOpen_eq (h : x.Reaches y) : y.endsOpen = x.endsOpen := by
  induction h with
  | refl => rfl
  | tail _ hstep ih => rw [hstep.endsOpen_eq, ih]

/-- A scan that started outside of comments is inside a block comment only
behind what opened it, and nothing has closed it since. -/
theorem Reaches.exists_opening (h : x.Reaches y) (hx : x.mode ≠ .blockComment)
    (hy : y.mode = .blockComment) :
    ∃ a s, x.Reaches ⟨.code, a, slash :: star :: s⟩ ∧ afterClosing? s = afterClosing? y.rest := by
  induction h with
  | refl => exact absurd hy hx
  | tail hreaches hstep ih =>
    cases hstep with
    | openLine | copied | breakPair | breakByte | inLine | closeBlock => cases hy
    | openBlock a s => exact ⟨a, s, hreaches, rfl⟩
    | pairInBlock a s =>
      obtain ⟨a', s', hopening, hclosing⟩ := ih rfl
      exact ⟨a', s', hopening, by rw [hclosing, afterClosing?_pair]⟩
    | inBlock a hcloses _ =>
      obtain ⟨a', s', hopening, hclosing⟩ := ih rfl
      exact ⟨a', s', hopening, by rw [hclosing, afterClosing?_cons hcloses]⟩

/-- A step that does not lead on in the cleaned text leaves nothing there. -/
theorem Step.text_eq (h : x.Step y) (hdest : y.place.dest = x.place.dest) :
    x.result.text = y.result.text := by
  obtain ⟨w, marks, hresult, hdest'⟩ := h.leaves
  obtain rfl : w = [] := length_eq_zero_iff.mp (by omega)
  rw [hresult, nil_append]

/-- Nothing is left of a block comment that is never closed. -/
theorem text_unclosed {a : Anchor} {s : Bytes} (h : afterClosing? s = none) :
    (result ⟨.blockComment, a, s⟩).text = [] := by
  induction hn : s.length using Nat.strong_induction_on generalizing a s with
  | _ n ih =>
    cases s with
    | nil => rfl
    | cons c s =>
      obtain ⟨y, hstep⟩ := exists_step .blockComment a c s
      have hlt := hn ▸ hstep.length_lt
      cases hstep with
      | breakPair _ _ hmode | breakByte _ hmode => exact absurd rfl hmode
      | closeBlock => cases h
      | pairInBlock _ s =>
        rw [(Step.pairInBlock a s).text_eq rfl]
        exact ih s.length hlt (afterClosing?_pair s ▸ h) rfl
      | inBlock _ hcloses hpair =>
        rw [(Step.inBlock a hcloses hpair).text_eq (by dsimp only; split <;> rfl)]
        exact ih s.length hlt (afterClosing?_cons hcloses ▸ h) rfl

end Scan

/-- A source ends inside a comment exactly if its scan comes to the opening of a
block comment, outside of all others, that nothing behind the two opening bytes
closes. The cleaned text then ends with the blank for that comment, and the scan
is inside of it when nothing is left. -/
theorem endsInComment_tfae (s : Bytes) : List.TFAE [
    endsInComment s = true,
    ∃ a rest, (Scan.start s).Reaches ⟨.code, a, Bytes.slash :: Bytes.star :: rest⟩ ∧
      ¬[Bytes.star, Bytes.slash] <:+: rest,
    ∃ a rest w, (Scan.start s).Reaches ⟨.code, a, Bytes.slash :: Bytes.star :: rest⟩ ∧
      ¬[Bytes.star, Bytes.slash] <:+: rest ∧
      a.dest = w.length ∧ (ofSource s).text = w ++ [Bytes.blank],
    ∃ a, (Scan.start s).Reaches ⟨.blockComment, a, []⟩] := by
  tfae_have 1 → 4 := by
    intro h
    obtain ⟨m, a, hend⟩ := (Scan.start s).exists_reaches_end
    have hopen : (Scan.mk m a []).endsOpen = true := hend.endsOpen_eq.trans h
    cases m with
    | blockComment => exact ⟨a, hend⟩
    | code | lineComment =>
      have hnil : endsInComment [] = false := by rw [endsInComment]
      cases hopen.symm.trans hnil
  tfae_have 4 → 2 := by
    rintro ⟨a, hend⟩
    obtain ⟨b, rest, hopening, hclosing⟩ := hend.exists_opening (by simp [Scan.start]) rfl
    exact ⟨b, rest, hopening, not_infix_of_afterClosing? hclosing⟩
  tfae_have 2 → 3 := by
    rintro ⟨a, rest, hopening, hunclosed⟩
    obtain ⟨w, marks, hresult, hdest⟩ := hopening.leaves
    refine ⟨a, rest, w, hopening, hunclosed, hdest.trans (zero_add _), ?_⟩
    have hblank :
        (Scan.result ⟨.code, a, Bytes.slash :: Bytes.star :: rest⟩).text = [Bytes.blank] :=
      congrArg (List.cons Bytes.blank) (Scan.text_unclosed (afterClosing?_eq_none hunclosed))
    rw [← hblank]
    exact congrArg Cleaned.text hresult
  tfae_have 3 → 1 := by
    rintro ⟨a, rest, w, hopening, hunclosed, -, -⟩
    have hopen : (Scan.mk .code a (Bytes.slash :: Bytes.star :: rest)).endsOpen = true := by
      rw [Scan.endsOpen, endsInComment_blockComment, afterClosing?_eq_none hunclosed]
      rfl
    exact hopening.endsOpen_eq.symm.trans hopen
  tfae_finish

end Eel.Cleaned
