import Mathlib
import Eel.Source.Cleaned

/-!
Sources in pieces.

A source is cut into the bytes that are copied, the line breaks and the
comments. The cut is said by rules about the text alone: a line comment reaches
up to the next line break, a block comment up to the first star-slash behind its
opening, and a carriage return takes a line feed behind it along. What a source
is cleaned to is what its pieces leave, one after another.
-/

namespace Eel.Cleaned

open Bytes List

variable {s : Bytes} {c : UInt8}

inductive Piece where
  | copied (c : UInt8)
  | lineBreak (text : Bytes)
  | lineComment (body : Bytes)
  | blockComment (body : Bytes)
  | openComment (body : Bytes)
deriving DecidableEq, Repr

namespace Piece

/-- A piece as it stands in the source. -/
def source : Piece → Bytes
  | copied c => [c]
  | lineBreak text => text
  | lineComment body => slash :: slash :: body
  | blockComment body => slash :: star :: (body ++ [star, slash])
  | openComment body => slash :: star :: body

/-- What is left of a piece in the cleaned text. -/
def cleaned : Piece → Bytes
  | copied c => [c]
  | lineBreak _ => [lineFeed]
  | lineComment _ => []
  | blockComment _ | openComment _ => [blank]

def isCopied : Piece → Bool
  | copied _ => true
  | _ => false

end Piece

/-- Whether a text starts with one of the two signs that open a comment. -/
def opensComment : Bytes → Bool
  | Bytes.slash :: Bytes.slash :: _ | Bytes.slash :: Bytes.star :: _ => true
  | _ => false

/-- A source and the pieces that it is cut into. -/
inductive Cuts : Bytes → List Piece → Prop
  | nil : Cuts [] []
  | copied {c : UInt8} {s : Bytes} {ps : List Piece} (hbreak : isBreak c = false)
      (hcomment : opensComment (c :: s) = false) (h : Cuts s ps) : Cuts (c :: s) (.copied c :: ps)
  | breakPair {s : Bytes} {ps : List Piece} (h : Cuts s ps) :
      Cuts (carriageReturn :: lineFeed :: s)
        (.lineBreak [carriageReturn, lineFeed] :: ps)
  | breakByte {c : UInt8} {s : Bytes} {ps : List Piece} (hbreak : isBreak c = true)
      (hpair : c = carriageReturn → s.head? ≠ some lineFeed) (h : Cuts s ps) :
      Cuts (c :: s) (.lineBreak [c] :: ps)
  | lineComment {body s : Bytes} {ps : List Piece} (hbody : ∀ c ∈ body, isBreak c = false)
      (hend : ∀ c, s.head? = some c → isBreak c = true) (h : Cuts s ps) :
      Cuts (slash :: slash :: (body ++ s)) (.lineComment body :: ps)
  | blockComment {body s : Bytes} {ps : List Piece}
      (hbody : ¬[star, slash] <:+: body ++ [star]) (h : Cuts s ps) :
      Cuts (slash :: star :: (body ++ star :: slash :: s)) (.blockComment body :: ps)
  | openComment {body : Bytes} (hbody : ¬[star, slash] <:+: body) :
      Cuts (slash :: star :: body) [.openComment body]

open Source

theorem not_infix_cons (h : ¬[star, slash] <:+: s) (hc : c = star → s.head? ≠ some slash) :
    ¬[star, slash] <:+: c :: s := by
  rw [infix_cons_iff]
  rintro (hfront | hinner)
  · obtain ⟨rest, hrest⟩ := hfront
    rw [cons_append, List.cons.injEq] at hrest
    apply hc hrest.1.symm
    rw [← hrest.2]
    rfl
  · exact h hinner

theorem not_infix_of_afterClosing? (h : afterClosing? s = none) :
    ¬[star, slash] <:+: s := by
  fun_induction afterClosing? s with
  | case1 => simp
  | case2 s => simp at h
  | case3 c s hclosing ih =>
    refine not_infix_cons (ih h) fun hc hs => ?_
    obtain ⟨rest, rfl⟩ : ∃ rest, s = slash :: rest := head?_eq_some_iff.mp hs
    exact hclosing rest hc rfl

theorem exists_body_of_afterClosing? {rest : Bytes} (h : afterClosing? s = some rest) :
    ∃ body, s = body ++ star :: slash :: rest ∧
      ¬[star, slash] <:+: body ++ [star] := by
  fun_induction afterClosing? s with
  | case1 => simp at h
  | case2 s =>
    obtain rfl : s = rest := by simpa using h
    exact ⟨[], rfl, by decide⟩
  | case3 c s hclosing ih =>
    obtain ⟨body, rfl, hbody⟩ := ih h
    refine ⟨c :: body, rfl, not_infix_cons hbody fun hc hhead => ?_⟩
    cases body with
    | nil => exact absurd hhead (by decide)
    | cons d body =>
      obtain rfl : d = slash := by simpa using hhead
      exact hclosing _ hc rfl

/-- A text up to the first byte of a kind. -/
theorem exists_upTo (p : UInt8 → Bool) (s : Bytes) : ∃ body rest, s = body ++ rest ∧
    (∀ c ∈ body, p c = false) ∧ ∀ c, rest.head? = some c → p c = true := by
  refine ⟨s.takeWhile (!p ·), s.dropWhile (!p ·), takeWhile_append_dropWhile.symm, ?_, ?_⟩
  · intro c hc
    simpa using mem_takeWhile_imp hc
  · intro c hc
    have hhead := head?_dropWhile_not (!p ·) s
    rw [hc] at hhead
    simpa using hhead

theorem opensComment_eq_true (h : opensComment s = true) :
    ∃ rest, s = slash :: slash :: rest ∨ s = slash :: star :: rest := by
  unfold opensComment at h
  split at h
  · exact ⟨_, .inl rfl⟩
  · exact ⟨_, .inr rfl⟩
  · cases h

theorem exists_cuts_comment (hopens : opensComment s = true)
    (hcut : ∀ rest : Bytes, rest.length < s.length → ∃ ps, Cuts rest ps) : ∃ ps, Cuts s ps := by
  obtain ⟨rest, rfl | rfl⟩ := opensComment_eq_true hopens
  · obtain ⟨body, rest, rfl, hbody, hend⟩ := exists_upTo isBreak rest
    obtain ⟨ps, hps⟩ := hcut rest (by simp only [length_cons, length_append]; omega)
    exact ⟨_, .lineComment hbody hend hps⟩
  · cases hclosing : afterClosing? rest with
    | none => exact ⟨_, .openComment (not_infix_of_afterClosing? hclosing)⟩
    | some behind =>
      obtain ⟨body, rfl, hbody⟩ := exists_body_of_afterClosing? hclosing
      obtain ⟨ps, hps⟩ := hcut behind (by simp only [length_cons, length_append]; omega)
      exact ⟨_, .blockComment hbody hps⟩

theorem exists_cuts_break (hbreak : isBreak c = true)
    (hcut : ∀ rest : Bytes, rest.length < (c :: s).length → ∃ ps, Cuts rest ps) :
    ∃ ps, Cuts (c :: s) ps := by
  by_cases hpair : c = carriageReturn ∧ s.head? = some lineFeed
  · obtain ⟨rfl, hhead⟩ := hpair
    obtain ⟨rest, rfl⟩ := head?_eq_some_iff.mp hhead
    obtain ⟨ps, hps⟩ := hcut rest (by simp only [length_cons]; omega)
    exact ⟨_, .breakPair hps⟩
  · obtain ⟨ps, hps⟩ := hcut s (by simp only [length_cons]; omega)
    exact ⟨_, .breakByte hbreak (fun hc hs => hpair ⟨hc, hs⟩) hps⟩

/-- Every source is cut in some way. -/
theorem exists_cuts (s : Bytes) : ∃ ps, Cuts s ps := by
  induction hn : s.length using Nat.strong_induction_on generalizing s with
  | _ n ih =>
    have hcut (rest : Bytes) (hrest : rest.length < s.length) : ∃ ps, Cuts rest ps :=
      ih rest.length (hn ▸ hrest) rest rfl
    cases s with
    | nil => exact ⟨[], .nil⟩
    | cons c s =>
      cases hopens : opensComment (c :: s) with
      | true => exact exists_cuts_comment hopens hcut
      | false =>
        cases hbreak : isBreak c with
        | true => exact exists_cuts_break hbreak hcut
        | false =>
          obtain ⟨ps, hps⟩ := hcut s (by simp only [length_cons]; omega)
          exact ⟨_, .copied hbreak hopens hps⟩

theorem Cuts.source_eq {ps : List Piece} (h : Cuts s ps) : ps.flatMap Piece.source = s := by
  induction h with
  | nil => rfl
  | copied _ _ _ ih | breakPair _ ih | breakByte _ _ _ ih | lineComment _ _ _ ih
  | blockComment _ _ ih =>
    simp [Piece.source, ih]
  | openComment => simp [Piece.source]

end Eel.Cleaned
