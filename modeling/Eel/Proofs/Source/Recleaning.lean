import Eel.Proofs.Source.Incomplete
import Eel.Proofs.Source.Spans

/-!
Cleaned texts.

What is left of a source has no carriage return and opens no comment anywhere,
since what a comment leaves keeps the bytes around it apart. Such a text is
cleaned to itself, holds the script of the source, and is read without ever
coming to a comment.
-/

namespace Eel

open Cleaned Bytes List

namespace Token

section Inside

/-- A way to read on inside a comment. Given its kind, the place where it opens,
and the place and the text behind that, it finds the next token. -/
abbrev CommentReader := Mode → Position → Position → Bytes → Gap

/-- Passes over blanks. What is done inside a comment is left to `inside`. -/
def skipBlanks (inside : CommentReader) (p : Position) : Bytes → Gap
  | slash :: slash :: s => inside .lineComment p (p.along 2) s
  | Bytes.slash :: Bytes.star :: s => inside .blockComment p (p.along 2) s
  | c :: s => if isSpace c then skipBlanks inside (p.past c) s else .token p (c :: s)
  | [] => .token p []

/-- At most `fuel` tokens from a place on, with `inside` for the comments. -/
def listVia (inside : CommentReader) : Nat → Position → Bytes → List Token
  | 0, p, _ => [⟨.finish, [], p⟩]
  | fuel + 1, p, s =>
    match skipBlanks inside p s with
    | .openComment start => [⟨.openComment, utf8 "/*", start⟩]
    | .token p s =>
      let (kind, lexeme) := classify s
      let t : Token := ⟨kind, lexeme, p⟩
      if kind.isLast then [t] else t :: listVia inside fuel t.stop (s.drop lexeme.length)

variable (inside : CommentReader) {s : Bytes}

theorem skipBlanks_cons {c : UInt8} (h : opensComment (c :: s) = false) (p : Position) :
    skipBlanks inside p (c :: s) = if isSpace c then skipBlanks inside (p.past c) s
      else .token p (c :: s) := by
  rw [skipBlanks]
  · rintro rest rfl rfl
    cases h
  · rintro rest rfl rfl
    cases h

/-- Where no comment opens, it makes no difference what would be done inside of
one. -/
theorem skipBlanks_eq (h : CommentFree s) (p : Position) :
    skipBlanks inside p s =
      .token ((s.takeWhile isSpace).foldl Position.past p) (s.dropWhile isSpace) := by
  induction s generalizing p with
  | nil => rfl
  | cons c s ih =>
    rw [skipBlanks_cons inside (h _ suffix_rfl), ih (h.suffix (suffix_cons c s))]
    cases hc : isSpace c <;> simp [hc]

/-- With the lexer's own way through comments, this is what the lexer does. -/
theorem skipBlanks_skipGap (opened p : Position) (s : Bytes) :
    skipBlanks skipGap p s = skipGap .code opened p s := by
  induction s generalizing p with
  | nil => rfl
  | cons c s ih =>
    cases hopens : opensComment (c :: s) with
    | true =>
      obtain ⟨rest, hrest | hrest⟩ := opensComment_eq_true hopens
      · rw [hrest]
        rfl
      · rw [hrest]
        rfl
    | false =>
      rw [skipBlanks_cons skipGap hopens]
      cases hc : isSpace c with
      | true => rw [if_pos rfl, ih, skipGap_blank hc]
      | false => rw [if_neg (by simp), skipGap_token hc hopens]

theorem listVia_skipGap (fuel : Nat) (p : Position) (s : Bytes) :
    listVia skipGap fuel p s = listWithin fuel p s := by
  induction fuel generalizing p s with
  | zero => rfl
  | succ fuel ih =>
    rw [listVia, listWithin, skipBlanks_skipGap p]
    cases skipGap .code p p s with
    | openComment => rfl
    | token => simp only [ih]

/-- Behind a token of a text without comments there are none either. -/
theorem listVia_eq (h : CommentFree s) (fuel : Nat) (p : Position) :
    listVia inside fuel p s = listVia skipGap fuel p s := by
  induction fuel generalizing p s with
  | zero => rfl
  | succ fuel ih =>
    rw [listVia, listVia, skipBlanks_eq inside h, skipBlanks_eq skipGap h]
    dsimp only
    rw [ih (h.suffix ((drop_suffix _ _).trans (dropWhile_suffix _)))]

end Inside

end Token

namespace Cleaned

variable {s : Bytes}

theorem commentFree_iff : Token.CommentFree s ↔
    ¬[slash, slash] <:+: s ∧ ¬[slash, star] <:+: s := by
  have hopens {d : UInt8} (h : ¬[slash, d] <:+: s) (rest : Bytes) : ¬slash :: d :: rest <:+ s :=
    fun hsuffix => h ((prefix_append [slash, d] rest).isInfix.trans hsuffix.isInfix)
  constructor
  · intro h
    refine ⟨?_, ?_⟩
    all_goals
      rintro ⟨front, back, rfl⟩
      cases h _ ⟨front, by rw [append_assoc]⟩
  · rintro ⟨hline, hblock⟩ t ht
    by_contra h
    obtain ⟨rest, rfl | rfl⟩ := opensComment_eq_true (by simpa using h)
    · exact hopens hline rest ht
    · exact hopens hblock rest ht

/-- A text that opens no comment and has no carriage return is cleaned to
itself. -/
theorem text_ofSource_of_plain (hfree : Token.CommentFree s) (hreturn : carriageReturn ∉ s) :
    (ofSource s).text = s := by
  obtain ⟨ps, hcuts, hcleaned⟩ := exists_cuts_of_commentFree hfree hreturn
  rw [text_ofSource hcuts, hcleaned]

/-- That a text is cleaned: nothing is left to drop or to replace, and a lexer
comes to no comment in it, so that its tokens are the same whatever is done
inside of comments. -/
structure Settled (t : Bytes) : Prop where
  noReturn : carriageReturn ∉ t
  noLineComment : ¬[slash, slash] <:+: t
  noBlockComment : ¬[slash, star] <:+: t
  unchanged : (ofSource t).text = t
  uncommented : ∀ inside, Token.listVia inside (t.length + 1) .start t = Token.list t

theorem settled_ofSource (s : Bytes) : Settled (ofSource s).text := by
  obtain ⟨hfree, hreturn⟩ := ofSource_plain s
  obtain ⟨hline, hblock⟩ := commentFree_iff.mp hfree
  refine ⟨hreturn, hline, hblock, text_ofSource_of_plain hfree hreturn, fun inside => ?_⟩
  rw [Token.listVia_eq inside hfree, Token.listVia_skipGap, Token.list]

end Cleaned

namespace Source

theorem toOption_parse (s : Bytes) :
    (parse s).toOption.map Source.script = (Script.parse (ofSource s).text).toOption := by
  rw [parse_eq]
  cases Script.parse (ofSource s).text <;> rfl

/-- No source is refused for a comment that is not closed. -/
theorem cause_ne_openComment {s : Bytes} {e : ParseError} (h : parse s = .error e) :
    e.cause ≠ .openComment := by
  obtain ⟨e', hscript, rfl⟩ := parse_eq_error_iff.mp h
  obtain ⟨hfree, hreturn⟩ := ofSource_plain s
  obtain ⟨i, -, hcause, -⟩ := (Tree.parse_lays hfree hreturn).2 e' hscript
  intro hopen
  rw [show e'.cause = .openComment from hopen] at hcause
  exact hcause

/-- Cleaning is done once and for all. What a source is cleaned to is cleaned
already, gives the same script with the same spans, or none either, and no
source is refused for a comment that is not closed. -/
theorem parse_cleaned (s : Bytes) : Settled (ofSource s).text ∧
    (parse (ofSource s).text).toOption.map Source.script = (parse s).toOption.map Source.script ∧
      ¬∃ e, parse s = .error e ∧ e.cause = .openComment := by
  have hsettled := settled_ofSource s
  refine ⟨hsettled, ?_, fun ⟨e, he, hcause⟩ => cause_ne_openComment he hcause⟩
  rw [toOption_parse, toOption_parse, hsettled.unchanged]

end Source

end Eel
