import Eel.Proofs.Source.Continuation
import Eel.Proofs.Token.Spelling
import Eel.Proofs.Tree.Lookahead
import Eel.Source.Basic

/-!
Sources that break off.

An error is marked as incomplete exactly if further lines could still make a
script of the source. What is missing is written with zeros and parentheses.
What cannot be repaired is recognized by the tokens before the end: these stay
the same, whatever follows on the next line.
-/

namespace Eel

open Bytes List

namespace Cleaned

/-- A text without comments and without carriage returns is cleaned already. -/
theorem exists_cuts_of_commentFree {s : Bytes} (h : Token.CommentFree s)
    (hreturn : carriageReturn ∉ s) : ∃ ps, Cuts s ps ∧ ps.flatMap Piece.cleaned = s := by
  induction s with
  | nil => exact ⟨[], .nil, rfl⟩
  | cons c s ih =>
    obtain ⟨ps, hps, hcleaned⟩ := ih (h.suffix (suffix_cons c s)) (by simp_all)
    cases hbreak : isBreak c with
    | true =>
      have hc : c ≠ carriageReturn := by
        rintro rfl
        simp at hreturn
      obtain rfl : c = lineFeed := by simpa [isBreak, hc] using hbreak
      exact ⟨_, .breakByte hbreak (fun h => absurd h hc) hps, by simp [Piece.cleaned, hcleaned]⟩
    | false =>
      exact ⟨_, .copied hbreak (h _ suffix_rfl) hps, by simp [Piece.cleaned, hcleaned]⟩

end Cleaned

variable {e : ParseError} {us : List Word} {last : Kind}

namespace Token

theorem Spell.prepend {front ts : List Token} (hfront : ∀ t ∈ front, t.kind.isLast = false)
    (h : Spell last ts us) : Spell last (front ++ ts) (front.filterMap word? ++ us) := by
  induction front with
  | nil => exact h
  | cons t front ih =>
    obtain ⟨w, hw⟩ := exists_word (hfront t (by simp))
    rw [filterMap_cons_some hw]
    exact .word hw (ih fun u hu => hfront u (by simp [hu]))

theorem Spell.eq_singleton {ts : List Token} (h : Spell last ts []) :
    ∃ t, ts = [t] ∧ t.kind = .finish := by
  cases h with
  | finish h => exact ⟨_, rfl, h⟩

/-- A text, with or without a line feed at its end, and the text that goes on
behind the line feed. -/
theorem list_append_lineFeed {s t u : Bytes} (h : CommentFree (t ++ lineFeed :: u))
    (hs : s = t ∨ s = t ++ [lineFeed]) :
    ∃ front last, list s = front ++ [last] ∧ (∀ x ∈ front, x.kind.isLast = false) ∧
      ((last.kind = .finish ∧ ∀ ts, Tiles (t ++ lineFeed :: u) t.length ts →
          list (t ++ lineFeed :: u) = front ++ ts) ∨
        (∃ b, last.kind = .illegal b) ∧ list (t ++ lineFeed :: u) = front ++ [last]) := by
  obtain ⟨front, last, hlist, hfront, ⟨hfinish, hmore⟩ | ⟨hillegal, hmore⟩⟩ :=
    (tiles_list t).append_lineFeed h.left
  · have hnext (ts) (hts : Tiles (t ++ lineFeed :: u) t.length ts) := (hmore u ts hts).list_eq
    rcases hs with rfl | rfl
    · exact ⟨front, last, hlist, hfront, .inl ⟨hfinish, hnext⟩⟩
    · obtain ⟨ts, htiles, hspell⟩ := Spells.nil.lineFeed.tokens t
      obtain ⟨last', rfl, hlast'⟩ := hspell.eq_singleton
      exact ⟨front, last', (hmore [] _ htiles).list_eq, hfront, .inl ⟨hlast', hnext⟩⟩
  · refine ⟨front, last, ?_, hfront, .inr ⟨hillegal, (hmore u).list_eq⟩⟩
    rcases hs with rfl | rfl
    · exact hlist
    · exact (hmore []).list_eq

end Token

namespace Source

open Cleaned

variable {s : Bytes}

/-- The text of closing words, with a blank before each. -/
def closingText (us : List Word) : Bytes := us.flatMap fun w => blank :: w.text

theorem isSpelled_of_closing {w : Word} (h : w ∈ Tree.closers) : w.isSpelled = true := by
  revert w
  decide

theorem closingText_spells (h : Tree.Closing us) : Token.Spells (closingText us) us := by
  induction us with
  | nil => exact .nil
  | cons w us ih =>
    have hends : Token.Starts w.endsBefore (closingText us) := by
      cases us with
      | nil => exact .nil _
      | cons w' us => exact .cons (by cases w <;> rfl) _
    rw [closingText, flatMap_cons, cons_append]
    refine (Token.Spells.word (isSpelled_of_closing (h w (by simp))) hends ?_).space
    exact ih fun u hu => h u (by simp [hu])

/-- That further lines can make a script of a source. -/
def Extendable (s : Bytes) : Prop := ∃ v source, parse (s ++ lineFeed :: v) = .ok source

theorem parse_eq (s : Bytes) : parse s =
    match Script.parse (ofSource s).text with
    | .ok script => .ok ⟨s, ofSource s, script⟩
    | .error e => .error (relocate (ofSource s).anchors e) := rfl

theorem parse_eq_error (h : parse s = .error e) :
    ∃ e', Script.parse (ofSource s).text = .error e' ∧ e.incomplete = e'.incomplete := by
  rw [parse_eq] at h
  split at h
  · cases h
  · rename_i e' he'
    cases h
    exact ⟨e', he', rfl⟩

section Closed

variable (hs : endsInComment s = false)

include hs

/-- Whether more is read, decided on the cleaned text. -/
theorem needsMore_eq : needsMore s =
    match Script.parse (ofSource s).text with
    | .ok _ => false
    | .error e => e.incomplete := by
  rw [needsMore, hs, parse_eq]
  cases Script.parse (ofSource s).text <;> rfl

/-- What a source is cleaned to, and what it is cleaned to when it goes on. -/
theorem text_append_lineFeed {v : Bytes} {qs : List Piece} (hv : Cuts v qs) :
    ∃ t, Token.CommentFree (t ++ lineFeed :: qs.flatMap Piece.cleaned) ∧
      (ofSource (s ++ lineFeed :: v)).text = t ++ lineFeed :: qs.flatMap Piece.cleaned ∧
      ((ofSource s).text = t ∨ (ofSource s).text = t ++ [lineFeed]) := by
  obtain ⟨ps, hps⟩ := exists_cuts s
  obtain ⟨t, rs, hrs, hcleaned, ht⟩ := hps.append_lineFeed (hps.closed hs) hv
  refine ⟨t, hcleaned ▸ hrs.commentFree, by rw [text_ofSource hrs, hcleaned], ?_⟩
  rwa [text_ofSource hps]

theorem extendable_of_incomplete (h : parse s = .error e) (he : e.incomplete = true) :
    Extendable s := by
  obtain ⟨e', hparse, hincomplete⟩ := parse_eq_error h
  obtain ⟨ps, hps⟩ := exists_cuts s
  have hfree : Token.CommentFree (ofSource s).text := text_ofSource hps ▸ hps.commentFree
  have hreads := Tree.parse_reads (ofSource s).text
  rw [hparse] at hreads
  obtain ⟨t, ht, hkind⟩ | ⟨ws, us, body, hspell, hus, hscript⟩ := hreads (hincomplete ▸ he)
  · exact absurd hkind ((Token.tiles_list _).kind_ne_openComment hfree t ht)
  · have hclosing := closingText_spells hus
    obtain ⟨qs, hqs, hcleaned⟩ := exists_cuts_of_commentFree hclosing.free hclosing.plain
    obtain ⟨t, hcommentFree, htext, ht⟩ := text_append_lineFeed hs hqs
    rw [hcleaned] at hcommentFree htext
    obtain ⟨front, last, hlist, hfront, ⟨hfinish, hmore⟩ | ⟨⟨b, hb⟩, -⟩⟩ :=
      Token.list_append_lineFeed hcommentFree ht
    · have hwords : front.filterMap Token.word? = ws := by
        have hlast : last.word? = none := Token.word?_of_isLast (by rw [hfinish]; rfl)
        simpa [hlist, hlast] using (Tree.readable_of_spell hspell rfl).2
      obtain ⟨ts, htiles, hclose⟩ := hclosing.lineFeed.tokens t
      have hwhole := hclose.prepend hfront
      rw [← hmore ts htiles, ← htext, hwords] at hwhole
      obtain ⟨result, hresult, -⟩ := Tree.parse_of_spell hwhole hscript
      exact ⟨closingText us, _, by rw [parse_eq, hresult]⟩
    · have hlegal := (Tree.readable_of_spell hspell rfl).1 last (by simp [hlist])
      simp [Tree.Reader.lexicalError?, hb] at hlegal

theorem not_extendable_of_error (h : parse s = .error e) (he : e.incomplete = false) :
    ¬Extendable s := by
  rintro ⟨v, source, hsource⟩
  obtain ⟨e', hparse, hincomplete⟩ := parse_eq_error h
  obtain ⟨qs, hqs⟩ := exists_cuts v
  obtain ⟨t, hcommentFree, htext, ht⟩ := text_append_lineFeed hs hqs
  have herror : ∃ e'', Script.parse (ofSource (s ++ lineFeed :: v)).text = .error e'' := by
    rw [htext]
    obtain ⟨front, last, hlist, hfront, ⟨hfinish, hmore⟩ | ⟨-, hmore⟩⟩ :=
      Token.list_append_lineFeed hcommentFree ht
    · rw [Script.parse, hlist] at hparse
      obtain ⟨ts, htiles⟩ :
          ∃ ts, Token.Tiles (t ++ lineFeed :: qs.flatMap Piece.cleaned) t.length ts :=
        Token.exists_tiles (by simp)
      rw [Script.parse, hmore ts htiles]
      exact Tree.ofTokens_append_error hfront hfinish hparse (hincomplete ▸ he) htiles.ne_nil
    · rw [Script.parse, hmore, ← hlist]
      exact ⟨e', hparse⟩
  obtain ⟨e'', he''⟩ := herror
  rw [parse_eq, he''] at hsource
  cases hsource

end Closed

/-- An error is incomplete if and only if further lines could repair the source.
These are the sources for which more is read. -/
theorem incomplete_iff_extendable (s : Bytes) (hs : endsInComment s = false) :
    (∀ e, parse s = .error e → (e.incomplete = true ↔ Extendable s)) ∧
      (needsMore s = true ↔ (∃ e, parse s = .error e) ∧ Extendable s) := by
  have hiff (e : ParseError) (h : parse s = .error e) : e.incomplete = true ↔ Extendable s := by
    refine ⟨extendable_of_incomplete hs h, fun hextendable => ?_⟩
    by_contra he
    exact not_extendable_of_error hs h (by simpa using he) hextendable
  refine ⟨hiff, ?_⟩
  unfold needsMore
  rw [hs, Bool.false_or]
  cases hparse : parse s with
  | ok source => simp
  | error e => simp [hiff e hparse]

/-- A call that breaks off before its arguments, with half of a line break
behind it. -/
def openCall : Bytes := utf8 "if(\r"

/-- Two operands with no operator between them. -/
def strayOperand : Bytes := utf8 "a b"

theorem incomplete_openCall : (endsInComment openCall = false ∧ Extendable openCall) ∧
    endsInComment strayOperand = false ∧ ¬Extendable strayOperand := by
  have hcall : endsInComment openCall = false := by
    change endsInComment [0x69, 0x66, 0x28, 0x0d] = false
    iterate 4 rw [Cleaned.endsInComment_cons rfl]
    rw [endsInComment]
  have hstray : endsInComment strayOperand = false := by
    change endsInComment [0x61, 0x20, 0x62] = false
    iterate 3 rw [Cleaned.endsInComment_cons rfl]
    rw [endsInComment]
  have hmore : needsMore openCall = true := by
    rw [needsMore_eq hcall]
    decide
  have hdone : needsMore strayOperand = false := by
    rw [needsMore_eq hstray]
    decide
  refine ⟨⟨hcall, ((incomplete_iff_extendable openCall hcall).2.mp hmore).2⟩, hstray,
    fun hextendable => ?_⟩
  have hrejected : ∃ e, parse strayOperand = .error e := by
    have hscript : (Script.parse (Cleaned.ofSource strayOperand).text).isOk = false := by decide
    rw [parse_eq]
    cases hparse : Script.parse (Cleaned.ofSource strayOperand).text with
    | ok script =>
      rw [hparse] at hscript
      cases hscript
    | error e => exact ⟨_, rfl⟩
  rw [(incomplete_iff_extendable strayOperand hstray).2.mpr ⟨hrejected, hextendable⟩] at hdone
  cases hdone

end Source

end Eel
