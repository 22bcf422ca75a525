import Eel.Proofs.Token.Comments
import Eel.Proofs.Tree.Soundness
import Eel.Proofs.Tree.Spans

/-!
Spans of a script in its source.

The script of a source is read from the cleaned text and has its places there.
Places are led back to the source byte by byte, the end of a span by the last
byte in front of it. So a span is led back to the bytes that its first and its
last byte come from, and what lay inside of it or behind it does so in the
source as well.
-/

namespace Eel

open Cleaned List

/-- That a span reaches from an offset of a text to a later one. -/
def Span.Covers (text : Bytes) (span : Span) : Prop :=
  ∃ i j : Nat, span.start.offset = i ∧ span.stop.offset = j ∧ i < j ∧ j ≤ text.length

variable {span : Span} {c : UInt8} {t : Token} {d' : Nat}

theorem Span.Framed.covers {text : Bytes} (h : span.Framed text) : span.Covers text := by
  obtain ⟨⟨t, i, i', -, hstart⟩, ⟨t', j', j, ht', hstop⟩, hnonempty⟩ := h
  rw [hstart, hstop, Tree.offset_positionIn, Tree.offset_positionIn] at hnonempty
  refine ⟨i, j, ?_, ?_, by omega, ht'.le_length⟩
  · rw [hstart, Tree.offset_positionIn]
  · rw [hstop, Tree.offset_positionIn]

namespace Cleaned

variable {s : Bytes} {ps : List Piece} {a b : Span} {d : Nat}

theorem Cuts.carriageReturn_not_mem (h : Cuts s ps) :
    Bytes.carriageReturn ∉ ps.flatMap Piece.cleaned := by
  induction h with
  | nil => simp
  | @copied c s ps hbreak _ _ ih =>
    rw [flatMap_cons, mem_append]
    rintro (hmem | hmem)
    · obtain rfl := mem_singleton.mp hmem
      cases hbreak
    · exact ih hmem
  | breakPair _ ih | breakByte _ _ _ ih | blockComment _ _ ih =>
    exact not_mem_cons_of_ne_of_not_mem (by decide) ih
  | lineComment _ _ _ ih => exact ih
  | openComment => exact not_mem_cons_of_ne_of_not_mem (by decide) not_mem_nil

/-- The cleaned text of a source has neither comments nor carriage returns. -/
theorem ofSource_plain (s : Bytes) :
    Token.CommentFree (ofSource s).text ∧ Bytes.carriageReturn ∉ (ofSource s).text := by
  obtain ⟨ps, hcuts⟩ := exists_cuts s
  rw [text_ofSource hcuts]
  exact ⟨hcuts.commentFree, hcuts.carriageReturn_not_mem⟩

/-- Bytes of a cleaned text without a blank among them are copied, one behind
the other. -/
theorem Cuts.exists_copied {t w u : Bytes} (h : Cuts t ps)
    (hclean : ps.flatMap Piece.cleaned = w ++ u) (hw : ∀ c ∈ w, Token.isSpace c = false) :
    ∃ after, ps = w.map Piece.copied ++ after := by
  induction w generalizing t ps with
  | nil => exact ⟨ps, rfl⟩
  | cons x w ih =>
    have hx := hw x mem_cons_self
    cases ps with
    | nil => simp at hclean
    | cons p ps =>
      obtain ⟨t', -, h', -⟩ := h.uncons
      cases p with
      | copied c =>
        obtain ⟨rfl, hclean'⟩ := List.cons.inj hclean
        obtain ⟨after, rfl⟩ := ih h' hclean' fun d hd => hw d (mem_cons_of_mem _ hd)
        exact ⟨after, rfl⟩
      | lineBreak | blockComment | openComment =>
        obtain ⟨rfl, -⟩ := List.cons.inj hclean
        cases hx
      | lineComment body =>
        cases h with
        | lineComment _ hend h =>
          obtain rfl :=
            h.head?_cleaned hend x
              (by rw [show ps.flatMap Piece.cleaned = x :: (w ++ u) from hclean]; rfl)
          cases hx

/-- A byte of the cleaned text that is no blank is copied. -/
theorem Cuts.standsAt_copied (h : Cuts s ps) (hget : (ofSource s).text[d]? = some c)
    (hc : Token.isSpace c = false) : ∃ o, StandsAt ps (.copied c) d o := by
  rw [text_ofSource h] at hget
  obtain ⟨p, o, hp, hcleaned⟩ := exists_standsAt hget
  cases p with
  | copied x =>
    obtain rfl : x = c := singleton_inj.mp hcleaned
    exact ⟨o, hp⟩
  | lineBreak | blockComment | openComment =>
    cases hcleaned
    cases hc
  | lineComment => cases hcleaned

/-- A token of the cleaned text stands in the source, and its bytes are located
there. -/
theorem locate_fills {i j : Nat} (h : t.Fills (ofSource s).text i j) :
    ∃ o, t.lexeme <+: s.drop o ∧
      ∀ k < t.lexeme.length, locate (ofSource s).anchors (i + k : Nat) =
        positionIn s (o + k) := by
  obtain ⟨ps, hcuts⟩ := exists_cuts s
  have htext := text_ofSource hcuts
  have hlt : i < (ps.flatMap Piece.cleaned).length := htext ▸ h.lt.trans_le h.le_length
  obtain ⟨p, o, ⟨before, after, rfl, rfl, rfl⟩, -⟩ := exists_standsAt (getElem?_eq_getElem hlt)
  have hclean := h.stands
  rw [htext, flatMap_append, drop_left] at hclean
  obtain ⟨after', hafter⟩ := hcuts.of_append.exists_copied hclean h.solid
  rw [hafter] at hcuts
  refine ⟨(before.flatMap Piece.source).length, ⟨after'.flatMap Piece.source, ?_⟩, fun k hk => ?_⟩
  · rw [← hcuts.source_eq, flatMap_append, drop_left, flatMap_append, flatMap_source_copied]
  · -- Behind as many copied bytes, in the source and in the cleaned text.
    have hsplit : before ++ (t.lexeme.map Piece.copied ++ after') =
        (before ++ (t.lexeme.take k).map Piece.copied) ++
        .copied t.lexeme[k] :: ((t.lexeme.drop (k + 1)).map Piece.copied ++ after') := by
      have hlexeme : t.lexeme = t.lexeme.take k ++ t.lexeme[k] :: t.lexeme.drop (k + 1) := by
        rw [← drop_eq_getElem_cons hk, take_append_drop]
      nth_rewrite 1 [hlexeme]
      simp only [map_append, map_cons, append_assoc, cons_append]
    refine hcuts.locate_standsAt ⟨_, _, hsplit, ?_, ?_⟩ (by simp [Piece.cleaned])
    · rw [flatMap_append, length_append, flatMap_cleaned_copied, length_take_of_le hk.le]
    · rw [flatMap_append, length_append, flatMap_source_copied, length_take_of_le hk.le]

theorem locate_lt (s : Bytes) (hlt : d < d') (hle : d' ≤ (ofSource s).text.length) :
    (locate (ofSource s).anchors d).offset < (locate (ofSource s).anchors d').offset := by
  obtain ⟨ps, hcuts⟩ := exists_cuts s
  exact hcuts.locate_lt hlt hle

theorem locate_le (s : Bytes) (hle : d ≤ d') (hle' : d' ≤ (ofSource s).text.length) :
    (locate (ofSource s).anchors d).offset ≤ (locate (ofSource s).anchors d').offset := by
  rcases hle.lt_or_eq with hlt | rfl
  · exact (locate_lt s hlt hle').le
  · exact le_rfl

/-- Every byte of the cleaned text is located in the source. -/
theorem exists_locate (hd : d < (ofSource s).text.length) :
    ∃ o, locate (ofSource s).anchors d = positionIn s o ∧ o < s.length := by
  obtain ⟨ps, hcuts⟩ := exists_cuts s
  have hlt := hcuts.locate_lt hd le_rfl
  rw [hcuts.locate_finish] at hlt
  rw [text_ofSource hcuts] at hd
  obtain ⟨p, o, hp, hcleaned⟩ := exists_standsAt (getElem?_eq_getElem hd)
  have hlocate := hcuts.locate_standsAt hp (by simp [hcleaned])
  rw [hlocate, Tree.offset_positionIn, Tree.offset_positionIn] at hlt
  exact ⟨o, hlocate, by omega⟩

/-- A span that is not empty is led back to the place of its first byte, and
behind that of its last. -/
theorem locateSpan_eq {anchors : List Anchor} {i j : Nat} (hstart : span.start.offset = i)
    (hstop : span.stop.offset = j) (hij : i < j) :
    locateSpan anchors span = ⟨locate anchors i, (locate anchors (j - 1 : Nat)).along 1⟩ := by
  rw [locateSpan, hstart, hstop, locateStop, if_neg (by omega), Nat.cast_sub (by omega),
    Nat.cast_one]

theorem locateSpan_covers (h : span.Covers (ofSource s).text) :
    (locateSpan (ofSource s).anchors span).Covers s := by
  obtain ⟨i, j, hstart, hstop, hij, hj⟩ := h
  have hle := locate_le s (show i ≤ j - 1 by omega) (by omega)
  obtain ⟨o, ho, -⟩ := @exists_locate s i (by omega)
  obtain ⟨o', ho', hlt⟩ := @exists_locate s (j - 1) (by omega)
  rw [ho, ho', Tree.offset_positionIn, Tree.offset_positionIn] at hle
  rw [locateSpan_eq hstart hstop hij, ho, ho']
  exact ⟨o, o' + 1, rfl, rfl, by omega, by omega⟩

theorem locateSpan_inside (ha : a.Covers (ofSource s).text) (hb : b.Covers (ofSource s).text)
    (h : a.Inside b) :
    (locateSpan (ofSource s).anchors a).Inside (locateSpan (ofSource s).anchors b) := by
  obtain ⟨i, j, hstart, hstop, hij, hj⟩ := ha
  obtain ⟨i', j', hstart', hstop', hij', hj'⟩ := hb
  rw [Span.Inside, hstart, hstart', hstop, hstop'] at h
  rw [locateSpan_eq hstart hstop hij, locateSpan_eq hstart' hstop' hij']
  have hfrom := locate_le s (show i' ≤ i by omega) (by omega)
  have hto := locate_le s (show j - 1 ≤ j' - 1 by omega) (by omega)
  exact ⟨hfrom, by simpa [Position.along] using hto⟩

theorem locateSpan_before (ha : a.Covers (ofSource s).text) (hb : b.Covers (ofSource s).text)
    (h : a.Before b) :
    (locateSpan (ofSource s).anchors a).Before (locateSpan (ofSource s).anchors b) := by
  obtain ⟨i, j, hstart, hstop, hij, hj⟩ := ha
  obtain ⟨i', j', hstart', hstop', hij', hj'⟩ := hb
  rw [Span.Before, hstop, hstart'] at h
  rw [locateSpan_eq hstart hstop hij, locateSpan_eq hstart' hstop' hij']
  exact Int.add_one_le_of_lt (locate_lt s (show j - 1 < i' by omega) (by omega))

theorem isBreak_of_not_isSpace (h : Token.isSpace c = false) : Bytes.isBreak c = false := by
  by_contra hbreak
  simp only [Bytes.isBreak, Bool.not_eq_false, Bool.or_eq_true, beq_iff_eq] at hbreak
  rcases hbreak with rfl | rfl
  · cases h
  · cases h

/-- A token is led back to its bytes in the source. -/
theorem locateSpan_fills {i j : Nat} (h : t.Fills (ofSource s).text i j) :
    ∃ o, t.lexeme <+: s.drop o ∧
    locate (ofSource s).anchors i = positionIn s o ∧
      (locate (ofSource s).anchors (j - 1 : Nat)).along 1 = positionIn s (o + t.lexeme.length) := by
  obtain ⟨o, ⟨rest, hrest⟩, hlocate⟩ := locate_fills h
  have hpos := length_pos_iff.mpr h.lexeme
  have hlast : j - 1 = i + (t.lexeme.length - 1) := by
    have hlength := h.length
    omega
  have hbreak : endsBreak s (o + (t.lexeme.length - 1) + 1) = false := by
    have hdrop : s.drop (o + (t.lexeme.length - 1)) = t.lexeme[t.lexeme.length - 1] :: rest := by
      rw [← drop_drop, ← hrest, drop_append_of_le_length (by omega),
        drop_eq_getElem_cons (by omega),
        drop_eq_nil_of_le (by omega)]
      rfl
    exact endsBreak_of_not_isBreak hdrop (isBreak_of_not_isSpace (h.solid _ (getElem_mem _)))
  refine ⟨o, ⟨rest, hrest⟩, hlocate 0 hpos, ?_⟩
  rw [hlast, hlocate _ (by omega), ← positionIn_succ hbreak]
  congr 1
  omega

end Cleaned

/-- What is known of spans of a cleaned text when they are led back to the
source: that they are not empty there either, that they stay nested and in
order, and that the ends of a span from token to token have the line and the
column of their offsets. -/
structure Source.LeadsBack (s : Bytes) (source : Source) : Prop where
  covers : ∀ {span : Span}, span.Covers source.cleaned.text → (source.locateSpan span).Covers s
  framed : ∀ {span : Span}, span.Framed source.cleaned.text → span.Covers source.cleaned.text ∧
    ∃ i j, source.locateSpan span = ⟨positionIn s i, positionIn s j⟩
  inside : ∀ {a b : Span}, a.Covers source.cleaned.text → b.Covers source.cleaned.text →
    a.Inside b → (source.locateSpan a).Inside (source.locateSpan b)
  before : ∀ {a b : Span}, a.Covers source.cleaned.text → b.Covers source.cleaned.text →
    a.Before b → (source.locateSpan a).Before (source.locateSpan b)

theorem Cleaned.locateSpan_framed {s : Bytes} (h : span.Framed (ofSource s).text) :
    ∃ i j, locateSpan (ofSource s).anchors span = ⟨positionIn s i, positionIn s j⟩ := by
  obtain ⟨i, j, hstart, hstop, hij, -⟩ := h.covers
  obtain ⟨⟨t, k, k', ht, hk⟩, ⟨t', l', l, ht', hl⟩, -⟩ := h
  obtain rfl : k = i := by
    rw [hk, Tree.offset_positionIn] at hstart
    omega
  obtain rfl : l = j := by
    rw [hl, Tree.offset_positionIn] at hstop
    omega
  obtain ⟨o, -, ho, -⟩ := locateSpan_fills ht
  obtain ⟨o', -, -, ho'⟩ := locateSpan_fills ht'
  exact ⟨o, _, by rw [locateSpan_eq hstart hstop hij, ho, ho']⟩

namespace Source

variable {s : Bytes} {source : Source}

theorem parse_eq_error_iff {e : ParseError} : Source.parse s = .error e ↔
    ∃ e', Script.parse (ofSource s).text = .error e' ∧ relocate (ofSource s).anchors e' = e := by
  unfold Source.parse
  cases hscript : Script.parse (ofSource s).text with
  | ok script => simp [hscript]
  | error e' => simp [hscript]

theorem leadsBack (h : source.cleaned = Cleaned.ofSource s) : source.LeadsBack s := by
  obtain ⟨text, cleaned, script⟩ := source
  obtain rfl : cleaned = Cleaned.ofSource s := h
  exact ⟨locateSpan_covers, fun hframed => ⟨hframed.covers, locateSpan_framed hframed⟩,
    locateSpan_inside, locateSpan_before⟩

/-- The script of every source has its places in the cleaned text: nodes reach
from token to token, with their parts inside of them and in order. Led back to
the source, the places stay nested and in order. -/
theorem parse_nested (h : Source.parse s = .ok source) : source.script.Nested source.cleaned.text ∧
    (source.script.body ≠ [] → source.script.span.Covers source.cleaned.text) ∧
    source.LeadsBack s := by
  obtain ⟨hcleaned, hparse⟩ := parse_eq_ok h
  obtain ⟨hfree, hreturn⟩ := ofSource_plain s
  rw [← hcleaned] at hfree hreturn
  have hscript := (Tree.parse_lays hfree hreturn).1 _ hparse
  refine ⟨hscript, fun hbody => ?_, leadsBack hcleaned⟩
  obtain ⟨i, j, hspan, hj⟩ := hscript.span
  obtain ⟨-, hnonempty⟩ := hscript.start hbody
  rw [hspan] at hnonempty ⊢
  exact ⟨i, j, rfl, rfl, Int.ofNat_lt.mp hnonempty, hj⟩

/-- Comments inside and outside of spans, and a choice without a second
branch. -/
def commentedChoice : Bytes := utf8 "/* a */ x = (b;\r\n f(2) // two\r\n) ? -y.5 /* end"

theorem commentedChoice_nested :
    ∃ source, Source.parse commentedChoice = .ok source ∧ source.script.body ≠ [] ∧
    source.script.Nested source.cleaned.text ∧ source.LeadsBack commentedChoice := by
  have hlength : (Source.parse commentedChoice).toOption.map (·.script.body.length) = some 1 := by
    decide +kernel
  cases hparse : Source.parse commentedChoice with
  | error e =>
    rw [hparse] at hlength
    cases hlength
  | ok source =>
    rw [hparse] at hlength
    obtain ⟨hnested, -, hback⟩ := parse_nested hparse
    refine ⟨source, rfl, ?_, hnested, hback⟩
    rintro hnil
    simp [Except.toOption, hnil] at hlength

end Source

end Eel
