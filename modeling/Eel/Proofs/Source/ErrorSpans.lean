import Eel.Proofs.Source.Recleaning

/-!
Where errors end.

An error spans what is wrong: a token, the target of an assignment, a byte that
starts no token, or the end of the text, which is empty. A byte from 0x80 on is
recorded as a code point, and that takes two bytes, so that its error ends one
byte too far. At the end of a text this is past the text. All other spans lie in
the text.
-/

namespace Eel

open Cleaned List

/-- A byte from 0x80 on takes two bytes as a code point. -/
theorem Text.length_encodePoint (c : UInt8) : (encodePoint c.toNat).length = if 0x80 ≤ c then 2
  else 1 := by
  have hlt := c.toNat_lt
  have hle : 0x80 ≤ c ↔ 128 ≤ c.toNat := UInt8.le_iff_toNat_le
  rw [encodePoint]
  by_cases hc : 128 ≤ c.toNat
  · rw [if_neg (by omega), if_pos (by omega), if_pos (hle.mpr hc)]
    rfl
  · rw [if_pos (by omega), if_neg (mt hle.mp hc)]
    rfl

namespace ParseError

/-- That a text ends too early. -/
def AtFinish (e : ParseError) : Prop := ∃ t, e.cause = .unexpected t ∧ t.kind = .finish

/-- That an error is about a byte from 0x80 on, and what stands behind that
leaves nothing. -/
def Overhangs (text : Bytes) (e : ParseError) : Prop :=
  ∃ c rest, e.cause = .illegalByte c ∧ 0x80 ≤ c ∧
  text.drop e.start.offset.toNat = c :: rest ∧ (ofSource rest).text = []

/-- That an error has its span in a text. It is empty at the end of the text and
nowhere else. Only an error that overhangs reaches past that end, by one
byte. -/
structure LiesIn (text : Bytes) (e : ParseError) : Prop where
  start : 0 ≤ e.start.offset
  order : e.start.offset ≤ e.stop.offset
  empty : e.stop = e.start ↔ e.start.offset = text.length
  finish : e.start.offset = text.length ↔ e.AtFinish
  inside : ¬e.Overhangs text → e.stop.offset ≤ text.length
  excess : e.Overhangs text → e.stop.offset = text.length + 1

variable {text s : Bytes} {e : ParseError} {c : UInt8}

theorem AtFinish.ne_illegalByte (h : e.AtFinish) (c : UInt8) : e.cause ≠ .illegalByte c := by
  obtain ⟨t, hcause, -⟩ := h
  rw [hcause]
  rintro ⟨⟩

namespace LiesIn

theorem of_finish (h : e.AtFinish) (hstart : e.start.offset = text.length)
    (hstop : e.stop = e.start) : e.LiesIn text where
  start := by omega
  order := by rw [hstop]
  empty := by simp [hstop, hstart]
  finish := by simp [hstart, h]
  inside _ := by rw [hstop, hstart]
  excess := fun ⟨c, _, hcause, _⟩ => absurd hcause (h.ne_illegalByte c)

theorem of_lt (hstart : 0 ≤ e.start.offset) (hlt : e.start.offset < e.stop.offset)
    (hlength : e.start.offset < text.length) (hfinish : ¬e.AtFinish)
    (hinside : ¬e.Overhangs text → e.stop.offset ≤ text.length)
    (hexcess : e.Overhangs text → e.stop.offset = text.length + 1) : e.LiesIn text where
  start := hstart
  order := hlt.le
  empty := by
    have hne : e.stop ≠ e.start := by
      intro heq
      rw [heq] at hlt
      exact hlt.false
    exact ⟨fun heq => absurd heq hne, fun heq => by omega⟩
  finish := ⟨fun heq => by omega, fun h => absurd h hfinish⟩
  inside := hinside
  excess := hexcess

theorem of_covers (h : Span.Covers text ⟨e.start, e.stop⟩) (hfinish : ¬e.AtFinish)
    (hbyte : ∀ c, e.cause ≠ .illegalByte c) : e.LiesIn text := by
  obtain ⟨i, j, hstart, hstop, hij, hj⟩ := h
  dsimp only at hstart hstop
  refine of_lt (by omega) (by omega) (by omega) hfinish (fun _ => by omega) ?_
  rintro ⟨c, _, hcause, _⟩
  exact absurd hcause (hbyte c)

theorem of_byte {rest : Bytes} {o : Nat} (hcause : e.cause = .illegalByte c)
    (hstart : e.start.offset = o) (hdrop : text.drop o = c :: rest)
    (hlt : e.start.offset < e.stop.offset)
    (hinside : c < 0x80 ∨ (ofSource rest).text ≠ [] → e.stop.offset ≤ text.length)
    (hexcess : 0x80 ≤ c → (ofSource rest).text = [] → e.stop.offset = text.length + 1) :
    e.LiesIn text := by
  have hlength : o < text.length := by
    by_contra hge
    rw [drop_eq_nil_of_le (by omega)] at hdrop
    cases hdrop
  refine of_lt (by omega) hlt (by omega) (fun h => h.ne_illegalByte c hcause)
    (fun hstays => hinside ?_) ?_
  · by_contra hboth
    rw [not_or, UInt8.not_lt, not_not] at hboth
    exact hstays ⟨c, rest, hcause, hboth.1, by rw [hstart]; exact hdrop, hboth.2⟩
  · rintro ⟨c', rest', hcause', hle, hdrop', hrest⟩
    rw [hstart, Int.toNat_natCast, hdrop] at hdrop'
    obtain ⟨rfl, rfl⟩ := List.cons.inj hdrop'
    exact hexcess hle hrest

end LiesIn

/-- An error is one at the end of the text, or is about a byte that starts no
token, or covers some of the text. -/
theorem Points.cases (h : e.Points text) :
    (e.AtFinish ∧ e.start.offset = text.length ∧ e.stop = e.start) ∨
    (∃ (c : UInt8) (i : Nat), e.cause = .illegalByte c ∧ text[i]? = some c ∧
      Token.isSpace c = false ∧
      e.start.offset = i ∧ e.stop.offset = (i + (Text.encodePoint c.toNat).length : Nat)) ∨
    (¬e.AtFinish ∧ (∀ c, e.cause ≠ .illegalByte c) ∧ Span.Covers text ⟨e.start, e.stop⟩) := by
  obtain ⟨i, hstart, hcause, hspan⟩ := h
  have hoffset : e.start.offset = i := by rw [hstart, Tree.offset_positionIn]
  generalize hkind : e.cause = cause at hcause hspan
  cases cause with
  | illegalByte c =>
    obtain ⟨t, hcloses, hillegal⟩ := hcause
    rcases hcloses.ends with ⟨hfinish, -, -⟩ | ⟨b, hillegal', hget, hsolid⟩
    · cases hillegal.symm.trans hfinish
    · obtain rfl := Token.Kind.illegal.inj (hillegal.symm.trans hillegal')
      refine .inr (.inl ⟨c, i, rfl, hget, hsolid, hoffset, ?_⟩)
      rw [show e.stop = e.start.along _ from hspan, Position.along, hoffset, Nat.cast_add]
  | unexpected t =>
    rw [Cause.Spans] at hspan
    by_cases hfinish : t.kind = .finish
    · rw [if_pos hfinish] at hspan
      rcases hcause with ⟨hcloses, -⟩ | ⟨j, hfills⟩
      · rcases hcloses.ends with ⟨-, -, rfl⟩ | ⟨b, hillegal, -⟩
        · exact .inl ⟨⟨t, hkind, hfinish⟩, hoffset, hspan⟩
        · cases hfinish.symm.trans hillegal
      · cases hfinish ▸ hfills.kind
    · rw [if_neg hfinish] at hspan
      refine .inr (.inr ⟨?_, by simp, hspan.covers⟩)
      rintro ⟨t', hcause', hfinish'⟩
      obtain rfl := Cause.unexpected.inj (hkind.symm.trans hcause')
      exact hfinish hfinish'
  | openComment => cases hcause
  | numberRange | badTarget =>
    refine .inr (.inr ⟨?_, by simp, Span.Framed.covers hspan⟩)
    rintro ⟨t, hcause', -⟩
    cases hkind.symm.trans hcause'

/-- An error of a text without comments has its span there. -/
theorem Points.liesIn (h : e.Points text) (hfree : Token.CommentFree text)
    (hreturn : Bytes.carriageReturn ∉ text) : e.LiesIn text := by
  obtain ⟨hfinish, hstart, hstop⟩ | ⟨c, i, hcause, hget, -, hstart, hstop⟩
      | ⟨hfinish, hbyte, hcovers⟩ := h.cases
  · exact .of_finish hfinish hstart hstop
  · obtain ⟨hlt, hc⟩ := List.getElem?_eq_some_iff.mp hget
    have hdrop : text.drop i = c :: text.drop (i + 1) := by rw [← hc, ← drop_eq_getElem_cons hlt]
    have hrest : (ofSource (text.drop (i + 1))).text = text.drop (i + 1) :=
      text_ofSource_of_plain (hfree.suffix (drop_suffix _ _)) fun hmem =>
        hreturn (mem_of_mem_drop hmem)
    rw [Text.length_encodePoint] at hstop
    refine .of_byte hcause hstart hdrop ?_ ?_ ?_
    · rw [hstart, hstop]
      split <;> omega
    · rw [hrest, Ne, drop_eq_nil_iff]
      rintro (hsmall | hmore)
      · rw [if_neg (by simpa using hsmall)] at hstop
        omega
      · split at hstop <;> omega
    · intro hlarge hnothing
      rw [hrest, drop_eq_nil_iff] at hnothing
      rw [if_pos hlarge] at hstop
      omega
  · exact .of_covers hcovers hfinish hbyte

/-- What stands behind a copied byte, in the source and in the cleaned text. -/
theorem exists_behind {ps : List Piece} {i o : Nat} (h : Cuts s ps)
    (hp : StandsAt ps (.copied c) i o) :
    ∃ rest, s.drop o = c :: rest ∧
      (ofSource s).text.length = i + 1 + (ofSource rest).text.length := by
  obtain ⟨before, after, rfl, rfl, rfl⟩ := hp
  obtain ⟨rest, hrest, hafter, -⟩ := h.of_append.uncons
  refine ⟨rest, ?_, ?_⟩
  · rw [← h.source_eq, flatMap_append, drop_left, hrest]
    rfl
  · rw [text_ofSource h, text_ofSource hafter, flatMap_append, flatMap_cons, length_append,
      length_append, Piece.cleaned, length_singleton, Nat.add_assoc]

/-- Led back to the source, an error of the cleaned text has its span there. -/
theorem Points.liesIn_source (h : e.Points (ofSource s).text) :
    (Source.relocate (ofSource s).anchors e).LiesIn s := by
  obtain ⟨ps, hcuts⟩ := exists_cuts s
  obtain ⟨hfinish, hstart, hstop⟩ | ⟨c, i, hcause, hget, hsolid, hstart, hstop⟩
      | ⟨hfinish, hbyte, hcovers⟩ := h.cases
  · have hlocate : (Source.relocate (ofSource s).anchors e).start = positionIn s s.length := by
      rw [Source.relocate, hstart, hcuts.locate_finish]
    refine .of_finish hfinish (by rw [hlocate, Tree.offset_positionIn]) ?_
    simp [Source.relocate, hstop, locateStop]
  · obtain ⟨o, hp⟩ := hcuts.standsAt_copied hget hsolid
    obtain ⟨rest, hdrop, hlength⟩ := exists_behind hcuts hp
    have hlocate := hcuts.locate_standsAt hp (by simp [Piece.cleaned])
    have ho : o + 1 ≤ s.length := by
      have hpos := congrArg List.length hdrop
      rw [length_drop, length_cons] at hpos
      omega
    have hstart' : (Source.relocate (ofSource s).anchors e).start.offset = o := by
      rw [Source.relocate, hstart, hlocate, Tree.offset_positionIn]
    rw [Text.length_encodePoint] at hstop
    have hspan :=
      @locateSpan_eq ⟨e.start, e.stop⟩ (ofSource s).anchors i _ hstart hstop (by split <;> omega)
    have hstop' : (Source.relocate (ofSource s).anchors e).stop.offset =
      (locate (ofSource s).anchors (i + (if 0x80 ≤ c then 2 else 1) - 1 : Nat)).offset + 1 :=
        congrArg (·.stop.offset) hspan
    by_cases hlarge : 0x80 ≤ c
    · -- The span covers the byte and what stands behind it, which may be nothing.
      rw [if_pos hlarge, show i + 2 - 1 = i + 1 from rfl] at hstop'
      have hnext := locate_lt s (Nat.lt_add_one i) (by omega)
      rw [hlocate, Tree.offset_positionIn] at hnext
      refine .of_byte hcause hstart' hdrop (by omega) ?_ fun _ hnothing => ?_
      · rintro (hsmall | hmore)
        · exact absurd hlarge (UInt8.not_le.mpr hsmall)
        · have hpos := length_pos_iff.mpr hmore
          obtain ⟨o', ho', hlt⟩ := @exists_locate s (i + 1) (by omega)
          rw [hstop', ho', Tree.offset_positionIn]
          omega
      · rw [hnothing, length_nil, Nat.add_zero] at hlength
        rw [hstop', ← hlength, hcuts.locate_finish, Tree.offset_positionIn]
    · rw [if_neg hlarge, Nat.add_sub_cancel, hlocate, Tree.offset_positionIn] at hstop'
      exact .of_byte hcause hstart' hdrop (by omega) (fun _ => by omega) fun h => absurd h hlarge
  · exact .of_covers (locateSpan_covers hcovers) hfinish hbyte

end ParseError

namespace Source

/-- Every error of a source has its span there, and so has every error of what
the source is cleaned to. Only that of a byte from 0x80 on, with nothing left
behind it, reaches past the end. -/
theorem errors_lieIn (s : Bytes) : (∀ e, parse s = .error e → e.LiesIn s) ∧
    ∀ e, Script.parse (ofSource s).text = .error e → e.LiesIn (ofSource s).text := by
  obtain ⟨hfree, hreturn⟩ := ofSource_plain s
  have hpoints := (Tree.parse_lays hfree hreturn).2
  refine ⟨fun e he => ?_, fun e he => (hpoints e he).liesIn hfree hreturn⟩
  obtain ⟨e', hscript, rfl⟩ := parse_eq_error_iff.mp he
  exact (hpoints e' hscript).liesIn_source

/-- A sum that something is assigned to, with comments around and inside of
it. -/
def assignedSum : Bytes := utf8 "/* é */ (a // b\r\n + c) = 2"

theorem assignedSum_liesIn :
    ∃ e e', parse assignedSum = .error e ∧ Script.parse (ofSource assignedSum).text = .error e' ∧
    e.LiesIn assignedSum ∧ e'.LiesIn (ofSource assignedSum).text := by
  obtain ⟨hsource, hcleaned⟩ := errors_lieIn assignedSum
  have hrefused : (failure? (parse assignedSum)).isSome = true := by decide +kernel
  obtain ⟨e, he⟩ := Option.isSome_iff_exists.mp hrefused
  have hparse := failure?_eq_some_iff.mp he
  obtain ⟨e', hscript, -⟩ := parse_eq_error_iff.mp hparse
  exact ⟨e, e', hparse, hscript, hsource e hparse, hcleaned e' hscript⟩

/-- A byte that starts no token and is no character of its own. -/
def strayByte : Bytes := [0x80]

theorem strayByte_exceeded :
    ∃ e, parse strayByte = .error e ∧ (strayByte.length : Int) < e.stop.offset := by
  have hstop : (failure? (parse strayByte)).map (·.stop.offset) = some 2 := by decide +kernel
  obtain ⟨e, he, hstop⟩ := Option.map_eq_some_iff.mp hstop
  exact ⟨e, failure?_eq_some_iff.mp he, by rw [hstop]; decide⟩

end Source

end Eel
