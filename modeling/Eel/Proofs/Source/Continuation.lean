import Eel.Proofs.Source.Locating
import Eel.Proofs.Token.Lexing

/-!
Sources that go on.

A source that does not end inside a comment is cut as before when a line feed
and more are put behind it. Only a carriage return at its end takes the line
feed along. What such a source is cleaned to holds no comment either.
-/

namespace Eel.Cleaned

open Token Bytes Source Piece List

variable {s v body : Bytes} {ps qs : List Piece} {c : UInt8} {t : Bytes}

/-- That a source is not cut off inside a comment. -/
def Closed (ps : List Piece) : Prop := ∀ body, .openComment body ∉ ps

theorem afterClosing?_cons (h : c = star → t.head? ≠ some slash) :
    afterClosing? (c :: t) = afterClosing? t := by
  rw [afterClosing?]
  rintro rest rfl rfl
  exact h rfl rfl

theorem afterClosing?_append {rest : Bytes} (h : ¬[star, slash] <:+: body ++ [star]) :
    afterClosing? (body ++ star :: slash :: rest) = some rest := by
  induction body with
  | nil => rfl
  | cons c body ih =>
    have hhead : (body ++ star :: slash :: rest).head? = (body ++ [star]).head? := by
      cases body <;> rfl
    rw [cons_append, afterClosing?_cons (hhead ▸ head?_ne_of_not_isInfix h), ih (not_infix_tail h)]

theorem afterClosing?_eq_none (h : ¬[star, slash] <:+: body) : afterClosing? body = none := by
  induction body with
  | nil => rfl
  | cons c body ih => rw [afterClosing?_cons (head?_ne_of_not_isInfix h), ih (not_infix_tail h)]

theorem endsInComment_cons (h : opensComment (c :: t) = false) :
    endsInComment (c :: t) = endsInComment t := by
  rw [endsInComment]
  · rintro rest rfl rfl
    cases h
  · rintro rest rfl rfl
    cases h

theorem endsInComment_lineComment (t : Bytes) :
    endsInComment (slash :: slash :: t) = endsInComment (t.dropWhile (!isBreak ·)) := by
  rw [endsInComment.eq_def]
  rfl

theorem endsInComment_blockComment (t : Bytes) :
    endsInComment (slash :: star :: t) =
      (afterClosing? t).elim true endsInComment := by
  apply (endsInComment.eq_3 t).trans
  split <;> simp_all

theorem dropWhile_line (hbody : ∀ c ∈ body, isBreak c = false)
    (ht : ∀ c, t.head? = some c → isBreak c = true) : (body ++ t).dropWhile (!isBreak ·) = t := by
  induction body with
  | nil =>
    cases t with
    | nil => rfl
    | cons c t => simp [ht c rfl]
  | cons c body ih =>
    rw [cons_append, dropWhile_cons_of_pos (by simp [hbody c (by simp)])]
    exact ih fun d hd => hbody d (by simp [hd])

theorem Cuts.closed (h : Cuts s ps) (hs : endsInComment s = false) : Closed ps := by
  have hcons {p : Piece} {qs : List Piece} (hqs : Closed qs) (hp : ∀ body, p ≠ .openComment body) :
      Closed (p :: qs) := by
    intro body hbody
    rcases mem_cons.mp hbody with hbody | hbody
    · exact hp body hbody.symm
    · exact hqs body hbody
  induction h with
  | nil => exact nofun
  | copied _ hcomment _ ih => exact hcons (ih (endsInComment_cons hcomment ▸ hs)) nofun
  | breakPair _ ih =>
    rw [endsInComment_cons rfl, endsInComment_cons rfl] at hs
    exact hcons (ih hs) nofun
  | breakByte hbreak _ _ ih =>
    rw [endsInComment_cons (opensComment_of_ne (by rintro rfl; cases hbreak) _)] at hs
    exact hcons (ih hs) nofun
  | lineComment hbody hend _ ih =>
    rw [endsInComment_lineComment, dropWhile_line hbody hend] at hs
    exact hcons (ih hs) nofun
  | blockComment hbody _ ih =>
    rw [endsInComment_blockComment, afterClosing?_append hbody] at hs
    exact hcons (ih hs) nofun
  | openComment hbody =>
    rw [endsInComment_blockComment, afterClosing?_eq_none hbody] at hs
    cases hs

theorem Closed.tail {p : Piece} (h : Closed (p :: ps)) : Closed ps :=
  fun body hbody => h body (by simp [hbody])

/-- A line feed and more behind a source, which loses its own last line break if
the two are one. -/
theorem Cuts.append_lineFeed (h : Cuts s ps) (hps : Closed ps) (hv : Cuts v qs) : ∃ t rs,
    Cuts (s ++ lineFeed :: v) rs ∧ rs.flatMap cleaned = t ++ lineFeed :: qs.flatMap cleaned ∧
      (ps.flatMap cleaned = t ∨ ps.flatMap cleaned = t ++ [lineFeed]) := by
  have hcons {p : Piece} {ps rs : List Piece} {t : Bytes}
      (hrs : rs.flatMap cleaned = t ++ lineFeed :: qs.flatMap cleaned)
      (ht : ps.flatMap cleaned = t ∨ ps.flatMap cleaned = t ++ [lineFeed]) :
      (p :: rs).flatMap cleaned = (p.cleaned ++ t) ++ lineFeed :: qs.flatMap cleaned ∧
        ((p :: ps).flatMap cleaned = p.cleaned ++ t ∨
          (p :: ps).flatMap cleaned = (p.cleaned ++ t) ++ [lineFeed]) := by
    refine ⟨by simp [hrs], ht.imp (fun ht => by simp [ht]) fun ht => by simp [ht]⟩
  induction h with
  | nil =>
    have hline : Cuts (lineFeed :: v) (.lineBreak [lineFeed] :: qs) :=
      .breakByte rfl (fun hc => absurd hc (by decide)) hv
    exact ⟨[], _, hline, rfl, .inl rfl⟩
  | copied hbreak hcomment _ ih =>
    obtain ⟨t, rs, hcuts, hrs, ht⟩ := ih hps.tail
    exact ⟨_, _, .copied hbreak (opensComment_append_lineFeed hcomment v) hcuts, hcons hrs ht⟩
  | breakPair _ ih =>
    obtain ⟨t, rs, hcuts, hrs, ht⟩ := ih hps.tail
    exact ⟨_, _, .breakPair hcuts, hcons hrs ht⟩
  | @breakByte c s ps hbreak hpair h ih =>
    by_cases hreturn : c = carriageReturn ∧ s = []
    · obtain ⟨rfl, rfl⟩ := hreturn
      cases h
      exact ⟨[], _, .breakPair hv, rfl, .inr rfl⟩
    · obtain ⟨t, rs, hcuts, hrs, ht⟩ := ih hps.tail
      refine ⟨_, _, .breakByte hbreak (fun hc => ?_) hcuts, hcons hrs ht⟩
      cases s with
      | nil => exact absurd ⟨hc, rfl⟩ hreturn
      | cons d s => exact hpair hc
  | @lineComment body s ps hbody hend _ ih =>
    obtain ⟨t, rs, hcuts, hrs, ht⟩ := ih hps.tail
    have hend' : ∀ c, (s ++ lineFeed :: v).head? = some c → isBreak c = true := by
      cases s with
      | nil =>
        rintro _ ⟨⟩
        rfl
      | cons d s => exact hend
    refine ⟨_, _, ?_, hcons hrs ht⟩
    simpa using Cuts.lineComment hbody hend' hcuts
  | blockComment hbody _ ih =>
    obtain ⟨t, rs, hcuts, hrs, ht⟩ := ih hps.tail
    refine ⟨_, _, ?_, hcons hrs ht⟩
    simpa using Cuts.blockComment hbody hcuts
  | openComment => exact absurd (mem_singleton_self _) (hps _)

/-- A byte that opens no comment in the source opens none in the cleaned
text. -/
theorem Cuts.opensComment_cleaned (h : Cuts s ps) (hc : opensComment (c :: s) = false) :
    opensComment (c :: ps.flatMap cleaned) = false := by
  by_cases hslash : c = slash
  · subst hslash
    cases h with
    | nil | breakPair | breakByte => rfl
    | copied => exact opensComment_pair hc _
    | lineComment | blockComment | openComment => cases hc
  · exact opensComment_of_ne hslash _

theorem Cuts.commentFree (h : Cuts s ps) : CommentFree (ps.flatMap cleaned) := by
  induction h with
  | nil => exact .nil
  | copied _ hcomment h ih => exact ih.cons (h.opensComment_cleaned hcomment)
  | breakPair _ ih | breakByte _ _ _ ih | blockComment _ _ ih =>
    exact ih.cons (opensComment_of_ne (by decide) _)
  | lineComment _ _ _ ih => exact ih
  | openComment => exact CommentFree.nil.cons rfl

end Eel.Cleaned
