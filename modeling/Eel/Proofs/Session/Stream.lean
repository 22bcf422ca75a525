import Mathlib
import Eel.Session.Transcript

/-!
How a stream is cut into inputs.

The inputs of a stream are the stream, cut at ends of lines. Each is as short as
can be: it goes on as long as it needs more, and no longer. Only the last one
may need more still, or end without a line feed, since there the stream ends.
This leaves no choice, so there is one such cut.
-/

namespace Eel.Session

open Source List

/-- That a text ends where a line does. -/
def EndsLine (t : Bytes) : Prop := t.getLast? = some Bytes.lineFeed

theorem EndsLine.ne_nil {t : Bytes} (h : EndsLine t) : t ≠ [] := by
  rintro rfl
  simp [EndsLine] at h

theorem EndsLine.append {t : Bytes} (h : EndsLine t) (p : Bytes) : EndsLine (p ++ t) := by
  rw [EndsLine, getLast?_append_of_ne_nil p h.ne_nil]
  exact h

/-- That texts are a stream cut where nothing more is needed. -/
structure CutInto (stream : Bytes) (texts : List Bytes) : Prop where
  /-- Nothing is lost, repeated or moved. -/
  flatten : texts.flatten = stream
  nonempty : ∀ t ∈ texts, t ≠ []
  /-- All texts but the last are whole lines. -/
  endsLine : ∀ t ∈ texts.dropLast, EndsLine t
  complete : ∀ t ∈ texts.dropLast, needsMore t = false
  /-- No text could have ended at an earlier line. -/
  pending : ∀ t ∈ texts, ∀ front, front <+: t → front ≠ t → EndsLine front → needsMore front = true

section Lines

variable {s l : Bytes}

end Lines

section Cutting

variable {stream t rest p l front : Bytes} {texts texts' : List Bytes}

namespace CutInto

theorem nil : CutInto [] [] := ⟨rfl, by simp, by simp, by simp, by simp⟩

/-- A text in front of a stream that is cut. -/
theorem cons (hne : t ≠ []) (hend : texts ≠ [] → EndsLine t ∧ needsMore t = false)
    (hpending : ∀ front, front <+: t → front ≠ t → EndsLine front → needsMore front = true)
    (h : CutInto rest texts) : CutInto (t ++ rest) (t :: texts) := by
  have hdropLast : ∀ u ∈ (t :: texts).dropLast, u = t ∧ texts ≠ [] ∨ u ∈ texts.dropLast := by
    intro u hu
    cases texts with
    | nil => cases hu
    | cons next others => simpa using hu
  refine ⟨?_, forall_mem_cons.mpr ⟨hne, h.nonempty⟩, fun u hu => ?_, fun u hu => ?_,
    forall_mem_cons.mpr ⟨hpending, h.pending⟩⟩
  · rw [flatten_cons, h.flatten]
  · rcases hdropLast u hu with ⟨rfl, hmore⟩ | hu
    · exact (hend hmore).1
    · exact h.endsLine u hu
  · rcases hdropLast u hu with ⟨rfl, hmore⟩ | hu
    · exact (hend hmore).2
    · exact h.complete u hu

/-- What is behind the first text is cut as well. -/
theorem tail (h : CutInto stream (t :: texts)) : CutInto texts.flatten texts := by
  have hdropLast : texts.dropLast ⊆ (t :: texts).dropLast := by
    cases texts with
    | nil => exact nil_subset _
    | cons next others => exact subset_cons_self _ _
  exact ⟨rfl, fun u hu => h.nonempty u (mem_cons_of_mem _ hu),
    fun u hu => h.endsLine u (hdropLast hu),
    fun u hu => h.complete u (hdropLast hu), fun u hu => h.pending u (mem_cons_of_mem _ hu)⟩

/-- A text does not end inside the first text of another cut. There it would
need no more, being followed by others, and it would need more, being the start
of that text. -/
theorem eq_of_prefix {t' : Bytes} (h : CutInto stream (t :: texts))
    (h' : CutInto stream (t' :: texts')) (hfront : t <+: t') : t = t' := by
  by_contra hne
  have htexts : texts ≠ [] := by
    rintro rfl
    have hwhole : t = stream := by simpa using h.flatten
    have hpart : t' <+: stream := by simp [← h'.flatten]
    exact hne (List.IsPrefix.eq_of_length_le hfront (hwhole ▸ hpart.length_le))
  have hmem : t ∈ (t :: texts).dropLast := by
    rw [dropLast_cons_of_ne_nil htexts]
    exact mem_cons_self
  have hmore := h'.pending t' mem_cons_self t hfront hne (h.endsLine t hmem)
  rw [h.complete t hmem] at hmore
  cases hmore

theorem unique (h : CutInto stream texts) (h' : CutInto stream texts') : texts = texts' := by
  induction texts generalizing stream texts' with
  | nil =>
    obtain rfl : [] = stream := h.flatten
    cases texts' with
    | nil => rfl
    | cons t' texts' =>
      exact absurd (flatten_eq_nil_iff.mp h'.flatten t' (by simp)) (h'.nonempty t' (by simp))
  | cons t texts ih =>
    cases texts' with
    | nil =>
      obtain rfl : [] = stream := h'.flatten
      exact absurd (flatten_eq_nil_iff.mp h.flatten t (by simp)) (h.nonempty t (by simp))
    | cons t' texts' =>
      have hstream : t ++ texts.flatten = t' ++ texts'.flatten := h.flatten.trans h'.flatten.symm
      have hfirst : t = t' := by
        rcases prefix_or_prefix_of_prefix (prefix_append t texts.flatten)
          (hstream ▸ prefix_append t' texts'.flatten) with hfront | hfront
        · exact h.eq_of_prefix h' hfront
        · exact (h'.eq_of_prefix h hfront).symm
      subst hfirst
      have hrest : CutInto texts.flatten texts' := append_cancel_left hstream ▸ h'.tail
      rw [ih h.tail hrest]

end CutInto

end Cutting

example : inputs (utf8 "y = sin(\n0); /*\n*/\nx") = [utf8 "y = sin(\n0); /*\n*/\n", utf8 "x"] := by
  decide +kernel

end Eel.Session
