import Mathlib
import Eel.Text.LetterCase

/-!
Zero bytes in lower case, and bytes that are characters.

The key of a variable has a zero byte between the pool and the name. What is
compared in lower case keeps the zero bytes that it has, so a name that is
compared equal to one without them has none. Names are text, since each of their
bytes is a character.
-/

namespace Eel.Text

open List

theorem tail?_ne_zero {low high b : UInt8} {n : Nat} (hlow : 0 < low)
    (h : tail? low high b = some n) : 0 ≠ b := by
  rintro rfl
  unfold tail? at h
  split at h
  · rename_i hbounds
    simp only [Bool.and_eq_true, decide_eq_true_eq] at hbounds
    exact absurd (lt_of_lt_of_le hlow hbounds.1) (lt_irrefl 0)
  · cases h

theorem lead_low {a low high : UInt8} {count : Nat} (h : lead a = some (count, low, high)) :
    0 < low := by
  unfold lead at h
  repeat' split at h
  all_goals
    cases h
  all_goals decide

/-- The bytes behind the first one of a character are not zero. -/
theorem zero_notMem_following {a : UInt8} {rest : Bytes} {c n : Nat}
    (h : first? a rest = some (c, n)) : 0 ∉ rest.take n := by
  unfold first? at h
  obtain ⟨l, hlead, h⟩ := Option.bind_eq_some_iff.mp h
  split at h
  · obtain ⟨-, rfl⟩ := Prod.mk.inj (Option.some.inj h)
    simp
  · obtain ⟨t, ht, h⟩ := Option.bind_eq_some_iff.mp h
    obtain ⟨-, rfl⟩ := Prod.mk.inj (Option.some.inj h)
    simp [tail?_ne_zero (lead_low hlead) ht]
  · obtain ⟨t, ht, h⟩ := Option.bind_eq_some_iff.mp h
    obtain ⟨u, hu, h⟩ := Option.bind_eq_some_iff.mp h
    obtain ⟨-, rfl⟩ := Prod.mk.inj (Option.some.inj h)
    simp [tail?_ne_zero (lead_low hlead) ht, tail?_ne_zero (by decide) hu]
  · obtain ⟨t, ht, h⟩ := Option.bind_eq_some_iff.mp h
    obtain ⟨u, hu, h⟩ := Option.bind_eq_some_iff.mp h
    obtain ⟨v, hv, h⟩ := Option.bind_eq_some_iff.mp h
    obtain ⟨-, rfl⟩ := Prod.mk.inj (Option.some.inj h)
    simp [tail?_ne_zero (lead_low hlead) ht, tail?_ne_zero (by decide) hu,
      tail?_ne_zero (by decide) hv]
  · cases h

variable {s : Bytes}

theorem zero_mem_pieces (h : 0 ∈ s) : .point 0 ∈ pieces s := by
  fun_induction pieces s with
  | case1 => cases h
  | case2 a rest c following hfirst ih =>
    rcases mem_cons.mp h with rfl | hrest
    · obtain ⟨rfl, -⟩ : 0 = c ∧ 0 = following := Prod.mk.inj (Option.some.inj hfirst)
      exact mem_cons_self
    · refine mem_cons_of_mem _ (ih ?_)
      rw [← take_append_drop following rest, mem_append] at hrest
      exact hrest.resolve_left (zero_notMem_following hfirst)
  | case3 a rest hfirst ih =>
    rcases mem_cons.mp h with rfl | hrest
    · cases hfirst
    · exact mem_cons_of_mem _ (ih hrest)

/-- A zero byte stays one in lower case. -/
theorem zero_mem_lower (h : 0 ∈ s) : 0 ∈ lower s := by
  unfold lower
  split
  · exact mem_map.mpr ⟨0, h, rfl⟩
  · refine mem_flatMap.mpr ⟨.point 0, zero_mem_pieces h, ?_⟩
    have hpoint : lowerPoint 0 = 0 := by rfl
    simp only [hpoint]
    exact mem_cons_self

/-- Bytes that are characters make a text. -/
theorem isValid_of_forall_lt (h : ∀ c ∈ s, c < 0x80) : isValid s = true := by
  induction s with
  | nil => simp [isValid, pieces]
  | cons a rest ih =>
    rw [forall_mem_cons] at h
    have hfirst : first? a rest = some (a.toNat, 0) := by simp [first?, lead, h.1]
    rw [isValid, pieces, hfirst]
    exact ih h.2

end Eel.Text
