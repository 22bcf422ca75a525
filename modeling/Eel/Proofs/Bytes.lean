import Mathlib
import Eel.Text.LetterCase
import Eel.Token.Lexer

/-!
Bytes and texts of bytes.

Classes of bytes are ranges of numbers. The order of texts is linear, and a text
is cut at one place only.
-/

namespace Eel

namespace Bytes

variable {c : UInt8}

theorem isDigit_iff : isDigit c = true ↔ 48 ≤ c.toNat ∧ c.toNat ≤ 57 := by
  simp only [isDigit, Bool.and_eq_true, decide_eq_true_eq, UInt8.le_iff_toNat_le]
  rfl

theorem isUpper_iff : isUpper c = true ↔ 65 ≤ c.toNat ∧ c.toNat ≤ 90 := by
  simp only [isUpper, Bool.and_eq_true, decide_eq_true_eq, UInt8.le_iff_toNat_le]
  rfl

theorem isLower_iff : isLower c = true ↔ 97 ≤ c.toNat ∧ c.toNat ≤ 122 := by
  simp only [isLower, Bool.and_eq_true, decide_eq_true_eq, UInt8.le_iff_toNat_le]
  rfl

theorem toNat_toLower (c : UInt8) :
    (toLower c).toNat = if 65 ≤ c.toNat ∧ c.toNat ≤ 90 then c.toNat + 32 else c.toNat := by
  unfold toLower
  by_cases h : isUpper c = true
  · rw [if_pos h, if_pos (isUpper_iff.mp h), UInt8.toNat_add]
    have hrange := isUpper_iff.mp h
    exact Nat.mod_eq_of_lt (by simp; omega)
  · rw [if_neg h, if_neg (isUpper_iff.not.mp h)]

theorem isUpper_toLower (c : UInt8) : isUpper (toLower c) = false := by
  rw [← Bool.not_eq_true, isUpper_iff, toNat_toLower]
  split <;> omega

theorem toLower_of_not_isUpper (h : isUpper c = false) : toLower c = c := by
  simp [toLower, h]

section Order

variable {s t u : Bytes}

theorem le_total (s t : Bytes) : le s t = true ∨ le t s = true := by
  fun_induction le s t with
  | case1 t => exact .inl rfl
  | case2 a s => exact .inr rfl
  | case3 s a t ih => simpa [le] using ih
  | case4 a s b t hne =>
    have hside : a.toNat < b.toNat ∨ b.toNat < a.toNat := Nat.lt_or_gt_of_ne (hne ∘ UInt8.toNat.inj)
    simpa [le, Ne.symm hne, UInt8.lt_iff_toNat_lt] using hside

theorem le_antisymm (hst : le s t = true) (hts : le t s = true) : s = t := by
  fun_induction le s t with
  | case1 t =>
    cases t with
    | nil => rfl
    | cons b t => cases hts
  | case2 a s => cases hst
  | case3 s a t ih =>
    rw [le, if_pos rfl] at hts
    rw [ih hst hts]
  | case4 a s b t hne =>
    rw [le, if_neg (Ne.symm hne)] at hts
    exact absurd (of_decide_eq_true hts) (UInt8.lt_asymm (of_decide_eq_true hst))

theorem le_trans (hst : le s t = true) (htu : le t u = true) : le s u = true := by
  induction s generalizing t u with
  | nil => rfl
  | cons a s ih =>
    cases t with
    | nil => cases hst
    | cons b t =>
      cases u with
      | nil => cases htu
      | cons c u =>
        simp only [le] at hst htu ⊢
        split_ifs at hst htu ⊢ with hab hbc hac
        all_goals grind

end Order

/-- A text is cut at the first place of a byte. -/
theorem cut?_eq_some_iff {s before behind : Bytes} :
    cut? [c] s = some (before, behind) ↔ s = before ++ c :: behind ∧ c ∉ before := by
  induction s generalizing before with
  | nil => simp [cut?]
  | cons d s ih =>
    by_cases hd : c = d
    · subst hd
      cases before with
      | nil => simp [cut?, dropFront?, eq_comm]
      | cons b before =>
        simp only [cut?, dropFront?, List.mem_cons]
        grind
    · cases before with
      | nil => simp [cut?, dropFront?, hd, Ne.symm hd]
      | cons b before =>
        simp only [cut?, dropFront?, if_neg hd, Option.map_eq_some_iff, Prod.exists, Prod.mk.injEq,
          List.mem_cons]
        grind

end Bytes

namespace Token

open Bytes

variable {c : UInt8}

theorem startsName_iff : startsName c = true ↔
    97 ≤ c.toNat ∧ c.toNat ≤ 122 ∨ 65 ≤ c.toNat ∧ c.toNat ≤ 90 ∨ c.toNat = 95 := by
  simp only [startsName, isLetter, Bool.or_eq_true, isLower_iff, isUpper_iff, beq_iff_eq,
    ← UInt8.toNat_inj, or_assoc]
  rfl

theorem continuesName_iff : continuesName c = true ↔
    97 ≤ c.toNat ∧ c.toNat ≤ 122 ∨ 65 ≤ c.toNat ∧ c.toNat ≤ 90 ∨ 48 ≤ c.toNat ∧ c.toNat ≤ 57 ∨
      c.toNat = 95 ∨ c.toNat = 46 := by
  simp only [continuesName, isLetter, Bool.or_eq_true, isLower_iff, isUpper_iff, isDigit_iff,
    beq_iff_eq, ← UInt8.toNat_inj, or_assoc]
  rfl

theorem continuesName_of_startsName (h : startsName c = true) :
    continuesName c = true := by
  rw [startsName_iff] at h
  rw [continuesName_iff]
  omega

theorem continuesName_toLower (h : continuesName c = true) :
    continuesName (toLower c) = true := by
  rw [continuesName_iff] at h ⊢
  rw [toNat_toLower]
  split <;> omega

theorem startsName_toLower (h : startsName c = true) :
    startsName (toLower c) = true := by
  rw [startsName_iff] at h ⊢
  rw [toNat_toLower]
  split <;> omega

/-- Names are ASCII texts, which are changed letter by letter. -/
theorem lower_of_continuesName {s : Bytes} (h : s.all continuesName = true) :
    Text.lower s = s.map toLower := by
  have hascii : s.all (· < 0x80) = true := by
    simp only [List.all_eq_true, decide_eq_true_eq] at h ⊢
    intro c hc
    have hname := continuesName_iff.mp (h c hc)
    rw [UInt8.lt_iff_toNat_lt]
    change c.toNat < 128
    omega
  rw [Text.lower, if_pos hascii]

end Token

end Eel
