import Eel.Proofs.Double.Decimal
import Eel.Proofs.Token.Spelling

/-!
Numbers as the text that stands for them.

A decimal is written in digits, with a point before its fraction. The text is
one number for the reader of tokens, and its value is the decimal's.
-/

namespace Eel

open List

namespace Bytes

/-- The number that digits stand for. -/
def digitsValue (s : Bytes) : Nat := s.foldl (fun n c => 10 * n + (c.toNat - '0'.toNat)) 0

theorem foldl_digits (n : Nat) (s : Bytes) :
    s.foldl (fun n c => 10 * n + (c.toNat - '0'.toNat)) n = n * 10 ^ s.length + digitsValue s := by
  unfold digitsValue
  induction s generalizing n with
  | nil => simp
  | cons c s ih =>
    rw [foldl_cons, foldl_cons, ih, ih (10 * 0 + _), length_cons]
    ring

theorem digitsValue_append (s t : Bytes) :
    digitsValue (s ++ t) = digitsValue s * 10 ^ t.length + digitsValue t := by
  rw [digitsValue, foldl_append, foldl_digits]
  rfl

theorem digitsValue_cons (c : UInt8) (s : Bytes) :
    digitsValue (c :: s) = (c.toNat - '0'.toNat) * 10 ^ s.length + digitsValue s := by
  rw [digitsValue, foldl_cons, foldl_digits, Nat.mul_zero, Nat.zero_add]

theorem digitsValue_replicate_zero (n : Nat) : digitsValue (List.replicate n '0'.toUInt8) = 0 := by
  induction n with
  | zero => rfl
  | succ n ih =>
    have hzero : '0'.toUInt8.toNat - '0'.toNat = 0 := rfl
    rw [replicate_succ, digitsValue_cons, ih, hzero, Nat.zero_mul]

theorem toNat_digit {n : Nat} (h : n < 10) : ('0'.toUInt8 + n.toUInt8).toNat = 48 + n := by
  have hzero : '0'.toUInt8.toNat = 48 := rfl
  have hn : n.toUInt8.toNat = n := Nat.mod_eq_of_lt (by omega)
  rw [UInt8.toNat_add, hzero, hn]
  omega

theorem decimalOnto_eq (n : Nat) (rest : Bytes) :
    ∃ digits, decimalOnto n rest = digits ++ rest ∧ digits ≠ [] ∧
    (∀ c ∈ digits, isDigit c = true) ∧ digitsValue digits = n := by
  induction n using Nat.strong_induction_on generalizing rest with
  | _ n ih =>
    have hdigit := toNat_digit (Nat.mod_lt n (by norm_num : 0 < 10))
    have hisDigit : isDigit ('0'.toUInt8 + (n % 10).toUInt8) = true := by
      rw [isDigit_iff, hdigit]
      omega
    have hvalue : digitsValue ['0'.toUInt8 + (n % 10).toUInt8] = n % 10 := by
      rw [digitsValue_cons, hdigit]
      change (48 + n % 10 - 48) * 1 + 0 = n % 10
      omega
    rw [decimalOnto]
    split
    · next hlt => exact ⟨[_], rfl, by simp, by simpa using hisDigit, by rw [hvalue]; omega⟩
    · next hlt =>
        obtain ⟨digits, htext, hne, hall, hvalue'⟩ :=
          ih (n / 10) (by omega) (('0'.toUInt8 + (n % 10).toUInt8) :: rest)
        refine ⟨digits ++ ['0'.toUInt8 + (n % 10).toUInt8], by simpa using htext, by simp, ?_, ?_⟩
        · intro c hc
          rcases mem_append.mp hc with hc | hc
          · exact hall c hc
          · rw [mem_singleton.mp hc]
            exact hisDigit
        · rw [digitsValue_append, hvalue', hvalue, length_singleton]
          omega

theorem decimal_eq (n : Nat) :
    decimal n ≠ [] ∧ (∀ c ∈ decimal n, isDigit c = true) ∧ digitsValue (decimal n) = n := by
  obtain ⟨digits, htext, hne, hall, hvalue⟩ := decimalOnto_eq n []
  rw [append_nil] at htext
  rw [decimal, htext]
  exact ⟨hne, hall, hvalue⟩

end Bytes

namespace Decimal

open Bytes

/-- That a text is digits with at most one point between them, and what it
stands for. -/
structure Positional (s : Bytes) (d : Decimal) (whole fraction : Bytes) : Prop where
  text : s = whole ∧ fraction = [] ∨ s = whole ++ '.'.toUInt8 :: fraction
  whole_ne_nil : whole ≠ []
  isDigit_whole : ∀ c ∈ whole, isDigit c = true
  isDigit_fraction : ∀ c ∈ fraction, isDigit c = true
  value_eq : d.value = digitsValue (whole ++ fraction) * (10 : ℚ) ^ (-(fraction.length : Int))

theorem exists_positional (d : Decimal) :
    ∃ whole fraction, Positional d.positional d whole fraction := by
  obtain ⟨hne, hdigits, hvalue⟩ := decimal_eq d.digits
  have hzeros (n : Nat) : ∀ c ∈ List.replicate n '0'.toUInt8, isDigit c = true := by
    intro c hc
    rw [(mem_replicate.mp hc).2]
    rfl
  unfold positional
  dsimp only
  split
  · next hexponent =>
      split
      · next hzero =>
          refine ⟨_, [], .inl ⟨rfl, rfl⟩, hne, hdigits, by simp, ?_⟩
          rw [append_nil, hvalue, value, hzero, Nat.cast_zero, zero_mul, zero_mul]
      · refine ⟨_, [], .inl ⟨rfl, rfl⟩, by simp [hne], ?_, by simp, ?_⟩
        · intro c hc
          exact (mem_append.mp hc).elim (hdigits c) (hzeros _ c)
        · rw [append_nil, digitsValue_append, hvalue, digitsValue_replicate_zero, value]
          lift d.exponent to Nat using hexponent with e
          simp
  · next hexponent =>
      set places := (-d.exponent).toNat with hplaces
      set text := List.replicate (places + 1 - (decimal d.digits).length) '0'.toUInt8 ++
        decimal d.digits with htext
      have hall : ∀ c ∈ text, isDigit c = true := fun c hc =>
        (mem_append.mp hc).elim (hzeros _ c) (hdigits c)
      have hlength : places < text.length := by
        rw [htext, length_append, length_replicate]
        omega
      refine ⟨_, _, .inr (by rw [append_assoc]; rfl), ?_, fun c hc => hall c (mem_of_mem_take hc),
        fun c hc => hall c (mem_of_mem_drop hc), ?_⟩
      · intro hnil
        have := congrArg List.length hnil
        rw [length_take, length_nil] at this
        omega
      · have hvalue' : digitsValue text = d.digits := by
          rw [htext, digitsValue_append, digitsValue_replicate_zero, Nat.zero_mul,
            Nat.zero_add, hvalue]
        have hfraction : -((text.drop (text.length - places)).length : Int) = d.exponent := by
          rw [length_drop]
          omega
        rw [take_append_drop, hvalue', hfraction, value]

namespace Positional

variable {s whole fraction : Bytes} {d : Decimal}

theorem ne_point {c : UInt8} (h : isDigit c = true) : c ≠ '.'.toUInt8 := by
  rintro rfl
  cases h

variable (h : Positional s d whole fraction)

include h

theorem filter_eq : s.filter (· ≠ '.'.toUInt8) = whole ++ fraction := by
  have hkeep {t : Bytes} (ht : ∀ c ∈ t, isDigit c = true) : t.filter (· ≠ '.'.toUInt8) = t :=
    filter_eq_self.mpr fun c hc => by simpa using ne_point (ht c hc)
  rcases h.text with ⟨rfl, rfl⟩ | rfl
  · rw [hkeep h.isDigit_whole, append_nil]
  · rw [filter_append, hkeep h.isDigit_whole, filter_cons, hkeep h.isDigit_fraction]
    rfl

theorem behindPoint_eq : (s.dropWhile (· ≠ '.'.toUInt8)).drop 1 = fraction := by
  have hwhole : whole.dropWhile (· ≠ '.'.toUInt8) = [] :=
    dropWhile_eq_nil_iff.mpr fun c hc => by simpa using ne_point (h.isDigit_whole c hc)
  rcases h.text with ⟨rfl, rfl⟩ | rfl
  · rw [hwhole]
    rfl
  · rw [dropWhile_append, hwhole]
    rfl

/-- The text is read as its decimal. -/
theorem numberValue?_eq (hfinite : d.toDouble.isInfinite = false) :
    Tree.numberValue? s = some d.toDouble := by
  have hread :
      Decimal.toDouble ⟨digitsValue (whole ++ fraction), -(fraction.length : Int)⟩ = d.toDouble :=
    toDouble_congr h.value_eq.symm
  unfold Tree.numberValue?
  dsimp only
  rw [h.filter_eq, h.behindPoint_eq]
  change (if (Decimal.toDouble ⟨digitsValue _, _⟩).isInfinite = true then none else _) = _
  rw [hread, if_neg (by simp [hfinite])]
  exact congrArg some hread

theorem numberText_eq : Token.numberText s = s := by
  have htake {t : Bytes} (ht : ∀ c ∈ t, isDigit c = true) : t.takeWhile isDigit = t :=
    takeWhile_eq_self_iff.mpr ht
  have hpoint : isDigit '.'.toUInt8 = false := rfl
  unfold Token.numberText
  rcases h.text with ⟨rfl, rfl⟩ | rfl
  · simp [htake h.isDigit_whole]
  · have hwhole : (whole ++ '.'.toUInt8 :: fraction).takeWhile isDigit = whole := by
      rw [takeWhile_append, htake h.isDigit_whole]
      simp [hpoint]
    simp [hwhole, htake h.isDigit_fraction]

theorem exists_cons : ∃ c rest, s = c :: rest ∧ isDigit c = true := by
  obtain ⟨c, rest, rfl⟩ := exists_cons_of_ne_nil h.whole_ne_nil
  have hc := h.isDigit_whole c (by simp)
  rcases h.text with ⟨rfl, -⟩ | rfl
  · exact ⟨c, rest, rfl, hc⟩
  · exact ⟨c, _, rfl, hc⟩

theorem isSpelled : (Word.number s).isSpelled = true := by
  have hnumber := h.numberText_eq
  obtain ⟨c, rest, rfl, hc⟩ := h.exists_cons
  have hname : Token.startsName c = false := by
    rw [isDigit_iff] at hc
    rw [← Bool.not_eq_true, Token.startsName_iff]
    omega
  have hstarts : Token.startsNumber (c :: rest) = true := by
    cases rest <;> simp [Token.startsNumber, hc]
  simp [Word.isSpelled, Word.text, Word.kind, Token.classify, hname, hstarts, hnumber]

end Positional

end Decimal

namespace Double

variable {x : Double}

theorem shortest_abs (x : Double) : x.abs.shortest = x.shortest := by
  rw [shortest, shortest, significand_abs, abs_abs]

variable (h : x.isFinite = true)

include h

theorem isInfinite_of_isFinite : x.isInfinite = false ∧ x.isNaN = false := by
  simp only [isFinite, decide_eq_true_eq, UInt64.lt_iff_toNat_lt] at h
  simp only [isInfinite, isNaN, beq_eq_false_iff_ne, ne_eq, ← UInt64.toNat_inj,
    decide_eq_false_iff_not, UInt64.lt_iff_toNat_lt]
  omega

/-- A finite number is a sign before the digits of its magnitude. -/
theorem text_of_isFinite :
    x.text = (if x.isNegative then Symbol.minus.text else []) ++ x.shortest.positional := by
  obtain ⟨hinfinite, hnan⟩ := isInfinite_of_isFinite h
  rw [text, hnan, hinfinite]
  rfl

theorem text_abs : x.abs.text = x.shortest.positional := by
  rw [text_of_isFinite (by simpa using h), isNegative_abs, shortest_abs]
  rfl

/-- The digits of a finite number are read as its magnitude. -/
theorem numberValue?_text_abs : Tree.numberValue? x.abs.text = some x.abs := by
  obtain ⟨whole, fraction, hpositional⟩ := x.shortest.exists_positional
  have hread := toDouble_shortest h
  have hfinite : x.shortest.toDouble.isInfinite = false := by
    rw [hread]
    exact (isInfinite_of_isFinite (by simpa using h)).1
  rw [text_abs h, hpositional.numberValue?_eq hfinite, hread]

theorem isSpelled_text_abs : (Word.number x.abs.text).isSpelled = true := by
  obtain ⟨whole, fraction, hpositional⟩ := x.shortest.exists_positional
  rw [text_abs h]
  exact hpositional.isSpelled

theorem exists_text_abs : ∃ c rest, x.abs.text = c :: rest ∧ Bytes.isDigit c = true := by
  obtain ⟨whole, fraction, hpositional⟩ := x.shortest.exists_positional
  rw [text_abs h]
  exact hpositional.exists_cons

end Double

end Eel
