import Mathlib
import Eel.Wasm.Leb128

/-!
Numbers as groups of seven bits.

The bytes of a number all continue, but for the last. Each brings a group of
seven bits, the lowest first, and groups of zeros may stand behind the highest
bit that is set. What reads an unsigned number takes ten bytes at most: it gives
the number that the groups make up, and tells a number that has no room in 64
bits from an input that ends too early.
-/

namespace Eel.Wasm

open List

/-- That every byte says that another one follows. -/
def Continuing (s : Bytes) : Prop := ∀ c ∈ s, continues c = true

/-- That bytes are those of one number: all but the last continue. -/
def Terminated (s : Bytes) : Prop :=
  ∃ front last, s = front ++ [last] ∧ Continuing front ∧ continues last = false

/-- The number that the groups of some bytes make up, without a sign. -/
def magnitude (s : Bytes) : Nat := ∑ i : Fin s.length, s[i].toNat % 128 * 2 ^ (7 * i.val)

section Group

variable {c : UInt8} {s : Bytes}

theorem toNat_toUInt8 {n : Nat} (h : n < 256) : n.toUInt8.toNat = n := by
  simp [Nat.mod_eq_of_lt h]

theorem continues_iff : continues c = true ↔ 128 ≤ c.toNat := by
  simp only [continues, decide_eq_true_eq, UInt8.le_iff_toNat_le]
  rfl

theorem magnitude_nil : magnitude [] = 0 := rfl

theorem magnitude_cons (c : UInt8) (s : Bytes) :
    magnitude (c :: s) = c.toNat % 128 + 128 * magnitude s := by
  have hshift (i : Fin s.length) : s[i].toNat % 128 * 2 ^ (7 * (i.val + 1)) =
      128 * (s[i].toNat % 128 * 2 ^ (7 * i.val)) := by
    rw [Nat.mul_add_one, pow_add]
    ring
  calc magnitude (c :: s)
    _ = c.toNat % 128 * 2 ^ 0 + ∑ i : Fin s.length, s[i].toNat % 128 * 2 ^ (7 * (i.val + 1)) :=
        Fin.sum_univ_succ (n := s.length) fun i => ((c :: s).get i).toNat % 128 * 2 ^ (7 * i.val)
    _ = c.toNat % 128 + 128 * magnitude s := by
        rw [pow_zero, Nat.mul_one, magnitude, Finset.mul_sum,
          Finset.sum_congr rfl fun i _ => hshift i]

theorem magnitude_append (s t : Bytes) :
    magnitude (s ++ t) = magnitude s + magnitude t * 2 ^ (7 * s.length) := by
  induction s with
  | nil => simp [magnitude_nil]
  | cons c s ih =>
    rw [cons_append, magnitude_cons, magnitude_cons, ih, length_cons, Nat.mul_add_one, pow_add]
    ring

theorem magnitude_concat (s : Bytes) (c : UInt8) :
    magnitude (s ++ [c]) = magnitude s + c.toNat % 128 * 2 ^ (7 * s.length) := by
  rw [magnitude_append, magnitude_cons, magnitude_nil, Nat.mul_zero, Nat.add_zero]

theorem magnitude_lt (s : Bytes) : magnitude s < 2 ^ (7 * s.length) := by
  induction s with
  | nil => simp [magnitude_nil]
  | cons c s ih =>
    rw [magnitude_cons, length_cons, Nat.mul_add_one, pow_add]
    change _ < _ * 128
    omega

/-- Nine groups leave one bit of 64 free. -/
theorem magnitude_lt_of_length (h : s.length < 10) : magnitude s < 2 ^ 63 :=
  (magnitude_lt s).trans_le (Nat.pow_le_pow_right (by omega) (by omega))

theorem Continuing.concat (h : Continuing s) (hc : continues c = true) :
    Continuing (s ++ [c]) := by
  simp only [Continuing, forall_mem_append, forall_mem_singleton]
  exact ⟨h, hc⟩

theorem Terminated.singleton (hc : continues c = false) : Terminated [c] :=
  ⟨[], c, rfl, by simp [Continuing], hc⟩

theorem Terminated.cons (hc : continues c = true) (h : Terminated s) : Terminated (c :: s) := by
  obtain ⟨front, last, rfl, hfront, hlast⟩ := h
  exact ⟨c :: front, last, rfl, forall_mem_cons.mpr ⟨hc, hfront⟩, hlast⟩

theorem Terminated.ne_nil (h : Terminated s) : s ≠ [] := by
  obtain ⟨front, last, rfl, -⟩ := h
  simp

/-- At the front of an input stands a number of up to `limit` bytes, or else as
many bytes that continue, unless the input ends before. -/
theorem front_cases (limit : Nat) (s : Bytes) :
    (∃ number rest, s = number ++ rest ∧ Terminated number ∧ number.length ≤ limit) ∨
      (Continuing s ∧ s.length ≤ limit) ∨
      ∃ front c rest, s = front ++ c :: rest ∧ Continuing front ∧ front.length = limit := by
  induction s generalizing limit with
  | nil => exact .inr (.inl ⟨by simp [Continuing], by simp⟩)
  | cons c s ih =>
    cases limit with
    | zero => exact .inr (.inr ⟨[], c, s, rfl, by simp [Continuing], rfl⟩)
    | succ limit =>
      by_cases hc : continues c = true
      · have hcons {t : Bytes} (ht : Continuing t) : Continuing (c :: t) :=
          forall_mem_cons.mpr ⟨hc, ht⟩
        rcases ih limit with ⟨number, rest, rfl, hnumber, hlength⟩ | ⟨hs, hlength⟩ |
          ⟨front, d, rest, rfl, hfront, hlength⟩
        · exact .inl ⟨c :: number, rest, rfl, .cons hc hnumber, Nat.succ_le_succ hlength⟩
        · exact .inr (.inl ⟨hcons hs, Nat.succ_le_succ hlength⟩)
        · exact .inr (.inr ⟨c :: front, d, rest, rfl, hcons hfront, congrArg (· + 1) hlength⟩)
      · exact .inl ⟨[c], s, rfl, .singleton (by simpa using hc), by simp⟩

/-- Where reading does not succeed, the input says which fault it meets. -/
theorem faults_iff {α : Type} {read : Except Fault α} {Ends Overflows : Prop}
    (hcases : (∃ a, read = .ok a) ∨ Ends ∨ Overflows) (hends : Ends → read = .error .truncated)
    (hoverflows : Overflows → read = .error .overflow) :
    (read = .error .truncated ↔ Ends) ∧ (read = .error .overflow ↔ Overflows) := by
  grind

end Group

section Written

theorem length_unsigned_le {n k : Nat} (h : n < 2 ^ (7 * (k + 1))) :
    (unsigned n).length ≤ k + 1 := by
  induction k generalizing n with
  | zero => rw [unsigned, if_pos (by omega)]; rfl
  | succ k ih =>
    rw [unsigned]
    split
    · simp
    · have hquotient : n / 128 < 2 ^ (7 * (k + 1)) := by
        rw [Nat.div_lt_iff_lt_mul (by omega)]
        calc n < 2 ^ (7 * (k + 1 + 1)) := h
          _ = 2 ^ (7 * (k + 1)) * 128 := by rw [Nat.mul_add_one 7 (k + 1), pow_add]; rfl
      have htail := ih hquotient
      rw [length_cons]
      omega

/-- The bytes of a number tell where it ends. -/
theorem Terminated.length_eq {number : Bytes} (h : Terminated number) (rest : Bytes) :
    number.length = ((number ++ rest).takeWhile continues).length + 1 := by
  obtain ⟨front, last, rfl, hfront, hlast⟩ := h
  rw [append_assoc, takeWhile_append_of_pos hfront]
  simp [hlast]

theorem Terminated.append_inj {a b r s : Bytes} (ha : Terminated a) (hb : Terminated b)
    (h : a ++ r = b ++ s) : a = b ∧ r = s :=
  List.append_inj h (by rw [ha.length_eq r, hb.length_eq s, h])

theorem terminated_unsigned (n : Nat) : Terminated (unsigned n) := by
  fun_induction unsigned n with
  | case1 n hsmall =>
    refine .singleton ?_
    rw [← Bool.not_eq_true, continues_iff, toNat_toUInt8 (by omega)]
    omega
  | case2 n hbig ih =>
    refine .cons ?_ ih
    rw [continues_iff, toNat_toUInt8 (by omega)]
    omega

theorem unsigned_ne_nil (n : Nat) : unsigned n ≠ [] := (terminated_unsigned n).ne_nil

theorem magnitude_unsigned (n : Nat) : magnitude (unsigned n) = n := by
  fun_induction unsigned n with
  | case1 n hsmall =>
    rw [magnitude_cons, magnitude_nil, toNat_toUInt8 (by omega)]
    omega
  | case2 n hbig ih =>
    rw [magnitude_cons, ih, toNat_toUInt8 (by omega)]
    omega

end Written

section Unsigned

variable {s front rest : Bytes} {value n : Nat} {c : UInt8}

/-- That the first ten bytes or fewer force a number to be too large, by the
value of their groups or by an eleventh group. -/
def ForcesOverflow (s : Bytes) : Prop :=
  ∃ front c rest, s = front ++ c :: rest ∧ Continuing front ∧ front.length < 10 ∧
  (2 ^ 64 ≤ magnitude (front ++ [c]) ∨ front.length = 9 ∧ continues c = true)

/-- That an input ends inside of a number, with a value that has room so far,
before an eleventh group comes. -/
def EndsFirst (s : Bytes) : Prop := Continuing s ∧ s.length ≤ 10 ∧ magnitude s < 2 ^ 64

/-- A byte is taken if there is room for its group. -/
theorem readUnsignedFrom_cons {place : Nat} (rest : Bytes) (hplace : place ≤ 63)
    (hfits : value + contribution place c < 2 ^ 64) :
    readUnsignedFrom place value (c :: rest) =
      if continues c then readUnsignedFrom (place + 7) (value + contribution place c) rest
      else .ok (value + contribution place c, rest) := by
  have hroom : ¬(64 ≤ place || (place == 63 && 2 ≤ c.toNat % 128)) = true := by
    simp only [Bool.or_eq_true, Bool.and_eq_true, decide_eq_true_eq, beq_iff_eq]
    rintro (hlate | ⟨rfl, hlarge⟩)
    · omega
    · rw [contribution, Nat.pow_eq] at hfits
      omega
  rw [readUnsignedFrom, if_neg hroom]

/-- Bytes that continue are added group by group, as long as there is room. -/
theorem readUnsignedFrom_continuing (hfront : Continuing front) (place value : Nat) (s : Bytes)
    (hplace : place + 7 * front.length ≤ 70)
    (hfits : value + magnitude front * 2 ^ place < 2 ^ 64) :
    readUnsignedFrom place value (front ++ s) =
      readUnsignedFrom (place + 7 * front.length) (value + magnitude front * 2 ^ place) s := by
  induction front generalizing place value with
  | nil => simp [magnitude_nil]
  | cons c front ih =>
    obtain ⟨hc, hfront⟩ := forall_mem_cons.mp hfront
    rw [length_cons] at hplace
    have hsum : value + magnitude (c :: front) * 2 ^ place =
        value + contribution place c + magnitude front * 2 ^ (place + 7) := by
      rw [magnitude_cons, contribution, Nat.pow_eq, pow_add]
      ring
    rw [hsum] at hfits ⊢
    have hfirst : value + contribution place c < 2 ^ 64 :=
      Nat.lt_of_le_of_lt (Nat.le_add_right _ _) hfits
    rw [cons_append, readUnsignedFrom_cons _ (by omega) hfirst, if_pos hc,
      ih hfront _ _ (by omega) hfits,
      length_cons]
    congr 1
    omega

theorem readUnsigned_continuing (hfront : Continuing front) (s : Bytes)
    (hlength : front.length ≤ 10) (hfits : magnitude front < 2 ^ 64) :
    readUnsigned (front ++ s) = readUnsignedFrom (7 * front.length) (magnitude front) s := by
  have hread := readUnsignedFrom_continuing hfront 0 0 s (by omega) (by simpa using hfits)
  simpa [readUnsigned] using hread

theorem readUnsigned_terminated {number : Bytes} (h : Terminated number) (rest : Bytes)
    (hlength : number.length ≤ 10) (hfits : magnitude number < 2 ^ 64) :
    readUnsigned (number ++ rest) = .ok (magnitude number, rest) := by
  obtain ⟨front, last, rfl, hfront, hlast⟩ := h
  rw [length_append, length_singleton] at hlength
  have hbelow := magnitude_lt_of_length (s := front) (by omega)
  rw [magnitude_concat] at hfits ⊢
  rw [append_assoc, singleton_append, readUnsigned_continuing hfront _ (by omega) (by omega),
    readUnsignedFrom_cons _ (by omega) hfits, if_neg (by simp [hlast])]
  rfl

theorem readUnsigned_endsFirst (h : EndsFirst s) : readUnsigned s = .error .truncated := by
  obtain ⟨hs, hlength, hfits⟩ := h
  have hread := readUnsigned_continuing hs [] hlength hfits
  rwa [append_nil] at hread

/-- Only a tenth group can make a number too large. -/
theorem readUnsigned_of_le_magnitude (hfront : Continuing front) (rest : Bytes)
    (hlength : front.length < 10) (hlarge : 2 ^ 64 ≤ magnitude (front ++ [c])) :
    readUnsigned (front ++ c :: rest) = .error .overflow := by
  have hbelow := magnitude_lt_of_length hlength
  have hten : 64 < 7 * (front ++ [c]).length :=
    (Nat.pow_lt_pow_iff_right (by omega)).mp (hlarge.trans_lt (magnitude_lt _))
  rw [length_append, length_singleton] at hten
  obtain hnine : front.length = 9 := by omega
  rw [magnitude_concat, hnine] at hlarge
  rw [readUnsigned_continuing hfront _ (by omega) (by omega), readUnsignedFrom, if_pos]
  rw [hnine]
  simp only [Bool.or_eq_true, Bool.and_eq_true, decide_eq_true_eq, beq_iff_eq]
  exact .inr ⟨trivial, by omega⟩

theorem readUnsigned_forcesOverflow (h : ForcesOverflow s) (hmore : ¬EndsFirst s) :
    readUnsigned s = .error .overflow := by
  obtain ⟨front, c, rest, rfl, hfront, hlength, hlarge | ⟨hnine, hc⟩⟩ := h
  · exact readUnsigned_of_le_magnitude hfront rest hlength hlarge
  · by_cases hfits : magnitude (front ++ [c]) < 2 ^ 64
    · -- The value of ten groups has room, so it is the byte behind them that does not.
      have hten : (front ++ [c]).length = 10 := by rw [length_append, length_singleton, hnine]
      cases rest with
      | nil => exact absurd ⟨hfront.concat hc, hten.le, hfits⟩ hmore
      | cons d rest =>
        have hread := readUnsigned_continuing (hfront.concat hc) (d :: rest) hten.le hfits
        rw [hten, ← append_cons] at hread
        exact hread
    · exact readUnsigned_of_le_magnitude hfront rest hlength (Nat.le_of_not_lt hfits)

theorem Continuing.forcesOverflow (hfront : Continuing front) (rest : Bytes)
    (hlength : front.length ≤ 10) (h : 2 ^ 64 ≤ magnitude front ∨ front.length = 10) :
    ForcesOverflow (front ++ rest) := by
  rcases eq_nil_or_concat' front with rfl | ⟨front, last, rfl⟩
  · simp [magnitude_nil] at h
  · simp only [Continuing, forall_mem_append, forall_mem_singleton] at hfront
    rw [length_append, length_singleton] at hlength h
    exact ⟨front, last, rest, by simp, hfront.1, by omega,
      h.imp_right fun hten => ⟨by omega, hfront.2⟩⟩

/-- What can stand at the front of an input. -/
theorem unsigned_cases (s : Bytes) :
    (∃ number rest, s = number ++ rest ∧ Terminated number ∧ number.length ≤ 10 ∧
      magnitude number < 2 ^ 64) ∨
      EndsFirst s ∨ (ForcesOverflow s ∧ ¬EndsFirst s) := by
  by_cases hends : EndsFirst s
  · exact .inr (.inl hends)
  rcases front_cases 10 s with ⟨number, rest, rfl, hnumber, hlength⟩ | ⟨hs, hlength⟩ |
    ⟨front, c, rest, rfl, hfront, hlength⟩
  · by_cases hfits : magnitude number < 2 ^ 64
    · exact .inl ⟨number, rest, rfl, hnumber, hlength, hfits⟩
    · obtain ⟨front, last, rfl, hfront, -⟩ := hnumber
      rw [length_append, length_singleton] at hlength
      exact .inr (.inr ⟨⟨front, last, rest, by simp, hfront, by omega,
        .inl (Nat.le_of_not_lt hfits)⟩, hends⟩)
  · have hlarge : 2 ^ 64 ≤ magnitude s := by
      by_contra hsmall
      exact hends ⟨hs, hlength, Nat.lt_of_not_le hsmall⟩
    have hforces := hs.forcesOverflow [] hlength (.inl hlarge)
    rw [append_nil] at hforces
    exact .inr (.inr ⟨hforces, hends⟩)
  · exact .inr (.inr ⟨hfront.forcesOverflow _ hlength.le (.inr hlength), hends⟩)

theorem readUnsigned_eq_ok_iff : readUnsigned s = .ok (value, rest) ↔
    ∃ number, s = number ++ rest ∧ Terminated number ∧ number.length ≤ 10 ∧
      magnitude number = value ∧ value < 2 ^ 64 := by
  constructor
  · intro hread
    rcases unsigned_cases s with ⟨number, rest', rfl, hnumber, hlength, hfits⟩ | hends
        | ⟨hforces, hmore⟩
    · rw [readUnsigned_terminated hnumber rest' hlength hfits] at hread
      obtain ⟨rfl, rfl⟩ := Prod.mk.inj (Except.ok.inj hread)
      exact ⟨number, rfl, hnumber, hlength, rfl, hfits⟩
    · cases (readUnsigned_endsFirst hends).symm.trans hread
    · cases (readUnsigned_forcesOverflow hforces hmore).symm.trans hread
  · rintro ⟨number, rfl, hnumber, hlength, rfl, hfits⟩
    exact readUnsigned_terminated hnumber rest hlength hfits

theorem readUnsigned_faults_iff : (readUnsigned s = .error .truncated ↔ EndsFirst s) ∧
    (readUnsigned s = .error .overflow ↔ ForcesOverflow s ∧ ¬EndsFirst s) := by
  refine faults_iff ?_ readUnsigned_endsFirst fun h => readUnsigned_forcesOverflow h.1 h.2
  rcases unsigned_cases s with ⟨number, rest, rfl, hnumber, hlength, hfits⟩ | hfaults
  · exact .inl ⟨_, readUnsigned_terminated hnumber rest hlength hfits⟩
  · exact .inr hfaults

/-- An unsigned number is read if and only if it ends within ten bytes and has
room in 64 bits, and then it is the sum of its groups. Any other input is
refused: as truncated if it ends first, and as too large if ten bytes or fewer
force it to be. -/
theorem readUnsigned_exact (s : Bytes) :
    (∀ value rest, readUnsigned s = .ok (value, rest) ↔
      ∃ number, s = number ++ rest ∧ Terminated number ∧ number.length ≤ 10 ∧
        magnitude number = value ∧ value < 2 ^ 64) ∧
    (readUnsigned s = .error .truncated ↔ EndsFirst s) ∧
    (readUnsigned s = .error .overflow ↔ ForcesOverflow s ∧ ¬EndsFirst s) :=
  ⟨fun _ _ => readUnsigned_eq_ok_iff, readUnsigned_faults_iff⟩

theorem readUnsigned_unsigned (rest : Bytes) (h : n < 2 ^ 64) :
    readUnsigned (unsigned n ++ rest) = .ok (n, rest) := by
  have hlength : (unsigned n).length ≤ 10 := length_unsigned_le (h.trans (by norm_num))
  rw [readUnsigned_terminated (terminated_unsigned n) rest hlength (by rwa [magnitude_unsigned]),
    magnitude_unsigned]

/-- What reads a number that was written reads just that number. -/
theorem eq_of_readUnsigned (h : readUnsigned (unsigned n ++ rest) = .ok (value, s)) :
    value = n ∧ s = rest := by
  obtain ⟨number, happend, hnumber, -, rfl, -⟩ := readUnsigned_eq_ok_iff.mp h
  obtain ⟨rfl, rfl⟩ := (terminated_unsigned n).append_inj hnumber happend
  exact ⟨magnitude_unsigned n, rfl⟩

/-- Ten bytes that continue have room until there is an eleventh. -/
example : readUnsigned (List.replicate 10 0x80) = .error .truncated ∧
    readUnsigned (List.replicate 10 0x80 ++ [0x00]) = .error .overflow := by decide

end Unsigned

end Eel.Wasm
