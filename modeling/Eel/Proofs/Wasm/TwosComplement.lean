import Eel.Proofs.Wasm.Groups

/-!
Signed numbers as groups of seven bits.

The highest bit of all the groups is the sign. A signed number is read exactly
if it has room in 64 bits, which all numbers of up to nine groups have. A tenth
group brings one bit that has room, the sign, and six that have to repeat it.
They are dropped unseen: a number whose tenth group is neither all zeros nor all
ones is not refused but read as another one, the same modulo 2^64.
-/

namespace Eel.Wasm

open List

/-- The number that the groups of some bytes make up, if their highest bit is
the sign. -/
def twosComplement (s : Bytes) : Int :=
  magnitude s - if 2 ^ (7 * s.length) ≤ 2 * magnitude s then 2 ^ (7 * s.length) else 0

/-- That there is a tenth group with bits that do not all repeat the sign. -/
def Spills (s : Bytes) : Prop := s.length = 10 ∧ s.getLast? ≠ some 0x00 ∧ s.getLast? ≠ some 0x7f

variable {number front : Bytes} {value n : Int} {k : Nat}

section Value

/-- The highest bit of the last group is the sign of the number. -/
theorem twosComplement_concat (front : Bytes) (last : UInt8) :
    twosComplement (front ++ [last]) =
      magnitude (front ++ [last]) - if 64 ≤ last.toNat % 128 then 2 ^ (7 * front.length + 7)
        else 0 := by
  have hbelow := magnitude_lt front
  have hlength : 7 * (front ++ [last]).length = 7 * front.length + 7 := by
    rw [length_append, length_singleton, Nat.mul_add_one]
  have hsign :
      2 ^ (7 * front.length + 7) ≤ 2 * magnitude (front ++ [last]) ↔ 64 ≤ last.toNat % 128 := by
    rw [magnitude_concat, pow_add]
    constructor
    · intro hlarge
      by_contra hsmall
      have hle :=
        Nat.mul_le_mul_right (2 ^ (7 * front.length)) (show last.toNat % 128 ≤ 63 by omega)
      omega
    · intro hlarge
      have hle := Nat.mul_le_mul_right (2 ^ (7 * front.length)) hlarge
      omega
  rw [twosComplement, hlength]
  simp only [hsign]

/-- A number has seven bits to a byte, one of them its sign. -/
theorem twosComplement_bounds {s : Bytes} (hlength : s.length = k + 1) :
    -2 ^ (7 * k + 6) ≤ twosComplement s ∧ twosComplement s < 2 ^ (7 * k + 6) := by
  have hbelow := magnitude_lt s
  have hweight : 2 ^ (7 * s.length) = 2 * 2 ^ (7 * k + 6) := by
    rw [← pow_succ', hlength]
    congr 1
  have hcast : (2 : Int) ^ (7 * s.length) = 2 * 2 ^ (7 * k + 6) := by exact_mod_cast hweight
  have hunit : ((2 ^ (7 * k + 6) : Nat) : Int) = 2 ^ (7 * k + 6) := Nat.cast_pow 2 _
  rw [twosComplement, hcast]
  rw [hweight] at hbelow ⊢
  split <;> omega

theorem twosComplement_bounds_of_length {s : Bytes} (hnonempty : s ≠ []) (hlength : s.length < 10) :
    -2 ^ 62 ≤ twosComplement s ∧ twosComplement s < 2 ^ 62 := by
  obtain ⟨k, hk⟩ := Nat.exists_eq_add_one.mpr (length_pos_iff.mpr hnonempty)
  have hbounds := twosComplement_bounds hk
  have hpow : (2 : Int) ^ (7 * k + 6) ≤ 2 ^ 62 := by
    exact_mod_cast Nat.pow_le_pow_right (by omega) (by omega : 7 * k + 6 ≤ 62)
  omega

/-- A number has room in 64 bits unless its tenth group spills. -/
theorem spills_iff (h : Terminated number) (hlength : number.length ≤ 10) :
    Spills number ↔ ¬(-2 ^ 63 ≤ twosComplement number ∧ twosComplement number < 2 ^ 63) := by
  obtain ⟨front, last, rfl, -, hlast⟩ := h
  rcases Nat.lt_or_eq_of_le hlength with hshort | hten
  · have hbounds := twosComplement_bounds_of_length (by simp) hshort
    exact ⟨fun hspills => absurd hspills.1 hshort.ne, fun hroom => by omega⟩
  · have hnine : front.length = 9 := by simpa using hten
    have hbelow := magnitude_lt_of_length (s := front) (by omega)
    have hsmall : last.toNat < 128 := by
      rw [← Bool.not_eq_true, continues_iff] at hlast
      omega
    have hspills : Spills (front ++ [last]) ↔ last.toNat ≠ 0 ∧ last.toNat ≠ 127 := by
      simp only [Spills, hten, getLast?_concat, ne_eq, Option.some.injEq,
        ← UInt8.toNat_inj, true_and]
      rfl
    rw [hspills, twosComplement_concat, magnitude_concat, hnine, Nat.mod_eq_of_lt hsmall]
    split <;> omega

end Value

section Written

theorem length_signed_le (hlow : -2 ^ (7 * k + 6) ≤ n) (hhigh : n < 2 ^ (7 * k + 6)) :
    (signed n).length ≤ k + 1 := by
  induction k generalizing n with
  | zero =>
    have hseven : isSevenBit n = true := by
      simp only [isSevenBit, Bool.and_eq_true, decide_eq_true_eq]
      norm_num at hlow hhigh
      exact ⟨hlow, hhigh⟩
    rw [signed, if_pos hseven]
    rfl
  | succ k ih =>
    rw [signed]
    split
    · simp
    · have hpow : (2 : Int) ^ (7 * (k + 1) + 6) = 2 ^ (7 * k + 6) * 128 := by
        rw [show 7 * (k + 1) + 6 = 7 * k + 6 + 7 by omega, pow_add]
        rfl
      rw [hpow] at hlow hhigh
      have htail := ih (n := n / 128) (by omega) (by omega)
      rw [length_cons]
      omega

/-- A group below the others does not change the sign. -/
theorem twosComplement_cons (c : UInt8) {s : Bytes} (hs : s ≠ []) :
    twosComplement (c :: s) = c.toNat % 128 + 128 * twosComplement s := by
  obtain ⟨front, last, rfl⟩ := eq_nil_or_concat' s |>.resolve_left hs
  rw [← cons_append, twosComplement_concat, twosComplement_concat, cons_append, magnitude_cons,
    length_cons]
  split
  · rw [Nat.mul_add_one, pow_add _ (7 * _ + 7)]
    push_cast
    ring
  · push_cast
    ring

theorem terminated_signed (n : Int) : Terminated (signed n) := by
  fun_induction signed n with
  | case1 n hseven =>
    refine .singleton ?_
    rw [← Bool.not_eq_true, continues_iff, toNat_toUInt8 (by omega)]
    omega
  | case2 n hbig ih =>
    refine .cons ?_ ih
    rw [continues_iff, toNat_toUInt8 (by omega)]
    omega

theorem twosComplement_signed (n : Int) : twosComplement (signed n) = n := by
  fun_induction signed n with
  | case1 n hseven =>
    simp only [isSevenBit, Bool.and_eq_true, decide_eq_true_eq] at hseven
    rw [← nil_append [_], twosComplement_concat, magnitude_concat, toNat_toUInt8 (by omega),
      magnitude_nil]
    simp only [length_nil]
    split <;> omega
  | case2 n hbig ih =>
    rw [twosComplement_cons _ (terminated_signed _).ne_nil, ih, toNat_toUInt8 (by omega)]
    omega

end Written

section Signed

variable {s : Bytes}

/-- Bytes that continue are added group by group. Bits past the last are
dropped. -/
theorem readSignedFrom_continuing (hfront : Continuing front) (place value : Nat) (s : Bytes)
    (hplace : place + 7 * front.length ≤ 70) (hvalue : value < 2 ^ 64) :
    readSignedFrom place value (front ++ s) =
      readSignedFrom (place + 7 * front.length)
        ((value + magnitude front * 2 ^ place) % 2 ^ 64) s := by
  induction front generalizing place value with
  | nil =>
    rw [nil_append, magnitude_nil, Nat.zero_mul, Nat.add_zero, Nat.mod_eq_of_lt hvalue]
    rfl
  | cons c front ih =>
    obtain ⟨hc, hfront⟩ := forall_mem_cons.mp hfront
    rw [length_cons] at hplace
    have hsum :
        ((value + contribution place c) % Nat.pow 2 64 +
          magnitude front * 2 ^ (place + 7)) % 2 ^ 64 =
        (value + magnitude (c :: front) * 2 ^ place) % 2 ^ 64 := by
      rw [Nat.pow_eq, Nat.mod_add_mod, magnitude_cons, contribution, Nat.pow_eq, pow_add]
      congr 1
      ring
    have hread := ih hfront (place + 7) ((value + contribution place c) % Nat.pow 2 64) (by omega)
      (Nat.mod_lt _ (by norm_num))
    rw [hsum] at hread
    rw [cons_append, readSignedFrom, if_neg (by omega)]
    simp only [if_pos hc, hread, length_cons]
    congr 1
    omega

theorem readSigned_continuing (hfront : Continuing front) (s : Bytes)
    (hlength : front.length ≤ 10) :
    readSigned (front ++ s) = readSignedFrom (7 * front.length) (magnitude front % 2 ^ 64) s := by
  have hread := readSignedFrom_continuing hfront 0 0 s (by omega) (by norm_num)
  simpa [readSigned] using hread

/-- The last byte gives a number its sign, and takes it into 64 bits. -/
theorem withSign_eq_bmod (front : Bytes) (last : UInt8) (hlength : front.length < 10) :
    withSign (7 * front.length) (magnitude (front ++ [last]) % Nat.pow 2 64) last =
      (twosComplement (front ++ [last])).bmod (2 ^ 64) := by
  have hten : (front ++ [last]).length = front.length + 1 := by simp
  rw [withSign, twosComplement_concat, Nat.pow_eq, Nat.pow_eq]
  by_cases hroom : front.length < 9
  · -- All bits have room: neither the sum nor the number is cut.
    have hbounds := twosComplement_bounds_of_length (s := front ++ [last]) (by simp) (by omega)
    have hwhole : magnitude (front ++ [last]) % 2 ^ 64 = magnitude (front ++ [last]) :=
      Nat.mod_eq_of_lt ((magnitude_lt_of_length (by omega)).trans (by norm_num))
    rw [twosComplement_concat] at hbounds
    rw [hwhole]
    by_cases hsign : 64 ≤ last.toNat % 128
    · rw [if_pos hsign] at hbounds ⊢
      rw [if_pos (by simp; omega), Int.bmod_eq_of_le (by omega) (by omega), Nat.cast_pow]
      rfl
    · rw [if_neg (by simp; omega), if_neg hsign, Int.sub_zero]
  · -- What the sign takes away from the sum is a multiple of the modulus.
    have hnine : front.length = 9 := by omega
    rw [if_neg (by simp; omega), Int.natCast_emod, Int.emod_bmod, hnine]
    split
    · have hmultiple : (2 : Int) ^ (7 * 9 + 7) = (2 ^ 64 : Nat) * 2 ^ 6 := by norm_num
      rw [hmultiple, Int.sub_mul_bmod_self_left]
    · rw [Int.sub_zero]

theorem readSigned_terminated (h : Terminated number) (rest : Bytes)
    (hlength : number.length ≤ 10) :
    readSigned (number ++ rest) = .ok ((twosComplement number).bmod (2 ^ 64), rest) := by
  obtain ⟨front, last, rfl, hfront, hlast⟩ := h
  rw [length_append, length_singleton] at hlength
  have hbelow := magnitude_lt_of_length (s := front) (by omega)
  rw [append_assoc, singleton_append, readSigned_continuing hfront _ (by omega),
    Nat.mod_eq_of_lt (by omega), readSignedFrom, if_neg (by omega),
    ← withSign_eq_bmod front last (by omega),
    magnitude_concat]
  simp only [hlast, Bool.false_eq_true, if_false]
  rfl

theorem readSigned_signed (rest : Bytes) (hlow : -2 ^ 63 ≤ n) (hhigh : n < 2 ^ 63) :
    readSigned (signed n ++ rest) = .ok (n, rest) := by
  have hlength : (signed n).length ≤ 10 := length_signed_le (k := 9) (by omega) (by omega)
  rw [readSigned_terminated (terminated_signed n) rest hlength, twosComplement_signed,
    Int.bmod_eq_of_le (by omega) (by omega)]

theorem readSigned_ends (h : Continuing s) (hlength : s.length ≤ 10) :
    readSigned s = .error .truncated := by
  have hread := readSigned_continuing h [] hlength
  rwa [append_nil] at hread

theorem readSigned_eleventh (h : Continuing front) (c : UInt8) (rest : Bytes)
    (hlength : front.length = 10) : readSigned (front ++ c :: rest) = .error .overflow := by
  rw [readSigned_continuing h _ hlength.le, hlength]
  rfl

theorem readSigned_eq_ok_iff {rest : Bytes} : readSigned s = .ok (value, rest) ↔
    ∃ number, s = number ++ rest ∧ Terminated number ∧ number.length ≤ 10 ∧
      value = (twosComplement number).bmod (2 ^ 64) := by
  constructor
  · intro hread
    rcases front_cases 10 s with ⟨number, rest', rfl, hnumber, hlength⟩ | ⟨hs, hlength⟩ |
      ⟨front, c, rest, rfl, hfront, hlength⟩
    · rw [readSigned_terminated hnumber rest' hlength] at hread
      obtain ⟨rfl, rfl⟩ := Prod.mk.inj (Except.ok.inj hread)
      exact ⟨number, rfl, hnumber, hlength, rfl⟩
    · cases (readSigned_ends hs hlength).symm.trans hread
    · cases (readSigned_eleventh hfront c rest hlength).symm.trans hread
  · rintro ⟨number, rfl, hnumber, hlength, rfl⟩
    exact readSigned_terminated hnumber rest hlength

theorem readSigned_faults_iff : (readSigned s = .error .truncated ↔ Continuing s ∧ s.length ≤ 10) ∧
    (readSigned s = .error .overflow ↔
      ∃ front c rest, s = front ++ c :: rest ∧ Continuing front ∧ front.length = 10) := by
  refine faults_iff ?_ (fun h => readSigned_ends h.1 h.2) ?_
  · rcases front_cases 10 s with ⟨number, rest, rfl, hnumber, hlength⟩ | hfaults
    · exact .inl ⟨_, readSigned_terminated hnumber rest hlength⟩
    · exact .inr hfaults
  · rintro ⟨front, c, rest, rfl, hfront, hlength⟩
    exact readSigned_eleventh hfront c rest hlength

/-- What 64 bits hold of a number is the number itself, unless it spills. -/
theorem eq_bmod_iff (h : Terminated number) (hlength : number.length ≤ 10) :
    value = (twosComplement number).bmod (2 ^ 64) ↔
      ¬Spills number ∧ value = twosComplement number ∨
        Spills number ∧ value = (twosComplement number).bmod (2 ^ 64) := by
  by_cases hspills : Spills number
  · simp [hspills]
  · have hroom := not_not.mp (mt (spills_iff h hlength).mpr hspills)
    rw [Int.bmod_eq_of_le (by omega) (by omega)]
    simp [hspills]

/-- A signed number is read if and only if it ends within ten bytes, and then it
is the number that its groups make up, unless a tenth group spills. One that
spills has no room in 64 bits and is not refused: it is read as the number with
the same 64 bits. An input is refused as truncated if it ends within ten bytes
that continue, and as too large if there is an eleventh byte. -/
theorem readSigned_exact_unless_spilled (s : Bytes) :
    (∀ value rest, readSigned s = .ok (value, rest) ↔
      ∃ number, s = number ++ rest ∧ Terminated number ∧ number.length ≤ 10 ∧
        (¬Spills number ∧ value = twosComplement number ∨
          Spills number ∧ value = (twosComplement number).bmod (2 ^ 64))) ∧
    (∀ number, Terminated number → number.length ≤ 10 →
      (Spills number ↔ ¬(-2 ^ 63 ≤ twosComplement number ∧ twosComplement number < 2 ^ 63))) ∧
    (readSigned s = .error .truncated ↔ Continuing s ∧ s.length ≤ 10) ∧
    (readSigned s = .error .overflow ↔
      ∃ front c rest, s = front ++ c :: rest ∧ Continuing front ∧ front.length = 10) := by
  refine ⟨fun value rest => ?_, fun number => spills_iff, readSigned_faults_iff⟩
  rw [readSigned_eq_ok_iff]
  refine exists_congr fun number => and_congr_right fun _ => and_congr_right fun hnumber => ?_
  exact and_congr_right fun hlength => eq_bmod_iff hnumber hlength

/-- The bytes of 2^64: nine groups of zeros and a tenth with a bit that has no
room. -/
def tenGroups : Bytes := List.replicate 9 0x80 ++ [0x02]

/-- A number of ten bytes that has no room in 64 bits is read as another one. -/
theorem tenGroups_misread :
    Terminated tenGroups ∧ tenGroups.length = 10 ∧ twosComplement tenGroups = 2 ^ 64 ∧
    readSigned tenGroups = .ok (0, []) := by
  refine ⟨⟨List.replicate 9 0x80, 0x02, rfl, ?_, rfl⟩, rfl, by decide +kernel, by decide +kernel⟩
  intro c hc
  rw [eq_of_mem_replicate hc]
  rfl

end Signed

end Eel.Wasm
