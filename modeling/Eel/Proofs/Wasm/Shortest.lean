import Eel.Proofs.Wasm.TwosComplement

/-!
Numbers are written in the fewest bytes.

A number may be read from bytes of several lengths, with groups behind its
highest bit that only repeat zeros or the sign. The form that is written is read
back, whatever follows it, and there is none with fewer bytes.
-/

namespace Eel.Wasm

theorem Terminated.exists_length {number : Bytes} (h : Terminated number) :
    ∃ k, number.length = k + 1 := by
  obtain ⟨front, last, rfl, -⟩ := h
  exact ⟨front.length, by simp⟩

theorem length_unsigned_le_of_read {s rest : Bytes} {n : Nat} (h : readUnsigned s = .ok (n, rest)) :
    (unsigned n).length + rest.length ≤ s.length := by
  obtain ⟨number, rfl, hnumber, -, rfl, -⟩ := readUnsigned_eq_ok_iff.mp h
  obtain ⟨k, hk⟩ := hnumber.exists_length
  have hbelow : magnitude number < 2 ^ (7 * (k + 1)) := hk ▸ magnitude_lt number
  have hshort := length_unsigned_le hbelow
  rw [List.length_append]
  omega

/-- Nine bytes hold all the bits of a number, and ten hold more bits than are
kept. -/
theorem length_signed_le_of_read {s rest : Bytes} {n : Int} (h : readSigned s = .ok (n, rest)) :
    (signed n).length + rest.length ≤ s.length := by
  obtain ⟨number, rfl, hnumber, hlength, hn⟩ := readSigned_eq_ok_iff.mp h
  obtain ⟨k, hk⟩ := hnumber.exists_length
  have hshort : (signed n).length ≤ number.length := by
    rcases Nat.lt_or_eq_of_le hlength with hnine | hten
    · have hbounds := twosComplement_bounds hk
      have hroom := twosComplement_bounds_of_length (List.ne_nil_of_length_eq_add_one hk) hnine
      rw [Int.bmod_eq_of_le (by omega) (by omega)] at hn
      rw [hn, hk]
      exact length_signed_le hbounds.1 hbounds.2
    · have hlow : -2 ^ 63 ≤ n := hn ▸ Int.le_bmod (by norm_num)
      have hhigh : n < 2 ^ 63 := hn ▸ Int.bmod_lt (by norm_num)
      rw [hten]
      exact length_signed_le (k := 9) (by omega) (by omega)
  rw [List.length_append]
  omega

/-- Every number of 64 bits, with or without a sign, is read back from the bytes
that are written for it, whatever follows them, and whatever else it is read
from has no fewer bytes. -/
theorem numbers_written_shortest (u : UInt64) (i : Int64) (rest : Bytes) :
    readUnsigned (unsigned u.toNat ++ rest) = .ok (u.toNat, rest) ∧
    readSigned (signed i.toInt ++ rest) = .ok (i.toInt, rest) ∧
    (∀ s behind, readUnsigned s = .ok (u.toNat, behind) →
      (unsigned u.toNat).length + behind.length ≤ s.length) ∧
    (∀ s behind, readSigned s = .ok (i.toInt, behind) →
      (signed i.toInt).length + behind.length ≤ s.length) :=
  ⟨readUnsigned_unsigned rest u.toNat_lt, readSigned_signed rest i.le_toInt i.toInt_lt,
    fun _ _ => length_unsigned_le_of_read, fun _ _ => length_signed_le_of_read⟩

end Eel.Wasm
