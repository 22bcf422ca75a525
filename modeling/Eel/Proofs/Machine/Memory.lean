import Eel.Proofs.Machine.Routine
import Eel.Proofs.Meaning.Eval

/-!
The two buffers in memory.

A slot starts at a multiple of eight, so it is one word of the memory, and
different slots are different words. The offset that a routine finds for a
number is that of the slot which the number means.
-/

namespace Eel

open Int32

namespace Machine.Memory

@[simp]
theorem word_setWord (m : Memory) (i j : Nat) (w : UInt64) :
    (m.setWord i w).word j = if i = j then w else m.word j := by
  simp [word, setWord, Std.TreeMap.getD_insert]

@[simp]
theorem bitsAt_eight_mul (m : Memory) (i : Nat) : m.bitsAt (8 * i) = m.word i := by
  simp [bitsAt]

@[simp]
theorem setBits_eight_mul (m : Memory) (i : Nat) (bits : UInt64) :
    m.setBits (8 * i) bits = m.setWord i bits := by
  simp [setBits]

theorem load?_eight_mul {m : Memory} {i : Nat} (h : 8 * i + 8 ≤ m.size) :
    m.load? (8 * i) = some ⟨m.word i⟩ := by
  simp [load?, h]

theorem store?_eight_mul {m : Memory} {i : Nat} (x : Double) (h : 8 * i + 8 ≤ m.size) :
    m.store? (8 * i) x = some (m.setWord i x.bits) := by
  simp [store?, h]

end Machine.Memory

namespace Buffer

/-- The first byte of a buffer. -/
def base : Buffer → Nat
  | mega => 0
  | gmega => bufferBytes

/-- The word of the memory that holds a slot. -/
def wordOf : Buffer → Nat → Nat
  | mega, k => k
  | gmega, k => bufferSlots + k

theorem base_add (b : Buffer) (k : Nat) : b.base + 8 * k = 8 * b.wordOf k := by
  cases b <;> simp only [base, wordOf, bufferBytes] <;> omega

theorem wordOf_within (b : Buffer) {k : Nat} (hk : k < bufferSlots) :
    8 * b.wordOf k + 8 ≤ 2 * bufferBytes := by
  cases b <;> simp only [wordOf, bufferBytes] <;> omega

theorem wordOf_inj {b c : Buffer} {j k : Nat} (hj : j < bufferSlots) (hk : k < bufferSlots) :
    b.wordOf j = c.wordOf k ↔ b = c ∧ j = k := by
  cases b <;> cases c <;> simp only [wordOf, reduceCtorEq, true_and, false_and, iff_false] <;> omega

end Buffer

namespace Machine.Memory

/-- The value of a slot. -/
def slot (m : Memory) (b : Buffer) (k : Nat) : Double := (m.load? (b.base + 8 * k)).getD .zero

/-- That a memory comes from another by a write to one slot of one buffer. -/
structure SetsSlot (m m' : Memory) (b : Buffer) (k : Nat) (x : Double) : Prop where
  written : m'.slot b k = x
  others : ∀ {c : Buffer} {j : Nat}, j < bufferSlots → (c ≠ b ∨ j ≠ k) → m'.slot c j = m.slot c j

variable {m : Memory} {b : Buffer} {k : Nat}

theorem load?_slot (hsize : m.size = 2 * bufferBytes) (hk : k < bufferSlots) :
    m.load? (b.base + 8 * k) = some (m.slot b k) ∧ m.slot b k = ⟨m.word (b.wordOf k)⟩ := by
  have hwithin := b.wordOf_within hk
  rw [slot, b.base_add, load?_eight_mul (hsize ▸ hwithin)]
  exact ⟨rfl, rfl⟩

/-- Slots share no byte, so a write to one of them leaves the others. -/
theorem exists_store?_slot (hsize : m.size = 2 * bufferBytes) (hk : k < bufferSlots) (x : Double) :
    ∃ m', m.store? (b.base + 8 * k) x = some m' ∧ m'.size = 2 * bufferBytes ∧
      m.SetsSlot m' b k x := by
  have hsize' : (m.setWord (b.wordOf k) x.bits).size = 2 * bufferBytes := hsize
  refine ⟨m.setWord (b.wordOf k) x.bits, ?_, hsize', ?_, ?_⟩
  · rw [b.base_add, store?_eight_mul x (hsize ▸ b.wordOf_within hk)]
  · rw [(load?_slot hsize' hk).2, word_setWord, if_pos rfl]
  · intro c j hj hother
    have hne : b.wordOf k ≠ c.wordOf j := by
      rw [Ne, Buffer.wordOf_inj hk hj]
      rintro ⟨rfl, rfl⟩
      simp at hother
    rw [(load?_slot hsize' hj).2, (load?_slot hsize hj).2, word_setWord, if_neg hne]

end Machine.Memory

/-- The offset of a slot, if there is one. -/
def offsetOf : Option Nat → Int32
  | some k => ofNat (8 * k)
  | none => -1

theorem toInt_offset {k : Nat} (hk : k < bufferSlots) : (ofNat (8 * k)).toInt = 8 * k := by
  rw [bufferSlots] at hk
  rw [toInt_ofNat_of_lt (by omega)]
  push_cast
  rfl

theorem offsetOf_ne {slot : Option Nat} (h : ∀ k ∈ slot, k < bufferSlots) :
    (offsetOf slot != -1) = slot.isSome := by
  cases slot with
  | none => rfl
  | some k =>
    have hne : (ofNat (8 * k)).toInt ≠ (-1 : Int32).toInt := by
      rw [toInt_offset (h k rfl)]
      change (8 * k : Int) ≠ -1
      omega
    simpa [offsetOf] using fun heq => hne (congrArg toInt heq)

theorem address_offset {k : Nat} (hk : k < bufferSlots) (base : Nat) :
    Machine.address (offsetOf (some k)) base = base + 8 * k := by
  have hsmall : 8 * k < 2 ^ 32 := by
    rw [bufferSlots] at hk
    omega
  have hnat : (ofNat (8 * k)).toUInt32.toNat = 8 * k := Nat.mod_eq_of_lt hsmall
  rw [Machine.address, offsetOf, hnat, Nat.add_comm]

theorem Machine.Memory.load?_address {m : Memory} {b : Buffer} {k : Nat}
    (hsize : m.size = 2 * bufferBytes) (hk : k < bufferSlots) :
    m.load? (address (offsetOf (some k)) b.base) = some (m.slot b k) := by
  rw [address_offset hk, (load?_slot hsize hk).1]

/-- The offset that a routine makes of a slot number. -/
theorem slotBytes_eq_offsetOf (n : Int32) :
    slotBytes n =
      offsetOf (if 0 ≤ n.toInt ∧ n.toInt < bufferSlots then some n.toInt.toNat else none) := by
  unfold slotBytes
  have hlow : n < 0 ↔ n.toInt < 0 := lt_iff_toInt_lt
  have hhigh : ofNat (bufferSlots - 1) < n ↔ (bufferSlots : Int) - 1 < n.toInt := by
    rw [lt_iff_toInt_lt]
    rfl
  by_cases hslot : 0 ≤ n.toInt ∧ n.toInt < bufferSlots
  · have hn : ¬(n < 0) ∧ ¬(ofNat (bufferSlots - 1) < n) := by
      rw [hlow, hhigh]
      omega
    have hoffset : (n * 8).toInt = (ofNat (8 * n.toInt.toNat)).toInt := by
      rw [toInt_offset (by omega), toInt_mul, Int.toNat_of_nonneg hslot.1, Int.bmod_eq_of_le]
      · exact mul_comm _ _
      · change -2147483648 ≤ n.toInt * 8
        omega
      · change n.toInt * 8 < 2147483648
        rw [bufferSlots] at hslot
        omega
    simpa [hn, hslot, offsetOf] using toInt_inj.mp hoffset
  · have hn : n < 0 ∨ ofNat (bufferSlots - 1) < n := by
      rw [hlow, hhigh]
      omega
    have htest : (decide (n < 0) || decide (ofNat (bufferSlots - 1) < n)) = true := by
      simpa using hn
    rw [if_neg hslot]
    rw [if_pos htest]
    rfl

/-- A routine finds the offset of the slot that a number reads. -/
theorem slotBytes_eq (x : Double) :
    slotBytes (x.add epsilon).toInt32Saturating = offsetOf x.slot? :=
  slotBytes_eq_offsetOf _

end Eel
