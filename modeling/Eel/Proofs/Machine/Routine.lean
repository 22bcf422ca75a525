import Eel.Program.Routine
import Eel.Proofs.Machine.Flow

/-!
What a call of a routine does to the stack.

Every routine takes its arguments, leaves one result and changes nothing else.
The results are given for any arithmetic; only the remainder needs to know that
a number between the bounds of 32 bits has a whole part that fits.
-/

namespace Eel

open Wasm Machine Routine

/-- A routine in the form in which it runs. -/
def Routine.toCode (r : Routine) : Code :=
  ⟨r.signature.1.length, r.signature.2.length, r.locals.map .initial, r.code⟩

/-- The offset in bytes of a slot, or -1 if there is no such slot. -/
def slotBytes (n : Int32) : Int32 :=
  if n < 0 || Int32.ofNat (bufferSlots - 1) < n then -1 else n * 8

@[simp]
theorem slotBytes_neg_one : slotBytes (-1) = -1 := by decide

namespace Machine

variable {σ : Type} [a : Arithmetic] {x : Double}

section Calculate

variable (stack : List Value)

@[simp]
theorem calculate_i32 (n : Int32) :
    calculate .i32Eqz (.i32 n :: stack) = .ok (.ofBool (n == 0) :: stack) ∧
    calculate .f64ConvertI32S (.i32 n :: stack) = .ok (.f64 (a.ofInt32 n) :: stack) :=
  ⟨rfl, rfl⟩

@[simp]
theorem calculate_i32_i32 (m n : Int32) :
    calculate .i32Ne (.i32 n :: .i32 m :: stack) = .ok (.ofBool (m != n) :: stack) ∧
    calculate .i32LtS (.i32 n :: .i32 m :: stack) = .ok (.ofBool (m < n) :: stack) ∧
    calculate .i32GtS (.i32 n :: .i32 m :: stack) = .ok (.ofBool (n < m) :: stack) ∧
    calculate .i32LeS (.i32 n :: .i32 m :: stack) = .ok (.ofBool (m ≤ n) :: stack) ∧
    calculate .i32Add (.i32 n :: .i32 m :: stack) = .ok (.i32 (m + n) :: stack) ∧
    calculate .i32Sub (.i32 n :: .i32 m :: stack) = .ok (.i32 (m - n) :: stack) ∧
    calculate .i32Mul (.i32 n :: .i32 m :: stack) = .ok (.i32 (m * n) :: stack) :=
  ⟨rfl, rfl, rfl, rfl, rfl, rfl, rfl⟩

@[simp]
theorem calculate_i64_i64 (m n : Int64) :
    calculate .i64And (.i64 n :: .i64 m :: stack) = .ok (.i64 (m &&& n) :: stack) ∧
    calculate .i64Or (.i64 n :: .i64 m :: stack) = .ok (.i64 (m ||| n) :: stack) :=
  ⟨rfl, rfl⟩

@[simp]
theorem calculate_i64 (n : Int64) :
    calculate .f64ConvertI64S (.i64 n :: stack) = .ok (.f64 (a.ofInt64 n) :: stack) := rfl

@[simp]
theorem calculate_f64 (x : Double) :
    calculate .f64Abs (.f64 x :: stack) = .ok (.f64 (a.abs x) :: stack) ∧
    calculate .f64Neg (.f64 x :: stack) = .ok (.f64 (a.neg x) :: stack) ∧
    calculate .f64Ceil (.f64 x :: stack) = .ok (.f64 (a.ceil x) :: stack) ∧
    calculate .f64Floor (.f64 x :: stack) = .ok (.f64 (a.floor x) :: stack) ∧
    calculate .f64Sqrt (.f64 x :: stack) = .ok (.f64 (a.sqrt x) :: stack) ∧
    calculate .i32TruncSatF64S (.f64 x :: stack) = .ok (.i32 (a.toInt32 x) :: stack) ∧
    calculate .i64TruncSatF64S (.f64 x :: stack) = .ok (.i64 (a.toInt64 x) :: stack) :=
  ⟨rfl, rfl, rfl, rfl, rfl, rfl, rfl⟩

@[simp]
theorem calculate_f64_f64 (x y : Double) :
    calculate .f64Ne (.f64 y :: .f64 x :: stack) = .ok (.ofBool (a.ne x y) :: stack) ∧
    calculate .f64Lt (.f64 y :: .f64 x :: stack) = .ok (.ofBool (a.lt x y) :: stack) ∧
    calculate .f64Gt (.f64 y :: .f64 x :: stack) = .ok (.ofBool (a.gt x y) :: stack) ∧
    calculate .f64Le (.f64 y :: .f64 x :: stack) = .ok (.ofBool (a.le x y) :: stack) ∧
    calculate .f64Ge (.f64 y :: .f64 x :: stack) = .ok (.ofBool (a.ge x y) :: stack) ∧
    calculate .f64Add (.f64 y :: .f64 x :: stack) = .ok (.f64 (a.add x y) :: stack) ∧
    calculate .f64Sub (.f64 y :: .f64 x :: stack) = .ok (.f64 (a.sub x y) :: stack) ∧
    calculate .f64Mul (.f64 y :: .f64 x :: stack) = .ok (.f64 (a.mul x y) :: stack) ∧
    calculate .f64Div (.f64 y :: .f64 x :: stack) = .ok (.f64 (a.div x y) :: stack) ∧
    calculate .f64Min (.f64 y :: .f64 x :: stack) = .ok (.f64 (a.min x y) :: stack) ∧
    calculate .f64Max (.f64 y :: .f64 x :: stack) = .ok (.f64 (a.max x y) :: stack) :=
  ⟨rfl, rfl, rfl, rfl, rfl, rfl, rfl, rfl, rfl, rfl, rfl⟩

@[simp]
theorem calculate_i32Eqz_ofBool (b : Bool) :
    calculate .i32Eqz (.ofBool b :: stack) = .ok (.ofBool (!b) :: stack) := by
  cases b <;> rfl

@[simp]
theorem calculate_ofBool_ofBool (b c : Bool) :
    calculate .i32And (.ofBool c :: .ofBool b :: stack) = .ok (.ofBool (b && c) :: stack) ∧
    calculate .i32Or (.ofBool c :: .ofBool b :: stack) = .ok (.ofBool (b || c) :: stack) := by
  cases b <;> cases c <;> exact ⟨rfl, rfl⟩

/-- What is left of a number whose whole part may not fit. -/
def truncated : Option Int32 → Except Trap (List Value)
  | some n => .ok (.i32 n :: stack)
  | none => .error .truncation

theorem calculate_i32TruncF64S_eq (x : Double) :
    calculate .i32TruncF64S (.f64 x :: stack) = truncated stack (a.toInt32? x) := rfl

theorem calculate_i32TruncF64S {n : Int32} (h : a.toInt32? x = some n) :
    calculate .i32TruncF64S (.f64 x :: stack) = .ok (.i32 n :: stack) := by
  rw [calculate_i32TruncF64S_eq, h]
  rfl

theorem calculate_i32TruncF64S_of_none (h : a.toInt32? x = none) :
    calculate .i32TruncF64S (.f64 x :: stack) = .error .truncation := by
  rw [calculate_i32TruncF64S_eq, h]
  rfl

theorem calculate_i32RemS {m n : Int32} (h : n ≠ 0) :
    calculate .i32RemS (.i32 n :: .i32 m :: stack) = .ok (.i32 (m % n) :: stack) :=
  if_neg h

end Calculate

variable (calls : Calls σ) (store : Store σ) (stack : List Value)

-- What every routine opens when it is run.
attribute [local simp] callCode toCode code signature locals withArgs moveTop
  execAll_cons exec_localGet BlockType.arity

theorem callCode_isZeroish (x : Double) :
    callCode calls isZeroish.toCode store (.f64 x :: stack) =
      .done store (.ofBool (a.lt (a.abs x) epsilon) :: stack) := by
  simp

theorem callCode_isNotZeroish (x : Double) :
    callCode calls isNotZeroish.toCode store (.f64 x :: stack) =
      .done store (.ofBool (!a.lt (a.abs x) epsilon) :: stack) := by
  simp

theorem callCode_div (x y : Double) :
    callCode calls div.toCode store (.f64 y :: .f64 x :: stack) =
      .done store (.f64 (if a.ne y .zero then a.div x y else .zero) :: stack) := by
  cases h : a.ne y .zero <;> simp [h]

theorem callCode_bitwiseAnd (x y : Double) :
    callCode calls bitwiseAnd.toCode store (.f64 y :: .f64 x :: stack) =
      .done store (.f64 (a.ofInt64 (a.toInt64 x &&& a.toInt64 y)) :: stack) := by
  simp

theorem callCode_bitwiseOr (x y : Double) :
    callCode calls bitwiseOr.toCode store (.f64 y :: .f64 x :: stack) =
      .done store (.f64 (a.ofInt64 (a.toInt64 x ||| a.toInt64 y)) :: stack) := by
  simp

theorem callCode_sign (x : Double) :
    callCode calls sign.toCode store (.f64 x :: stack) =
      .done store (.f64 (if a.gt x .zero then .one else if a.lt x .zero then .negOne else .zero) ::
        stack) := by
  cases hgt : a.gt x .zero <;> cases hlt : a.lt x .zero <;> simp [hgt, hlt]

/-- The code that both kinds of slot lookup end with. -/
theorem execAll_slotOffset {v w : Value} (n : Int32) :
    execAll calls slotOffset { store, locals := [v, w] } (.i32 n :: stack) =
      .next { store, locals := [v, .i32 n] } (.i32 (slotBytes n) :: stack) := by
  cases hlow : decide (n < 0) <;> cases hhigh : decide (Int32.ofNat (bufferSlots - 1) < n) <;>
    simp [slotOffset, slotBytes, exec_localTee, hlow, hhigh]

theorem callCode_bufferIndex (x : Double) :
    callCode calls bufferIndex.toCode store (.f64 x :: stack) =
      .done store (.i32 (slotBytes (a.toInt32 (a.add x epsilon))) :: stack) := by
  simp [slotOf, execAll_slotOffset]

theorem callCode_bufferStoreIndex (x : Double) :
    callCode calls bufferStoreIndex.toCode store (.f64 x :: stack) =
      .done store (.i32 (if a.lt x .zero then -1 else slotBytes (a.toInt32 (a.add x epsilon))) ::
        stack) := by
  cases h : a.lt x .zero <;> simp [slotOf, execAll_slotOffset, h]

/-- Whether a number lies between the bounds that the remainder tests. -/
def inBounds (x : Double) : Bool := a.ge x int32Bounds.1 && a.le x int32Bounds.2

theorem callCode_rem {y : Double} {m n : Int32} (hx : inBounds x = true → a.toInt32? x = some m)
    (hy : inBounds y = true → a.toInt32? y = some n) :
    callCode calls rem.toCode store (.f64 y :: .f64 x :: stack) =
      .done store (.f64 (if inBounds x && inBounds y && n != 0 then a.ofInt32 (m % n) else .zero) ::
        stack) := by
  have htest : (a.ge x int32Bounds.1 && a.le x int32Bounds.2 &&
      a.ge y int32Bounds.1 && a.le y int32Bounds.2) = (inBounds x && inBounds y) := by
    simp [inBounds, Bool.and_assoc]
  cases hbounds : inBounds x && inBounds y with
  | false => simp [htest, hbounds]
  | true =>
    rw [Bool.and_eq_true] at hbounds
    have hm := calculate_i32TruncF64S [] (hx hbounds.1)
    have hn := calculate_i32TruncF64S [] (hy hbounds.2)
    by_cases hzero : n = 0
    · simp [exec_localTee, htest, hbounds, hn, hzero]
    · have hrem := calculate_i32RemS [] (m := m) hzero
      simp [exec_localTee, htest, hbounds, hm, hn, hzero, hrem]

end Machine

end Eel
