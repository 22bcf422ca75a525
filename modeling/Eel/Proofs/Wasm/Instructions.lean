import Eel.Proofs.Wasm.Reading

/-!
Instructions, read back from their bytes.

The bytes of an instruction start with one that tells it from all others, and
never with one that ends a list of instructions. So a decoder finds the same
instructions again, block by block, if every number in them has 32 bits.
-/

namespace Eel.Wasm

open Instr List

mutual

/-- Whether a decoder takes an instruction: the numbers in it have 32 bits, and
it is no constant of 64. -/
def Instr.isLegible : Instr → Bool
  | .block _ body | .loop _ body => areLegible body
  | .choice _ consequent alternate => areLegible consequent && areLegible alternate
  | .br n | .brIf n | .call n | .localGet n | .localSet n | .localTee n | .globalGet n
  | .globalSet n | .f64Load n | .f64Store n => n < 2 ^ 32
  | .const (.i64 _) => false
  | .const (.i32 _) | .const (.f64 _) | .drop | .num _ => true

def Instr.areLegible : List Instr → Bool
  | [] => true
  | i :: rest => i.isLegible && areLegible rest

end

@[simp]
theorem Instr.areLegible_nil : areLegible [] = true := rfl

@[simp]
theorem Instr.areLegible_cons (i : Instr) (rest : List Instr) :
    areLegible (i :: rest) = (i.isLegible && areLegible rest) := rfl

@[simp]
theorem Instr.areLegible_append (first second : List Instr) :
    areLegible (first ++ second) = (areLegible first && areLegible second) := by
  induction first with
  | nil => rfl
  | cons i rest ih => rw [cons_append, areLegible_cons, areLegible_cons, ih, Bool.and_assoc]

variable {code : List Instr} {i : Instr}

namespace Decoder

theorem reads_blockType (type : BlockType) : blockType.Reads [type.byte] type := by
  intro rest
  cases type <;> rfl

theorem reads_memoryOffset {offset : Nat} (h : offset < 2 ^ 32) :
    memoryOffset.Reads (unsigned Opcode.alignment ++ unsigned offset) offset :=
  (reads_u32 (by decide)).bind (.behind_guard (by decide) (reads_u32 h))

/-- That an instruction is found behind its first byte, where instructions
inside it have bytes below a bound. -/
structure Found (bound : Nat) (i : Instr) (first : UInt8) (tail : Bytes) : Prop where
  bytes : i.bytes = first :: tail
  finish : first ≠ Opcode.finish
  alternate : first ≠ Opcode.alternate
  reads : (instr (instrs bound) first).Reads tail i

theorem reads_truncSat {kind : Nat} {op : NumOp} (hkind : kind < 2 ^ 32)
    (hop : NumOp.all.find? (·.bytes == Opcode.truncSat kind) = some op) :
    (numOp 0xfc).Reads (unsigned kind) op := by
  intro rest
  have hread := reads_u32 hkind rest
  have hnumOp :
      (numOp 0xfc).run (unsigned kind ++ rest) = (u32.run (unsigned kind ++ rest)).bind fun r =>
      (NumOp.all.find? (·.bytes == Opcode.truncSat r.1)).bind fun op => some (op, r.2) := rfl
  rw [hnumOp, hread]
  exact congrArg (Option.bind · _) hop

theorem found_num (bound : Nat) (op : NumOp) : ∃ first tail, Found bound (.num op) first tail := by
  have htwo : unsigned 2 = [2] := by rw [unsigned]; rfl
  have hsix : unsigned 6 = [6] := by rw [unsigned]; rfl
  cases op
  case i32TruncSatF64S =>
    have hread : (numOp 0xfc).Reads (unsigned 2) .i32TruncSatF64S :=
      reads_truncSat (by decide) (by rw [Opcode.truncSat, htwo]; rfl)
    rw [htwo] at hread
    exact ⟨0xfc, [2], rfl, by decide, by decide, hread.map num⟩
  case i64TruncSatF64S =>
    have hread : (numOp 0xfc).Reads (unsigned 6) .i64TruncSatF64S :=
      reads_truncSat (by decide) (by rw [Opcode.truncSat, hsix]; rfl)
    rw [hsix] at hread
    exact ⟨0xfc, [6], rfl, by decide, by decide, hread.map num⟩
  all_goals exact ⟨_, [], rfl, by decide, by decide, fun _ => rfl⟩

/-- That a byte ends a list of instructions, and whether it starts the alternate
of a choice. -/
inductive Ends : UInt8 → Bool → Prop
  | finish : Ends Opcode.finish false
  | alternate : Ends Opcode.alternate true

/-- An instruction that holds no others, behind its first byte. -/
theorem found_plain (bound : Nat) (h : i.isLegible = true) (hplain : i.isNested = false) :
    ∃ first tail, Found bound i first tail := by
  cases i
  case block | loop | choice => cases hplain
  case num op => exact found_num bound op
  case drop => exact ⟨0x1a, [], rfl, by decide, by decide, fun _ => rfl⟩
  case const value =>
    cases value with
    | i32 n => exact ⟨0x41, signed n.toInt, rfl, by decide, by decide, (reads_s32 n).map i32Const⟩
    | i64 n => cases h
    | f64 x => exact ⟨0x44, doubleBytes x, rfl, by decide, by decide, (reads_double x).map f64Const⟩
  all_goals replace h := of_decide_eq_true h
  case br n => exact ⟨0x0c, unsigned n, rfl, by decide, by decide, (reads_u32 h).map br⟩
  case brIf n => exact ⟨0x0d, unsigned n, rfl, by decide, by decide, (reads_u32 h).map brIf⟩
  case call n => exact ⟨0x10, unsigned n, rfl, by decide, by decide, (reads_u32 h).map call⟩
  case localGet n => exact ⟨0x20, unsigned n, rfl, by decide, by decide, (reads_u32 h).map localGet⟩
  case localSet n => exact ⟨0x21, unsigned n, rfl, by decide, by decide, (reads_u32 h).map localSet⟩
  case localTee n => exact ⟨0x22, unsigned n, rfl, by decide, by decide, (reads_u32 h).map localTee⟩
  case globalGet n =>
    exact ⟨0x23, unsigned n, rfl, by decide, by decide, (reads_u32 h).map globalGet⟩
  case globalSet n =>
    exact ⟨0x24, unsigned n, rfl, by decide, by decide, (reads_u32 h).map globalSet⟩
  case f64Load n => exact ⟨0x2b, _, rfl, by decide, by decide, (reads_memoryOffset h).map f64Load⟩
  case f64Store n => exact ⟨0x39, _, rfl, by decide, by decide, (reads_memoryOffset h).map f64Store⟩

theorem reads_closed {sequence : Sequence} {bytes : Bytes}
    (h : sequence.Reads bytes (code, false)) : (closed sequence).Reads bytes code := by
  have hread := h.bind (f := fun r => guard ((!r.2) = true) >>= fun _ => Pure.pure r.1)
    (.behind_guard rfl (.pure code))
  rw [append_nil] at hread
  exact hread

/-- Another instruction in front, which is found behind its first byte. -/
theorem reads_instrs_cons {bound : Nat} {first : UInt8} {tail bytes : Bytes} {rest : List Instr}
    {more : Bool} (hfound : Found bound i first tail)
    (hrest : (instrs bound).Reads bytes (rest, more)) :
    (instrs (bound + 1)).Reads (i.bytes ++ bytes) (i :: rest, more) := by
  have hread :=
    hfound.reads.bind (f := fun i => instrs bound >>= fun r => Pure.pure (i :: r.1, r.2))
    (hrest.map fun r => (i :: r.1, r.2))
  rw [hfound.bytes, cons_append]
  refine reads_byte ?_
  rw [if_neg hfound.finish, if_neg hfound.alternate]
  exact hread

mutual

/-- Instructions are found one after another, up to the byte that ends them. -/
theorem reads_instrs : ∀ (bound : Nat) (code : List Instr) {last : UInt8} {more : Bool},
    areLegible code = true → (bytesAll code).length < bound → Ends last more →
      (instrs bound).Reads (bytesAll code ++ [last]) (code, more)
  | bound + 1, [], last, more, _, _, hends => by
      refine reads_byte ?_
      cases hends <;> exact .pure _
  | bound + 1, i :: rest, last, more, hcode, hbound, hends => by
      simp only [areLegible_cons, Bool.and_eq_true] at hcode
      rw [bytesAll, length_append] at hbound
      obtain ⟨first, tail, hfound⟩ := found_instr bound i hcode.1 (by omega)
      have hpositive : 0 < i.bytes.length := by
        rw [hfound.bytes]
        exact Nat.zero_lt_succ _
      have hrest := reads_instrs bound rest hcode.2 (by omega) hends
      rw [bytesAll, append_assoc]
      exact reads_instrs_cons hfound hrest

/-- An instruction is found behind its first byte, with the bytes of its bodies
below the bound. -/
theorem found_instr : ∀ (bound : Nat) (i : Instr), i.isLegible = true → i.bytes.length ≤ bound →
    ∃ first tail, Found bound i first tail
  | bound, .block type body, h, hbound => by
      simp only [bytes, Opcode.block, length_append, length_cons, length_nil] at hbound
      have hbody := reads_closed (reads_instrs bound body h (by omega) .finish)
      exact ⟨0x02, _, rfl, by decide, by decide,
        (reads_blockType type).bind (hbody.map (block type))⟩
  | bound, .loop type body, h, hbound => by
      simp only [bytes, Opcode.loop, length_append, length_cons, length_nil] at hbound
      have hbody := reads_closed (reads_instrs bound body h (by omega) .finish)
      exact ⟨0x03, _, rfl, by decide, by decide,
        (reads_blockType type).bind (hbody.map (loop type))⟩
  | bound, .choice type consequent alternate, h, hbound => by
      simp only [isLegible, Bool.and_eq_true] at h
      simp only [bytes, Opcode.choice, length_append, length_cons, length_nil] at hbound
      have hconsequent := reads_instrs bound consequent h.1 (by omega) .alternate
      have halternate := reads_closed (reads_instrs bound alternate h.2 (by omega) .finish)
      refine ⟨0x04, [type.byte] ++ ((bytesAll consequent ++ [Opcode.alternate])
        ++ (bytesAll alternate ++ [Opcode.finish])), ?_, by decide, by decide, ?_⟩
      · simp only [bytes, Opcode.choice, cons_append, nil_append, append_assoc]
      · exact (reads_blockType type).bind
          (hconsequent.bind (halternate.map (choice type consequent)))
  | bound, .br _, h, _ | bound, .brIf _, h, _ | bound, .call _, h, _ | bound, .drop, h, _
  | bound, .localGet _, h, _ | bound, .localSet _, h, _ | bound, .localTee _, h, _
  | bound, .globalGet _, h, _ | bound, .globalSet _, h, _ | bound, .f64Load _, h, _
  | bound, .f64Store _, h, _ | bound, .const _, h, _ | bound, .num _, h, _ =>
    found_plain bound h rfl

end

end Decoder

/-- Instructions are read back from their bytes. -/
theorem Instr.ofBytes?_bytesAll (h : areLegible code = true) :
    ofBytes? (bytesAll code) = some code :=
  (Decoder.reads_closed (Decoder.reads_instrs _ code h (Nat.lt_succ_self _) .finish)).whole

end Eel.Wasm
