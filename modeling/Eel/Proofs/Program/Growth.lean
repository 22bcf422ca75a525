import Eel.Proofs.Program.Emission
import Eel.Tree.Variables

/-!
Drafts that grow while code is lowered.

Numbers of variables, routines and locals are given on the way, but a number
that an instruction holds is the one that the finished draft knows. So emitted
code can be read against the draft that all functions have left behind, whenever
it was emitted.
-/

namespace Eel

open Eel.Numbering List

/-- The index of the global of a variable, once all variables have their
numbers. -/
def Pool.slot? (pool : Pool) (externals globals : Numbering Bytes) (name : Bytes) : Option Nat :=
  match pool.find? name with
  | some declared => externals.find? (variableKey pool.name declared)
  | none => (globals.find? (variableKey pool.name name)).map (externals.size + ·)

variable {i : Nat} {x : Ident} {r : Routine}

/-- Imported variables lie in front of those of the program. -/
theorem Pool.slot?_lt {pool : Pool} {externals globals : Numbering Bytes} {x : Bytes}
    (h : pool.slot? externals globals x = some i) :
    i < externals.size + globals.size ∧ (i < externals.size ↔ (pool.find? x).isSome) := by
  unfold slot? at h
  cases hx : pool.find? x with
  | some declared =>
    simp only [hx] at h
    have hlt := (List.getElem?_eq_some_iff.mp (getElem?_of_find? h)).1
    rw [← size] at hlt
    exact ⟨by omega, by simp [hlt]⟩
  | none =>
    simp only [hx, Option.map_eq_some_iff] at h
    obtain ⟨k, hk, rfl⟩ := h
    have hlt := (List.getElem?_eq_some_iff.mp (getElem?_of_find? hk)).1
    rw [← size] at hlt
    exact ⟨by omega, by simp⟩

namespace Lowering

open Wasm

/-- Everything that a draft knows is known to a later one. Locals are left out,
since each function numbers its own. -/
structure Draft.Within (d final : Draft) : Prop where
  globals : d.globals.names <+: final.globals.names
  routines : d.routines.names <+: final.routines.names
  memory : d.usesMemory = true → final.usesMemory = true

theorem Draft.Within.refl (d : Draft) : d.Within d :=
  ⟨prefix_rfl, prefix_rfl, id⟩

theorem Draft.Within.trans {d₁ d₂ d₃ : Draft} (h : d₁.Within d₂) (h' : d₂.Within d₃) :
    d₁.Within d₃ :=
  ⟨h.globals.trans h'.globals, h.routines.trans h'.routines, fun hm => h'.memory (h.memory hm)⟩

/-- A later draft of the same function. -/
structure Draft.Grows (d d' : Draft) : Prop extends d.Within d' where
  locals : d.locals <+: d'.locals

theorem Draft.Grows.refl (d : Draft) : d.Grows d :=
  ⟨.refl d, prefix_rfl⟩

theorem Draft.Grows.trans {d₁ d₂ d₃ : Draft} (h : d₁.Grows d₂) (h' : d₂.Grows d₃) : d₁.Grows d₃ :=
  ⟨h.toWithin.trans h'.toWithin, h.locals.trans h'.locals⟩

theorem Draft.Grows.length_le {d d' : Draft} (h : d.Grows d') :
    d.locals.length ≤ d'.locals.length :=
  h.locals.length_le

theorem Draft.grows_addLocal (d : Draft) (type : ValType) : d.Grows (d.addLocal type) :=
  ⟨⟨prefix_rfl, prefix_rfl, id⟩, prefix_append _ _⟩

theorem Draft.grows_addMemory (d : Draft) : d.Grows d.addMemory :=
  ⟨⟨prefix_rfl, prefix_rfl, fun _ => rfl⟩, prefix_rfl⟩

variable {s : Scope} {d d' final : Draft}

/-- The index of the global of a variable that a function names. -/
def Scope.slot? (s : Scope) : Numbering Bytes → Bytes → Option Nat := s.pool.slot? s.externals

theorem Scope.slot?_of_prefix {globals globals' : Numbering Bytes} {name : Bytes}
    (hfront : globals.names <+: globals'.names) (h : s.slot? globals name = some i) :
    s.slot? globals' name = some i := by
  unfold slot? Pool.slot? at h ⊢
  cases hdeclared : s.pool.find? name with
  | some declared => simpa only [hdeclared] using h
  | none =>
    simp only [hdeclared, Option.map_eq_some_iff] at h ⊢
    obtain ⟨k, hk, hi⟩ := h
    exact ⟨k, find?_mono hfront hk, hi⟩

/-- The variable has its slot then. Nothing but the globals changes, and those
only for one that is not declared. -/
theorem globalIndex_eq_ok (h : globalIndex s x d = .ok (i, d')) :
    d.Grows d' ∧ s.slot? d'.globals x.name = some i ∧
    d'.locals = d.locals ∧ d'.routines = d.routines ∧
    ((s.pool.find? x.name).isSome → d'.globals = d.globals) := by
  unfold globalIndex at h
  unfold Scope.slot? Pool.slot?
  cases hdeclared : s.pool.find? x.name with
  | some declared =>
    simp only [hdeclared] at h ⊢
    cases hfound : s.externals.find? (variableKey s.pool.name declared) with
    | none => simp only [hfound, fault_ne_ok] at h
    | some k =>
      simp only [hfound, pure_eq_ok] at h
      obtain ⟨rfl, rfl⟩ := h
      exact ⟨.refl d, rfl, rfl, rfl, fun _ => rfl⟩
  | none =>
    simp only [hdeclared] at h ⊢
    obtain ⟨rfl, rfl⟩ : _ = i ∧ _ = d' := by simpa using Except.ok.inj h
    refine ⟨⟨⟨?_, prefix_rfl, id⟩, prefix_rfl⟩, ?_, rfl, rfl, by simp⟩
    · exact names_prefix_resolve _ _
    · rw [find?_resolve]
      rfl

theorem callRoutine_eq_ok {i : Instr} (h : callRoutine s r d = .ok (i, d')) :
    d.Grows d' ∧ ∃ k, d'.routines.find? r = some k ∧ i = .call (s.routineBase + k) := by
  obtain ⟨rfl, rfl⟩ : _ = i ∧ _ = d' := by simpa using Except.ok.inj h
  refine ⟨⟨⟨prefix_rfl, ?_, id⟩, prefix_rfl⟩, _, ?_, rfl⟩
  · exact names_prefix_resolve _ _
  · exact find?_resolve _ _

theorem callRoutine_locals {i : Instr} (h : callRoutine s r d = .ok (i, d')) :
    d'.locals = d.locals := by
  obtain ⟨-, rfl⟩ : _ = i ∧ _ = d' := by simpa using Except.ok.inj h
  rfl

theorem bufferLoad_eq_ok {base : Nat} {index code : List Instr}
    (h : bufferLoad s base index d = .ok (code, d')) :
    ∃ find d₁, callRoutine s .bufferIndex d = .ok (find, d₁) ∧ d' = d₁.addLocal .i32 ∧
      code = index ++ find :: (slotExists d₁.locals.length ++
        [.choice .f64 [.localGet d₁.locals.length, .f64Load base] [.f64Const .zero]]) := by
  simp only [bufferLoad, bind_eq_ok, newLocal_eq_ok, pure_eq_ok] at h
  obtain ⟨find, d₁, hfind, _, _, ⟨rfl, rfl⟩, rfl, rfl⟩ := h
  exact ⟨find, d₁, hfind, rfl, by simp⟩

/-- Counts a round of `while` and goes back if there may be one more and the
test says so. -/
def nextRound (counter : Nat) : List Instr :=
  [.localGet counter, .i32Const 1, .num .i32Add, .localTee counter, .i32Const maxIterations,
    .num .i32LtS, .num .i32And, .brIf 0]

theorem whileCode_eq_ok {counter : Nat} {body code : List Instr}
    (h : whileCode s counter body d = .ok (code, d')) :
    ∃ test, callRoutine s .isNotZeroish d = .ok (test, d') ∧
      code = [.i32Const 0, .localSet counter, .loop .void (body ++ test :: nextRound counter),
        .f64Const .zero] := by
  simp only [whileCode, bind_eq_ok, pure_eq_ok] at h
  obtain ⟨test, _, htest, rfl, rfl⟩ := h
  exact ⟨test, htest, rfl⟩

/-- The code of one round: out of both blocks if none is left, otherwise the
body and a step of the count. -/
def countedRound (remaining : Nat) (body : List Instr) : List Instr :=
  let leave : List Instr := [.localGet remaining, .i32Const 0, .num .i32LeS, .brIf 1]
  let goOn : List Instr :=
    [.drop, .localGet remaining, .i32Const 1, .num .i32Sub, .localSet remaining, .br 0]
  leave ++ body ++ goOn

theorem countedCode_eq (remaining : Nat) (body : List Instr) :
    countedCode remaining body =
      [.block .void [.loop .void (countedRound remaining body)], .f64Const .zero] := rfl

/-- The variables that a piece mentions. -/
def Piece.mentions : Piece → List Ident
  | expr n => n.mentions
  | all args => Node.mentionsAll args
  | sequence body => Node.mentionsAll body
  | statements body => Node.mentionsAll body

/-- That a variable has a global. -/
def Draft.Knows (d : Draft) (s : Scope) (x : Ident) : Prop := ∃ i, s.slot? d.globals x.name = some i

theorem Draft.Knows.within (h : d.Knows s x) (hd : d.Within d') : d'.Knows s x := by
  obtain ⟨i, hi⟩ := h
  exact ⟨i, Scope.slot?_of_prefix hd.globals hi⟩

end Lowering

end Eel
