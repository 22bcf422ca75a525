import Eel.Proofs.Program.References

/-!
How large code gets.

Every local that comes up while code is lowered has an instruction of its own,
and every index in the code is below the size of what it counts. So code is
legible if the draft behind it holds no more than 32 bits can count. Code that
mentions only variables of its pool adds no globals to a program.
-/

namespace Eel

open Wasm List

theorem Wasm.NumOp.bytes_ne_nil (op : NumOp) : op.bytes ≠ [] := by
  cases op <;> exact cons_ne_nil _ _

theorem Wasm.Instr.bytes_ne_nil (i : Instr) : i.bytes ≠ [] := by
  cases i
  case num op => exact op.bytes_ne_nil
  case const value => cases value <;> exact cons_ne_nil _ _
  all_goals exact cons_ne_nil _ _

@[simp]
theorem Wasm.Instr.bytesAll_append (first second : List Instr) :
    bytesAll (first ++ second) = bytesAll first ++ bytesAll second := by
  induction first with
  | nil => rfl
  | cons i rest ih => simp only [cons_append, bytesAll, ih, append_assoc]

/-- Every instruction has a byte at least. -/
theorem Wasm.Instr.length_le_length_bytesAll (code : List Instr) :
    code.length ≤ (bytesAll code).length := by
  induction code with
  | nil => exact Nat.le_refl 0
  | cons i rest ih =>
    have hi := length_pos_of_ne_nil i.bytes_ne_nil
    simp only [length_cons, bytesAll, length_append]
    omega

theorem HostFunction.index_lt (f : HostFunction) : f.index < HostFunction.all.length := by
  cases f <;> decide

/-- The code of routines is legible. -/
theorem Routine.areLegible_code (r : Routine) : Instr.areLegible r.code = true := by
  cases r <;> decide

namespace Lowering

open Instr Reference

variable {s : Scope} {d d₁ d' : Draft}

/-- That all indices have 32 bits. -/
structure Draft.Fits (d : Draft) (s : Scope) : Prop where
  globals : s.externals.size + d.globals.size ≤ 2 ^ 32
  routines : s.routineBase + d.routines.size ≤ 2 ^ 32
  locals : d.locals.length ≤ 2 ^ 32

theorem Draft.Grows.fits (h : d.Grows d') (hd : d'.Fits s) : d.Fits s where
  globals := Nat.le_trans (Nat.add_le_add_left h.globals.length_le _) hd.globals
  routines := Nat.le_trans (Nat.add_le_add_left h.routines.length_le _) hd.routines
  locals := Nat.le_trans h.length_le hd.locals

/-- What code that leads from one draft to another takes, where it mentions the
given variables. -/
structure Sized (s : Scope) (names : List Ident) (d : Draft) (code : List Instr)
    (d' : Draft) : Prop where
  grows : d.Grows d'
  legible : d'.Fits s → areLegible code = true
  /-- There are no more new locals than bytes. -/
  locals : ∃ added, d'.locals = d.locals ++ added ∧ added.length ≤ (bytesAll code).length ∧
    ∀ t ∈ added, t.IsKnown
  globals : (∀ x ∈ names, (s.pool.find? x.name).isSome) → d'.globals = d.globals

namespace Sized

variable {xs xs' : List Ident} {code code' : List Instr}

theorem append (h : Sized s xs d code d₁) (h' : Sized s xs' d₁ code' d') :
    Sized s (xs ++ xs') d (code ++ code') d' where
  grows := h.grows.trans h'.grows
  legible := by
    intro hfits
    rw [areLegible_append, h.legible (h'.grows.fits hfits), h'.legible hfits]
    rfl
  locals := by
    obtain ⟨first, hfirst, hlength, hknown⟩ := h.locals
    obtain ⟨second, hsecond, hlength', hknown'⟩ := h'.locals
    refine ⟨first ++ second, by rw [hsecond, hfirst, append_assoc], ?_, ?_⟩
    · rw [bytesAll_append, length_append, length_append]
      exact Nat.add_le_add hlength hlength'
    · exact forall_mem_append.mpr ⟨hknown, hknown'⟩
  globals := by
    intro hxs
    rw [forall_mem_append] at hxs
    rw [h'.globals hxs.2, h.globals hxs.1]

/-- Other code, which has all the bytes and more, takes as much. -/
theorem change (h : Sized s xs d code d') (hcode : areLegible code = true → areLegible code' = true)
    (hbytes : (bytesAll code).length ≤ (bytesAll code').length) : Sized s xs d code' d' where
  grows := h.grows
  legible := fun hfits => hcode (h.legible hfits)
  locals := by
    obtain ⟨added, hadded, hlength, hknown⟩ := h.locals
    exact ⟨added, hadded, Nat.le_trans hlength hbytes, hknown⟩
  globals := h.globals

/-- Code behind a step that adds no local. -/
theorem of_locals (hd : d.Grows d') (hlocals : d'.locals = d.locals)
    (hcode : d'.Fits s → areLegible code = true)
    (hglobals : (∀ x ∈ xs, (s.pool.find? x.name).isSome) → d'.globals = d.globals) :
    Sized s xs d code d' :=
  ⟨hd, hcode, ⟨[], by rw [hlocals, append_nil], Nat.zero_le _, by simp⟩, hglobals⟩

end Sized

theorem callRoutine_sized {r : Routine} {i : Instr} (h : callRoutine s r d = .ok (i, d')) :
    Sized s [] d [i] d' := by
  obtain ⟨hgrows, k, hk, rfl⟩ := callRoutine_eq_ok h
  refine .of_locals hgrows (callRoutine_locals h) (fun hfits => ?_) fun _ => ?_
  · have hlt : k < d'.routines.size :=
      (List.getElem?_eq_some_iff.mp (Numbering.getElem?_of_find? hk)).1
    have hroutines := hfits.routines
    simp only [areLegible_cons, areLegible_nil, isLegible, Bool.and_true, decide_eq_true_eq]
    omega
  · obtain ⟨-, rfl⟩ : _ ∧ _ = d' := by simpa using Except.ok.inj h
    rfl

/-- Code is legible if all indices have 32 bits, and takes no more locals than
it has bytes. -/
theorem Builds.sized {xs : List Ident} {names : List Named} {code : List Instr}
    (h : Builds s xs names d code d') : Sized s xs d code d' := by
  induction h with
  | plain _ hlegible =>
    exact .of_locals (.refl _) rfl (fun hfits => hlegible hfits.locals) fun _ => rfl
  | @addLocal d type code htype hne _ hlegible =>
    refine ⟨d.grows_addLocal type, fun hfits => hlegible ?_,
      ⟨[type], rfl, ?_, forall_mem_singleton.mpr htype⟩,
      fun _ => rfl⟩
    · simpa [Draft.addLocal] using hfits.locals
    · exact Nat.le_trans (length_pos_of_ne_nil hne) (length_le_length_bytesAll code)
  | addMemory => exact .of_locals (Draft.grows_addMemory _) rfl (fun _ => rfl) fun _ => rfl
  | host f =>
    refine .of_locals (.refl _) rfl (fun _ => ?_) fun _ => rfl
    have hall : HostFunction.all.length < 2 ^ 32 := by decide
    simp only [callHost, areLegible_cons, areLegible_nil, isLegible, Bool.and_true,
      decide_eq_true_eq]
    exact f.index_lt.trans hall
  | routine h => exact callRoutine_sized h
  | again h hd =>
    exact .of_locals (.refl _) rfl (fun hfits => (callRoutine_sized h).legible (hd.fits hfits))
      fun _ => rfl
  | index h =>
    obtain ⟨hgrows, -, hlocals, -, hglobals⟩ := globalIndex_eq_ok h
    refine .of_locals hgrows hlocals (fun _ => rfl) fun hxs => ?_
    exact hglobals (hxs _ mem_cons_self)
  | read h | write h =>
    refine .of_locals (.refl _) rfl (fun hfits => ?_) fun _ => rfl
    simpa [isLegible] using Nat.lt_of_lt_of_le (Pool.slot?_lt h).1 hfits.globals
  | append _ _ ih ih' => exact ih.append ih'
  | choice _ _ _ ih ih' =>
    refine (ih.append ih').change (by simp [isLegible]) ?_
    simp only [bytesAll, bytes, length_append, bytesAll_append]
    omega
  | block _ _ ih | loop _ _ ih =>
    refine ih.change (by simp [isLegible]) ?_
    simp only [bytesAll, bytes, length_append]
    omega
  | same _ hxs ih =>
    exact { ih with globals := fun h => ih.globals fun x hx => h x ((hxs x).mp hx) }

end Lowering

end Eel
