import Eel.Proofs.Machine.Flow

/-!
What instructions leave alone.

An instruction sets the locals that it names and branches to the blocks that it
names. So the locals below all of these, the number of locals and the size of
the memory are the same wherever code ends, and code whose branches stay inside
ends behind itself or traps.
-/

namespace Eel

namespace Wasm.Instr

mutual

/-- Whether an instruction sets no local below `low` and branches to none but
the next `labels` blocks around it. -/
def isConfined (labels low : Nat) : Instr → Bool
  | block _ body | loop _ body => areConfined (labels + 1) low body
  | choice _ consequent alternate =>
    areConfined (labels + 1) low consequent && areConfined (labels + 1) low alternate
  | br depth | brIf depth => depth < labels
  | localSet index | localTee index => low ≤ index
  | _ => true

def areConfined (labels low : Nat) : List Instr → Bool
  | [] => true
  | i :: rest => i.isConfined labels low && areConfined labels low rest

end

variable {labels labels' low low' : Nat}

@[simp]
theorem areConfined_nil : areConfined labels low [] = true := rfl

@[simp]
theorem areConfined_cons (i : Instr) (rest : List Instr) :
    areConfined labels low (i :: rest) = (i.isConfined labels low && areConfined labels low rest) :=
  rfl

@[simp]
theorem areConfined_append (first second : List Instr) :
    areConfined labels low (first ++ second) =
      (areConfined labels low first && areConfined labels low second) := by
  induction first with
  | nil => rfl
  | cons i rest ih => rw [List.cons_append, areConfined_cons, areConfined_cons, ih, Bool.and_assoc]

mutual

theorem isConfined_mono (hlow : low' ≤ low) :
    ∀ (i : Instr) {labels labels' : Nat}, labels ≤ labels' →
    i.isConfined labels low = true → i.isConfined labels' low' = true
  | block _ body, _, _, hlabels, h => areConfined_mono hlow body (Nat.succ_le_succ hlabels) h
  | loop _ body, _, _, hlabels, h => areConfined_mono hlow body (Nat.succ_le_succ hlabels) h
  | choice _ consequent alternate, _, _, hlabels, h => by
      simp only [isConfined, Bool.and_eq_true] at h ⊢
      exact ⟨areConfined_mono hlow consequent (Nat.succ_le_succ hlabels) h.1,
        areConfined_mono hlow alternate (Nat.succ_le_succ hlabels) h.2⟩
  | br depth, _, _, hlabels, h | brIf depth, _, _, hlabels, h => by
      simp only [isConfined, decide_eq_true_eq] at h ⊢
      omega
  | localSet index, _, _, _, h | localTee index, _, _, _, h => by
      simp only [isConfined, decide_eq_true_eq] at h ⊢
      omega
  | call _, _, _, _, _ | drop, _, _, _, _ | localGet _, _, _, _, _ | globalGet _, _, _, _, _
  | globalSet _, _, _, _, _ | f64Load _, _, _, _, _ | f64Store _, _, _, _, _ | const _, _, _, _, _
  | num _, _, _, _, _ => rfl

theorem areConfined_mono (hlow : low' ≤ low) :
    ∀ (code : List Instr) {labels labels' : Nat}, labels ≤ labels' →
    areConfined labels low code = true → areConfined labels' low' code = true
  | [], _, _, _, _ => rfl
  | i :: rest, _, _, hlabels, h => by
      simp only [areConfined_cons, Bool.and_eq_true] at h ⊢
      exact ⟨isConfined_mono hlow i hlabels h.1, areConfined_mono hlow rest hlabels h.2⟩

end

end Wasm.Instr

namespace Machine

open Wasm

variable {σ : Type} {labels low : Nat}

/-- That a frame comes from another without a change to its first locals, to
their number and to the size of its memory. -/
structure Frame.Follows (low : Nat) (frame frame' : Frame σ) : Prop where
  local_ : ∀ i < low, frame'.locals[i]? = frame.locals[i]?
  length : frame'.locals.length = frame.locals.length
  memory : frame'.store.memory.size = frame.store.memory.size

namespace Frame.Follows

variable {frame frame₁ frame₂ : Frame σ}

theorem refl (frame : Frame σ) : Frame.Follows low frame frame := ⟨fun _ _ => rfl, rfl, rfl⟩

theorem trans (h : Frame.Follows low frame frame₁) (h' : Frame.Follows low frame₁ frame₂) :
    Frame.Follows low frame frame₂ :=
  ⟨fun i hi => (h'.local_ i hi).trans (h.local_ i hi), h'.length.trans h.length,
    h'.memory.trans h.memory⟩

end Frame.Follows

/-- That a flow stays within so many blocks, and that its frame follows the one
before. -/
def Flow.Confined (labels low : Nat) (frame : Frame σ) : Flow σ → Prop
  | next frame' _ => frame.Follows low frame'
  | branch depth frame' _ => depth < labels ∧ frame.Follows low frame'
  | trap _ => True

namespace Flow.Confined

variable {frame frame' : Frame σ} {flow : Flow σ}

theorem trans (hfollows : frame.Follows low frame') (h : flow.Confined labels low frame') :
    flow.Confined labels low frame := by
  cases flow with
  | next frame'' stack => exact hfollows.trans h
  | branch depth frame'' stack => exact ⟨h.1, hfollows.trans h.2⟩
  | trap cause => trivial

theorem andThen {rest : Frame σ → List Value → Flow σ} (h : flow.Confined labels low frame)
    (hrest : ∀ frame stack, (rest frame stack).Confined labels low frame) :
    (flow.andThen rest).Confined labels low frame := by
  cases flow with
  | next frame' stack => exact (hrest frame' stack).trans h
  | branch depth frame' stack => exact h
  | trap cause => trivial

theorem leaving (type : BlockType) (outer : List Value) (h : flow.Confined (labels + 1) low frame) :
    (flow.leaving type outer).Confined labels low frame := by
  cases flow with
  | next frame' stack => exact h
  | branch depth frame' stack =>
    cases depth with
    | zero => exact h.2
    | succ depth => exact ⟨Nat.lt_of_succ_lt_succ h.1, h.2⟩
  | trap cause => trivial

/-- A loop leads no further out than its rounds, less the branches back. -/
theorem iterate {body : Frame σ → Flow σ}
    (h : ∀ frame, (body frame).Confined (labels + 1) low frame) (limit : Nat) (frame : Frame σ) :
    (iterate body limit frame).Confined labels low frame := by
  induction limit generalizing frame with
  | zero => trivial
  | succ limit ih =>
    have hround := h frame
    rw [iterate_succ]
    cases hbody : body frame with
    | next frame' stack =>
      rw [hbody] at hround
      exact hround
    | branch depth frame' stack =>
      rw [hbody] at hround
      cases depth with
      | zero => exact (ih frame').trans hround.2
      | succ depth => exact ⟨Nat.lt_of_succ_lt_succ hround.1, hround.2⟩
    | trap cause => trivial

end Flow.Confined

/-- That calls leave the size of the memory. -/
def Calls.KeepSize (calls : Calls σ) : Prop :=
  ∀ (index : Nat) (store store' : Store σ) (stack stack' : List Value),
    calls index store stack = .done store' stack' → store'.memory.size = store.memory.size

theorem Memory.size_store? {m m' : Memory} {address : Nat} {x : Double}
    (h : m.store? address x = some m') : m'.size = m.size := by
  unfold store? at h
  split at h
  · cases h
    unfold setBits
    dsimp only
    split <;> rfl
  · cases h

theorem setLocal_confined {index : Nat} (h : low ≤ index) (frame : Frame σ) (v : Value)
    (stack : List Value) : (setLocal frame index v stack).Confined labels low frame := by
  unfold setLocal
  split
  · exact ⟨fun i hi => List.getElem?_set_ne (by omega), List.length_set, rfl⟩
  · trivial

variable [Arithmetic] {calls : Calls σ}

theorem step_confined (hcalls : calls.KeepSize) {i : Instr} (h : i.isConfined labels low = true)
    (frame : Frame σ) (stack : List Value) :
    (step calls i frame stack).Confined labels low frame := by
  unfold step
  split
  · exact ⟨by simpa [Instr.isConfined] using h, .refl frame⟩
  · split
    · exact ⟨by simpa [Instr.isConfined] using h, .refl frame⟩
    · exact .refl frame
  · split
    · next hcall => exact ⟨fun _ _ => rfl, rfl, hcalls _ _ _ _ _ hcall⟩
    · trivial
  · exact .refl frame
  · unfold getLocal
    split
    · exact .refl frame
    · trivial
  · exact setLocal_confined (by simpa [Instr.isConfined] using h) frame _ _
  · exact setLocal_confined (by simpa [Instr.isConfined] using h) frame _ _
  · unfold getGlobal
    split
    · exact .refl frame
    · trivial
  · unfold setGlobal
    split
    · exact ⟨fun _ _ => rfl, rfl, rfl⟩
    · trivial
  · unfold load
    split
    · exact .refl frame
    · trivial
  · unfold store
    split
    · next hstore => exact ⟨fun _ _ => rfl, rfl, Memory.size_store? hstore⟩
    · trivial
  · exact .refl frame
  · unfold Flow.ofStack
    split
    · exact .refl frame
    · trivial
  · trivial

mutual

theorem exec_confined (hcalls : calls.KeepSize) :
    ∀ (i : Instr) {labels : Nat}, i.isConfined labels low = true →
    ∀ (frame : Frame σ) (stack : List Value), (exec calls i frame stack).Confined labels low frame
  | .block type body, _, h, frame, stack =>
    (execAll_confined hcalls body h frame []).leaving type stack
  | .loop type body, labels, h, frame, stack => by
      have hrounds := Flow.Confined.iterate (execAll_confined hcalls body h · []) roundLimit frame
      rw [exec_loop]
      split
      · next hiterate =>
          rw [hiterate] at hrounds
          exact hrounds
      · exact hrounds
  | .choice type consequent alternate, labels, h, frame, stack => by
      simp only [Instr.isConfined, Bool.and_eq_true] at h
      rcases stack with _ | ⟨n | n | x, stack⟩
      · trivial
      · rw [exec_choice_i32]
        split
        · exact (execAll_confined hcalls consequent h.1 frame []).leaving type stack
        · exact (execAll_confined hcalls alternate h.2 frame []).leaving type stack
      · trivial
      · trivial
  | .br _, _, h, frame, stack | .brIf _, _, h, frame, stack | .call _, _, h, frame, stack
  | .drop, _, h, frame, stack | .localGet _, _, h, frame, stack | .localSet _, _, h, frame, stack
  | .localTee _, _, h, frame, stack | .globalGet _, _, h, frame, stack
  | .globalSet _, _, h, frame, stack | .f64Load _, _, h, frame, stack | .f64Store _, _, h, frame,
    stack | .const _, _, h, frame, stack | .num _, _, h, frame, stack => by
      rw [exec_eq_step calls frame stack rfl]
      exact step_confined hcalls h frame stack

theorem execAll_confined (hcalls : calls.KeepSize) : ∀ (code : List Instr) {labels : Nat},
    Instr.areConfined labels low code = true →
    ∀ (frame : Frame σ) (stack : List Value),
      (execAll calls code frame stack).Confined labels low frame
  | [], _, _, frame, _ => .refl frame
  | i :: rest, _, h, frame, stack => by
      simp only [Instr.areConfined_cons, Bool.and_eq_true] at h
      rw [execAll_cons]
      exact (exec_confined hcalls i h.1 frame stack).andThen (execAll_confined hcalls rest h.2)

end

/-- Where code behind confined code branches, the confined code has ended behind
itself. -/
theorem branch_of_execAll_append (hcalls : calls.KeepSize) {first second : List Instr}
    {frame frame' : Frame σ} {stack stack' : List Value} {depth : Nat}
    (hfirst : Instr.areConfined 0 low first = true)
    (h : execAll calls (first ++ second) frame stack = .branch depth frame' stack') :
    ∃ frame₁ stack₁, frame.Follows low frame₁ ∧
      execAll calls second frame₁ stack₁ = .branch depth frame' stack' := by
  have hconfined := execAll_confined hcalls first hfirst frame stack
  rw [execAll_append] at h
  cases hexec : execAll calls first frame stack with
  | next frame₁ stack₁ =>
    rw [hexec] at h hconfined
    exact ⟨frame₁, stack₁, hconfined, h⟩
  | branch depth₁ frame₁ stack₁ =>
    rw [hexec] at hconfined
    exact absurd hconfined.1 (Nat.not_lt_zero _)
  | trap cause =>
    rw [hexec] at h
    cases h

/-- That all code of a table is confined in some way. -/
def TableConfined (table : Array Callee) : Prop :=
  ∀ (index : Nat) (c : Code), table[index]? = some (.code c) →
    ∃ labels low, Instr.areConfined labels low c.body = true

theorem invoke_keepSize {table : Array Callee} (htable : TableConfined table) (host : Host σ)
    (depth : Nat) : Calls.KeepSize (invoke host table depth) := by
  induction depth with
  | zero => exact fun _ _ _ _ _ h => nomatch h
  | succ depth ih =>
    intro index store store' stack stack' h
    cases hindex : table[index]? with
    | none => simp [invoke, hindex] at h
    | some callee =>
      cases callee with
      | host f =>
        rw [invoke_host hindex, callHost] at h
        split at h
        · cases h
        · cases h
          rfl
      | code c =>
        obtain ⟨labels, low, hconfined⟩ := htable _ _ hindex
        have hbody := execAll_confined ih c.body hconfined
          { store, locals := withArgs c.params stack c.locals } []
        rw [invoke_code hindex, callCode] at h
        split at h
        · next hexec =>
            rw [hexec] at hbody
            cases h
            exact hbody.memory
        · next hexec =>
            rw [hexec] at hbody
            cases h
            exact hbody.2.memory
        · cases h
        · cases h

end Machine

end Eel
