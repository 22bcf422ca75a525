import Eel.Proofs.Machine.Confinement

/-!
What a run comes to.

A run reaches the instructions that it executes, each with the frame and the
stack that it finds. A loop reaches the instructions of its body in every round,
and a call those of the function. If an instruction that is reached traps, so
does the run.
-/

namespace Eel

namespace Wasm.Instr

mutual

/-- Whether an instruction, with all that it holds, neither loops nor reaches
into memory, and calls only functions that it may call. -/
def isPlain (mayCall : Nat → Bool) : Instr → Bool
  | block .. | loop .. | f64Load _ | f64Store _ => false
  | choice _ consequent alternate => arePlain mayCall consequent && arePlain mayCall alternate
  | call index => mayCall index
  | _ => true

def arePlain (mayCall : Nat → Bool) : List Instr → Bool
  | [] => true
  | i :: rest => i.isPlain mayCall && arePlain mayCall rest

end

@[simp]
theorem arePlain_nil (mayCall : Nat → Bool) : arePlain mayCall [] = true := rfl

@[simp]
theorem arePlain_cons (mayCall : Nat → Bool) (i : Instr) (rest : List Instr) :
    arePlain mayCall (i :: rest) = (i.isPlain mayCall && arePlain mayCall rest) := rfl

end Wasm.Instr

variable {stack : List Value} {depth : Nat} {mayCall : Nat → Bool} {code : List Instr}
  {type : BlockType}

namespace Machine

open Wasm

variable {σ : Type}

/-- That the body of a loop takes a frame to another in so many rounds, each of
which branches back. -/
inductive Rounds (body : Frame σ → Flow σ) : Nat → Frame σ → Frame σ → Prop
  | zero (frame : Frame σ) : Rounds body 0 frame frame
  | succ {n : Nat} {frame frame₁ frame₂ : Frame σ} {stack : List Value}
      (h : Rounds body n frame frame₁)
      (hback : body frame₁ = .branch 0 frame₂ stack) : Rounds body (n + 1) frame frame₂

/-- An instruction with what it is run on, and how many calls may lie inside one
another there. -/
structure Point (σ : Type) where
  depth : Nat
  instr : Instr
  frame : Frame σ
  stack : List Value

/-- Whether a flow is a trap. -/
def Flow.isTrap : Flow σ → Bool
  | trap _ => true
  | _ => false

theorem Flow.isTrap_iff {flow : Flow σ} : flow.isTrap = true ↔ ∃ cause, flow = .trap cause := by
  cases flow <;> simp [isTrap]

namespace Rounds

variable {body : Frame σ → Flow σ} {n limit : Nat} {frame frame' : Frame σ}

/-- A loop that went round a few times goes on from there. -/
theorem iterate_eq (h : Rounds body n frame frame') (limit : Nat) :
    iterate body (n + limit) frame = iterate body limit frame' := by
  induction h generalizing limit with
  | zero => rw [Nat.zero_add]
  | succ _ hback ih => rw [Nat.add_right_comm, Nat.add_assoc, ih, iterate_of_back hback]

/-- A loop that goes round further than its bound is stopped. -/
theorem iterate_of_le (h : Rounds body n frame frame') (hlimit : limit ≤ n) :
    iterate body limit frame = .trap .endless := by
  induction h with
  | zero =>
    obtain rfl : limit = 0 := by omega
    rfl
  | @succ n _ _ _ _ h hback ih =>
    rcases Nat.lt_or_eq_of_le hlimit with hlt | rfl
    · exact ih (by omega)
    · rw [h.iterate_eq 1, iterate_of_back hback]
      rfl

theorem isTrap_iterate (h : Rounds body n frame frame') (htrap : (body frame').isTrap = true)
    (limit : Nat) : (iterate body limit frame).isTrap = true := by
  rcases Nat.lt_or_ge n limit with hlt | hle
  · obtain ⟨k, rfl⟩ : ∃ k, limit = n + (k + 1) := ⟨limit - n - 1, by omega⟩
    rw [h.iterate_eq, iterate_succ]
    cases hbody : body frame' with
    | trap cause => rfl
    | next | branch =>
      rw [hbody] at htrap
      cases htrap
  · rw [h.iterate_of_le hle]
    rfl

/-- The frame of a later round follows that of the first one. -/
theorem follows {labels low : Nat} (h : Rounds body n frame frame')
    (hbody : ∀ frame, (body frame).Confined labels low frame) : frame.Follows low frame' := by
  induction h with
  | zero => exact .refl _
  | @succ _ _ frame₁ _ _ _ hback ih =>
    have hround := hbody frame₁
    rw [hback] at hround
    exact ih.trans hround.2

end Rounds

variable [Arithmetic] (host : Host σ) (table : Array Callee)

/-- That a run of instructions comes to a point. -/
inductive Reaches : Nat → List Instr → Frame σ → List Value → Point σ → Prop
  | here {depth : Nat} {i : Instr} {rest : List Instr} {frame : Frame σ} {stack : List Value} :
      Reaches depth (i :: rest) frame stack ⟨depth, i, frame, stack⟩
  | behind {depth : Nat} {i : Instr} {rest : List Instr} {frame frame' : Frame σ}
      {stack stack' : List Value}
      {pt : Point σ} (h : exec (invoke host table depth) i frame stack = .next frame' stack')
      (hpt : Reaches depth rest frame' stack' pt) : Reaches depth (i :: rest) frame stack pt
  | block {depth : Nat} {type : BlockType} {body rest : List Instr} {frame : Frame σ}
      {stack : List Value}
      {pt : Point σ}
      (hpt : Reaches depth body frame [] pt) :
        Reaches depth (.block type body :: rest) frame stack pt
  | loop {depth n : Nat} {type : BlockType} {body rest : List Instr} {frame frame' : Frame σ}
      {stack : List Value}
      {pt : Point σ}
      (h : Rounds (fun frame => execAll (invoke host table depth) body frame []) n frame frame')
      (hpt : Reaches depth body frame' [] pt) :
        Reaches depth (.loop type body :: rest) frame stack pt
  | choice {depth : Nat} {type : BlockType} {consequent alternate rest : List Instr}
      {frame : Frame σ} {n : Int32}
      {stack : List Value} {pt : Point σ}
      (hpt : Reaches depth (if n ≠ 0 then consequent else alternate) frame [] pt) :
      Reaches depth (.choice type consequent alternate :: rest) frame (.i32 n :: stack) pt
  | call {depth index : Nat} {c : Code} {rest : List Instr} {frame : Frame σ} {stack : List Value}
      {pt : Point σ}
      (h : table[index]? = some (.code c))
      (hpt : Reaches depth c.body
        { store := frame.store, locals := withArgs c.params stack c.locals } [] pt) :
      Reaches (depth + 1) (.call index :: rest) frame stack pt

variable {host table} {pt : Point σ}

/-- If an instruction that is reached traps, the run does. -/
theorem Reaches.isTrap {frame : Frame σ} (h : Reaches host table depth code frame stack pt)
    (htrap : (exec (invoke host table pt.depth) pt.instr pt.frame pt.stack).isTrap = true) :
    (execAll (invoke host table depth) code frame stack).isTrap = true := by
  induction h with
  | here =>
    obtain ⟨cause, hcause⟩ := Flow.isTrap_iff.mp htrap
    rw [execAll_cons, hcause]
    rfl
  | behind h _ ih =>
    rw [execAll_cons, h]
    exact ih htrap
  | block _ ih =>
    obtain ⟨cause, hcause⟩ := Flow.isTrap_iff.mp (ih htrap)
    rw [execAll_cons, exec_block, hcause]
    rfl
  | loop h _ ih =>
    obtain ⟨cause, hcause⟩ := Flow.isTrap_iff.mp (h.isTrap_iterate (ih htrap) roundLimit)
    rw [execAll_cons, exec_loop, hcause]
    rfl
  | @choice depth type consequent alternate _ frame n stack _ _ ih =>
    obtain ⟨cause, hcause⟩ := Flow.isTrap_iff.mp (ih htrap)
    rw [execAll_cons, exec_choice_i32, hcause]
    rfl
  | @call depth index c _ frame stack _ h _ ih =>
    obtain ⟨cause, hcause⟩ := Flow.isTrap_iff.mp (ih htrap)
    have hcall : invoke host table (depth + 1) index frame.store stack = .trap cause := by
      rw [invoke_code h, callCode, hcause]
    rw [execAll_cons, exec_call_of_trap _ _ _ hcall]
    rfl

/-- A run of code behind code comes to a point of the one or of the other. -/
theorem Reaches.of_append {first second : List Instr} {frame : Frame σ}
    (h : Reaches host table depth (first ++ second) frame stack pt) :
    Reaches host table depth first frame stack pt ∨
      ∃ frame' stack', execAll (invoke host table depth) first frame stack = .next frame' stack' ∧
        Reaches host table depth second frame' stack' pt := by
  induction first generalizing frame stack with
  | nil => exact .inr ⟨frame, stack, rfl, h⟩
  | cons i rest ih =>
    cases h with
    | here => exact .inl .here
    | behind hexec hpt =>
      rcases ih hpt with hfirst | ⟨frame', stack', hrest, hsecond⟩
      · exact .inl (.behind hexec hfirst)
      · exact .inr ⟨frame', stack', by rw [execAll_cons, hexec, Flow.next_andThen, hrest], hsecond⟩
    | block hpt => exact .inl (.block hpt)
    | loop hrounds hpt => exact .inl (.loop hrounds hpt)
    | choice hpt => exact .inl (.choice hpt)
    | call hc hpt => exact .inl (.call hc hpt)

/-- The memory has one size during the whole run. -/
theorem Reaches.memory_size (htable : TableConfined table) {frame : Frame σ}
    (h : Reaches host table depth code frame stack pt) {labels low : Nat}
    (hcode : Instr.areConfined labels low code = true) :
    pt.frame.store.memory.size = frame.store.memory.size := by
  induction h generalizing labels low with
  | here => rfl
  | @behind depth i _ frame _ stack _ _ hexec _ ih =>
    simp only [Instr.areConfined_cons, Bool.and_eq_true] at hcode
    have hconfined := exec_confined (invoke_keepSize htable host depth) i hcode.1 frame stack
    rw [hexec] at hconfined
    exact (ih hcode.2).trans hconfined.memory
  | block _ ih =>
    simp only [Instr.areConfined_cons, Instr.isConfined, Bool.and_eq_true] at hcode
    exact ih hcode.1
  | @loop depth _ _ body _ _ _ _ _ hrounds _ ih =>
    simp only [Instr.areConfined_cons, Instr.isConfined, Bool.and_eq_true] at hcode
    have hconfined := execAll_confined (invoke_keepSize htable host depth) body hcode.1
    exact (ih hcode.1).trans (hrounds.follows (hconfined · [])).memory
  | choice _ ih =>
    simp only [Instr.areConfined_cons, Instr.isConfined, Bool.and_eq_true] at hcode
    split at ih
    · exact ih hcode.1.1
    · exact ih hcode.1.2
  | call hc _ ih =>
    obtain ⟨labels, low, hbody⟩ := htable _ _ hc
    exact ih hbody

/-- That every point which code comes to has a property, whatever the code is
run on. -/
def Ensures (host : Host σ) (table : Array Callee) (P : Point σ → Prop)
    (code : List Instr) : Prop :=
  ∀ ⦃depth : Nat⦄ ⦃frame : Frame σ⦄ ⦃stack : List Value⦄ ⦃pt : Point σ⦄,
    Reaches host table depth code frame stack pt → P pt

namespace Ensures

variable {P : Point σ → Prop} {first second rest : List Instr} {i : Instr}

theorem nil : Ensures host table P [] := by
  intro depth frame stack pt h
  cases h

theorem append (h : Ensures host table P first) (h' : Ensures host table P second) :
    Ensures host table P (first ++ second) := by
  intro depth frame stack pt hpt
  rcases hpt.of_append with hfirst | ⟨frame', stack', -, hsecond⟩
  · exact h hfirst
  · exact h' hsecond

theorem cons (h : Ensures host table P [i]) (h' : Ensures host table P rest) :
    Ensures host table P (i :: rest) :=
  h.append h'

theorem call {index : Nat} (hP : ∀ depth frame stack, P ⟨depth, .call index, frame, stack⟩)
    (hcode : ∀ c, table[index]? = some (.code c) → Ensures host table P c.body) :
    Ensures host table P [.call index] := by
  intro depth frame stack pt hpt
  cases hpt with
  | here => exact hP _ _ _
  | behind _ hrest => exact nil hrest
  | call hc hbody => exact hcode _ hc hbody

theorem choice (hP : ∀ depth frame stack, P ⟨depth, .choice type first second, frame, stack⟩)
    (h : Ensures host table P first) (h' : Ensures host table P second) :
    Ensures host table P [.choice type first second] := by
  intro depth frame stack pt hpt
  cases hpt with
  | here => exact hP _ _ _
  | behind _ hrest => exact nil hrest
  | choice hbranch =>
    split at hbranch
    · exact h hbranch
    · exact h' hbranch

/-- A step is the only point that it comes to, unless it calls another
function. -/
theorem step (hnested : i.isNested = false) (hcall : ∀ index, i ≠ .call index)
    (hP : ∀ depth frame stack, P ⟨depth, i, frame, stack⟩) : Ensures host table P [i] := by
  intro depth frame stack pt hpt
  cases hpt with
  | here => exact hP _ _ _
  | behind _ hrest => exact nil hrest
  | block | loop | choice => cases hnested
  | call => exact absurd rfl (hcall _)

/-- A run that enters a loop comes to the loop, to the points of its rounds and
to those behind it. -/
theorem of_loop {body : List Instr} {frame : Frame σ}
    (h : Reaches host table depth (.loop type body :: rest) frame stack pt)
    (hloop : P ⟨depth, .loop type body, frame, stack⟩) (hbody : Ensures host table P body)
    (hrest : Ensures host table P rest) : P pt := by
  cases h with
  | here => exact hloop
  | behind _ hpt => exact hrest hpt
  | loop _ hpt => exact hbody hpt

mutual

theorem of_isPlain
    (hP : ∀ {i : Instr}, i.isPlain mayCall = true → ∀ depth frame stack, P ⟨depth, i, frame, stack⟩)
    (hcall : ∀ {index : Nat} {c : Code}, mayCall index = true → table[index]? = some (.code c) →
      Ensures host table P c.body) :
      ∀ (i : Instr), i.isPlain mayCall = true → Ensures host table P [i]
  | .call _, h => .call (hP h) fun _ => hcall h
  | .choice _ consequent alternate, h => by
      have hparts := h
      simp only [Instr.isPlain, Bool.and_eq_true] at hparts
      exact .choice (hP h) (of_arePlain hP hcall consequent hparts.1)
        (of_arePlain hP hcall alternate hparts.2)
  | .br _, h | .brIf _, h | .drop, h | .localGet _, h | .localSet _, h | .localTee _, h
  | .globalGet _, h | .globalSet _, h | .const _, h | .num _, h => .step rfl nofun (hP h)

/-- Plain code comes to plain instructions, and to those of the functions that
it calls. -/
theorem of_arePlain
    (hP : ∀ {i : Instr}, i.isPlain mayCall = true → ∀ depth frame stack, P ⟨depth, i, frame, stack⟩)
    (hcall : ∀ {index : Nat} {c : Code}, mayCall index = true → table[index]? = some (.code c) →
      Ensures host table P c.body) :
    ∀ (code : List Instr), Instr.arePlain mayCall code = true → Ensures host table P code
  | [], _ => .nil
  | i :: rest, h => by
      simp only [Instr.arePlain_cons, Bool.and_eq_true] at h
      exact .cons (of_isPlain hP hcall i h.1) (of_arePlain hP hcall rest h.2)

end

end Ensures

end Machine

end Eel
