import Mathlib
import Eel.Machine.Exec

/-!
How the machine runs instructions that stand one after another.

An instruction hands its flow on to the rest only when it ends behind itself, so
code is run piece by piece: what is known of a piece is used where the piece
stands, whatever follows.
-/

namespace Eel.Machine

open Wasm

variable {σ : Type}

/-- Goes on behind instructions that ended behind the last one. -/
def Flow.andThen (flow : Flow σ) (rest : Frame σ → List Value → Flow σ) : Flow σ :=
  match flow with
  | .next frame stack => rest frame stack
  | flow => flow

@[simp]
theorem Flow.next_andThen (frame : Frame σ) (stack : List Value)
    (rest : Frame σ → List Value → Flow σ) :
    (Flow.next frame stack).andThen rest = rest frame stack := rfl

@[simp]
theorem Flow.branch_andThen (depth : Nat) (frame : Frame σ) (stack : List Value)
    (rest : Frame σ → List Value → Flow σ) :
    (Flow.branch depth frame stack).andThen rest = .branch depth frame stack := rfl

@[simp]
theorem Flow.next_leaving (frame : Frame σ) (inner outer : List Value) (type : BlockType) :
    (Flow.next frame inner).leaving type outer = .next frame (moveTop type.arity inner outer) := rfl

@[simp]
theorem Flow.ofStack_ok (frame : Frame σ) (stack : List Value) :
    Flow.ofStack frame (.ok stack) = .next frame stack := rfl

section Iterate

variable {body : Frame σ → Flow σ} {limit : Nat} {frame frame' : Frame σ} {stack : List Value}

theorem iterate_succ : iterate body (limit + 1) frame =
    match body frame with
    | .branch 0 frame _ => iterate body limit frame
    | .branch (depth + 1) frame stack => .branch depth frame stack
    | flow => flow := rfl

theorem iterate_of_next (h : body frame = .next frame' stack) :
    iterate body (limit + 1) frame = .next frame' stack := by
  rw [iterate_succ, h]

theorem iterate_of_back (h : body frame = .branch 0 frame' stack) :
    iterate body (limit + 1) frame = iterate body limit frame' := by
  rw [iterate_succ, h]

theorem iterate_of_out {depth : Nat} (h : body frame = .branch (depth + 1) frame' stack) :
    iterate body (limit + 1) frame = .branch depth frame' stack := by
  rw [iterate_succ, h]

end Iterate

variable [a : Arithmetic] (calls : Calls σ) (frame : Frame σ) (stack : List Value) {x : Double}
  {store : Store σ}
  {offset : Nat} {n : Int32} {c : Code}

/-- Only blocks, loops and choices are more than a step. -/
theorem exec_eq_step {i : Instr} (h : i.isNested = false) :
    exec calls i frame stack = step calls i frame stack := by
  cases i with
  | block type body => simp [Instr.isNested] at h
  | loop type body => simp [Instr.isNested] at h
  | choice type consequent alternate => simp [Instr.isNested] at h
  | _ => rfl

@[simp]
theorem execAll_nil : execAll calls [] frame stack = .next frame stack := rfl

theorem execAll_cons (i : Instr) (rest : List Instr) :
    execAll calls (i :: rest) frame stack =
      (exec calls i frame stack).andThen (execAll calls rest) := by
  cases i <;> rfl

theorem execAll_append (first second : List Instr) :
    execAll calls (first ++ second) frame stack =
      (execAll calls first frame stack).andThen (execAll calls second) := by
  induction first generalizing frame stack with
  | nil => simp
  | cons i rest ih =>
    simp only [List.cons_append, execAll_cons]
    cases exec calls i frame stack with
    | next frame stack => simp [ih]
    | branch depth frame stack => rfl
    | trap cause => rfl

/-- A piece that ends behind itself is run where it stands. -/
theorem execAll_append_of_next {first second : List Instr} {frame frame' : Frame σ}
    {stack stack' : List Value} (h : execAll calls first frame stack = .next frame' stack') :
    execAll calls (first ++ second) frame stack = execAll calls second frame' stack' := by
  rw [execAll_append, h, Flow.next_andThen]

section Step

variable {index : Nat}

@[simp]
theorem exec_const (v : Value) :
    exec calls (.const v) frame stack = .next frame (v :: stack) := by
  rw [exec_eq_step calls _ _ rfl]
  rfl

@[simp]
theorem exec_drop (v : Value) : exec calls .drop frame (v :: stack) = .next frame stack := by
  rw [exec_eq_step calls _ _ rfl]
  rfl

@[simp]
theorem exec_num (op : NumOp) :
    exec calls (.num op) frame stack = .ofStack frame (calculate op stack) := by
  rw [exec_eq_step calls _ _ rfl]
  rfl

@[simp]
theorem exec_br (depth : Nat) :
    exec calls (.br depth) frame stack = .branch depth frame stack := by
  rw [exec_eq_step calls _ _ rfl]
  rfl

@[simp]
theorem exec_brIf (depth : Nat) (b : Bool) :
    exec calls (.brIf depth) frame (.ofBool b :: stack) =
      if b then .branch depth frame stack else .next frame stack := by
  rw [exec_eq_step calls _ _ rfl]
  cases b <;> rfl

@[simp]
theorem exec_choice (type : BlockType) (consequent alternate : List Instr) (b : Bool) :
    exec calls (.choice type consequent alternate) frame (.ofBool b :: stack) =
      (execAll calls (if b then consequent else alternate) frame []).leaving type stack := by
  cases b <;> rfl

theorem exec_choice_i32 (type : BlockType) (consequent alternate : List Instr) (n : Int32) :
    exec calls (.choice type consequent alternate) frame (.i32 n :: stack) =
      (execAll calls (if n ≠ 0 then consequent else alternate) frame []).leaving type stack := by
  change (if n ≠ 0 then (execAll calls consequent frame []).leaving type stack
    else (execAll calls alternate frame []).leaving type stack) = _
  split <;> rfl

/-- What a call leaves to its caller. -/
def Outcome.flow (frame : Frame σ) : Outcome σ → Flow σ
  | .done store stack => .next { frame with store } stack
  | .trap cause => .trap cause

theorem exec_call_eq_flow (index : Nat) :
    exec calls (.call index) frame stack = (calls index frame.store stack).flow frame := by
  rw [exec_eq_step calls _ _ rfl]
  rfl

theorem exec_call_of_trap {cause : Trap} (h : calls index frame.store stack = .trap cause) :
    exec calls (.call index) frame stack = .trap cause := by
  rw [exec_call_eq_flow, h]
  rfl

theorem exec_call {stack' : List Value} (h : calls index frame.store stack = .done store stack') :
    exec calls (.call index) frame stack = .next { frame with store } stack' := by
  rw [exec_call_eq_flow, h]
  rfl

theorem exec_localGet {v : Value} (h : frame.locals[index]? = some v) :
    exec calls (.localGet index) frame stack = .next frame (v :: stack) := by
  rw [exec_eq_step calls _ _ rfl]
  change getLocal frame index stack = _
  rw [getLocal, h]

theorem exec_localSet (v : Value) (h : index < frame.locals.length) :
    exec calls (.localSet index) frame (v :: stack) =
      .next { frame with locals := frame.locals.set index v } stack := by
  rw [exec_eq_step calls _ _ rfl]
  exact if_pos h

theorem exec_localTee (v : Value) (h : index < frame.locals.length) :
    exec calls (.localTee index) frame (v :: stack) =
      .next { frame with locals := frame.locals.set index v } (v :: stack) := by
  rw [exec_eq_step calls _ _ rfl]
  exact if_pos h

theorem exec_globalGet (h : frame.store.globals[index]? = some x) :
    exec calls (.globalGet index) frame stack = .next frame (.f64 x :: stack) := by
  rw [exec_eq_step calls _ _ rfl]
  change getGlobal frame index stack = _
  rw [getGlobal, h]

theorem exec_globalSet (x : Double) (h : index < frame.store.globals.size) :
    exec calls (.globalSet index) frame (.f64 x :: stack) =
      .next { frame with store.globals := frame.store.globals.setIfInBounds index x } stack := by
  rw [exec_eq_step calls _ _ rfl]
  exact if_pos h

theorem exec_f64Load (h : frame.store.memory.load? (address n offset) = some x) :
    exec calls (.f64Load offset) frame (.i32 n :: stack) = .next frame (.f64 x :: stack) := by
  rw [exec_eq_step calls _ _ rfl]
  change load frame (address n offset) stack = _
  rw [load, h]

theorem exec_f64Store {memory : Memory}
    (h : frame.store.memory.store? (address n offset) x = some memory) :
    exec calls (.f64Store offset) frame (.f64 x :: .i32 n :: stack) =
      .next { frame with store.memory := memory } stack := by
  rw [exec_eq_step calls _ _ rfl]
  change Machine.store frame (address n offset) x stack = _
  rw [Machine.store, h]

end Step

section Loop

variable {calls frame stack} {frame' : Frame σ} {code : List Instr} {inner : List Value}
  (type : BlockType)

theorem exec_loop : exec calls (.loop type code) frame stack =
    match iterate (fun frame => execAll calls code frame []) roundLimit frame with
    | .next frame inner => .next frame (moveTop type.arity inner stack)
    | flow => flow := rfl

theorem exec_loop_of_next
    (h : iterate (fun frame => execAll calls code frame []) roundLimit frame = .next frame' inner) :
    exec calls (.loop type code) frame stack = .next frame' (moveTop type.arity inner stack) := by
  rw [exec_loop, h]

theorem exec_loop_of_branch {depth : Nat}
    (h : iterate (fun frame => execAll calls code frame []) roundLimit frame =
      .branch depth frame' inner) :
    exec calls (.loop type code) frame stack = .branch depth frame' inner := by
  rw [exec_loop, h]

theorem exec_block : exec calls (.block type code) frame stack =
    (execAll calls code frame []).leaving type stack := rfl

end Loop

section Call

variable {host : Host σ} {table : Array Callee} {index depth : Nat}

theorem callCode_of_next {calls} {frame' : Frame σ} {stack inner : List Value}
    (h : execAll calls c.body { store, locals := withArgs c.params stack c.locals } [] =
      .next frame' inner) :
    callCode calls c store stack =
      .done frame'.store (moveTop c.results inner (stack.drop c.params)) := by
  rw [callCode, h]

theorem invoke_host {f : HostFunction} (h : table[index]? = some (.host f)) :
    invoke host table (depth + 1) index = callHost host f := by
  funext store stack
  simp only [invoke, h]

theorem invoke_code (h : table[index]? = some (.code c)) :
    invoke host table (depth + 1) index = callCode (invoke host table depth) c := by
  funext store stack
  simp only [invoke, h]

end Call

end Eel.Machine
