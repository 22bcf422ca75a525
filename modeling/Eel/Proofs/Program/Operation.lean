import Eel.Proofs.Program.Simulation

/-!
What the code of each operation does: operators, builtins, and functions of the
host.
-/

namespace Eel.Lowering

open Wasm Machine Arithmetic List

variable {span : Span} {code : List Instr} {xs : List Double} {r : Routine}

/-- The call of a routine does what the code of the routine does. -/
theorem exec_routine {σ : Type} [Arithmetic] {calls : Calls σ} {s : Scope} {final d d' : Draft}
    {i : Instr} {frame : Frame σ} {stack stack' : List Value}
    (hcalls : ∀ {r : Routine} {k : Nat}, final.routines.find? r = some k →
      ∃ inner, calls (s.routineBase + k) = callCode inner r.toCode)
    (hr : callRoutine s r d = .ok (i, d')) (hfinal : d'.Within final)
    (h : ∀ inner, callCode inner r.toCode frame.store stack = .done frame.store stack') :
    exec calls i frame stack = .next frame stack' := by
  obtain ⟨-, k, hk, rfl⟩ := callRoutine_eq_ok hr
  obtain ⟨inner, hinner⟩ := hcalls (Numbering.find?_mono hfinal.routines hk)
  exact exec_call calls frame stack (by rw [hinner, h])

attribute [local instance] binary64

variable {σ : Type} {s : Scope} {final d d' : Draft} {link : Linkage σ s final} {low high : Nat}

/-- The operations that code calculates with are those of the evaluator. -/
@[simp]
theorem binary64_eq :
    add = Double.add ∧ sub = Double.sub ∧ mul = Double.mul ∧
    div = Double.div ∧ min = Double.min ∧ max = Double.max ∧
    neg = Double.neg ∧ abs = Double.abs ∧ ceil = Double.ceil ∧
    floor = Double.floor ∧ sqrt = Double.sqrt ∧ ne = Double.ne ∧
    lt = Double.lt ∧ gt = Double.gt ∧ le = Double.le ∧
    ge = Double.ge :=
  ⟨rfl, rfl, rfl, rfl, rfl, rfl, rfl, rfl, rfl, rfl, rfl, rfl, rfl, rfl, rfl, rfl⟩

@[simp]
theorem exec_asDouble_ofBool (calls : Calls σ) (frame : Frame σ) (stack : List Value) (b : Bool) :
    exec calls asDouble frame (.ofBool b :: stack) = .next frame (.f64 (.ofTruth b) :: stack) := by
  cases b <;> simp [asDouble, Value.ofBool] <;> rfl

section Tests

variable {i : Instr} {frame : Frame σ} {stack : List Value} (link : Linkage σ s final) (x : Double)

theorem Linkage.exec_isZeroish (hr : callRoutine s .isZeroish d = .ok (i, d'))
    (hfinal : d'.Within final) :
    exec link.calls i frame (.f64 x :: stack) = .next frame (.ofBool x.isZeroish :: stack) :=
  exec_routine link.calls_routine hr hfinal fun calls =>
    callCode_isZeroish calls frame.store stack x

theorem Linkage.exec_isNotZeroish (hr : callRoutine s .isNotZeroish d = .ok (i, d'))
    (hfinal : d'.Within final) :
    exec link.calls i frame (.f64 x :: stack) = .next frame (.ofBool (!x.isZeroish) :: stack) :=
  exec_routine link.calls_routine hr hfinal fun calls =>
    callCode_isNotZeroish calls frame.store stack x

end Tests

theorem inBounds_eq (x : Double) : inBounds x = x.fitsInt32 := rfl

theorem ofInt32_eq (n : Int32) : ofInt32 n = Double.ofInt n.toInt := rfl

theorem callCode_rem_eq_remainder (calls : Calls σ) (store : Store σ) (stack : List Value)
    (x y : Double) :
    callCode calls Routine.rem.toCode store (.f64 y :: .f64 x :: stack) =
      .done store (.f64 (x.remainder y) :: stack) := by
  -- The whole parts fit whenever the code asks for them.
  have hwhole (z : Double) :
      ∃ n : Int32, z.fitsInt32 = true → z.toInt32? = some n ∧ n.toInt = z.whole := by
    cases hz : z.fitsInt32 with
    | false => exact ⟨0, by simp⟩
    | true =>
      obtain ⟨n, hn⟩ := Double.toInt32?_of_fitsInt32 hz
      exact ⟨n, fun _ => hn⟩
  obtain ⟨m, hm⟩ := hwhole x
  obtain ⟨n, hn⟩ := hwhole y
  rw [callCode_rem calls store stack (m := m) (n := n) (fun h => (hm h).1) (fun h => (hn h).1),
    inBounds_eq, inBounds_eq, Double.remainder]
  cases hx : x.fitsInt32 with
  | false => simp only [Bool.false_and, Bool.false_eq_true, if_false]
  | true =>
    cases hy : y.fitsInt32 with
    | false => simp only [Bool.and_false, Bool.false_and, Bool.false_eq_true, if_false]
    | true =>
      have hzero : (n != 0) = (y.whole != 0) := by
        rw [← (hn hy).2, Bool.eq_iff_iff, bne_iff_ne, bne_iff_ne]
        exact (Int32.toInt_inj (y := 0)).not.symm
      have hrem : (m % n).toInt = x.whole.tmod y.whole := by
        rw [Int32.toInt_mod, (hm hx).2, (hn hy).2]
      rw [hzero, ← hrem, ofInt32_eq]

theorem unaryCode_runs {op : UnaryOp}
    (h : unaryCode s span op d = .ok (code, d')) (hfinal : d'.Within final) (x : Double) :
    Runs link low high code (top x) (pure (op.apply x)) top := by
  apply Runs.of_calculates
  intro frame stack
  cases op <;> simp only [unaryCode, bind_eq_ok, pure_eq_ok, fault_ne_ok] at h
  case not =>
    obtain ⟨test, _, htest, rfl, rfl⟩ := h
    simp [execAll_cons, top, link.exec_isZeroish x htest hfinal, UnaryOp.apply]
  all_goals
    obtain ⟨rfl, rfl⟩ := h
    simp [execAll_cons, top, UnaryOp.apply]

theorem popDoubles_topAll (xs : List Double) (taken : List Double) (stack : List Value) :
    popDoubles xs.length taken (topAll xs ++ stack) = some (xs ++ taken, stack) := by
  induction xs using List.reverseRecOn generalizing taken with
  | nil => rfl
  | append_singleton xs x ih =>
    have htop : topAll (xs ++ [x]) ++ stack = .f64 x :: (topAll xs ++ stack) := by simp [topAll]
    rw [htop, length_append, length_singleton]
    simpa [popDoubles] using ih (x :: taken)

theorem callHost_runs (f : HostFunction) (hxs : xs.length = f.arity) :
    Runs link low high [callHost f] (topAll xs) (Run.callHost link.host f xs) top := by
  intro frame state stack hholds hlength
  have hpop : popDoubles f.arity [] (topAll xs ++ stack) = some (xs, stack) := by
    rw [← hxs, popDoubles_topAll, append_nil]
  have hcall : link.calls f.index frame.store (topAll xs ++ stack) =
      .done { frame.store with host := (link.host.call f xs frame.store.host).2 }
        (.f64 (link.host.call f xs frame.store.host).1 :: stack) := by
    rw [link.calls_host, Machine.callHost, hpop]
  refine ⟨{ frame with store.host := (link.host.call f xs frame.store.host).2 }, ?_, ?_,
    .setHost ..⟩
  · rw [execAll_cons, callHost, exec_call _ _ _ hcall, hholds.host]
    rfl
  · rw [hholds.host]
    exact ⟨rfl, hholds.var, hholds.memorySize, hholds.slot⟩

/-- A binary operator that a routine computes. -/
theorem routine_runs {i : Instr} {x y z : Double} (hr : callRoutine s r d = .ok (i, d'))
    (hfinal : d'.Within final) (h : ∀ (calls : Calls σ) (store : Store σ) (stack : List Value),
      callCode calls r.toCode store (.f64 y :: .f64 x :: stack) = .done store (.f64 z :: stack)) :
    Runs link low high [i] (topAll [x, y]) (pure z) top := by
  apply Runs.of_calculates
  intro frame stack
  have hexec := exec_routine link.calls_routine hr hfinal fun calls => h calls frame.store stack
  simp [execAll_cons, top, topAll, hexec]

theorem binaryCode_runs {op : BinaryOp}
    (h : binaryCode s span op d = .ok (code, d')) (hfinal : d'.Within final) (x y : Double) :
    Runs link low high code (topAll [x, y]) (op.apply link.host x y) top := by
  cases op <;> simp only [binaryCode, bind_eq_ok, pure_eq_ok, fault_ne_ok] at h
  case pow =>
    obtain ⟨rfl, rfl⟩ := h
    exact callHost_runs .pow rfl
  case div =>
    obtain ⟨call, _, hcall, rfl, rfl⟩ := h
    refine routine_runs hcall hfinal fun calls store stack => ?_
    rw [callCode_div, binary64_eq.2.2.2.2.2.2.2.2.2.2.2.1, Double.ne, Double.quotient]
    cases y.eq .zero <;> rfl
  case rem =>
    obtain ⟨call, _, hcall, rfl, rfl⟩ := h
    exact routine_runs hcall hfinal fun calls store stack =>
      callCode_rem_eq_remainder calls store stack x y
  case bitAnd =>
    obtain ⟨call, _, hcall, rfl, rfl⟩ := h
    exact routine_runs hcall hfinal fun calls store stack =>
      callCode_bitwiseAnd calls store stack x y
  case bitOr =>
    obtain ⟨call, _, hcall, rfl, rfl⟩ := h
    exact routine_runs hcall hfinal fun calls store stack =>
      callCode_bitwiseOr calls store stack x y
  case eq =>
    obtain ⟨test, _, htest, rfl, rfl⟩ := h
    apply Runs.of_calculates
    intro frame stack
    simp [execAll_cons, top, topAll, link.exec_isZeroish _ htest hfinal]
  case ne =>
    obtain ⟨test, _, htest, rfl, rfl⟩ := h
    apply Runs.of_calculates
    intro frame stack
    simp [execAll_cons, top, topAll, link.exec_isNotZeroish _ htest hfinal]
  all_goals
    obtain ⟨rfl, rfl⟩ := h
    apply Runs.of_calculates
    intro frame stack
    simp [execAll_cons, top, topAll]

/-- The value before an assignment, where the assignment combines it. -/
def oldTop (op : AssignOp) (old : Double) : List Value :=
  match op.combining? with
  | none => []
  | some _ => top old

theorem combineCode_runs {op : AssignOp}
    (h : combineCode s span op d = .ok (code, d')) (hfinal : d'.Within final) (old x : Double) :
    Runs link low high code (top x ++ oldTop op old) (op.apply link.host old x) top := by
  unfold combineCode at h
  unfold AssignOp.apply oldTop
  cases hop : op.combining? with
  | none =>
    simp only [hop, pure_eq_ok] at h
    obtain ⟨rfl, rfl⟩ := h
    exact .of_calculates fun frame stack => execAll_nil ..
  | some bop =>
    simp only [hop] at h
    exact binaryCode_runs h hfinal old x

/-- A builtin that puts its last argument into a new local. -/
theorem local_runs {args : List Value} {z : Double} {type : ValType} (v : Value)
    (h : ∀ (frame : Frame σ) (stack : List Value), d.locals.length < frame.locals.length →
      execAll link.calls code frame (args ++ stack) =
        .next { frame with locals := frame.locals.set d.locals.length v } (.f64 z :: stack)) :
    Runs link d.locals.length (d.addLocal type).locals.length code args (pure z) top := by
  intro frame state stack hholds hlength
  have hlocal : d.locals.length < frame.locals.length := by
    simpa [Draft.addLocal] using hlength
  exact ⟨_, h frame stack hlocal, hholds, .setLocal frame le_rfl v⟩

theorem builtinCode_runs {b : Builtin} (h : builtinCode s span b d = .ok (code, d'))
    (hfinal : d'.Within final) (hxs : xs.length = b.arity) :
    Runs link d.locals.length d'.locals.length code (topAll xs) (pure (b.apply xs)) top := by
  cases b <;> simp only [builtinCode, builtinCode.bothTests, bind_eq_ok, pure_eq_ok, newLocal_eq_ok,
    fault_ne_ok] at h
  case sign =>
    obtain ⟨x, rfl⟩ := length_eq_one_iff.mp hxs
    obtain ⟨call, _, hcall, rfl, rfl⟩ := h
    apply Runs.of_calculates
    intro frame stack
    have hexec := exec_routine link.calls_routine hcall hfinal fun calls =>
      callCode_sign calls frame.store stack x
    simp [execAll_cons, topAll, top, hexec, Builtin.apply, Double.sign]
  case sqr | invsqrt =>
    obtain ⟨x, rfl⟩ := length_eq_one_iff.mp hxs
    obtain ⟨_, _, ⟨rfl, rfl⟩, rfl, rfl⟩ := h
    refine local_runs (.f64 x) fun frame stack hlocal => ?_
    simp [execAll_cons, topAll, exec_localTee, exec_localSet, exec_localGet, hlocal, Builtin.apply]
  case bor | band =>
    obtain ⟨x, y, rfl⟩ := length_eq_two.mp hxs
    obtain ⟨_, _, ⟨rfl, rfl⟩, test, _, htest, rfl, rfl⟩ := h
    rw [callRoutine_locals htest]
    refine local_runs (.f64 y) fun frame stack hlocal => ?_
    simp [execAll_cons, topAll, exec_localSet, exec_localGet, hlocal, Builtin.apply,
      link.exec_isNotZeroish _ htest hfinal]
  case bnot =>
    obtain ⟨x, rfl⟩ := length_eq_one_iff.mp hxs
    obtain ⟨test, _, htest, rfl, rfl⟩ := h
    apply Runs.of_calculates
    intro frame stack
    simp [execAll_cons, topAll, top, link.exec_isZeroish _ htest hfinal, Builtin.apply]
  case equal =>
    obtain ⟨x, y, rfl⟩ := length_eq_two.mp hxs
    obtain ⟨test, _, htest, rfl, rfl⟩ := h
    apply Runs.of_calculates
    intro frame stack
    simp [execAll_cons, topAll, top, link.exec_isZeroish _ htest hfinal, Builtin.apply]
  case min | max | above | below =>
    obtain ⟨x, y, rfl⟩ := length_eq_two.mp hxs
    obtain ⟨rfl, rfl⟩ := h
    apply Runs.of_calculates
    intro frame stack
    simp [execAll_cons, topAll, top, Builtin.apply]
  all_goals
    obtain ⟨x, rfl⟩ := length_eq_one_iff.mp hxs
    obtain ⟨rfl, rfl⟩ := h
    apply Runs.of_calculates
    intro frame stack
    simp [execAll_cons, topAll, top, Builtin.apply]

end Eel.Lowering
