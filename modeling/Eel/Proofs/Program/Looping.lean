import Eel.Proofs.Program.Operation

/-!
The two loops.

Each keeps its count in a local that the body does not touch. A round is one run
of the body and one step of the count, so the rounds of the machine are those of
the evaluator, and no loop reaches the machine's own bound.
-/

namespace Eel

open List hiding iterate

theorem Run.whileNonzero_succ {σ : Type} (value : Run σ Double) (k : Nat) (state : State σ) :
    whileNonzero value (k + 1) state =
      if (value state).1.isZeroish then ((), (value state).2)
      else whileNonzero value k (value state).2 := by
  change (if !(value state).1.isZeroish then whileNonzero value k else pure ()) (value state).2 = _
  cases (value state).1.isZeroish <;> rfl

variable {n : Int32}

namespace Lowering

open Wasm Machine

attribute [local instance] Arithmetic.binary64

variable {σ : Type} {s : Scope} {final d d' : Draft} {link : Linkage σ s final} {high : Nat}
  {frame : Frame σ} {state : State σ} {value : Run σ Double} {cb : List Instr}

theorem toInt_succ (hlow : 0 ≤ n.toInt) (hhigh : n.toInt < maxIterations.toInt) :
    (n + 1).toInt = n.toInt + 1 := by
  have hmax : maxIterations.toInt = 1048576 := rfl
  rw [Int32.toInt_add]
  change (n.toInt + 1).bmod _ = _
  exact Int.bmod_eq_of_le (by norm_num; omega) (by norm_num; omega)

theorem toInt_pred (hpos : 0 < n.toInt) : (n - 1).toInt = n.toInt - 1 := by
  have hhigh := n.toInt_lt
  rw [Int32.toInt_sub]
  change (n.toInt - 1).bmod _ = _
  exact Int.bmod_eq_of_le (by norm_num; omega) (by norm_num; omega)

/-- That a frame holds a state and a local of it the count of a loop. -/
structure Counts (s : Scope) (final : Draft) (high counter : Nat) (frame : Frame σ)
    (state : State σ) (n : Int32) : Prop where
  holds : (s.layout final).Holds frame.store state
  length : high ≤ frame.locals.length
  count : frame.locals[counter]? = some (.i32 n)

variable {counter : Nat}

theorem Counts.set (hholds : (s.layout final).Holds frame.store state)
    (hlength : high ≤ frame.locals.length) (hcounter : counter < high) (n : Int32) :
    Counts s final high counter
      { frame with locals := frame.locals.set counter (.i32 n) } state n :=
  ⟨hholds, by simpa using hlength, by simp [hcounter.trans_le hlength]⟩

variable (hbody : Runs link (counter + 1) high cb [] value top)

include hbody

/-- The body does not touch the count. -/
theorem Counts.execAll_body (h : Counts s final high counter frame state n) :
    ∃ frame', Counts s final high counter frame' (value state).2 n ∧
      Keeps (s.layout final) counter frame frame' ∧
      execAll link.calls cb frame [] = .next frame' (top (value state).1) := by
  obtain ⟨frame', hexec, hholds, hkeeps⟩ := hbody frame state [] h.holds h.length
  rw [append_nil, append_nil] at hexec
  have hcount : frame'.locals[counter]? = some (.i32 n) := by
    rw [hkeeps.local_ _ (by omega), h.count]
  exact ⟨frame', ⟨hholds, hkeeps.length ▸ h.length, hcount⟩, hkeeps.mono (by omega), hexec⟩

variable (hcounter : counter < high)

include hcounter

section While

variable {test : Instr} (htest : callRoutine s .isNotZeroish d = .ok (test, d'))
  (hfinal : d'.Within final)

include htest hfinal

/-- One round: the body, then a step of the counter. -/
theorem execAll_round (h : Counts s final high counter frame state n) :
    ∃ frame', Counts s final high counter frame' (value state).2 (n + 1) ∧
      Keeps (s.layout final) counter frame frame' ∧
      execAll link.calls (cb ++ test :: nextRound counter) frame [] =
        if !(value state).1.isZeroish && decide (n + 1 < maxIterations) then .branch 0 frame' []
        else .next frame' [] := by
  obtain ⟨frame₁, h₁, hkeeps₁, hexec₁⟩ := h.execAll_body hbody
  have hlocal : counter < frame₁.locals.length := hcounter.trans_le h₁.length
  refine ⟨_, .set h₁.holds h₁.length hcounter (n + 1),
    hkeeps₁.trans (.setLocal frame₁ le_rfl _), ?_⟩
  rw [execAll_append_of_next _ hexec₁, execAll_cons, top, link.exec_isNotZeroish _ htest hfinal,
    Flow.next_andThen]
  simp only [nextRound, execAll_cons, exec_localGet _ _ _ h₁.count, Flow.next_andThen, exec_const,
    exec_num, calculate_i32_i32, Flow.ofStack_ok, exec_localTee _ _ _ _ hlocal,
    calculate_ofBool_ofBool, exec_brIf]
  split <;> simp

/-- All rounds that are left. -/
theorem iterate_while {k limit : Nat} (hlow : 0 ≤ n.toInt)
    (hn : n.toInt + (k + 1) = maxIterations.toInt) (hlimit : k + 1 ≤ limit)
    (h : Counts s final high counter frame state n) :
    ∃ frame', iterate (fun frame => execAll link.calls (cb ++ test :: nextRound counter) frame [])
        limit frame = .next frame' [] ∧
      (s.layout final).Holds frame'.store (Run.whileNonzero value (k + 1) state).2 ∧
      Keeps (s.layout final) counter frame frame' := by
  induction k generalizing limit n frame state with
  | zero =>
    obtain ⟨frame₁, h₁, hkeeps₁, hexec₁⟩ := execAll_round hbody hcounter htest hfinal h
    have hlast : ¬(n + 1 < maxIterations) := by
      rw [Int32.lt_iff_toInt_lt, toInt_succ hlow (by omega)]
      omega
    obtain ⟨limit, rfl⟩ : ∃ l, limit = l + 1 := ⟨limit - 1, by omega⟩
    rw [if_neg (by simp [hlast])] at hexec₁
    refine ⟨frame₁, iterate_of_next hexec₁, ?_, hkeeps₁⟩
    rw [Run.whileNonzero_succ]
    split <;> exact h₁.holds
  | succ k ih =>
    obtain ⟨frame₁, h₁, hkeeps₁, hexec₁⟩ := execAll_round hbody hcounter htest hfinal h
    have hcount := toInt_succ hlow (by omega)
    have hmore : n + 1 < maxIterations := by
      rw [Int32.lt_iff_toInt_lt, hcount]
      omega
    obtain ⟨limit, rfl⟩ : ∃ l, limit = l + 1 := ⟨limit - 1, by omega⟩
    rw [Run.whileNonzero_succ]
    cases hzero : (value state).1.isZeroish with
    | true =>
      rw [if_neg (by simp [hzero])] at hexec₁
      exact ⟨frame₁, iterate_of_next hexec₁, h₁.holds, hkeeps₁⟩
    | false =>
      rw [if_pos (by simp [hzero, hmore])] at hexec₁
      obtain ⟨frame₂, hexec₂, hholds₂, hkeeps₂⟩ := ih (n := n + 1) (by omega) (by omega)
        (show k + 1 ≤ limit by omega) h₁
      exact ⟨frame₂, (iterate_of_back hexec₁).trans hexec₂, hholds₂, hkeeps₁.trans hkeeps₂⟩

theorem whileCode_runs :
    Runs link counter high
      [.i32Const 0, .localSet counter, .loop .void (cb ++ test :: nextRound counter),
        .f64Const .zero]
      [] (do Run.whileNonzero value maxIterations.toInt.toNat; return .zero) top := by
  intro frame state stack hholds hlength
  have hlocal : counter < frame.locals.length := by omega
  obtain ⟨frame', hexec, hholds', hkeeps⟩ := iterate_while hbody hcounter htest hfinal le_rfl rfl
    (show 1048575 + 1 ≤ roundLimit by decide) (.set hholds hlength hcounter 0)
  refine ⟨frame', ?_, hholds', Keeps.trans (.setLocal frame le_rfl _) hkeeps⟩
  rw [nil_append, execAll_cons, exec_const, Flow.next_andThen,
    execAll_cons, exec_localSet _ _ _ _ hlocal, Flow.next_andThen,
    execAll_cons, exec_loop_of_next _ hexec, Flow.next_andThen,
    execAll_cons, exec_const, Flow.next_andThen, execAll_nil]
  rfl

end While

theorem execAll_countedRound (h : Counts s final high counter frame state n) (hpos : ¬(n ≤ 0)) :
    ∃ frame', Counts s final high counter frame' (value state).2 (n - 1) ∧
      Keeps (s.layout final) counter frame frame' ∧
      execAll link.calls (countedRound counter cb) frame [] = .branch 0 frame' [] := by
  obtain ⟨frame₁, h₁, hkeeps₁, hexec₁⟩ := h.execAll_body hbody
  have hlocal : counter < frame₁.locals.length := hcounter.trans_le h₁.length
  refine ⟨_, .set h₁.holds h₁.length hcounter (n - 1),
    hkeeps₁.trans (.setLocal frame₁ le_rfl _), ?_⟩
  have htest : execAll link.calls [.localGet counter, .i32Const 0, .num .i32LeS, .brIf 1] frame [] =
      .next frame [] := by
    simp [execAll_cons, exec_localGet _ _ _ h.count, hpos]
  unfold countedRound
  rw [append_assoc, execAll_append_of_next _ htest, execAll_append_of_next _ hexec₁]
  simp [execAll_cons, top, exec_localGet _ _ _ h₁.count, exec_localSet _ _ _ _ hlocal]

/-- All rounds that are left, and the one that leads out. -/
theorem iterate_counted {k limit : Nat} (hk : n.toInt.toNat = k) (hlimit : k + 1 ≤ limit)
    (h : Counts s final high counter frame state n) :
    ∃ frame', iterate (fun frame => execAll link.calls (countedRound counter cb) frame [])
        limit frame = .branch 0 frame' [] ∧
      (s.layout final).Holds frame'.store (Run.times value k state).2 ∧
      Keeps (s.layout final) counter frame frame' := by
  obtain ⟨limit, rfl⟩ : ∃ l, limit = l + 1 := ⟨limit - 1, by omega⟩
  induction k generalizing limit n frame state with
  | zero =>
    have hdone : n ≤ 0 := by
      rw [Int32.le_iff_toInt_le]
      change n.toInt ≤ 0
      omega
    have hout : execAll link.calls (countedRound counter cb) frame [] = .branch 1 frame [] := by
      simp [countedRound, execAll_cons, exec_localGet _ _ _ h.count, hdone]
    exact ⟨frame, iterate_of_out hout, h.holds, .refl frame⟩
  | succ k ih =>
    have hpos : ¬(n ≤ 0) := by
      rw [Int32.le_iff_toInt_le]
      change ¬(n.toInt ≤ 0)
      omega
    have hstep := toInt_pred (n := n) (by omega)
    obtain ⟨frame₁, h₁, hkeeps₁, hexec₁⟩ := execAll_countedRound hbody hcounter h hpos
    obtain ⟨limit, rfl⟩ : ∃ l, limit = l + 1 := ⟨limit - 1, by omega⟩
    obtain ⟨frame₂, hexec₂, hholds₂, hkeeps₂⟩ := ih (n := n - 1) (by omega) h₁ limit (by omega)
    exact ⟨frame₂, (iterate_of_back hexec₁).trans hexec₂, hholds₂, hkeeps₁.trans hkeeps₂⟩

theorem countedCode_runs (x : Double) :
    Runs link counter high
      (.num .i32TruncSatF64S :: .localSet counter :: countedCode counter cb) (top x)
      (do Run.times value x.toInt32Saturating.toInt.toNat; return .zero) top := by
  intro frame state stack hholds hlength
  have hlocal : counter < frame.locals.length := by omega
  have hlimit : x.toInt32Saturating.toInt.toNat + 1 ≤ roundLimit := by
    have hhigh := x.toInt32Saturating.toInt_lt
    have hround : roundLimit = 2 ^ 31 := rfl
    omega
  obtain ⟨frame', hexec, hholds', hkeeps⟩ := iterate_counted hbody hcounter rfl hlimit
    (.set hholds hlength hcounter x.toInt32Saturating)
  refine ⟨frame', ?_, hholds', Keeps.trans (.setLocal frame le_rfl _) hkeeps⟩
  have hcount : exec link.calls (.num .i32TruncSatF64S) frame (.f64 x :: stack) =
      .next frame (.i32 x.toInt32Saturating :: stack) := by
    rw [exec_num, (calculate_f64 ..).2.2.2.2.2.1]
    rfl
  have hblock : exec link.calls (.block .void [.loop .void (countedRound counter cb)])
      { frame with locals := frame.locals.set counter (.i32 x.toInt32Saturating) } stack =
        .next frame' stack := by
    rw [exec_block, execAll_cons, exec_loop_of_branch _ hexec]
    rfl
  rw [top, singleton_append, countedCode_eq, execAll_cons, hcount, Flow.next_andThen,
    execAll_cons, exec_localSet _ _ _ _ hlocal, Flow.next_andThen,
    execAll_cons, hblock, Flow.next_andThen, execAll_cons, exec_const, Flow.next_andThen,
    execAll_nil]
  rfl

end Lowering

end Eel
