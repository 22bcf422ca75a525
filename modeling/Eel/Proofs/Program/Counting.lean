import Eel.Proofs.Machine.Reach
import Eel.Proofs.Program.Looping

/-!
How often the bodies of loops run.

The code of an expression sets only locals that were new when it was emitted,
and branches only within itself. So the local that counts the rounds of a loop
is out of reach of the loop's body, however many loops that body holds, and the
count is right whatever the body does.
-/

namespace Eel.Lowering

open Wasm Machine Flow

variable {s : Scope} {d d' : Draft} {code front body : List Instr} {n : Int32} {r : Routine}
  {i : Instr}
  {remaining counter k : Nat}

section Confined

open Instr

variable {span : Span}

theorem oldCode_confined (op : AssignOp) {read : List Instr} {labels low : Nat}
    (h : areConfined labels low read = true) : areConfined labels low (oldCode op read) = true := by
  unfold oldCode
  cases op.combining? with
  | none => rfl
  | some _ => exact h

/-- Emitted code sets no local that was there before, and branches to no block
around it. -/
theorem Emits.confined {piece : Piece} (h : Emits s piece d code d') :
    areConfined 0 d.locals.length code = true := by
  -- Inside a block, or behind code that took more locals, confined code is confined all the more.
  have hmono {labels low : Nat} {d : Draft} {code : List Instr}
      (h : areConfined 0 d.locals.length code = true)
      (hlow : low ≤ d.locals.length) : areConfined labels low code = true :=
    areConfined_mono hlow code (Nat.zero_le labels) h
  induction h with
  | number | ident | allNil | statementsNil => rfl
  | block _ ihbody => exact ihbody
  | unary hx hop ihx => simp [ihx, ((unaryCode_operates hop).simple _ hx.grows.length_le).confined]
  | binary hx hy hop ihx ihy =>
    have hlow := (hx.grows.trans hy.grows).length_le
    simp [ihx, hmono ihy hx.grows.length_le, ((binaryCode_operates hop).simple _ hlow).confined]
  | and hx htest _ ihx ihy | or hx htest _ ihx ihy =>
    have hlow := (hx.grows.trans (callRoutine_eq_ok htest).1).length_le
    simp [ihx, hmono ihy hlow, callRoutine_isConfined htest, isConfined, asDouble]
  | assignVar hi hv hop ihv =>
    have hlow := (globalIndex_eq_ok hi).1.length_le
    have hlow' := hlow.trans hv.grows.length_le
    simp [hmono ihv hlow, ((combineCode_operates hop).simple _ hlow').confined, oldCode_confined,
      isConfined]
  | @assignSlot _ _ _ _ _ _ d d₁ d₂ _ _ _ _ _ _ _ _ _ _ hindex hfind hv hop hs ihindex ihv ihs =>
    have hfound := (d.grows_addMemory.trans hindex.grows).trans (callRoutine_eq_ok hfind).1
    have hlocals :=
      hfound.trans ((d₂.grows_addLocal .i32).trans ((d₂.addLocal .i32).grows_addLocal .f64))
    have hvalue := hlocals.trans hv.grows
    have hskipped := hvalue.trans (combineCode_operates hop).builds.grows
    have hlow := hfound.length_le
    have hstored : d.locals.length ≤ d₂.locals.length + 1 := by omega
    simp [slotCode, slotExists, storeCode, hmono ihindex d.grows_addMemory.length_le, hlow, hstored,
      hmono ihv hlocals.length_le, hmono ihs hskipped.length_le,
      ((combineCode_operates hop).simple _ hvalue.length_le).confined, oldCode_confined,
      callRoutine_isConfined hfind, isConfined]
  | host _ _ _ _ ihargs => simp [ihargs, callHost, isConfined]
  | choose _ hx htest hy _ ihx ihy ihz =>
    have hlow := (hx.grows.trans (callRoutine_eq_ok htest).1).length_le
    have hlow' := hlow.trans hy.grows.length_le
    simp [ihx, hmono ihy hlow, hmono ihz hlow', callRoutine_isConfined htest, isConfined]
  | exec _ _ _ _ ihargs => exact ihargs
  | whileLoop _ _ hcode ihbody =>
    obtain ⟨test, htest, rfl⟩ := whileCode_eq_ok hcode
    simp [nextRound, hmono ihbody (Draft.grows_addLocal _ .i32).length_le,
      callRoutine_isConfined htest, isConfined]
  | countedLoop _ hcount _ ihcount ihbody =>
    have hlow := (hcount.grows.trans (Draft.grows_addLocal _ .i32)).length_le
    have hcounter := hcount.grows.length_le
    simp [countedCode, ihcount, hmono ihbody hlow, hcounter, isConfined]
  | slot _ _ hindex hload ihindex =>
    obtain ⟨find, d₁, hfind, rfl, rfl⟩ := bufferLoad_eq_ok hload
    have hfound := ((Draft.grows_addMemory _).trans hindex.grows).trans (callRoutine_eq_ok hfind).1
    simp [slotExists, hmono ihindex (Draft.grows_addMemory _).length_le, hfound.length_le,
      callRoutine_isConfined hfind, isConfined]
  | builtin _ _ hargs hb ihargs =>
    simp [ihargs, ((builtinCode_operates hb).simple _ hargs.grows.length_le).confined]
  | allCons hn _ ihn ihr | sequenceCons hn _ ihn ihr | statementsCons hn _ ihn ihr =>
    simp [ihn, hmono ihr hn.grows.length_le, isConfined]
  | sequenceLast _ ihn => exact ihn

end Confined

section Rounds

variable {σ : Type} [Arithmetic] {calls : Calls σ} {frame frame' : Frame σ}
  {stack stack' : List Value}

/-- A branch on two conditions is taken only if the one on top holds. -/
theorem holds_of_brIf_and {b : Bool} {depth depth' : Nat}
    (h : execAll calls [.num .i32And, .brIf depth] frame (.ofBool b :: stack) =
      .branch depth' frame' stack') :
    b = true ∧ frame' = frame := by
  rw [execAll_cons, exec_num] at h
  rcases stack with _ | ⟨m | m | x, stack⟩
  case cons.i32 =>
    cases b with
    | true =>
      change (if m &&& 1 ≠ 0 then branch depth frame stack
        else .next frame stack).andThen _ = _ at h
      split at h <;> cases h
      exact ⟨rfl, rfl⟩
    | false =>
      change (if m &&& 0 ≠ 0 then branch depth frame stack
        else .next frame stack).andThen _ = _ at h
      rw [Int32.and_zero, if_neg (by simp)] at h
      cases h
  all_goals
    cases b <;> cases h

variable (hcalls : calls.KeepSize)

include hcalls

/-- A round of `while` that goes back has counted itself, and the count leaves
room for one more. -/
theorem count_of_while_back (hfront : Instr.areConfined 0 (counter + 1) front = true)
    (hn : frame.locals[counter]? = some (.i32 n))
    (h : execAll calls (front ++ nextRound counter) frame [] = .branch 0 frame' stack) :
    frame'.locals[counter]? = some (.i32 (n + 1)) ∧ n + 1 < maxIterations := by
  obtain ⟨frame₁, stack₁, hfollows, hnext⟩ := branch_of_execAll_append hcalls hfront h
  have hn₁ : frame₁.locals[counter]? = some (.i32 n) :=
    (hfollows.local_ _ (Nat.lt_succ_self _)).trans hn
  have hlocal : counter < frame₁.locals.length := (List.getElem?_eq_some_iff.mp hn₁).1
  unfold nextRound at hnext
  rw [execAll_cons, exec_localGet _ _ _ hn₁, next_andThen, execAll_cons, exec_const, next_andThen,
    execAll_cons, exec_num, (calculate_i32_i32 ..).2.2.2.2.1, ofStack_ok, next_andThen,
    execAll_cons, exec_localTee _ _ _ _ hlocal, next_andThen, execAll_cons, exec_const,
    next_andThen, execAll_cons, exec_num, (calculate_i32_i32 ..).2.1, ofStack_ok,
    next_andThen] at hnext
  obtain ⟨hmore, rfl⟩ := holds_of_brIf_and hnext
  exact ⟨by simp [hlocal], of_decide_eq_true hmore⟩

/-- A round of `loop` that goes back had one left to do, and has one less. -/
theorem count_of_counted_back (hbody : Instr.areConfined 0 (remaining + 1) body = true)
    (hn : frame.locals[remaining]? = some (.i32 n))
    (h : execAll calls (countedRound remaining body) frame [] = .branch 0 frame' stack) :
    frame'.locals[remaining]? = some (.i32 (n - 1)) ∧ ¬n ≤ 0 := by
  have hleave : execAll calls [.localGet remaining, .i32Const 0, .num .i32LeS, .brIf 1] frame [] =
      if n ≤ 0 then .branch 1 frame [] else .next frame [] := by
    by_cases hdone : n ≤ 0 <;> simp [execAll_cons, exec_localGet _ _ _ hn, hdone]
  unfold countedRound at h
  rw [List.append_assoc, execAll_append, hleave] at h
  split at h
  · cases h
  · next hpos =>
      rw [next_andThen] at h
      obtain ⟨frame₁, stack₁, hfollows, hgo⟩ := branch_of_execAll_append hcalls hbody h
      have hn₁ : frame₁.locals[remaining]? = some (.i32 n) :=
        (hfollows.local_ _ (Nat.lt_succ_self _)).trans hn
      have hlocal : remaining < frame₁.locals.length := (List.getElem?_eq_some_iff.mp hn₁).1
      cases stack₁ with
      | nil => cases hgo
      | cons v stack₁ =>
        simp only [execAll_cons, exec_drop, exec_localGet _ _ _ hn₁, next_andThen,
          exec_const, exec_num, calculate_i32_i32, ofStack_ok, exec_localSet _ _ _ _ hlocal,
          exec_br, branch_andThen] at hgo
        cases hgo
        exact ⟨by simp [hlocal], hpos⟩

/-- A loop of `while` goes back less often than its limit says. -/
theorem rounds_while_lt (hfront : Instr.areConfined 0 (counter + 1) front = true)
    (hn : frame.locals[counter]? = some (.i32 0))
    (h : Rounds (fun frame => execAll calls (front ++ nextRound counter) frame []) k frame frame') :
    k < maxIterations.toInt.toNat := by
  -- The counter holds the number of rounds, and stays below the limit.
  have hcount :
      ∃ n : Int32, frame'.locals[counter]? = some (.i32 n) ∧ n.toInt = k ∧ n < maxIterations := by
    induction h with
    | zero => exact ⟨0, hn, rfl, by decide⟩
    | succ _ hback ih =>
      obtain ⟨n, hlocal, hk, hlt⟩ := ih hn
      obtain ⟨hlocal', hlt'⟩ := count_of_while_back hcalls hfront hlocal hback
      rw [Int32.lt_iff_toInt_lt] at hlt
      refine ⟨n + 1, hlocal', ?_, hlt'⟩
      rw [toInt_succ (by omega) hlt, hk, Nat.cast_succ]
  obtain ⟨n, -, hk, hlt⟩ := hcount
  rw [Int32.lt_iff_toInt_lt] at hlt
  omega

/-- What a counted loop has done and what it has left to do is what it had to
do. -/
theorem rounds_counted_add (hbody : Instr.areConfined 0 (remaining + 1) body = true)
    (hn : frame.locals[remaining]? = some (.i32 n))
    (h : Rounds (fun frame => execAll calls (countedRound remaining body) frame []) k
      frame frame') :
    ∃ m : Int32, frame'.locals[remaining]? = some (.i32 m) ∧ m.toInt + k = n.toInt := by
  induction h with
  | zero => exact ⟨n, hn, by simp⟩
  | succ _ hback ih =>
    obtain ⟨m, hlocal, hk⟩ := ih hn
    obtain ⟨hlocal', hpos⟩ := count_of_counted_back hcalls hbody hlocal hback
    have hpos' : 0 < m.toInt := by
      rw [Int32.le_iff_toInt_le] at hpos
      exact not_le.mp hpos
    refine ⟨m - 1, hlocal', ?_⟩
    rw [toInt_pred hpos', Nat.cast_succ, ← hk]
    omega

end Rounds

end Eel.Lowering
