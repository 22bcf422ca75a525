import Eel.Proofs.Program.Counting
import Eel.Proofs.Program.Realization
import Eel.Proofs.Program.Validity

/-!
No call of a compiled function ends early.

That a call ends is known from what it computes, so no instruction that it comes
to traps. What is left to see is which instructions it comes to: those that
reach into memory are there only if the program has a memory, and a loop is one
of the two whose rounds are counted.
-/

namespace Eel

open Wasm Machine Lowering List

namespace Wasm.Instr

/-- Whether an instruction reads or writes memory. -/
def isAccess : Instr → Bool
  | f64Load _ | f64Store _ => true
  | _ => false

end Wasm.Instr

variable {code : List Instr} {test i : Instr} {depth remaining counter : Nat} {k : Int32}

namespace Machine

variable {σ : Type} [Arithmetic]

/-- Leaves both blocks around a counted loop if no round is left. -/
def leaveRounds (remaining : Nat) : List Instr :=
  [.localGet remaining, .i32Const 0, .num .i32LeS, .brIf 1]

/-- That code is what a loop repeats, and how often its body runs at most when
the loop is entered with a frame. Every round of `while` runs the body first. A
round of `loop` runs it only if it does not leave the loop before. -/
inductive Bounded (calls : Calls σ) (frame : Frame σ) : List Instr → Prop
  | whileLoop {counter : Nat} {body : List Instr} {test : Instr}
      (h : ∀ {n : Nat} {frame' : Frame σ},
        Rounds (fun frame => execAll calls (body ++ test :: nextRound counter) frame []) n
          frame frame' →
        n + 1 ≤ maxIterations.toInt.toNat) : Bounded calls frame (body ++ test :: nextRound counter)
  | countedLoop {remaining : Nat} {body : List Instr}
      (h : ∀ {n : Nat} {frame' frame'' : Frame σ},
        Rounds (fun frame => execAll calls (countedRound remaining body) frame []) n frame frame' →
        execAll calls (leaveRounds remaining) frame' [] = .next frame'' [] →
        n + 1 ≤ Int32.maxValue.toInt.toNat) : Bounded calls frame (countedRound remaining body)

/-- What can be said of the points of a program's code before it is known how a
run ends. -/
structure Point.Formed (host : Host σ) (table : Array Callee) (usesMemory : Bool)
    (pt : Point σ) : Prop where
  access : pt.instr.isAccess = true → usesMemory = true
  loop : ∀ {type : BlockType} {body : List Instr}, pt.instr = .loop type body →
    Bounded (invoke host table pt.depth) pt.frame body

/-- What makes an instruction go through at a point that a run of a program
comes to. -/
structure Point.Safe (host : Host σ) (table : Array Callee) (pt : Point σ) : Prop where
  continues : (exec (invoke host table pt.depth) pt.instr pt.frame pt.stack).isTrap = false
  truncates : pt.instr = .num .i32TruncF64S → ∃ x n stack, pt.stack = .f64 x :: stack ∧
    x.truncate? = some n ∧ Int32.minValue.toInt ≤ n ∧ n ≤ Int32.maxValue.toInt
  divides : pt.instr = .num .i32RemS → ∃ y x stack, pt.stack = .i32 y :: .i32 x :: stack ∧ y ≠ 0
  loads : ∀ {offset : Nat}, pt.instr = .f64Load offset →
    ∃ n stack, pt.stack = .i32 n :: stack ∧ address n offset + 8 ≤ 2 * bufferBytes
  stores : ∀ {offset : Nat}, pt.instr = .f64Store offset →
    ∃ x n stack, pt.stack = .f64 x :: .i32 n :: stack ∧ address n offset + 8 ≤ 2 * bufferBytes
  loops : ∀ {type : BlockType} {body : List Instr}, pt.instr = .loop type body →
    Bounded (invoke host table pt.depth) pt.frame body

/-- That code comes only to points that are formed, whatever it is run on. -/
abbrev Forms (host : Host σ) (table : Array Callee) (usesMemory : Bool)
    (code : List Instr) : Prop :=
  Ensures host table (Point.Formed host table usesMemory) code

variable {host : Host σ} {table : Array Callee} {usesMemory : Bool}

theorem Point.formed_loop {type : BlockType} {body : List Instr} {frame : Frame σ}
    {stack : List Value} (h : Bounded (invoke host table depth) frame body) :
    (⟨depth, .loop type body, frame, stack⟩ : Point σ).Formed host table usesMemory := by
  constructor
  · intro haccess
    cases haccess
  · rintro _ _ ⟨⟩
    exact h

theorem Point.formed_of_isPlain {mayCall : Nat → Bool} (h : i.isPlain mayCall = true) (depth : Nat)
    (frame : Frame σ) (stack : List Value) :
    (⟨depth, i, frame, stack⟩ : Point σ).Formed host table usesMemory := by
  constructor
  · intro haccess
    cases i <;> simp [Instr.isAccess] at haccess
    all_goals simp [Instr.isPlain] at h
  · intro type body hloop
    change i = _ at hloop
    subst hloop
    simp [Instr.isPlain] at h

theorem forms_access (hi : i.isAccess = true) (hmemory : usesMemory = true) :
    Forms host table usesMemory [i] := by
  cases i <;> simp only [Instr.isAccess, Bool.false_eq_true] at hi
  all_goals
    exact .step rfl nofun fun _ _ _ => ⟨fun _ => hmemory, nofun⟩

/-- No routine has a loop, calls a function or reaches into memory. -/
theorem forms_routine (r : Routine) : Forms host table usesMemory r.code := by
  have hplain : Instr.arePlain (fun _ => false) r.code = true := by cases r <;> rfl
  refine .of_arePlain Point.formed_of_isPlain ?_ r.code hplain
  exact nofun

/-- A local that was set holds what it was set to. -/
theorem local_of_execAll_localSet {calls : Calls σ} {index : Nat} {frame frame' : Frame σ}
    {v : Value} {stack stack' : List Value}
    (h : execAll calls [.localSet index] frame (v :: stack) = .next frame' stack') :
    frame'.locals[index]? = some v := by
  rcases Nat.lt_or_ge index frame.locals.length with hlt | hge
  · rw [execAll_cons, exec_localSet _ _ _ _ hlt] at h
    cases h
    simp [hlt]
  · rw [execAll_cons, exec_eq_step _ _ _ rfl] at h
    change (if index < frame.locals.length then _ else Flow.trap .illTyped).andThen _ = _ at h
    rw [if_neg (not_lt.mpr hge)] at h
    cases h

end Machine

namespace Lowering

open Instr

variable {σ : Type} [Arithmetic] {host : Host σ} {table : Array Callee} {s : Scope}
  {usesMemory : Bool}
  {body : List Instr}

/-- That code finds routines where it calls them, and that no call changes the
size of the memory. -/
structure Scope.Reads (s : Scope) (table : Array Callee) : Prop where
  confined : TableConfined table
  routine : ∀ {index : Nat} {c : Code}, s.mayCall index = true → table[index]? = some (.code c) →
    ∃ r : Routine, c = r.toCode

variable (htable : s.Reads table) {frame : Frame σ}

include htable

theorem forms_plain (h : arePlain s.mayCall code = true) : Forms host table usesMemory code := by
  apply Ensures.of_arePlain Point.formed_of_isPlain ?_ code h
  intro index c hindex hc
  obtain ⟨r, rfl⟩ := htable.routine hindex hc
  exact forms_routine r

/-- Entered with its counter at zero, the loop of `while` is bounded. -/
theorem bounded_while (hbody : areConfined 0 (counter + 1) body = true)
    (htest : test.isConfined 0 (counter + 1) = true)
    (hlocal : frame.locals[counter]? = some (.i32 0)) :
    Bounded (invoke host table depth) frame (body ++ test :: nextRound counter) := by
  have hfront : areConfined 0 (counter + 1) (body ++ [test]) = true := by simp [hbody, htest]
  have hsplit : body ++ test :: nextRound counter = (body ++ [test]) ++ nextRound counter := by simp
  refine .whileLoop fun {n} {frame'} hrounds => ?_
  rw [hsplit] at hrounds
  exact rounds_while_lt (invoke_keepSize htable.confined host depth) hfront hlocal hrounds

/-- However many rounds it has to do, a counted loop is bounded. -/
theorem bounded_counted (hbody : areConfined 0 (remaining + 1) body = true)
    (hlocal : frame.locals[remaining]? = some (.i32 k)) :
    Bounded (invoke host table depth) frame (countedRound remaining body) := by
  refine .countedLoop fun {n} {frame'} {frame''} hrounds hstays => ?_
  obtain ⟨m, hlocal', hcount⟩ :=
    rounds_counted_add (invoke_keepSize htable.confined host depth) hbody hlocal hrounds
  have hpos : ¬m ≤ 0 := by
    intro hdone
    simp [leaveRounds, execAll_cons, exec_localGet _ _ _ hlocal', hdone] at hstays
  have hm : 0 < m.toInt := by
    rw [Int32.le_iff_toInt_le] at hpos
    exact not_le.mp hpos
  have hk : k.toInt ≤ Int32.maxValue.toInt := Int32.toInt_le k
  omega

/-- The points of `while`: its counter is at zero where the loop is entered. -/
theorem forms_while (hconfined : areConfined 0 (counter + 1) body = true)
    (htest : test.isConfined 0 (counter + 1) = true) (hplain : test.isPlain s.mayCall = true)
    (hbody : Forms host table usesMemory body) :
    Forms host table usesMemory
      [.i32Const 0, .localSet counter, .loop .void (body ++ test :: nextRound counter),
        .f64Const .zero] := by
  intro depth frame stack pt h
  change Reaches _ _ _ ([.i32Const 0, .localSet counter] ++
    [.loop .void (body ++ test :: nextRound counter), .f64Const .zero]) _ _ _ at h
  rcases h.of_append with hpt | ⟨frame', stack', hset, hpt⟩
  · exact forms_plain htable rfl hpt
  · rw [execAll_cons, exec_const, Flow.next_andThen] at hset
    have hbounded : Bounded (invoke host table depth) frame' (body ++ test :: nextRound counter) :=
      bounded_while htable hconfined htest (local_of_execAll_localSet hset)
    have htail : arePlain s.mayCall (test :: nextRound counter) = true := by
      simp [hplain, nextRound, isPlain]
    exact Ensures.of_loop hpt (Point.formed_loop hbounded) (hbody.append (forms_plain htable htail))
      (forms_plain htable rfl)

/-- The points of a counted loop: the number of rounds is in its local where the
loop is entered. -/
theorem forms_counted (hconfined : areConfined 0 (remaining + 1) body = true)
    (hbody : Forms host table usesMemory body) :
    Forms host table usesMemory
      (.num .i32TruncSatF64S :: .localSet remaining :: countedCode remaining body) := by
  intro depth frame stack pt h
  change Reaches _ _ _ ([.num .i32TruncSatF64S, .localSet remaining] ++
    ([.block .void [.loop .void (countedRound remaining body)]] ++ [.f64Const .zero])) _ _ _ at h
  rcases h.of_append with hpt | ⟨frame', stack', hset, hpt⟩
  · exact forms_plain htable rfl hpt
  · have hlocal : ∃ k, frame'.locals[remaining]? = some (.i32 k) := by
      rw [execAll_cons, exec_num] at hset
      rcases stack with _ | ⟨n | n | x, stack⟩
      case cons.f64 => exact ⟨_, local_of_execAll_localSet hset⟩
      all_goals cases hset
    obtain ⟨k, hlocal⟩ := hlocal
    have hround : Forms host table usesMemory (countedRound remaining body) :=
      ((forms_plain htable rfl).append hbody).append (forms_plain htable rfl)
    rcases hpt.of_append with hblock | ⟨frame'', stack'', -, hrest⟩
    · cases hblock with
      | here => exact ⟨nofun, nofun⟩
      | behind _ hnil => exact Ensures.nil hnil
      | block hpt =>
        exact Ensures.of_loop hpt (Point.formed_loop (bounded_counted htable hconfined hlocal))
          hround .nil
    · exact forms_plain htable rfl hrest

/-- Emitted code comes to memory only if its draft asks for one, and enters only
loops that are bounded. -/
theorem Emits.forms {piece : Piece} {d d' : Draft} (h : Emits s piece d code d')
    (hmemory : d'.usesMemory = true → usesMemory = true) : Forms host table usesMemory code := by
  have hplain {code : List Instr} (h : arePlain s.mayCall code = true) :
      Forms host table usesMemory code := forms_plain htable h
  have hroutine {r : Routine} {i : Instr} {d d' : Draft} (h : callRoutine s r d = .ok (i, d')) :
      Forms host table usesMemory [i] :=
    hplain (by simp [callRoutine_isPlain h])
  have hdouble : Forms host table usesMemory [asDouble] := hplain rfl
  -- A choice is no loop and no access, whatever its branches are.
  have hchoice {type : BlockType} {first second : List Instr}
      (h : Forms host table usesMemory first)
      (h' : Forms host table usesMemory second) :
      Forms host table usesMemory [.choice type first second] :=
    .choice (fun _ _ _ => ⟨nofun, nofun⟩) h h'
  induction h with
  | number | ident | allNil | statementsNil => exact hplain rfl
  | block _ ihbody => exact ihbody hmemory
  | unary _ hop ihx =>
    have hgrows := (unaryCode_operates hop).builds.grows
    exact (ihx (hmemory ∘ hgrows.memory)).append
      (hplain ((unaryCode_operates hop).simple 0 (Nat.zero_le _)).plain)
  | binary _ hy hop ihx ihy =>
    have hgrows := (binaryCode_operates hop).builds.grows
    exact (ihx (hmemory ∘ (hy.grows.trans hgrows).memory)).append
      ((ihy (hmemory ∘ hgrows.memory)).append
        (hplain ((binaryCode_operates hop).simple 0 (Nat.zero_le _)).plain))
  | and _ htest hy ihx ihy =>
    have hgrows := (callRoutine_eq_ok htest).1.trans hy.grows
    have htruth := (ihy hmemory).append ((hroutine htest).cons hdouble)
    exact (ihx (hmemory ∘ hgrows.memory)).append
      ((hroutine htest).cons (hchoice htruth (hplain rfl)))
  | or _ htest hy ihx ihy =>
    have hgrows := (callRoutine_eq_ok htest).1.trans hy.grows
    have htruth := (ihy hmemory).append ((hroutine htest).cons hdouble)
    exact (ihx (hmemory ∘ hgrows.memory)).append
      ((hroutine htest).cons (hchoice (hplain rfl) htruth))
  | @assignVar op _ _ _ _ _ _ _ i _ _ _ _ hop ihv =>
    have hgrows := (combineCode_operates hop).builds.grows
    have hold : arePlain s.mayCall (oldCode op [.globalGet i]) = true := by
      unfold oldCode
      split <;> rfl
    exact (hplain hold).append ((ihv (hmemory ∘ hgrows.memory)).append
      ((hplain ((combineCode_operates hop).simple 0 (Nat.zero_le _)).plain).append (hplain rfl)))
  | @assignSlot op _ _ _ _ _ _ _ d₂ _ _ _ base _ _ _ _ _ _ hindex hfind hv hop hs ihindex ihv ihs =>
    have hlocals := (d₂.grows_addLocal .i32).trans ((d₂.addLocal .i32).grows_addLocal .f64)
    have hskipped := (combineCode_operates hop).builds.grows.trans hs.grows
    have hrest := (callRoutine_eq_ok hfind).1.trans (hlocals.trans (hv.grows.trans hskipped))
    have hused : usesMemory = true := hmemory ((hindex.grows.trans hrest).memory rfl)
    have hold :
        Forms host table usesMemory (oldCode op [.localGet d₂.locals.length, .f64Load base]) := by
      unfold oldCode
      split
      · exact .nil
      · exact (hplain rfl).cons (forms_access rfl hused)
    have hstore :
        Forms host table usesMemory (storeCode base d₂.locals.length (d₂.locals.length + 1)) :=
      (hplain rfl).cons
        ((hplain rfl).cons ((hplain rfl).cons ((forms_access rfl hused).cons (hplain rfl))))
    have hstored := hold.append ((ihv (hmemory ∘ hskipped.memory)).append
      ((hplain ((combineCode_operates hop).simple 0 (Nat.zero_le _)).plain).append hstore))
    exact (ihindex (hmemory ∘ hrest.memory)).append ((hroutine hfind).cons
      ((hplain rfl).append (hchoice hstored (ihs hmemory))))
  | host _ _ _ _ ihargs => exact (ihargs hmemory).append (hplain (by simp [callHost_isPlain]))
  | choose _ _ htest hy hz ihx ihy ihz =>
    have hgrows := (callRoutine_eq_ok htest).1.trans (hy.grows.trans hz.grows)
    exact (ihx (hmemory ∘ hgrows.memory)).append ((hroutine htest).cons
      (hchoice (ihy (hmemory ∘ hz.grows.memory)) (ihz hmemory)))
  | exec _ _ _ _ ihargs => exact ihargs hmemory
  | whileLoop _ hbody hcode ihbody =>
    obtain ⟨test, htest, rfl⟩ := whileCode_eq_ok hcode
    have hconfined := hbody.confined
    rw [Draft.addLocal, length_append] at hconfined
    exact forms_while htable hconfined (callRoutine_isConfined htest _ _)
      (callRoutine_isPlain htest)
      (ihbody (hmemory ∘ (callRoutine_eq_ok htest).1.memory))
  | @countedLoop _ _ _ _ _ d₁ _ _ _ _ hcount hbody ihcount ihbody =>
    have hgrows := (d₁.grows_addLocal .i32).trans hbody.grows
    have hconfined := hbody.confined
    rw [Draft.addLocal, length_append] at hconfined
    exact (ihcount (hmemory ∘ hgrows.memory)).append
      (forms_counted htable hconfined (ihbody hmemory))
  | @slot _ _ _ _ base _ _ _ _ _ _ _ hindex hload ihindex =>
    obtain ⟨find, d₁, hfind, rfl, rfl⟩ := bufferLoad_eq_ok hload
    have hgrows := (callRoutine_eq_ok hfind).1.trans (d₁.grows_addLocal .i32)
    have hused : usesMemory = true := hmemory ((hindex.grows.trans hgrows).memory rfl)
    have hread : Forms host table usesMemory [.localGet d₁.locals.length, .f64Load base] :=
      (hplain rfl).cons (forms_access rfl hused)
    exact (ihindex (hmemory ∘ hgrows.memory)).append ((hroutine hfind).cons
      ((hplain rfl).append (hchoice hread (hplain rfl))))
  | builtin _ _ _ hb ihargs =>
    exact (ihargs (hmemory ∘ (builtinCode_operates hb).builds.grows.memory)).append
      (hplain ((builtinCode_operates hb).simple 0 (Nat.zero_le _)).plain)
  | allCons _ hr ihn ihr => exact (ihn (hmemory ∘ hr.grows.memory)).append (ihr hmemory)
  | sequenceLast _ ihn => exact ihn hmemory
  | sequenceCons _ hr ihn ihr | statementsCons _ hr ihn ihr =>
    exact (ihn (hmemory ∘ hr.grows.memory)).append ((hplain rfl).cons (ihr hmemory))

end Lowering

attribute [local instance] Arithmetic.binary64

theorem Double.truncate?_of_toInt32? {x : Double} (h : x.toInt32? = some k) :
    ∃ n, x.truncate? = some n ∧ Int32.minValue.toInt ≤ n ∧ n ≤ Int32.maxValue.toInt := by
  unfold toInt32? at h
  cases hx : x.truncate? with
  | none => simp [hx] at h
  | some n =>
    simp only [hx, Option.ite_none_right_eq_some, Bool.and_eq_true, decide_eq_true_eq] at h
    exact ⟨n, rfl, h.1⟩

/-- A point is safe if its instruction goes through, it is formed, and the
memory has the size it should have. -/
theorem Machine.Point.safe_of_continues {σ : Type} {host : Host σ} {table : Array Callee}
    {usesMemory : Bool} {pt : Point σ}
    (hcontinues : (exec (invoke host table pt.depth) pt.instr pt.frame pt.stack).isTrap = false)
    (hformed : pt.Formed host table usesMemory)
    (hsize : usesMemory = true → pt.frame.store.memory.size = 2 * bufferBytes) :
    pt.Safe host table := by
  obtain ⟨depth, i, frame, stack⟩ := pt
  dsimp only at hcontinues hsize
  refine ⟨hcontinues, ?_, ?_, ?_, ?_, hformed.loop⟩
  -- Values of other types than those named here would have trapped.
  · rintro rfl
    rcases stack with _ | ⟨n | n | x, stack⟩
    case cons.f64 =>
      cases hx : x.toInt32? with
      | none =>
        rw [exec_num, calculate_i32TruncF64S_of_none stack hx] at hcontinues
        cases hcontinues
      | some k =>
        obtain ⟨n, hn, hbounds⟩ := Double.truncate?_of_toInt32? hx
        exact ⟨x, n, stack, rfl, hn, hbounds⟩
    all_goals cases (show true = false from hcontinues)
  · rintro rfl
    rcases stack with _ | ⟨y | y | y, _ | ⟨x | x | x, stack⟩⟩
    case cons.i32.cons.i32 =>
      refine ⟨y, x, stack, rfl, ?_⟩
      rintro rfl
      cases (show true = false from hcontinues)
    all_goals cases (show true = false from hcontinues)
  · rintro offset rfl
    rcases stack with _ | ⟨n | n | x, stack⟩
    case cons.i32 =>
      refine ⟨n, stack, rfl, ?_⟩
      by_contra hout
      rw [← hsize (hformed.access rfl)] at hout
      change (load frame (address n offset) stack).isTrap = false at hcontinues
      rw [load, Memory.load?, if_neg hout] at hcontinues
      cases hcontinues
    all_goals cases (show true = false from hcontinues)
  · rintro offset rfl
    rcases stack with _ | ⟨x | x | x, _ | ⟨n | n | n, stack⟩⟩
    case cons.f64.cons.i32 =>
      refine ⟨x, n, stack, rfl, ?_⟩
      by_contra hout
      rw [← hsize (hformed.access rfl)] at hout
      change (Machine.store frame (address n offset) x stack).isTrap = false at hcontinues
      rw [Machine.store, Memory.store?, if_neg hout] at hcontinues
      cases hcontinues
    all_goals cases (show true = false from hcontinues)

namespace Program

variable {p : Program} {fs : List Prepared} {final : Draft}

theorem Drafted.tableConfined (h : p.Drafted fs final) : TableConfined p.table := by
  intro index c hc
  rcases p.exists_of_table hc with ⟨i, g, -, hg, rfl⟩ | ⟨k, r, -, -, rfl⟩
  · obtain ⟨f, d, d', -, hcode, -⟩ := h.exists_lowered hg
    exact ⟨0, d.locals.length, (emits_of_lowerStatements _ f.body hcode).confined⟩
  · exact ⟨0, 0, by cases r <;> rfl⟩

theorem Drafted.reads (h : p.Drafted fs final) (f : Prepared) : (scopeOf fs f).Reads p.table where
  confined := h.tableConfined
  routine := by
    intro index c hindex hc
    rcases p.exists_of_table hc with ⟨i, g, rfl, hg, rfl⟩ | ⟨k, r, -, -, rfl⟩
    · have hlt : i < (live fs).length := h.length ▸ (List.getElem?_eq_some_iff.mp hg).1
      have hbase : (scopeOf fs f).routineBase = HostFunction.all.length + (live fs).length := rfl
      simp only [Scope.mayCall, Bool.or_eq_true, decide_eq_true_eq, hbase] at hindex
      omega
    · exact ⟨r, rfl⟩

/-- The points of a call of an exported function are formed. -/
theorem Drafted.forms_call (h : p.Drafted fs final) {σ : Type} (host : Host σ) {i : Nat}
    {g : ProgramFunction} (hg : p.functions[i]? = some g) :
    Forms host p.table p.usesMemory [.call (HostFunction.all.length + i)] := by
  refine .call (fun _ _ _ => ⟨nofun, nofun⟩) fun c hc => ?_
  obtain rfl : g.toCode = c := by simpa [p.table_function hg] using hc
  obtain ⟨f, d, d', -, hcode, -, hfinal⟩ := h.exists_lowered hg
  refine (emits_of_lowerStatements _ f.body hcode).forms (h.reads f) fun hused => ?_
  rw [h.memory]
  exact hfinal.memory hused

end Program

/-- Compiled code never traps and always returns. Whatever the globals, the
memory and the host, a call of an exported function ends, and every instruction
that it comes to on the way is safe there: numbers that are truncated fit,
divisors are not zero, slots lie in the memory, and loops are bounded. -/
theorem compile_neverTraps {o : Options} {bin : Bytes} (h : compile o = .ok bin) :
    ∃ p, Program.ofOptions o = .ok p ∧ p.assembled.encode = bin ∧
      ∀ {i : Nat} {g : ProgramFunction}, p.functions[i]? = some g →
      ∀ {σ : Type} (host : Host σ) (store : Store σ), p.Fits store →
        (∃ store', invoke host p.table depthLimit (HostFunction.all.length + i) store [] =
          .done store' []) ∧
        ∀ pt, Reaches host p.table depthLimit [.call (HostFunction.all.length + i)]
          { store, locals := [] } [] pt → pt.Safe host p.table := by
  obtain ⟨p, hp, hbin⟩ := compile_eq_ok h
  refine ⟨p, hp, hbin, fun {i g} hg σ host store hfits => ?_⟩
  obtain ⟨-, fs, hread, hprepared⟩ := Program.ofOptions_eq_ok hp
  obtain ⟨final, hdrafted⟩ := Program.drafted_of_ofPrepared hprepared
  obtain ⟨f, d, d', hf, hcode, hlocals, hfinal⟩ := hdrafted.exists_lowered hg
  have hnames : ∀ x ∈ Node.mentionsAll f.body, Text.lower x.name = x.name := by
    have hmem : f ∈ fs := mem_of_mem_filter (mem_of_getElem? hf)
    obtain ⟨decl, -, hdecl⟩ := Except.mapM_eq_ok hread f hmem
    exact Prepared.lower_mentions_of_ofDecl hdecl
  obtain ⟨store', hdone, -⟩ := hdrafted.computes hg hcode hlocals hfinal hnames host store hfits
  refine ⟨⟨store', hdone⟩, fun pt hpt => ?_⟩
  refine Point.safe_of_continues ?_ (hdrafted.forms_call host hg hpt) fun hused => ?_
  · by_contra htrap
    have hcall := exec_call (invoke host p.table depthLimit) { store, locals := [] } [] hdone
    have hrun := hpt.isTrap (by simpa using htrap)
    rw [execAll_cons, hcall] at hrun
    cases hrun
  · have hcall : Instr.areConfined 0 0 [.call (HostFunction.all.length + i)] = true := rfl
    exact (hpt.memory_size hdrafted.tableConfined hcall).trans (hfits.memory hused)

/-- A counted loop in a `while`, with a slot that is changed and a remainder of
whatever numbers there are. -/
def nestedLoops : Options where
  pools := [⟨utf8 "frame", [utf8 "x"]⟩]
  functions :=
    [⟨utf8 "step", utf8 "frame", utf8 "while(exec2(loop(x, gmegabuf(x) += y % x), x -= 1))"⟩]

theorem nestedLoops_neverTraps : ∃ (bin : Bytes) (p : Program) (store : Store Unit),
    compile nestedLoops = .ok bin ∧ Program.ofOptions nestedLoops = .ok p ∧ p.functions.length = 1 ∧
    p.usesMemory = true ∧ p.Fits store ∧ ∀ host : Host Unit,
      (∃ store', invoke host p.table depthLimit HostFunction.all.length store [] =
        .done store' []) ∧
      ∀ pt, Reaches host p.table depthLimit [.call HostFunction.all.length]
        { store, locals := [] } [] pt → pt.Safe host p.table := by
  have hok : (compile nestedLoops).isOk = true := by decide +kernel
  obtain ⟨bin, hbin⟩ := Except.exists_ok_of_isOk hok
  obtain ⟨p, hp, -, hsafe⟩ := compile_neverTraps hbin
  have hshape :
      (Program.ofOptions nestedLoops).map (fun p => (p.functions.length, p.usesMemory)) =
        .ok (1, true) := by
    decide +kernel
  rw [hp] at hshape
  obtain ⟨hlength, hmemory⟩ := Prod.mk.inj (Except.ok.inj hshape)
  let store : Store Unit :=
    ⟨Array.replicate (p.externals.length + p.globals) .nan, Memory.ofPages memoryPages, ()⟩
  have hfits : p.Fits store := ⟨Array.size_replicate, fun _ => rfl⟩
  have hfirst : p.functions[0]? = some p.functions[0] := getElem?_eq_getElem (by omega)
  exact ⟨bin, p, store, hbin, hp, hlength, hmemory, hfits,
    fun host => hsafe hfirst host store hfits⟩

end Eel
