import Eel.Proofs.Program.Access
import Eel.Proofs.Program.Looping

/-!
Emitted code runs like the tree it was made of.

The proof is an induction over the ways in which instructions come about. Each
case puts together what the parts do, in the order in which the evaluator takes
them.
-/

namespace Eel

open Node List

theorem Run.length_all {σ : Type} (runs : List (Run σ Double)) (state : State σ) :
    (all runs state).1.length = runs.length := by
  induction runs generalizing state with
  | nil => rfl
  | cons r rest ih => exact congrArg (· + 1) (ih (r state).2)

theorem Node.length_evalEach {σ : Type} (host : Machine.Host σ) (args : List Node) :
    (evalEach host args).length = args.length := by
  induction args with
  | nil => rfl
  | cons n rest ih => exact congrArg (· + 1) ih

namespace Lowering

open Wasm Machine

attribute [local instance] Arithmetic.binary64

variable {σ : Type} {s : Scope} {final d d' : Draft} {link : Linkage σ s final} {low high : Nat}

/-- That code does what a piece does, and leaves what instructions of the piece
leave. -/
def Piece.RunsAs (link : Linkage σ s final) (low high : Nat) (code : List Instr) : Piece → Prop
  | expr n => Runs link low high code [] (n.eval link.host) top
  | all args => Runs link low high code [] (Run.all (evalEach link.host args)) topAll
  | sequence body => Runs link low high code [] (Run.last (evalEach link.host body)) top
  | statements body => Runs link low high code [] (Run.all (evalEach link.host body)) fun _ => []

section Choice

variable {run₁ run₂ : Run σ Double} {c₁ c₂ : List Instr} {test : Instr}

/-- Code that goes one way or the other by whether a number counts as zero. -/
theorem choice_runs (htest : callRoutine s .isNotZeroish d = .ok (test, d'))
    (hfinal : d'.Within final) (h₁ : Runs link low high c₁ [] run₁ top)
    (h₂ : Runs link low high c₂ [] run₂ top) (x : Double) :
    Runs link low high [test, .choice .f64 c₁ c₂] (top x)
      (if x.isZeroish then run₂ else run₁) top := by
  intro frame state stack hholds hlength
  have hexec : exec link.calls test frame (.f64 x :: stack) =
      .next frame (.ofBool (!x.isZeroish) :: stack) := link.exec_isNotZeroish x htest hfinal
  cases hzero : x.isZeroish with
  | true =>
    obtain ⟨frame', hexec', hholds', hkeeps⟩ := h₂ frame state [] hholds hlength
    rw [append_nil, append_nil] at hexec'
    exact ⟨frame', by simp [execAll_cons, top, hexec, hzero, hexec', BlockType.arity, moveTop],
      hholds', hkeeps⟩
  | false =>
    obtain ⟨frame', hexec', hholds', hkeeps⟩ := h₁ frame state [] hholds hlength
    rw [append_nil, append_nil] at hexec'
    exact ⟨frame', by simp [execAll_cons, top, hexec, hzero, hexec', BlockType.arity, moveTop],
      hholds', hkeeps⟩

theorem truth_runs (htest : callRoutine s .isNotZeroish d = .ok (test, d'))
    (hfinal : d'.Within final) (x : Double) :
    Runs link low high [test, asDouble] (top x) (pure (.ofTruth !x.isZeroish)) top := by
  apply Runs.of_calculates
  intro frame stack
  simp [execAll_cons, top, link.exec_isNotZeroish _ htest hfinal]

theorem const_runs (x : Double) : Runs link low high [.f64Const x] [] (pure x) top :=
  .of_calculates fun frame stack => by simp [execAll_cons, top]

/-- A value that nobody asks for. -/
theorem drop_runs {α : Type} {run : Run σ α} {leaves : α → List Value}
    (h : Runs link low high c₁ [] run leaves) (x : Double) :
    Runs link low high (.drop :: c₁) (top x) run leaves := by
  intro frame state stack hholds hlength
  simpa [execAll_cons, top] using h frame state stack hholds hlength

end Choice

/-- Builtins that are lowered behind their arguments only calculate. -/
theorem Builtin.run_eq_apply {b : Builtin} {span : Span} {r : List Instr × Draft}
    (h : builtinCode s span b d = .ok r) (args : List (Run σ Double)) :
    b.run args = do return b.apply (← Run.all args) := by
  cases b
  case choose | exec2 | exec3 | whileLoop | countedLoop | megabuf | gmegabuf =>
    exact absurd h fault_ne_ok
  all_goals rfl

/-- The value of a variable before an assignment, where the assignment combines
it. -/
theorem oldVar_runs {op : AssignOp} {x : Bytes} {i : Nat} (hi : (s.layout final).place x = some i) :
    Runs link low high (oldCode op [.globalGet i]) [] get fun state =>
      oldTop op (state.vars x) := by
  unfold oldCode oldTop
  cases op.combining? with
  | none => exact fun frame state stack hholds _ => ⟨frame, execAll_nil .., hholds, .refl frame⟩
  | some _ => exact globalGet_runs hi

theorem bufferBase?_eq_some {name : Bytes} {base : Nat} (h : bufferBase? name = some base) :
    ∃ b, Buffer.ofName? name = some b ∧ base = b.base := by
  unfold bufferBase? at h
  unfold Buffer.ofName?
  split at h
  · rename_i hname
    exact ⟨.mega, if_pos hname, (Option.some.inj h).symm⟩
  · rename_i hmega
    split at h
    · rename_i hname
      exact ⟨.gmega, by rw [if_neg hmega, if_pos hname], (Option.some.inj h).symm⟩
    · simp at h

/-- Code that lowering emits does what its piece means, whatever frame it is run
in. -/
theorem Emits.runsAs {piece : Piece} {code : List Instr} (link : Linkage σ s final)
    (h : Emits s piece d code d') (hfinal : d'.Within final)
    (hnames : ∀ id ∈ piece.mentions, Text.lower id.name = id.name) :
    piece.RunsAs link d.locals.length d'.locals.length code := by
  induction h with
  | number =>
    rw [Piece.RunsAs, eval]
    exact const_runs _
  | ident hi =>
    have hslot := Scope.slot?_of_prefix hfinal.globals (globalIndex_eq_ok hi).2.1
    simp only [Piece.mentions, mentions, mem_singleton, forall_eq] at hnames
    rw [Piece.RunsAs, eval]
    exact .map _ (globalGet_runs (Scope.place_eq hnames hslot))
  | block _ ihbody =>
    rw [Piece.RunsAs, eval]
    exact ihbody hfinal (by simpa [Piece.mentions, mentions] using hnames)
  | unary hx hop ihx =>
    have hop' := (unaryCode_operates hop).builds.grows
    rw [Piece.RunsAs, eval]
    have hxs := ihx (hop'.toWithin.trans hfinal) (by simpa [Piece.mentions, mentions] using hnames)
    exact (hxs.mono le_rfl hop'.length_le).append fun _ => unaryCode_runs hop hfinal _
  | binary hx hy hop ihx ihy =>
    simp only [Piece.mentions, mentions, mem_append, or_imp, forall_and] at hnames
    have hop' := (binaryCode_operates hop).builds.grows
    have hx' := hx.grows.length_le
    have hy' := hy.grows.length_le
    have hxs := ihx ((hy.grows.trans hop').toWithin.trans hfinal) hnames.1
    have hys := ihy (hop'.toWithin.trans hfinal) hnames.2
    rw [Piece.RunsAs, eval]
    refine (hxs.mono le_rfl (hy'.trans hop'.length_le)).append fun st => ?_
    exact ((hys.mono hx' hop'.length_le).above _).append fun st' => binaryCode_runs hop hfinal _ _
  | and hx htest hy ihx ihy =>
    simp only [Piece.mentions, mentions, mem_append, or_imp, forall_and] at hnames
    have htest' := (callRoutine_eq_ok htest).1
    have hx' := (hx.grows.trans htest').length_le
    have hxs := ihx ((htest'.trans hy.grows).toWithin.trans hfinal) hnames.1
    have hys := ihy hfinal hnames.2
    have hfinal' := hy.grows.toWithin.trans hfinal
    rw [Piece.RunsAs, eval]
    refine (hxs.mono le_rfl (htest'.trans hy.grows).length_le).append fun st => ?_
    exact choice_runs htest hfinal' ((hys.mono hx' le_rfl).append fun st' =>
      truth_runs htest hfinal' _) (const_runs _) _
  | or hx htest hy ihx ihy =>
    simp only [Piece.mentions, mentions, mem_append, or_imp, forall_and] at hnames
    have htest' := (callRoutine_eq_ok htest).1
    have hx' := (hx.grows.trans htest').length_le
    have hxs := ihx ((htest'.trans hy.grows).toWithin.trans hfinal) hnames.1
    have hys := ihy hfinal hnames.2
    have hfinal' := hy.grows.toWithin.trans hfinal
    rw [Piece.RunsAs, eval]
    refine (hxs.mono le_rfl (htest'.trans hy.grows).length_le).append fun st => ?_
    exact choice_runs htest hfinal' (const_runs _) ((hys.mono hx' le_rfl).append fun st' =>
      truth_runs htest hfinal' _) _
  | assignVar hi hv hop ihv =>
    simp only [Piece.mentions, mentions, mem_append, mem_singleton, or_imp,
      forall_and, forall_eq] at hnames
    obtain ⟨hi', hslot, -⟩ := globalIndex_eq_ok hi
    have hop' := (combineCode_operates hop).builds.grows
    have hplace := Scope.place_eq hnames.1 (Scope.slot?_of_prefix
      ((hv.grows.trans hop').toWithin.trans hfinal).globals hslot)
    have hvs := ihv (hop'.toWithin.trans hfinal) hnames.2
    rw [Piece.RunsAs, eval]
    refine (oldVar_runs hplace).append fun st => ?_
    refine ((hvs.mono hi'.length_le hop'.length_le).above _).append fun st' => ?_
    refine (combineCode_runs hop hfinal _ _).append fun st'' => ?_
    exact globalSet_runs hplace _
  | @assignSlot op callee index v _ _ d d₁ d₂ d₃ d₄ d' base _ _ _ _ _ hbase hindex hfind hv hop hs
      ihindex ihv ihs =>
      simp only [Piece.mentions, mentions, mentionsAll, append_nil, mem_append,
        or_imp, forall_and] at hnames
      obtain ⟨b, hb, rfl⟩ := bufferBase?_eq_some hbase
      have hop' := (combineCode_operates hop).builds.grows
      have hfind' := (callRoutine_eq_ok hfind).1
      have hrest := (hv.grows.trans hop').trans hs.grows
      have hlocals := (d₂.grows_addLocal .i32).trans ((d₂.addLocal .i32).grows_addLocal .f64)
      have hfinal₂ := (hlocals.trans hrest).toWithin.trans hfinal
      have hfinal₄ := hs.grows.toWithin.trans hfinal
      have hlength : ((d₂.addLocal .i32).addLocal .f64).locals.length = d₂.locals.length + 2 := by
        simp [Draft.addLocal]
      have hm : final.usesMemory = true :=
        (hindex.grows.trans hfind').toWithin.trans hfinal₂ |>.memory rfl
      have his := ihindex (hfind'.toWithin.trans hfinal₂) hnames.1
      have hvs := ihv (hop'.toWithin.trans hfinal₄) hnames.2
      have hss := ihs hfinal hnames.2
      have hhigh := hrest.length_le
      have hhigh₄ := hv.grows.trans hop' |>.length_le
      have hlow := (hindex.grows.trans hfind').length_le
      have hhigh₂ := hlocals.length_le
      have hfind'' := hfind'.length_le
      have hs' := hs.grows.length_le
      have hop'' := hop'.length_le
      rw [hlength] at hhigh hhigh₄ hhigh₂
      rw [Piece.RunsAs, eval]
      simp only [evalEach, AssignOp.runCall, hb]
      refine (his.mono le_rfl (by omega)).append fun st => ?_
      refine (runAt_runs hfind hfinal₂ hm (hvs.mono (by omega) (by omega)) hop hfinal₄
        (hss.mono (by omega) le_rfl) (by omega)).mono hlow le_rfl
  | host hbuiltin hname harity hargs ihargs =>
    rw [Piece.RunsAs, eval, callByName, hbuiltin]
    simp only [hname]
    refine (ihargs hfinal hnames).append fun st => callHost_runs _ ?_
    rw [Run.length_all, length_evalEach, harity]
  | choose hname hx htest hy hz ihx ihy ihz =>
    simp only [Piece.mentions, mentions, mentionsAll, append_nil, mem_append,
      or_imp, forall_and] at hnames
    have htest' := (callRoutine_eq_ok htest).1
    have hrest := (htest'.trans hy.grows).trans hz.grows
    have hxs := ihx (hrest.toWithin.trans hfinal) hnames.1
    have hys := ihy (hz.grows.toWithin.trans hfinal) hnames.2.1
    have hzs := ihz hfinal hnames.2.2
    have hlow := (hx.grows.trans htest').length_le
    rw [Piece.RunsAs, eval, callByName, hname]
    refine (hxs.mono le_rfl hrest.length_le).append fun st => ?_
    exact choice_runs htest ((hy.grows.trans hz.grows).toWithin.trans hfinal)
      (hys.mono hlow hz.grows.length_le) (hzs.mono (hlow.trans hy.grows.length_le) le_rfl) _
  | exec hname hb harity hargs ihargs =>
    rw [Piece.RunsAs, eval, callByName, hname]
    obtain rfl | rfl := hb <;> exact ihargs hfinal hnames
  | @whileLoop _ _ _ d d₁ d' _ _ hname hbody hcode ihbody =>
    simp only [Piece.mentions, mentions, mentionsAll, append_nil] at hnames
    obtain ⟨test, htest, rfl⟩ := whileCode_eq_ok hcode
    have htest' := (callRoutine_eq_ok htest).1
    have hlength : (d.addLocal .i32).locals.length = d.locals.length + 1 := by simp [Draft.addLocal]
    have hbodys := ihbody (htest'.toWithin.trans hfinal) hnames
    have hhigh := (hbody.grows.trans htest').length_le
    rw [hlength] at hhigh
    rw [Piece.RunsAs, eval, callByName, hname]
    exact whileCode_runs (hbodys.mono hlength.ge htest'.length_le) hhigh htest hfinal
  | @countedLoop _ _ _ _ d d₁ d' _ _ hname hcount hbody ihcount ihbody =>
    simp only [Piece.mentions, mentions, mentionsAll, append_nil, mem_append,
      or_imp, forall_and] at hnames
    have hlength : (d₁.addLocal .i32).locals.length = d₁.locals.length + 1 := by
      simp [Draft.addLocal]
    have hrest := (d₁.grows_addLocal .i32).trans hbody.grows
    have hcounts := ihcount (hrest.toWithin.trans hfinal) hnames.1
    have hbodys := ihbody hfinal hnames.2
    have hhigh := hbody.grows.length_le
    rw [hlength] at hhigh
    rw [Piece.RunsAs, eval, callByName, hname]
    refine (hcounts.mono le_rfl hrest.length_le).append fun st => ?_
    exact (countedCode_runs (hbodys.mono hlength.ge le_rfl) hhigh _).mono
      hcount.grows.length_le le_rfl
  | slot hname hb hindex hload ihindex =>
    simp only [Piece.mentions, mentions, mentionsAll, append_nil] at hnames
    obtain ⟨find, d₂, hfind, rfl, rfl⟩ := bufferLoad_eq_ok hload
    have hfind' := (callRoutine_eq_ok hfind).1
    have hrest := hfind'.trans (d₂.grows_addLocal .i32)
    have hindexs := ihindex (hrest.toWithin.trans hfinal) hnames
    have hm : final.usesMemory = true :=
      ((hindex.grows.trans hrest).toWithin.trans hfinal).memory rfl
    have hlow := (hindex.grows.trans hfind').length_le
    rw [Piece.RunsAs, eval, callByName, hname]
    obtain ⟨rfl, rfl⟩ | ⟨rfl, rfl⟩ := hb
    · refine (hindexs.mono le_rfl hrest.length_le).append fun st => ?_
      exact (readSlot_runs (b := .mega) hfind hfinal hm).mono hlow le_rfl
    · refine (hindexs.mono le_rfl hrest.length_le).append fun st => ?_
      exact (readSlot_runs (b := .gmega) hfind hfinal hm).mono hlow le_rfl
  | builtin hname harity hargs hb ihargs =>
    have hb' := (builtinCode_operates hb).builds.grows
    have hargss := ihargs (hb'.toWithin.trans hfinal) hnames
    rw [Piece.RunsAs, eval, callByName, hname]
    simp only [Builtin.run_eq_apply hb]
    refine (hargss.mono le_rfl hb'.length_le).append fun st => ?_
    refine (builtinCode_runs hb hfinal ?_).mono hargs.grows.length_le le_rfl
    rw [Run.length_all, length_evalEach, harity]
  | allNil => exact fun frame state stack hholds _ => ⟨frame, execAll_nil .., hholds, .refl frame⟩
  | allCons hn hr ihn ihr =>
    simp only [Piece.mentions, mentionsAll, mem_append, or_imp, forall_and] at hnames
    have hns := ihn (hr.grows.toWithin.trans hfinal) hnames.1
    have hrs := ihr hfinal hnames.2
    refine (hns.mono le_rfl hr.grows.length_le).append fun st => .map _ ?_
    simpa [topAll, top] using (hrs.mono hn.grows.length_le le_rfl).above (top _)
  | sequenceLast hn ihn =>
    simp only [Piece.mentions, mentionsAll, append_nil] at hnames
    exact ihn hfinal hnames
  | sequenceCons hn hr ihn ihr =>
    simp only [Piece.mentions, mentionsAll, mem_append, or_imp, forall_and] at hnames
    have hns := ihn (hr.grows.toWithin.trans hfinal) hnames.1
    have hrs :=
      ihr hfinal (by simpa [Piece.mentions, mentionsAll, or_imp, forall_and] using hnames.2)
    refine (hns.mono le_rfl hr.grows.length_le).append fun st => ?_
    exact drop_runs (hrs.mono hn.grows.length_le le_rfl) _
  | statementsNil =>
    exact fun frame state stack hholds _ => ⟨frame, execAll_nil .., hholds, .refl frame⟩
  | statementsCons hn hr ihn ihr =>
    simp only [Piece.mentions, mentionsAll, mem_append, or_imp, forall_and] at hnames
    have hns := ihn (hr.grows.toWithin.trans hfinal) hnames.1
    have hrs := ihr hfinal hnames.2
    rw [Piece.RunsAs] at hrs ⊢
    rw [evalEach, Run.all]
    refine (hns.mono le_rfl hr.grows.length_le).append fun st => ?_
    exact drop_runs (.map _ (hrs.mono hn.grows.length_le le_rfl)) _

end Lowering

end Eel
