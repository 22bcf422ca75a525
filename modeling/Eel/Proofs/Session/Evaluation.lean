import Eel.Proofs.Session.Inputs
import Eel.Proofs.Session.Running

/-!
Sessions keep their variables.

Whatever inputs a session was given, it holds all variables that came up, with
their values. An input that is empty or cannot be read changes nothing, and one
that is refused later changes no value. An input that is run changes the
variables as one call of its function does, and its module has no variables of
its own.
-/

namespace Eel.Session

open Machine Wasm Input Node Source

/-- The session behind inputs that were given one after the other. -/
def after (seed : UInt64) (inputs : List Bytes) : Session :=
  inputs.foldl (fun s text => (s.eval text).2) { seed }

/-- That an input was compiled: to which function, and to which module. The
function is the text of the input, read again and simplified. The module imports
all variables of the function from the pool of the session, each once, and
defines no global. -/
structure Compiles (vars : List Bytes) (input : Input) (f : Prepared) (p : Program)
    (names : List Bytes) : Prop where
  read : Prepared.ofDecl (inputOptions vars input.text) (inputDecl input.text) = .ok f
  same : bareAll f.source.script.body = bareAll input.script.body
  compile : compile (inputOptions vars input.text) = .ok p.assembled.encode
  globals : p.assembled.globals = []
  imports : p.assembled.imports =
    names.map (fun x => ⟨poolName, x, .global Program.externalType⟩) ++
      HostFunction.all.map Program.hostImport
  names_nodup : names.Nodup
  names_subset : names ⊆ vars
  mem_names : ∀ x, x ∈ names ↔ ∃ id ∈ mentionsAll f.body, id.name = x

/-- That an input was run, for the value of its last statement. -/
structure Runs (s : Session) (source : Source) (input : Input) (f : Prepared) (p : Program)
    (names : List Bytes) (x : Double) (s' : Session) : Prop where
  vars : s'.vars = s.grownVars input.names
  calls : CallsOnce p names s.value (s.randomFor input.names) s'.value s'.random
  run : let run :=
    Run.all (evalEach (mathHost []) f.body) (inputState s.value (s.randomFor input.names))
    s'.value = run.2.vars ∧ s'.random = run.2.host ∧ run.1.getLast? = some x
  shown : s'.value input.shown = x
  /-- Where simplifying is known to keep what is done, this is what the source
  says. -/
  typed : areLinear source.script.body = true →
    let run :=
      Run.all (evalEach (mathHost []) source.script.body)
        (inputState s.value (s.randomFor input.names))
    run.1.getLast? = some x ∧ s'.value = Function.update run.2.vars input.shown x ∧
      s'.random = run.2.host

/-- What evaluating a text comes to. -/
inductive Evaluates (s : Session) (text : Bytes) :
    Except SessionError (Option Result) → Session → Prop
  | unread {error : ParseError} (parse : parse text = .error error) :
      Evaluates s text (.error (.compile (.ofParseError functionName text error))) s
  | empty {source : Source} (parse : parse text = .ok source) (body : source.script.body = []) :
      Evaluates s text (.ok none) s
  | refused {source : Source} {input : Input} {error : CompileError} {s' : Session}
      (parse : parse text = .ok source) (input_eq : ofSource? source = some input)
      (compile : compile (inputOptions s'.vars input.text) = .error error)
      (grows : s.Grows input.names s') :
      Evaluates s text (.error (.compile error)) s'
  /-- A module with a section that has no 32-bit length is not loaded. -/
  | oversized {source : Source} {input : Input} {f : Prepared} {p : Program} {names : List Bytes}
      {error : EngineError}
      {s' : Session} (parse : parse text = .ok source) (input_eq : ofSource? source = some input)
      (compiles : Compiles s'.vars input f p names)
      (sections : ∃ sect ∈ p.assembled.writtenSections, 2 ^ 32 ≤ sect.body.length)
      (grows : s.Grows input.names s') :
      Evaluates s text (.error (.engine error)) s'
  | ran {source : Source} {input : Input} {f : Prepared} {p : Program} {names : List Bytes}
      {x : Double}
      {s' : Session}
      (parse : parse text = .ok source) (input_eq : ofSource? source = some input)
      (compiles : Compiles s'.vars input f p names)
      (sections : ∀ sect ∈ p.assembled.writtenSections, sect.body.length < 2 ^ 32)
      (runs : Runs s source input f p names x s') :
        Evaluates s text (.ok (some ⟨input.shown, x⟩)) s'

variable {s s₁ : Session} {text bin : Bytes} {vars names : List Bytes} {source again : Source}
  {input : Input}
  {e : Engine} {f : Prepared} {p : Program} {final : Lowering.Draft}

/-- What is compiled of an input, the variables of which all belong to the
session. -/
theorem exists_compiles (hread : input.IsReadAs again) (hnames : AreNames vars)
    (hsubset : input.names ⊆ vars) (hcompile : compile (inputOptions vars input.text) = .ok bin) :
    ∃ f p final names, Compiled vars input.text f p final ∧
      p.externals = names.map (fun x => (poolName, x)) ∧ Compiles vars input f p names := by
  obtain ⟨f, p, final, h, rfl, rfl⟩ := exists_compiled hnames hread.parse hread.body_ne_nil
    (fun x hx => hsubset (hread.name_mem hx)) hcompile
  obtain ⟨names, hexternals, hnodup, hmem⟩ := h.exists_imported
  refine ⟨f, p, final, names, h, hexternals, ?_⟩
  constructor
  case read => exact h.read
  case same => exact hread.same
  case compile => exact hcompile
  case globals =>
    rw [Program.assembled, h.globals]
    rfl
  case imports =>
    rw [Program.assembled, hexternals, List.map_map]
    rfl
  case names_nodup => exact hnodup
  case names_subset => exact fun x hx => (hmem x hx).1
  case mem_names =>
    intro x
    constructor
    · exact fun hx => (hmem x hx).2
    · rintro ⟨id, hid, rfl⟩
      obtain ⟨i, -, hi⟩ := h.exists_place hexternals hid
      exact List.mem_of_getElem? hi

namespace Compiles

variable (h : Compiles vars input f p names)

include h

/-- The function of an input ends with the assignment to the variable that is
shown. -/
theorem target? (htarget : target? input.script.body = some input.shown) :
    target? f.body = some input.shown := by
  apply target?_of_ofDecl h.read
  rw [target?_congr h.same, htarget]

/-- Where simplifying keeps what statements do, the function does what the input
does. -/
theorem all_eq (hlinear : areLinear input.script.body = true) {σ : Type} (host : Host σ) :
    Run.all (evalEach host f.body) = Run.all (evalEach host input.script.body) := by
  have hlinear' : areLinear f.source.script.body = true := by
    rw [← areLinear_bareAll, h.same, areLinear_bareAll, hlinear]
  rw [all_of_ofDecl h.read hlinear', ← evalEach_bareAll, h.same, evalEach_bareAll]

/-- A run that starts with the values of the session, and what it leaves. -/
theorem runs (hinput : ofSource? source = some input)
    (htarget : Input.target? input.script.body = some input.shown) (s' : Session)
    (hvars : s'.vars = s.grownVars input.names)
    (hcalls : CallsOnce p names s.value (s.randomFor input.names) s'.value s'.random)
    {outcome : List Double × State Random}
    (hall : Run.all (evalEach (mathHost []) f.body) (inputState s.value (s.randomFor input.names)) =
      outcome)
    (hvalue : s'.value = outcome.2.vars) (hrandom : s'.random = outcome.2.host) :
    Runs s source input f p names (s'.value input.shown) s' := by
  subst hall
  have hlast := getLast?_all_of_target? (mathHost []) (h.target? htarget)
    (inputState s.value (s.randomFor input.names))
  rw [← hvalue] at hlast
  refine ⟨hvars, hcalls, ⟨hvalue, hrandom, hlast⟩, rfl, fun hlinear => ?_⟩
  obtain ⟨x, hx, hrun⟩ := exists_all_of_ofSource? hinput (mathHost [])
    (inputState s.value (s.randomFor input.names))
  rw [h.all_eq (areLinear_of_ofSource? hinput hlinear), hrun] at hvalue hrandom hlast
  obtain rfl : x = s'.value input.shown := Option.some.inj (hx.symm.trans hlast)
  exact ⟨hlast, hvalue, hrandom⟩

end Compiles

theorem eval_of_grow (hparse : parse text = .ok source) (hinput : ofSource? source = some input)
    (hgrow : s.grow input.names = .ok (s₁, e)) :
    s.eval text = ((run ⟨poolName, s₁.vars⟩ input e).1.map some,
      { s₁ with engine := some (run ⟨poolName, s₁.vars⟩ input e).2 }) := by
  unfold eval
  simp only [hparse, hinput, hgrow]
  rfl

/-- An input that is compiled to a module of readable size is run on the values
of the session. -/
theorem Compiles.exists_runs (h : Compiles s₁.vars input f p names)
    (hgrows : s.GrowsIn input.names s₁ e) (hread : input.IsReadAs again)
    (hinput : ofSource? source = some input) (hcompiled : Compiled s₁.vars input.text f p final)
    (hexternals : p.externals = names.map fun x => (poolName, x))
    (hsections : ∀ sect ∈ p.assembled.writtenSections, sect.body.length < 2 ^ 32) :
    ∃ e' x, run ⟨poolName, s₁.vars⟩ input e = (.ok ⟨input.shown, x⟩, e') ∧ Serves e' s₁.vars ∧
      Runs s source input f p names x { s₁ with engine := some e' } := by
  obtain ⟨outcome, hall⟩ : ∃ outcome, Run.all (evalEach (mathHost []) f.body)
      (inputState s.value (s.randomFor input.names)) = outcome := ⟨_, rfl⟩
  have hcalls := hcompiled.callsOnce hexternals h.names_nodup (fun x => (h.mem_names x).mp) hall
  have hstart : CallsOnce p names (valueIn e s₁.vars) e.random outcome.2.vars outcome.2.host := by
    rw [hgrows.valueIn_eq, hgrows.random_eq]
    exact hcalls
  obtain ⟨e', hrun, hserves, hvalue, hrandom⟩ :=
    hcompiled.exists_run hexternals hsections hgrows.serves h.compile
    h.names_nodup h.names_subset (hgrows.names_subset hread.shown_mem) hstart
  rw [← (hgrows.sound.withEngine hserves).value_of_engine rfl] at hvalue
  rw [← hvalue, ← hrandom] at hcalls
  refine ⟨e', _, hrun, hserves, ?_⟩
  rw [← hvalue]
  exact h.runs hinput hread.target { s₁ with engine := some e' } hgrows.vars hcalls hall
    hvalue hrandom

/-- A step of a session whose input has a statement. -/
theorem Sound.evaluates_input (h : s.Sound) (hparse : parse text = .ok source)
    (hinput : ofSource? source = some input) :
    (s.eval text).2.Sound ∧ s.Evaluates text (s.eval text).1 (s.eval text).2 := by
  obtain ⟨again, hread⟩ := exists_isReadAs hparse hinput
  obtain ⟨s₁, e, hgrow, hgrows⟩ := h.exists_grow hread.areNames
  have hkept : ({ s₁ with engine := some e } : Session) = s₁ := by rw [← hgrows.engine]
  rw [eval_of_grow hparse hinput hgrow]
  cases hcompile : compile (inputOptions s₁.vars input.text) with
  | error error =>
    rw [run_of_error hcompile, hkept]
    exact ⟨hgrows.sound, .refused hparse hinput hcompile hgrows.toGrows⟩
  | ok bin =>
    obtain ⟨f, p, final, names, hcompiled, hexternals, hcompiles⟩ :=
      exists_compiles hread hgrows.sound.names hgrows.names_subset hcompile
    by_cases hsections : ∀ sect ∈ p.assembled.writtenSections, sect.body.length < 2 ^ 32
    · obtain ⟨e', x, hrun, hserves, hruns⟩ :=
        hcompiles.exists_runs hgrows hread hinput hcompiled hexternals hsections
      rw [hrun]
      exact ⟨hgrows.sound.withEngine hserves, .ran hparse hinput hcompiles hsections hruns⟩
    · push Not at hsections
      obtain ⟨error, hrun⟩ := exists_run_oversized (e := e) hcompiles.compile hsections
      rw [hrun, hkept]
      exact ⟨hgrows.sound, .oversized hparse hinput hcompiles hsections hgrows.toGrows⟩

/-- A step of a session. -/
theorem Sound.evaluates (h : s.Sound) (text : Bytes) :
    (s.eval text).2.Sound ∧ s.Evaluates text (s.eval text).1 (s.eval text).2 := by
  cases hparse : parse text with
  | error error =>
    have heval : s.eval text = (.error (.compile (.ofParseError functionName text error)), s) := by
      rw [eval, hparse]
    rw [heval]
    exact ⟨h, .unread hparse⟩
  | ok source =>
    cases hinput : ofSource? source with
    | none =>
      have heval : s.eval text = (.ok none, s) := by simp [eval, hparse, hinput]
      rw [heval]
      exact ⟨h, .empty hparse (ofSource?_eq_none_iff.mp hinput)⟩
    | some input => exact h.evaluates_input hparse hinput

/-- Every session that inputs lead to holds its variables. -/
theorem sound_after (seed : UInt64) (inputs : List Bytes) : (after seed inputs).Sound := by
  have hstart : ({ seed } : Session).Sound := ⟨⟨List.nodup_nil, by simp⟩, fun _ => rfl, by simp⟩
  have hfold (s : Session) (h : s.Sound) :
      (inputs.foldl (fun s text => (s.eval text).2) s).Sound := by
    induction inputs generalizing s with
    | nil => exact h
    | cons text rest ih => exact ih _ (h.evaluates text).1
  exact hfold _ hstart

/-- Sessions keep their variables, whatever inputs they are given. All variables
are told with their values, a name that has not come up counts as zero, and
every further text is evaluated from these values: it leaves all of them as they
are, or changes them as one call of its function does. -/
theorem eval_keeps_variables (seed : UInt64) (inputs : List Bytes) (text : Bytes) :
    let s := after seed inputs
    s.values = .ok (s.vars.map fun x => (x, s.value x)) ∧ (∀ x, x ∉ s.vars → s.value x = .zero) ∧
      s.Evaluates text (s.eval text).1 (s.eval text).2 := by
  have hsound := sound_after seed inputs
  exact ⟨hsound.values_eq, fun _ => hsound.value_of_notMem, (hsound.evaluates text).2⟩

/-- A refused input brings up a name, and the variable that was set before it
keeps its value. -/
example :
    (after 7 [utf8 "x = 2", utf8 "z = nothing(x = 5)", utf8 "X *= y + 3; y = x"]).values.toOption =
      some [(utf8 "x", .ofInt 6), (utf8 "z", .zero), (utf8 "y", .ofInt 6)] := by
  decide +kernel

end Eel.Session
