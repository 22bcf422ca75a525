import Eel.Proofs.Engine.Calling
import Eel.Proofs.Engine.Loading
import Eel.Proofs.Meaning.Frame
import Eel.Proofs.Session.Variables

/-!
Inputs that are run.

An input is compiled as a function of the session's pool. All variables that it
mentions belong to this pool, so its module imports them and has no globals of
its own. Whatever engine has the variables, loading the module and calling the
function once changes them as the statements of the input do.
-/

namespace Eel.Session

open Wasm Machine Lowering Program Engine Prepared List

/-- The function that a text is compiled as. -/
def inputDecl (text : Bytes) : FunctionDecl := ⟨functionName, poolName, text⟩

/-- What a text is compiled with in a session that has some variables. -/
def inputOptions (vars : List Bytes) (text : Bytes) : Options where
  pools := [⟨poolName, vars⟩]
  functions := [inputDecl text]

/-- That a program was made of a text, the variables of which all belong to the
session. -/
structure Compiled (vars : List Bytes) (text : Bytes) (f : Prepared) (p : Program)
    (final : Draft) : Prop where
  names : AreNames vars
  read : ofDecl (inputOptions vars text) (inputDecl text) = .ok f
  live : f.isLive = true
  covered : ∀ x ∈ Node.mentionsAll f.body, x.name ∈ vars
  measured : p.Measured [f] final
  functions : p.functions.map (·.name) = [functionName]

/-- What is made of a text that has a statement and mentions only variables of
the session. -/
theorem exists_compiled {vars : List Bytes} {text bin : Bytes} {source : Source}
    (hnames : AreNames vars) (hparse : Source.parse text = .ok source)
    (hbody : source.script.body ≠ [])
    (hcovered : ∀ x ∈ Node.mentionsAll source.script.body, x.name ∈ vars)
    (hcompile : compile (inputOptions vars text) = .ok bin) :
    ∃ f p final, Compiled vars text f p final ∧ f.source = source ∧ p.assembled.encode = bin := by
  obtain ⟨p, hp, hbin⟩ := compile_eq_ok hcompile
  obtain ⟨-, fs, hread, hprepared⟩ := ofOptions_eq_ok hp
  obtain ⟨f, hf, rfl⟩ :
      ∃ f, ofDecl (inputOptions vars text) (inputDecl text) = .ok f ∧ fs = [f] := by
    cases Except.forall₂_of_mapM hread with
    | cons hf hrest =>
      cases hrest
      exact ⟨_, hf, rfl⟩
  have hmentions := mentionsAll_of_ofDecl hf
  obtain rfl : source = f.source := Except.ok.inj (hparse.symm.trans (reads_of_ofDecl hf).parse)
  obtain ⟨final, hmeasured⟩ := measured_of_ofPrepared hprepared
  obtain ⟨_, _, hfinished⟩ := finished_of_ofOptions hp
  have hlive : (inputOptions vars text).liveFunctions = [inputDecl text] := by
    simp [Options.liveFunctions, inputOptions, FunctionDecl.hasStatement, inputDecl, hparse,
      Script.isEmpty, hbody]
  refine ⟨f, p, final, ⟨hnames, hf, ?_, fun x hx => hcovered x (hmentions hx), hmeasured, ?_⟩,
    rfl, hbin⟩
  · simp [isLive, Script.isEmpty, hbody]
  · rw [← hfinished.names_eq, hlive]
    rfl

variable {value : Bytes → Double} {x : Bytes} {random : Random} {i : Nat}

/-- What an input works on: the variables, buffers that hold nothing yet, and
the random numbers. -/
def inputState (value : Bytes → Double) (random : Random) : State Random where
  vars := value
  slots _ _ := .zero
  host := random

/-- That one call of the function of an input takes the variables, and the
random numbers, from one state to another. The function runs to its end, on the
variables that it imports and with a memory of zeros. -/
structure CallsOnce (p : Program) (names : List Bytes) (value : Bytes → Double) (random : Random)
    (value' : Bytes → Double) (random' : Random) : Prop where
  invoked : ∃ store : Store Random,
    @invoke _ .binary64 (mathHost []) p.table depthLimit HostFunction.all.length
    ⟨(names.map value).toArray, .ofPages (if p.usesMemory then memoryPages else 0), random⟩ [] =
      .done store [] ∧
    (∀ (i : Nat) (x : Bytes), names[i]? = some x → store.globals[i]? = some (value' x)) ∧
      store.host = random'
  kept : ∀ x, x ∉ names → value' x = value x

section Engine

variable {e : Engine} {vars names : List Bytes}

/-- The cell of a variable, as an import asks for it. -/
theorem Serves.externalCell? (he : Serves e vars) (hx : x ∈ vars) :
    e.externalCell? (poolName, x) = some (vars.idxOf x) := by
  have hidx : vars.idxOf? x = some (vars.idxOf x) := by
    rw [List.idxOf?, findIdx?_eq_guard_findIdx_lt]
    exact Option.guard_pos (decide_eq_true (idxOf_lt_length_of_mem hx))
  have hname : poolName.isEmpty = false := by decide
  simp [Engine.externalCell?, Engine.importedCell?, externalImport, he.pools, hidx, guard, hname]

theorem map_valueIn (hnames : names ⊆ vars) :
    names.map (valueIn e vars) = (names.map vars.idxOf).map e.value := by
  rw [map_map]
  exact map_congr_left fun x hx => if_pos (hnames hx)

/-- When globals are written back to the cells of their variables, these have
the values of the globals. -/
theorem valueIn_writeCells {e' : Engine} {globals : List Double} (he : Serves e vars)
    (hnodup : names.Nodup) (hnames : names ⊆ vars)
    (hcells : e'.cells = Engine.writeCells e.cells (names.map vars.idxOf) globals)
    (hglobals : ∀ (i : Nat) (x : Bytes), names[i]? = some x → globals[i]? = some (value x))
    (hkept : ∀ x, x ∉ names → value x = valueIn e vars x) : valueIn e' vars = value := by
  have hinj {x y : Bytes} (hx : x ∈ names) (heq : vars.idxOf x = vars.idxOf y) : x = y :=
    (idxOf_inj (hnames hx)).mp heq
  funext x
  by_cases hx : x ∈ names
  · obtain ⟨i, hi⟩ := getElem?_of_mem hx
    have hwritten : (Engine.writeCells e.cells (names.map vars.idxOf) globals)[vars.idxOf x]? =
        some (value x) := by
      refine Engine.getElem?_writeCells (hnodup.map_on fun x hx y _ => hinj hx) (k := i) ?_
        (hglobals i x hi) ?_
      · rw [getElem?_map, hi, Option.map_some]
      · rw [he.size]
        exact idxOf_lt_length_of_mem (hnames hx)
    simp [valueIn, hnames hx, Engine.value, hcells, hwritten]
  · have hapart : vars.idxOf x ∉ names.map vars.idxOf := by
      intro hmem
      obtain ⟨y, hy, heq⟩ := mem_map.mp hmem
      exact hx (hinj hy heq ▸ hy)
    rw [hkept x hx, valueIn, valueIn]
    simp [Engine.value, hcells, Engine.getElem?_writeCells_of_notMem hapart]

end Engine

namespace Compiled

variable {vars : List Bytes} {text : Bytes} {f : Prepared} {p : Program} {final : Draft}
  (h : Compiled vars text f p final) {e : Engine} {names : List Bytes}

include h

theorem pool : f.pool = ⟨poolName, vars⟩ := by
  rw [pool_of_ofDecl h.read]
  simp [Options.pool, inputOptions, inputDecl]

theorem live_eq : Program.live [f] = [f] := by
  rw [Program.live, filter_singleton, h.live]
  rfl

/-- A variable that is mentioned is the one that the pool declares. -/
theorem find?_pool (hx : x ∈ vars) : f.pool.find? x = some x := by
  rw [h.pool]
  exact (Pool.find?_eq_some_iff h.names.nodup_lower).mpr ⟨hx, rfl⟩

theorem globals : p.globals = 0 := by
  refine h.measured.declared fun g hg x hx => ?_
  rw [h.live_eq, mem_singleton] at hg
  subst hg
  rw [h.find?_pool (h.covered x hx)]
  rfl

/-- The imports name variables of the pool that the input mentions, each
once. -/
theorem exists_imported :
    ∃ names : List Bytes, p.externals = names.map (fun x => (poolName, x)) ∧ names.Nodup ∧
    ∀ x ∈ names, x ∈ vars ∧ ∃ id ∈ Node.mentionsAll f.body, id.name = x := by
  have hkey :
      ∀ key ∈ (externalsOf [f]).names, ∃ id ∈ Node.mentionsAll f.body,
        key = variableKey poolName id.name := by
    intro key hkey
    have hmem := (Numbering.mem_of_mem_addAll hkey).resolve_left not_mem_nil
    rw [h.live_eq, flatMap_singleton] at hmem
    obtain ⟨id, hid, hfind⟩ := mem_filterMap.mp hmem
    rw [h.find?_pool (h.covered id hid), h.pool, Option.map_some] at hfind
    exact ⟨id, hid, (Option.some.inj hfind).symm⟩
  have hzero : 0 ∉ poolName := by decide
  refine ⟨(externalsOf [f]).names.map fun key => (splitKey key).2, ?_, ?_, ?_⟩
  · rw [h.measured.externals, map_map]
    refine map_congr_left fun key hmem => ?_
    obtain ⟨id, -, rfl⟩ := hkey key hmem
    simp [splitKey_variableKey _ hzero]
  · refine (Numbering.nodup_ofList _).map_on fun key hmem key' hmem' heq => ?_
    obtain ⟨id, -, rfl⟩ := hkey key hmem
    obtain ⟨id', -, rfl⟩ := hkey key' hmem'
    simp only [splitKey_variableKey _ hzero] at heq
    rw [heq]
  · intro x hx
    obtain ⟨key, hmem, rfl⟩ := mem_map.mp hx
    obtain ⟨id, hid, rfl⟩ := hkey key hmem
    rw [splitKey_variableKey _ hzero]
    exact ⟨h.covered id hid, id, hid, rfl⟩

/-- The place of a variable is that of its import. -/
theorem externals_of_place (hi : (layoutOf [f] final f.pool).place x = some i) :
    p.externals[i]? = some (poolName, x) := by
  have hplaces := places_layoutOf h.measured.toDrafted f.pool
  have hzero : 0 ∉ poolName := by decide
  have hlower : Text.lower x = x := (Option.ite_none_right_eq_some.mp hi).1
  cases hfind : f.pool.find? x with
  | none =>
    have hbelow := hplaces.within hi
    have habove := hplaces.undeclared hi hfind
    rw [h.globals] at hbelow
    omega
  | some y =>
    have hname := hplaces.declared hi hfind
    rw [h.pool] at hname hfind
    have hy : y ∈ vars := mem_of_find?_eq_some hfind
    have hyx : y = x := by
      rw [← Token.lower_of_isLowerName (h.names.lower y hy), Pool.lower_of_find? hfind, hlower]
    rw [hname hzero, hyx]

/-- The only function that an input exports. -/
theorem find?_export {cells : List Nat} :
    (p.toInstance cells).exports.find? (fun x => x.name == functionName && x.kind == .func) =
      some ⟨functionName, .func, HostFunction.all.length + 0⟩ := by
  obtain ⟨g, hg, hname⟩ := map_eq_singleton_iff.mp h.functions
  simp [toInstance, assembled, hg, hname]

/-- The engine in which an input was loaded calls its function once. -/
theorem exists_call (he : Serves e vars) (hnodup : names.Nodup) (hnames : names ⊆ vars)
    (hcalls : CallsOnce p names (valueIn e vars) e.random value random) :
    ∃ e', (e.withProgram p (names.map vars.idxOf)).call e.instances.length functionName =
      (.ok (), e') ∧ Serves e' vars ∧ valueIn e' vars = value ∧ e'.random = random := by
  obtain ⟨⟨store, hinvoke, hglobals, hrandom⟩, hkept⟩ := hcalls
  -- The input has no globals of its own, so loading it adds no cells.
  have hcells : (e.withProgram p (names.map vars.idxOf)).cells = e.cells := by
    simp [withProgram, h.globals]
  have hvalue : (e.withProgram p (names.map vars.idxOf)).value = e.value := by
    funext cell
    rw [Engine.value, hcells, Engine.value]
  have hinstance : (e.withProgram p (names.map vars.idxOf)).instances[e.instances.length]? =
      some (p.toInstance (names.map vars.idxOf)) := by
    simp [withProgram, h.globals]
  rw [← he.host, map_valueIn hnames, ← hvalue] at hinvoke
  have hcall := call_of_invoke hinstance h.find?_export hinvoke
  refine ⟨_, hcall, ⟨he.host, he.pools, by simp [leaving, hcells, he.size]⟩, ?_, hrandom⟩
  refine valueIn_writeCells he hnodup hnames (by rw [leaving, hcells]; rfl) (fun i x hi => ?_) hkept
  rw [Array.getElem?_toList]
  exact hglobals i x hi

/-- The module of an input can be read, up to the size at which a section has no
32-bit length. -/
theorem readable (hsections : ∀ s ∈ p.assembled.writtenSections, s.body.length < 2 ^ 32) :
    p.Readable := by
  refine h.measured.readable hsections ?_ ?_ ?_
  · intro x hx
    obtain ⟨names, hexternals, -, hnames⟩ := h.exists_imported
    rw [hexternals] at hx
    obtain ⟨name, hname, rfl⟩ := mem_map.mp hx
    have hpool : Token.isLowerName poolName = true := by decide
    exact ⟨Token.isValid_of_isLowerName hpool,
      Token.isValid_of_isLowerName (h.names.lower name (hnames name hname).1)⟩
  · intro g hg
    have hname : g.name ∈ [functionName] := h.functions ▸ mem_map_of_mem hg
    rw [mem_singleton.mp hname]
    exact Token.isValid_of_isLowerName (by decide)
  · rw [h.functions]
    exact nodup_singleton _

section Imported

variable (hexternals : p.externals = names.map fun x => (poolName, x))

include hexternals

theorem getElem?_of_place (hi : (layoutOf [f] final f.pool).place x = some i) :
    names[i]? = some x := by
  have hx := h.externals_of_place hi
  rw [hexternals, getElem?_map, Option.map_eq_some_iff] at hx
  obtain ⟨y, hy, heq⟩ := hx
  rw [hy, (Prod.mk.inj heq).2]

/-- Every variable that is mentioned has a place, which is that of its
import. -/
theorem exists_place {id : Ident} (hid : id ∈ Node.mentionsAll f.body) :
    ∃ i, (layoutOf [f] final f.pool).place id.name = some i ∧ names[i]? = some id.name := by
  have hlive : f ∈ Program.live [f] := by simp [h.live_eq]
  have hplaced := h.measured.toDrafted.placed hlive hid (lower_mentions_of_ofDecl h.read id hid)
  obtain ⟨i, hi⟩ := Option.isSome_iff_exists.mp hplaced
  exact ⟨i, hi, h.getElem?_of_place hexternals hi⟩

/-- The store that an input is run on holds the variables, wherever their places
are. -/
theorem holds_inputState (value : Bytes → Double) (random : Random) :
    (layoutOf [f] final f.pool).Holds
      ⟨(names.map value).toArray, .ofPages (if p.usesMemory then memoryPages else 0), random⟩
      (inputState value random) where
  host := rfl
  var := by
    intro x i hi
    simp [h.getElem?_of_place hexternals hi, inputState]
  memorySize := by
    intro hmemory
    rw [if_pos ((places_layoutOf h.measured.toDrafted f.pool).memory.symm.trans hmemory)]
    rfl
  slot := by
    intro hmemory b k hk
    rw [if_pos ((places_layoutOf h.measured.toDrafted f.pool).memory.symm.trans hmemory),
      b.base_add, Memory.load?_eight_mul (b.wordOf_within hk)]
    simp [Memory.word, Memory.ofPages, inputState, Double.zero]

/-- A call of the function of an input does what its statements do. -/
theorem callsOnce (hnodup : names.Nodup)
    (hnames : ∀ x ∈ names, ∃ id ∈ Node.mentionsAll f.body, id.name = x)
    {outcome : List Double × State Random}
    (hall : Run.all (Node.evalEach (mathHost []) f.body) (inputState value random) = outcome) :
    CallsOnce p names value random outcome.2.vars outcome.2.host := by
  subst hall
  have hlive : (Program.live [f])[0]? = some f := by rw [h.live_eq]; rfl
  obtain ⟨g, d, d', hg, hcode, hlocals, hfinal⟩ := h.measured.toDrafted.lowered hlive
  obtain ⟨store, hinvoke, hholds, -⟩ := h.measured.toDrafted.runs hg hcode hlocals hfinal
    (lower_mentions_of_ofDecl h.read) (mathHost []) (h.holds_inputState hexternals value random)
  refine ⟨⟨store, hinvoke, fun i x hi => ?_, hholds.host⟩, fun x hx => ?_⟩
  · obtain ⟨id, hid, rfl⟩ := hnames x (mem_of_getElem? hi)
    obtain ⟨k, hk, hname⟩ := h.exists_place hexternals hid
    have hik : i = k :=
      (getElem?_inj (List.getElem?_eq_some_iff.mp hi).1 hnodup).mp (hi.trans hname.symm)
    rw [hik]
    exact hholds.var hk
  · refine Node.vars_all_evalEach _ (fun hassigned => hx ?_) _
    obtain ⟨id, hid, rfl⟩ := mem_map.mp (Node.targetsAll_subset _ hassigned)
    obtain ⟨i, -, hi⟩ := h.exists_place hexternals hid
    exact mem_of_getElem? hi

variable (hsections : ∀ s ∈ p.assembled.writtenSections, s.body.length < 2 ^ 32)

include hsections

/-- An input is loaded into every engine that has the variables. -/
theorem load (he : Serves e vars) (hnames : ∀ x ∈ names, x ∈ vars) :
    e.load p.assembled.encode = (.ok [functionName], e.withProgram p (names.map vars.idxOf)) := by
  rw [← h.functions]
  refine load_assembled (h.readable hsections) ?_ ?_
  · rw [hexternals, mapM_map]
    exact mapM_eq_some fun x hx => he.externalCell? (hnames x hx)
  · -- No pool of a session has a name that modules get.
    have hname : poolName ≠ e.nextName := by
      intro heq
      have hfirst := congrArg List.head? heq
      rw [nextName, head?_append_of_ne_nil _ (by decide)] at hfirst
      exact absurd hfirst (by decide)
    simpa [poolNames, he.pools] using hname.symm

variable {input : Input}

/-- An input that is compiled to a module of readable size is run to its end. -/
theorem exists_run (he : Serves e vars)
    (hcompile : compile (inputOptions vars input.text) = .ok p.assembled.encode)
    (hnodup : names.Nodup) (hnames : names ⊆ vars) (hshown : input.shown ∈ vars)
    (hcalls : CallsOnce p names (valueIn e vars) e.random value random) :
    ∃ e', run ⟨poolName, vars⟩ input e = (.ok ⟨input.shown, value input.shown⟩, e') ∧
      Serves e' vars ∧ valueIn e' vars = value ∧ e'.random = random := by
  obtain ⟨e', hcall, hserves, hvalue, hrandom⟩ := h.exists_call he hnodup hnames hcalls
  have hlast :
      (e.withProgram p (names.map vars.idxOf)).instances.length - 1 = e.instances.length := by
    simp [withProgram]
  refine ⟨e'.close e.instances.length, ?_, ⟨hserves.host, hserves.pools, hserves.size⟩,
    hvalue, hrandom⟩
  have hget := hserves.get h.names hshown
  simp only [inputOptions, inputDecl] at hcompile
  unfold run
  simp only [hcompile, h.load hexternals hsections he hnames, hlast, hcall, hget, hvalue]
  rfl

end Imported

end Compiled

section Failing

variable {vars : List Bytes} {input : Input} {e : Engine}

/-- An input that is refused changes nothing in the engine. -/
theorem run_of_error {error : CompileError}
    (h : compile (inputOptions vars input.text) = .error error) :
    run ⟨poolName, vars⟩ input e = (.error (.compile error), e) := by
  simp only [inputOptions, inputDecl] at h
  simp only [run, h]

/-- Neither does one that is compiled to a module with a section of no 32-bit
length. -/
theorem exists_run_oversized {p : Program}
    (h : compile (inputOptions vars input.text) = .ok p.assembled.encode)
    (hsections : ∃ s ∈ p.assembled.writtenSections, 2 ^ 32 ≤ s.body.length) :
    ∃ error, run ⟨poolName, vars⟩ input e = (.error (.engine error), e) := by
  obtain ⟨error, herror⟩ := load_oversized (e := e) hsections
  simp only [inputOptions, inputDecl] at h
  exact ⟨error, by simp only [run, h, herror]⟩

end Failing

end Eel.Session
