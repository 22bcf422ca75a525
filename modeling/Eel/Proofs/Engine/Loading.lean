import Eel.Engine.Load
import Eel.Proofs.Program.Legibility

/-!
Loading compiled programs into an engine.

The module of a program asks for the functions of the host and for variables of
pools. Where an engine has all of these variables, the program becomes an
instance: its table of functions is that of the program, and its globals are the
cells of the variables, with cells of its own behind them. A module with a
section that has no 32-bit length is refused, and the engine stays as it was.
-/

namespace Eel

open Wasm Machine HostFunction Program
open List hiding all

namespace Program

/-- The instance of a program whose globals have the given cells. -/
def toInstance (p : Program) (globals : List Nat) : Instance where
  exports := p.assembled.exports
  table := p.table
  globals
  memory := .ofPages (if p.usesMemory then memoryPages else 0)

theorem mem_exports_iff {p : Program} {x : Export} : x ∈ p.assembled.exports ↔
    ∃ k g, p.functions[k]? = some g ∧ x = ⟨g.name, .func, all.length + k⟩ := by
  simp only [assembled, mem_map, Prod.exists, mem_zipIdx_iff_getElem?]
  grind

/-- Functions are found by their names. -/
theorem find?_exports_eq_some_iff {p : Program} (hnodup : (p.functions.map (·.name)).Nodup)
    {name : Bytes} {x : Export} :
    p.assembled.exports.find? (fun x => x.name == name && x.kind == .func) = some x ↔
      ∃ k g, p.functions[k]? = some g ∧ g.name = name ∧ x = ⟨g.name, .func, all.length + k⟩ := by
  have hkind :
      ∀ x ∈ p.assembled.exports, (x.name == name && x.kind == .func) = (x.name == name) := by
    intro x hx
    obtain ⟨k, g, -, rfl⟩ := mem_exports_iff.mp hx
    exact Bool.and_true _
  rw [← p.names_exports] at hnodup
  rw [find?_congr hkind, find?_key_eq_some_iff hnodup, mem_exports_iff]
  grind

end Program

namespace Engine

variable {e : Engine} {p : Program} {cells : List Nat}

/-- The cell of a variable that a program imports. -/
def externalCell? (e : Engine) (x : Bytes × Bytes) : Option Nat :=
  e.importedCell? (externalImport x) externalType

/-- The engine behind a program that was loaded, the imported variables of which
have the given cells. -/
def withProgram (e : Engine) (p : Program) (cells : List Nat) : Engine := { e with
  cells := e.cells ++ (List.replicate p.globals Double.zero).toArray
  taken := e.taken + 1
  instances := e.instances ++ [p.toInstance (cells ++ List.range' e.cells.size p.globals)] }

theorem importedFunction?_assembled (f : HostFunction) :
    importedFunction? p.assembled (hostImport f) (signatures.idxOf (hostType f)) = some f := by
  simp [importedFunction?, hostImport, ofName?_name, types_hostType, guard]

/-- What the imports of a program lead to: all functions of the host, and the
cells of its variables, if all of these are there. -/
theorem bindImports?_assembled (e : Engine) (p : Program) :
    e.bindImports? p.assembled p.assembled.imports =
      (p.externals.mapM e.externalCell?).map (all, ·) := by
  have hhosts (hosts : List HostFunction) :
      e.bindImports? p.assembled (hosts.map hostImport) = some (hosts, []) := by
    induction hosts with
    | nil => rfl
    | cons f rest ih =>
      change (importedFunction? p.assembled (hostImport f) _).bind _ = _
      rw [importedFunction?_assembled]
      change (e.bindImports? p.assembled (rest.map hostImport)).bind _ = _
      rw [ih]
      rfl
  have hall (externals : List (Bytes × Bytes)) :
      e.bindImports? p.assembled (externals.map externalImport ++ all.map hostImport) =
        (externals.mapM e.externalCell?).map (all, ·) := by
    induction externals with
    | nil => exact hhosts _
    | cons x rest ih =>
      rw [mapM_cons]
      change (e.externalCell? x).bind _ = _
      cases e.externalCell? x with
      | none => rfl
      | some cell =>
        change (e.bindImports? p.assembled (rest.map _ ++ _)).bind _ = _
        rw [ih]
        cases rest.mapM e.externalCell? <;> rfl
  exact hall p.externals

/-- The functions of a module are found as they run. -/
theorem codeOf?_assembled (h : p.Readable) :
    p.assembled.functions.mapM (codeOf? p.assembled) =
      some (p.functions.map (·.toCode) ++ p.routines.map (·.toCode)) := by
  have hfunction (f : Function) {code : List Instr} {type : FuncType}
      (hbody : f.body = Instr.bytesAll code)
      (hcode : code ∈ p.bodies) (htype : p.assembled.types[f.type]? = some type) :
      codeOf? p.assembled f =
        some ⟨type.params.length, type.results.length, f.locals.map .initial, code⟩ := by
    have hread := Instr.ofBytes?_bytesAll (h.bodies code hcode)
    rw [← hbody] at hread
    simp [codeOf?, htype, hread]
  have hexported (g : ProgramFunction) (hg : g ∈ p.functions) :
      (codeOf? p.assembled ∘ exportedFunction) g = some g.toCode :=
    hfunction (exportedFunction g) rfl (mem_append_left _ (mem_map_of_mem hg)) types_exportType
  have hroutine (r : Routine) (hr : r ∈ p.routines) :
      (codeOf? p.assembled ∘ routineFunction) r = some r.toCode :=
    hfunction (routineFunction r) rfl (mem_append_right _ (mem_map_of_mem hr)) (types_routine hr)
  change (p.functions.map exportedFunction ++ p.routines.map routineFunction).mapM _ = _
  rw [mapM_append, mapM_map, mapM_map, mapM_eq_some hexported, mapM_eq_some hroutine]
  rfl

/-- A program that can be read is bound to the variables of an engine that has
all of them, unless its name is taken. -/
theorem instantiate?_assembled (h : p.Readable) :
    e.instantiate? p.assembled = if e.nextName ∈ e.poolNames then none
      else (p.externals.mapM e.externalCell?).map fun cells =>
        { e.withProgram p cells with taken := e.taken } := by
  have hany : e.pools.any (·.declared.name == e.nextName) = decide (e.nextName ∈ e.poolNames) := by
    rw [Bool.eq_iff_iff]
    simp [poolNames]
  have hmemory : p.assembled.memories = if p.usesMemory then [⟨memoryPages, some memoryPages⟩]
    else [] := rfl
  have hglobals : p.assembled.globals = List.replicate p.globals ⟨true, .zero⟩ := rfl
  unfold instantiate?
  rw [hany, bindImports?_assembled, codeOf?_assembled h, hmemory, hglobals]
  by_cases hname : e.nextName ∈ e.poolNames
  · simp [hname, guard]
  · cases p.externals.mapM e.externalCell? with
    | none => simp [hname, guard]
    | some cells =>
      unfold withProgram toInstance table
      cases p.usesMemory with
      | false => simp [hname, guard, Function.comp_def]
      | true => simp [hname, guard, Function.comp_def]

section Load

/-- What is read is loaded if it can be bound. -/
theorem load_of_readable (h : p.Readable) : e.load p.assembled.encode =
    if e.nextName ∈ e.poolNames then (.error .instantiation, { e with taken := e.taken + 1 })
    else (p.externals.mapM e.externalCell?).elim
      (.error .instantiation, { e with taken := e.taken + 1 })
      fun cells => (.ok (p.functions.map (·.name)), e.withProgram p cells) := by
  have hnames :
      (p.assembled.exports.filter (·.kind == .func)).map (·.name) = p.functions.map (·.name) := by
    rw [filter_eq_self.mpr, p.names_exports]
    intro x hx
    obtain ⟨g, -, rfl⟩ := mem_map.mp hx
    rfl
  unfold load
  rw [h.exports, h.decode]
  simp only [Option.filter_some, h.valid, if_true, instantiate?_assembled h, hnames]
  by_cases hname : e.nextName ∈ e.poolNames
  · simp only [hname, if_true]
  · simp only [hname, if_false]
    cases p.externals.mapM e.externalCell? <;> rfl

/-- What is not read is refused. -/
theorem load_of_unread {bin : Bytes} (h : Module.decode? bin = none) :
    ∃ error, e.load bin = (.error error, e) := by
  unfold load
  rw [h]
  cases exports bin with
  | error error => exact ⟨_, rfl⟩
  | ok exported => exact ⟨_, rfl⟩

/-- A program is loaded into an engine that has its variables, with the names of
its functions as the answer. -/
theorem load_assembled (h : p.Readable) (hcells : p.externals.mapM e.externalCell? = some cells)
    (hname : e.nextName ∉ e.poolNames) :
    e.load p.assembled.encode = (.ok (p.functions.map (·.name)), e.withProgram p cells) := by
  rw [load_of_readable h, if_neg hname, hcells]
  rfl

/-- A module with a section that has no 32-bit length is refused. -/
theorem load_oversized {m : Module} (h : ∃ s ∈ m.writtenSections, 2 ^ 32 ≤ s.body.length) :
    ∃ error, e.load m.encode = (.error error, e) :=
  load_of_unread (Module.decode?_encode_eq_none h)

end Load

end Engine

end Eel
