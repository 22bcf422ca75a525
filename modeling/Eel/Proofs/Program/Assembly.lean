import Eel.Proofs.Program.Typing

/-!
The module of a program, field by field.

A module is put together by adding one thing after another. What comes out is
said here at once: the imports, the functions with the numbers of their
signatures, and the exports. No import is refused.
-/

namespace Eel.Program

open Wasm HostFunction Module
open List hiding all

variable {m : Module} {seen : List Routine}

/-- The signatures of the functions of a program, in the order in which they are
first needed. -/
def signatures : List FuncType :=
  [⟨[.f64], [.f64]⟩, ⟨[.f64, .f64], [.f64]⟩, exportType, ⟨[.f64], [.i32]⟩]

def externalImport (x : Bytes × Bytes) : Import := ⟨x.1, x.2, .global externalType⟩

def hostImport (f : HostFunction) : Import :=
  ⟨moduleName, f.name, .func (signatures.idxOf (hostType f))⟩

def exportedFunction (f : ProgramFunction) : Function :=
  ⟨signatures.idxOf exportType, f.locals, Instr.bytesAll f.code⟩

def routineFunction (r : Routine) : Function :=
  ⟨signatures.idxOf r.type, r.locals, Instr.bytesAll r.code⟩

/-- The last signature is that of routines which test or look for a slot. -/
def typeCount (routines : List Routine) : Nat :=
  if routines.any (·.type = ⟨[.f64], [.i32]⟩) then 4 else 3

/-- The module of a program. -/
def assembled (p : Program) : Module where
  types := signatures.take (typeCount p.routines)
  imports := p.externals.map externalImport ++ all.map hostImport
  functions := p.functions.map exportedFunction ++ p.routines.map routineFunction
  memories := if p.usesMemory then [⟨memoryPages, some memoryPages⟩] else []
  globals := List.replicate p.globals ⟨true, .zero⟩
  exports := p.functions.zipIdx.map fun f => ⟨f.1.name, .func, all.length + f.2⟩

theorem withExternals_eq (externals : List (Bytes × Bytes)) (h : m.globals = []) :
    withExternals externals m =
      .ok { m with imports := m.imports ++ externals.map externalImport } := by
  induction externals generalizing m with
  | nil => simp [withExternals, pure, Except.pure]
  | cons x rest ih =>
    have himport : m.importGlobal x.1 x.2 externalType =
        .ok (m.importedGlobals, { m with imports := m.imports ++ [externalImport x] }) := by
      simp [importGlobal, h, externalImport]
    have hrest := @ih { m with imports := m.imports ++ [externalImport x] } h
    rw [withExternals, foldlM_cons]
    change ((·.2) <$> m.importGlobal x.1 x.2 externalType) >>= withExternals rest = _
    rw [himport]
    change withExternals rest _ = _
    rw [hrest, append_assoc]
    rfl

theorem withHostFunctions_eq (imports : List Import) :
    withHostFunctions { imports } =
      .ok { types := signatures.take 2, imports := imports ++ all.map hostImport } := by
  have hfold : withHostFunctions { imports } = .ok {
      types := signatures.take 2
      imports := all.foldl (fun imports f => imports ++ [hostImport f]) imports } := rfl
  rw [hfold, foldl_append_eq_append]
  rfl

theorem withGlobals_eq (count : Nat) (m : Module) :
    withGlobals count m =
      { m with globals := m.globals ++ List.replicate count ⟨true, .zero⟩ } := by
  induction count generalizing m with
  | zero => simp [withGlobals]
  | succ count ih =>
    rw [withGlobals, ih]
    simp [addGlobal, replicate_succ]

theorem withFunctions_eq (type : Nat) (fs : List ProgramFunction) (m : Module) :
    fs.foldl (withFunction type) m = { m with
      functions := m.functions ++ fs.map fun f => ⟨type, f.locals, Instr.bytesAll f.code⟩
      exports := m.exports ++
        (fs.zipIdx m.functions.length).map fun f => ⟨f.1.name, .func, m.importedFuncs + f.2⟩ } := by
  induction fs generalizing m with
  | nil => simp
  | cons f rest ih =>
    rw [foldl_cons, ih]
    simp [withFunction, addFunction, addExport, importedFuncs]

/-- A signature that is there is found, and the last one is added when it is
first needed. -/
theorem withRoutine_eq (h : m.types = signatures.take (typeCount seen)) (r : Routine) :
    withRoutine m r = { m with
      types := signatures.take (typeCount (seen ++ [r]))
      functions := m.functions ++ [routineFunction r] } := by
  have hcount : typeCount (seen ++ [r]) = max (typeCount seen) (typeCount [r]) := by
    simp only [typeCount, any_append]
    cases seen.any (·.type = ⟨[.f64], [.i32]⟩) <;> cases [r].any (·.type = ⟨[.f64], [.i32]⟩) <;> rfl
  obtain ⟨types, imports, functions, memories, globals, exports⟩ := m
  obtain rfl : types = _ := h
  rw [hcount]
  unfold typeCount
  cases seen.any (·.type = ⟨[.f64], [.i32]⟩) <;> cases r <;> rfl

theorem withRoutines_eq (routines : List Routine) (h : m.types = signatures.take (typeCount seen)) :
    routines.foldl withRoutine m = { m with
      types := signatures.take (typeCount (seen ++ routines))
      functions := m.functions ++ routines.map routineFunction } := by
  induction routines generalizing m seen with
  | nil => simp [← h]
  | cons r rest ih =>
    rw [foldl_cons, withRoutine_eq h r, ih rfl]
    simp

theorem countP_imports (externals : List (Bytes × Bytes)) :
    (externals.map externalImport ++ all.map hostImport).countP (·.isFunc) =
      all.length := by
  have hexternals : (externals.map externalImport).countP (·.isFunc) = 0 := by
    simp [countP_eq_zero, externalImport, Import.isFunc]
  rw [countP_append, hexternals]
  rfl

theorem typeIndex_exportType (h : m.types = signatures.take 2) :
    m.typeIndex exportType =
      (signatures.idxOf exportType, { m with types := signatures.take (typeCount []) }) := by
  obtain ⟨types, imports, functions, memories, globals, exports⟩ := m
  obtain rfl : types = _ := h
  rfl

/-- A program always has a module, and this is the one. -/
theorem toModule_eq (p : Program) : p.toModule = .ok p.assembled := by
  have hok {α β : Type} (a : α) (f : α → Except Refusal β) : (Except.ok a >>= f) = f a := rfl
  rw [toModule, withExternals_eq p.externals rfl, hok]
  simp only [nil_append]
  rw [withHostFunctions_eq, hok, withGlobals_eq,
    typeIndex_exportType (by cases p.usesMemory <;> rfl)]
  dsimp only
  rw [withFunctions_eq, withRoutines_eq p.routines rfl]
  have hfuncs := countP_imports p.externals
  cases hmemory : p.usesMemory <;>
    simp [assembled, hmemory, withMemory, addMemory, importedFuncs, hfuncs, exportedFunction, pure,
      Except.pure]

section Index

variable {p : Program}

theorem types_hostType (f : HostFunction) :
    p.assembled.types[signatures.idxOf (hostType f)]? = some (hostType f) := by
  change (signatures.take (typeCount p.routines))[_]? = _
  unfold typeCount
  cases p.routines.any (·.type = ⟨[.f64], [.i32]⟩) <;> cases f <;> rfl

theorem types_exportType : p.assembled.types[signatures.idxOf exportType]? = some exportType := by
  change (signatures.take (typeCount p.routines))[_]? = _
  unfold typeCount
  cases p.routines.any (·.type = ⟨[.f64], [.i32]⟩) <;> rfl

theorem types_routine {r : Routine} (h : r ∈ p.routines) :
    p.assembled.types[signatures.idxOf r.type]? = some r.type := by
  change (signatures.take (typeCount p.routines))[_]? = _
  unfold typeCount
  cases hany : p.routines.any (·.type = ⟨[.f64], [.i32]⟩) with
  | true => cases r <;> rfl
  | false =>
    have hr : r.type ≠ ⟨[.f64], [.i32]⟩ := by simpa using any_eq_false.mp hany r h
    cases r <;> first | rfl | exact absurd rfl hr

theorem mapM_eq_some {α β : Type} {f : α → Option β} {g : α → β} {xs : List α}
    (h : ∀ x ∈ xs, f x = some (g x)) : xs.mapM f = some (xs.map g) := by
  induction xs with
  | nil => rfl
  | cons x xs ih =>
    simp only [mem_cons, forall_eq_or_imp] at h
    rw [mapM_cons, h.1, ih h.2]
    rfl

theorem filterMap_externals {f : Import → Option GlobalType}
    (h : ∀ x, f (externalImport x) = some externalType) (externals : List (Bytes × Bytes)) :
    (externals.map externalImport).filterMap f = List.replicate externals.length externalType := by
  have hf : f ∘ externalImport = some ∘ fun _ => externalType := funext h
  rw [filterMap_map, hf, filterMap_eq_map]
  exact map_const' ..

/-- The globals are doubles that can be set: first the imported ones, then those
of the program. -/
theorem globalTypes_assembled :
    p.assembled.globalTypes = List.replicate (p.externals.length + p.globals) externalType := by
  rw [globalTypes, assembled, filterMap_append, filterMap_externals fun _ => rfl,
    map_replicate, replicate_add]
  exact congrArg (· ++ _) (append_nil _)

theorem filterMapM_imports {g : Import → Option (Option FuncType)}
    (hexternal : ∀ x, g (externalImport x) = some none)
    (hhost : ∀ f, g (hostImport f) = some (some (hostType f))) (externals : List (Bytes × Bytes))
    (hosts : List HostFunction) :
    (externals.map externalImport ++ hosts.map hostImport).filterMapM g =
      some (hosts.map hostType) := by
  induction externals with
  | nil =>
    induction hosts with
    | nil => rfl
    | cons f rest ih =>
      simp only [map_nil, nil_append] at ih ⊢
      rw [map_cons, filterMapM_cons, hhost, map_cons]
      simp only [Option.bind_eq_bind, Option.bind_some, ih]
      rfl
  | cons x rest ih =>
    rw [map_cons, cons_append, filterMapM_cons, hexternal]
    exact ih

/-- The functions are those of the host, then the exported ones, then the
routines. -/
theorem funcTypes_assembled :
    p.assembled.funcTypes? = some (all.map hostType ++
      (List.replicate p.functions.length exportType ++ p.routines.map (·.type))) := by
  have hhost (f : HostFunction) : (p.assembled.types[signatures.idxOf (hostType f)]?).bind
      (fun type => some (some type)) = some (some (hostType f)) := by
    rw [types_hostType]
    rfl
  have hfunctions : p.assembled.functions.mapM (fun f => p.assembled.types[f.type]?) =
      some (List.replicate p.functions.length exportType ++ p.routines.map (·.type)) := by
    have hexports : (p.functions.map exportedFunction).mapM (fun f => p.assembled.types[f.type]?) =
        some (p.functions.map fun _ => exportType) := by
      rw [mapM_map]
      exact mapM_eq_some fun _ _ => types_exportType
    have hroutines : (p.routines.map routineFunction).mapM (fun f => p.assembled.types[f.type]?) =
        some (p.routines.map (·.type)) := by
      rw [mapM_map]
      exact mapM_eq_some fun _ hr => types_routine hr
    change (p.functions.map exportedFunction ++ p.routines.map routineFunction).mapM _ = _
    rw [mapM_append, hexports, hroutines, map_const']
    rfl
  rw [funcTypes?, hfunctions]
  change ((p.externals.map externalImport ++ all.map hostImport).filterMapM _ >>= _) = _
  rw [filterMapM_imports (fun _ => rfl) hhost]
  rfl

end Index

end Eel.Program
