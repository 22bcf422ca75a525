import Eel.Proofs.Program.Sizes
import Eel.Proofs.Program.Linking

/-!
Programs whose modules can be read.

A section counts its bytes with 32 bits. If those of a program's module do, then
so do all numbers in it: there are fewer functions, globals and locals than
bytes. So a decoder finds the module in its bytes, the instructions of its
functions in theirs, and all of it is well typed.
-/

namespace Eel

open Wasm Lowering Module HostFunction
open List hiding all sections

variable {g : ProgramFunction} {f : Function}

/-- A function whose code is accepted and found in its bytes is well typed. -/
theorem Wasm.Module.isTyped_of_accepts {m : Module} {functions : List FuncType} {code : List Instr}
    (h : m.Accepts functions f code) (hcode : Instr.areLegible code = true) :
    m.isTyped functions f = true := by
  obtain ⟨hbody, type, htype, htypes⟩ := h
  obtain ⟨o, hcheck, hexact⟩ := htypes.leaves
  have hread := Instr.ofBytes?_bytesAll hcode
  rw [← hbody] at hread
  simp only [context] at hcheck
  simp only [isTyped, htype, hread, hcheck, hexact]

namespace Lowering

variable {externals : Numbering Bytes} {routineBase : Nat} {d d' : Draft}

/-- Functions whose variables are all declared add no globals. -/
theorem globals_of_mapM_lower {fs : List Prepared} {gs : List ProgramFunction}
    (hdeclared : ∀ f ∈ fs, ∀ x ∈ Node.mentionsAll f.body, (f.pool.find? x.name).isSome)
    (h : fs.mapM (Prepared.lower externals routineBase) d = .ok (gs, d')) :
    d'.globals = d.globals := by
  induction fs generalizing d gs with
  | nil =>
    rw [mapM_nil, pure_eq_ok] at h
    rw [h.2]
  | cons f fs ih =>
    simp only [mapM_cons, bind_eq_ok, pure_eq_ok] at h
    obtain ⟨g, d₁, hlower, gs', d₂, hrest, -, rfl⟩ := h
    obtain ⟨hcode, -⟩ := lowerPrepared_eq_ok hlower
    have hsized := (emits_of_lowerStatements _ f.body hcode).builds.sized
    rw [ih (fun f hf => hdeclared f (mem_cons_of_mem _ hf)) hrest]
    exact hsized.globals (hdeclared f mem_cons_self)

end Lowering

namespace Program

variable {p : Program} {fs : List Prepared} {final : Draft}

/-- That a program comes from functions that have left a draft behind, each of
which started without locals. -/
structure Measured (p : Program) (fs : List Prepared) (final : Draft) :
    Prop extends p.Drafted fs final where
  sized : ∀ g ∈ p.functions, ∃ f d d', d.locals = [] ∧
    Sized (scopeOf fs f) (Node.mentionsAll f.body) d g.code d' ∧
    g.locals = d'.locals ∧ d'.Within final
  declared : (∀ f ∈ live fs, ∀ x ∈ Node.mentionsAll f.body, (f.pool.find? x.name).isSome) →
    p.globals = 0

theorem measured_of_mapM
    (hmap : (live fs).mapM (Prepared.lower (externalsOf fs) (all.length + (live fs).length)) {} =
      .ok (p.functions, final)) (hdrafted : p.Drafted fs final) : p.Measured fs final := by
  obtain ⟨-, hlength, hall⟩ := mapM_lower_eq_ok hmap
  refine ⟨hdrafted, ?_, ?_⟩
  · intro g hg
    obtain ⟨i, hi⟩ := getElem?_of_mem hg
    have hlt : i < (live fs).length := hlength ▸ (List.getElem?_eq_some_iff.mp hi).1
    obtain ⟨g', d, d', hg', hlower, hfinal⟩ := hall (getElem?_eq_getElem hlt)
    obtain rfl : g = g' := Option.some.inj (hi.symm.trans hg')
    obtain ⟨hcode, hlocals⟩ := lowerPrepared_eq_ok hlower
    exact ⟨_, _, d', rfl, (emits_of_lowerStatements _ _ hcode).builds.sized, hlocals, hfinal⟩
  · intro hdeclared
    rw [hdrafted.globals, globals_of_mapM_lower hdeclared hmap]
    rfl

theorem measured_of_ofPrepared (h : ofPrepared fs = .ok p) : ∃ final, p.Measured fs final := by
  obtain ⟨final, hmap, hexternals, hglobals, hmemory, hroutines⟩ := ofPrepared_eq_ok h
  exact ⟨final, measured_of_mapM hmap (drafted_of_mapM hmap hexternals hglobals hmemory hroutines)⟩

namespace Measured

variable (h : p.Measured fs final)

include h

/-- A function has no more locals than bytes. -/
theorem locals_function (hg : g ∈ p.functions) :
    g.locals.length ≤ (Instr.bytesAll g.code).length ∧ ∀ t ∈ g.locals, t.IsKnown := by
  obtain ⟨f, d, d', hnone, hsized, hlocals, -⟩ := h.sized g hg
  obtain ⟨added, hadded, hlength, hknown⟩ := hsized.locals
  rw [hlocals, hadded, hnone]
  exact ⟨hlength, hknown⟩

theorem areLegible_function (hglobals : p.externals.length + p.globals ≤ 2 ^ 32)
    (hfunctions : all.length + p.functions.length + p.routines.length ≤ 2 ^ 32)
    (hg : g ∈ p.functions) (hlocals : g.locals.length ≤ 2 ^ 32) :
    Instr.areLegible g.code = true := by
  obtain ⟨f, d, d', -, hsized, hd, hwithin⟩ := h.sized g hg
  apply hsized.legible
  have hexternals : p.externals.length = (externalsOf fs).size := h.length_externals
  have hbound := hwithin.globals.length_le
  have hbound' := hwithin.routines.length_le
  rw [h.globals] at hglobals
  rw [h.length, h.routines] at hfunctions
  constructor
  · change (externalsOf fs).size + d'.globals.names.length ≤ _
    rw [Numbering.size] at hglobals
    omega
  · change all.length + (live fs).length + d'.routines.names.length ≤ _
    omega
  · rwa [← hd]

end Measured

section Counts

variable (hsections : ∀ s ∈ p.assembled.writtenSections, s.body.length < 2 ^ 32)

include hsections

/-- Imports and globals have two bytes at least. -/
theorem globals_le : p.externals.length + p.globals ≤ 2 ^ 32 := by
  have himport (i : Import) : 2 ≤ i.bytes.length := by
    have hmodule := length_pos_of_ne_nil (unsigned_ne_nil i.moduleName.length)
    have hname := length_pos_of_ne_nil (unsigned_ne_nil i.name.length)
    simp only [Import.bytes, nameBytes, length_append]
    omega
  have hglobal (g : Global) : 2 ≤ g.bytes.length := by
    simp only [Global.bytes, GlobalType.bytes, length_append, length_cons]
    omega
  obtain ⟨himports, hglobals, -⟩ := length_items_lt hsections
  have hcount := mul_length_le_flatMap himport p.assembled.imports
  have hcount' := mul_length_le_flatMap hglobal p.assembled.globals
  have hexternals : p.assembled.imports.length = p.externals.length + all.length := by
    simp [assembled]
  have hown : p.assembled.globals.length = p.globals := length_replicate
  omega

/-- So have the bodies of functions, behind their lengths. -/
theorem functions_lt : 2 * (p.functions.length + p.routines.length) < 2 ^ 32 := by
  have hfunction (f : Function) : 2 ≤ f.bytes.length := by
    have hlength := length_pos_of_ne_nil (unsigned_ne_nil (bodyBytes f.locals f.body).length)
    simp only [Function.bytes, bodyBytes, length_append, length_singleton] at hlength ⊢
    omega
  obtain ⟨-, -, -, hfunctions⟩ := length_items_lt hsections
  have hcount := mul_length_le_flatMap hfunction p.assembled.functions
  have hbodies : p.assembled.functions.length = p.functions.length + p.routines.length := by
    simp [assembled]
  omega

/-- The bytes of a body are fewer than those of its section. -/
theorem length_body_lt (hf : f ∈ p.assembled.functions) : f.body.length < 2 ^ 32 := by
  obtain ⟨-, -, -, hfunctions⟩ := length_items_lt hsections
  have hlt := Nat.lt_of_le_of_lt (length_le_flatMap_of_mem hf Function.bytes) hfunctions
  simp only [Function.bytes, bodyBytes, length_append] at hlt
  omega

theorem export_index_lt : ∀ e ∈ p.assembled.exports, e.index < 2 ^ 32 := by
  intro e he
  have hfunctions := functions_lt hsections
  have hhosts : all.length = 13 := rfl
  obtain ⟨g, hg, rfl⟩ := mem_map.mp he
  have hindex := snd_lt_of_mem_zipIdx hg
  change all.length + g.2 < 2 ^ 32
  omega

end Counts

theorem idxOf_signatures_lt (t : FuncType) : signatures.idxOf t < 2 ^ 32 := by
  have hle : signatures.idxOf t ≤ signatures.length := idxOf_le_length
  have hlength : signatures.length = 4 := rfl
  omega

theorem legible_signatures : ∀ t ∈ signatures, t.Legible := by
  have hi32 := ValType.isKnown_i32
  have hf64 := ValType.isKnown_f64
  intro t ht
  fin_cases ht <;> constructor <;> simp [exportType, hi32, hf64]

/-- A program has one memory or none. -/
theorem memories_cases (p : Program) :
    p.assembled.memories = [] ∨ p.assembled.memories = [⟨memoryPages, some memoryPages⟩] := by
  rw [assembled]
  cases p.usesMemory with
  | false => exact .inl rfl
  | true => exact .inr rfl

theorem names_exports (p : Program) :
    p.assembled.exports.map (·.name) = p.functions.map (·.name) := by
  have hname :
      (Export.name ∘ fun f : ProgramFunction × Nat => ⟨f.1.name, .func, all.length + f.2⟩) =
        ProgramFunction.name ∘ Prod.fst := rfl
  rw [assembled, map_map, hname, ← map_map, zipIdx_map_fst]

/-- That all of a program is found in the bytes of its module. -/
structure Readable (p : Program) : Prop where
  decode : decode? p.assembled.encode = some p.assembled
  exports : Wasm.exports p.assembled.encode = .ok p.assembled.exports
  valid : p.assembled.isValid = true
  bodies : ∀ code ∈ p.bodies, Instr.areLegible code = true

section Legible

variable (h : p.Measured fs final)
  (hsections : ∀ s ∈ p.assembled.writtenSections, s.body.length < 2 ^ 32)

include h hsections

theorem Measured.locals_lt (hg : g ∈ p.functions) : g.locals.length < 2 ^ 32 := by
  have hmem : exportedFunction g ∈ p.assembled.functions := mem_append_left _ (mem_map_of_mem hg)
  exact Nat.lt_of_le_of_lt (h.locals_function hg).1 (length_body_lt hsections hmem)

/-- The bodies of a program are found in their bytes. -/
theorem Measured.areLegible_bodies : ∀ code ∈ p.bodies, Instr.areLegible code = true := by
  have hfunctions := functions_lt hsections
  have hhosts : all.length = 13 := rfl
  refine forall_mem_append.mpr ⟨forall_mem_map.mpr fun g hg => ?_, forall_mem_map.mpr fun r _ => ?_⟩
  · exact h.areLegible_function (globals_le hsections) (by omega) hg
      (Nat.le_of_lt (h.locals_lt hsections hg))
  · exact r.areLegible_code

/-- The module of a program is valid, if its functions have different names. -/
theorem Measured.isValid_assembled (hnames : (p.functions.map (·.name)).Nodup) :
    p.assembled.isValid = true := by
  have htypes : p.assembled.funcTypes? = some p.functionTypes := funcTypes_assembled
  have hcount : p.functionTypes.length = all.length + (p.functions.length + p.routines.length) := by
    simp [functionTypes]
  have hmemories :
      p.assembled.memories.length ≤ 1 ∧ p.assembled.memories.all Limits.isValid = true := by
    rcases p.memories_cases with hnone | hone
    · rw [hnone]
      exact ⟨Nat.zero_le 1, rfl⟩
    · rw [hone]
      exact ⟨Nat.le_refl 1, by decide⟩
  have htargets :
      p.assembled.exports.all (p.assembled.hasTarget p.functionTypes.length) = true := by
    refine all_eq_true.mpr fun e he => ?_
    obtain ⟨g, hg, rfl⟩ := mem_map.mp he
    have hindex := snd_lt_of_mem_zipIdx hg
    rw [hasTarget, if_pos rfl, decide_eq_true_eq]
    change all.length + g.2 < _
    omega
  have htyped : p.assembled.functions.all (p.assembled.isTyped p.functionTypes) = true := by
    refine all_eq_true.mpr fun f hf => ?_
    obtain ⟨code, hcode, haccepts⟩ := exists_of_forall₂ h.bodies_accepted.flip f hf
    exact isTyped_of_accepts haccepts (h.areLegible_bodies hsections code hcode)
  rw [isValid, htypes]
  simp only [hmemories, htargets, p.names_exports, hnames, htyped, decide_true, Bool.and_self]

variable (hexternals : ∀ x ∈ p.externals, Text.isValid x.1 = true ∧ Text.isValid x.2 = true)
  (hnames : ∀ g ∈ p.functions, Text.isValid g.name = true)

include hexternals hnames

/-- The module of a program is found in its bytes, if its names are text. -/
theorem Measured.legible_assembled : p.assembled.Legible where
  sections := hsections
  types := fun t ht => legible_signatures t (mem_of_mem_take ht)
  imports := by
    refine forall_mem_append.mpr
      ⟨forall_mem_map.mpr fun x hx => ?_, forall_mem_map.mpr fun f _ => ?_⟩
    · exact ⟨(hexternals x hx).1, (hexternals x hx).2, ValType.isKnown_f64⟩
    · have hmodule : Token.isLowerName moduleName = true := by decide
      have hname : Token.isLowerName f.name = true := by cases f <;> decide
      exact ⟨Token.isValid_of_isLowerName hmodule, Token.isValid_of_isLowerName hname,
        idxOf_signatures_lt _⟩
  functions := by
    refine forall_mem_append.mpr
      ⟨forall_mem_map.mpr fun g hg => ?_, forall_mem_map.mpr fun r _ => ?_⟩
    · exact ⟨idxOf_signatures_lt exportType, (h.locals_function hg).2, h.locals_lt hsections hg⟩
    · refine ⟨idxOf_signatures_lt _, ?_, ?_⟩
      · cases r <;> simp [routineFunction, Routine.locals, ValType.isKnown_i32]
      · cases r <;> simp [routineFunction, Routine.locals]
  memories := by
    have hpages : memoryPages < 2 ^ 32 := by decide
    rcases p.memories_cases with hnone | hone
    · simp [hnone]
    · simpa [hone] using ⟨hpages, fun n hn => Option.some.inj hn ▸ hpages⟩
  exports := by
    intro e he
    refine ⟨?_, export_index_lt hsections e he⟩
    obtain ⟨g, hg, rfl⟩ := mem_map.mp he
    exact hnames g.1 (fst_mem_of_mem_zipIdx hg)

/-- The names of the functions are found in the bytes. -/
theorem Measured.exports_assembled : Wasm.exports p.assembled.encode = .ok p.assembled.exports := by
  have hlegible := h.legible_assembled hsections hexternals hnames
  have hcount : p.assembled.exports.length = p.functions.length := by simp [assembled]
  have hfunctions := functions_lt hsections
  obtain ⟨-, -, hexports, -⟩ := length_items_lt hsections
  refine exports_encode_of_fits (by omega) (fun e he => ⟨?_, (hlegible.exports e he).index⟩)
    (length_encode_lt hsections)
  have hname := Nat.lt_of_le_of_lt (length_le_flatMap_of_mem he Export.bytes) hexports
  simp only [Export.bytes, nameBytes, length_append] at hname
  omega

/-- Programs whose names are text can be read, up to the size at which a section
has no 32-bit length. -/
theorem Measured.readable (hnodup : (p.functions.map (·.name)).Nodup) : p.Readable where
  decode := decode?_encode (h.legible_assembled hsections hexternals hnames)
  exports := h.exports_assembled hsections hexternals hnames
  valid := h.isValid_assembled hsections hnodup
  bodies := h.areLegible_bodies hsections

end Legible

theorem import_kind_legible : ∀ i ∈ p.assembled.imports, i.kind.Legible := by
  refine forall_mem_append.mpr ⟨forall_mem_map.mpr fun x _ => ?_, forall_mem_map.mpr fun f _ => ?_⟩
  · exact ValType.isKnown_f64
  · exact idxOf_signatures_lt _

/-- A program with a name that is no text, or with a section that has no 32-bit
length, is not read at all. -/
theorem decode?_eq_none (h : ¬((∀ s ∈ p.assembled.writtenSections, s.body.length < 2 ^ 32) ∧
    (∀ x ∈ p.externals, Text.isValid x.1 = true ∧ Text.isValid x.2 = true) ∧
    ∀ g ∈ p.functions, Text.isValid g.name = true)) : decode? p.assembled.encode = none := by
  by_cases hsections : ∀ s ∈ p.assembled.writtenSections, s.body.length < 2 ^ 32
  swap
  · exact decode?_encode_eq_none (by simpa using hsections)
  by_cases hexternals : ∀ x ∈ p.externals, Text.isValid x.1 = true ∧ Text.isValid x.2 = true
  · obtain ⟨g, hg, hname⟩ : ∃ g ∈ p.functions, ¬Text.isValid g.name = true := by
      by_contra hall
      exact h ⟨hsections, hexternals, by simpa using hall⟩
    have hexport : g.name ∈ p.assembled.exports.map (·.name) := p.names_exports ▸ mem_map_of_mem hg
    obtain ⟨e, he, heq⟩ := mem_map.mp hexport
    exact decode?_eq_none_of_exports hsections (export_index_lt hsections) he (heq ▸ hname)
  · obtain ⟨x, hx, hnames⟩ :
        ∃ x ∈ p.externals, ¬(Text.isValid x.1 = true ∧ Text.isValid x.2 = true) := by
      simpa using hexternals
    have himport : externalImport x ∈ p.assembled.imports := mem_append_left _ (mem_map_of_mem hx)
    exact decode?_eq_none_of_imports hsections import_kind_legible himport hnames

end Program

end Eel
