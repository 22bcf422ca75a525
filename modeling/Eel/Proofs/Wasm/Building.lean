import Eel.Proofs.Wasm.Decoding

/-!
What was built addition by addition is read back from the bytes.

A module grows from nothing by signatures, imports, functions, globals, memories
and exports, in any order. However it was built, its sections stand one behind
the other in their fixed order, those without items left out, and readers find
in them the imports and exports that were added.
-/

namespace Eel.Wasm

open List

section Import

/-- That an import can be told from its bytes: readers keep 32 bits of a
number. -/
structure Import.Fits (i : Import) : Prop where
  moduleName : i.moduleName.length < 2 ^ 32
  name : i.name.length < 2 ^ 32
  type : ∀ {type : Nat}, i.kind = .func type → type < 2 ^ 32

theorem readImportHead_bytes {moduleName name : Bytes} (kind : ExternKind) (rest : Bytes)
    (hmodule : moduleName.length < 2 ^ 32) (hname : name.length < 2 ^ 32) :
    readImportHead (nameBytes moduleName ++ (nameBytes name ++ kind.byte :: rest)) =
      .ok ((moduleName, name, kind), rest) := by
  rw [readImportHead, bind_eq_ok]
  refine ⟨moduleName, _, name_nameBytes _ hmodule,
    bind_eq_ok.mpr ⟨name, _, name_nameBytes _ hname, ?_⟩⟩
  exact bind_eq_ok.mpr ⟨kind.byte, rest, rfl, rfl⟩

theorem readGlobalType_bytes (type : GlobalType) (rest : Bytes) :
    readGlobalType (type.bytes ++ rest) = .ok (type, rest) := by
  obtain ⟨type, isMutable⟩ := type
  cases isMutable <;> rfl

theorem readImport_bytes {i : Import} (rest : Bytes) (h : i.Fits) :
    readImport (i.bytes ++ rest) = .ok (i, rest) := by
  obtain ⟨moduleName, name, kind⟩ := i
  obtain ⟨hmodule, hname, htype⟩ := h
  cases kind with
  | func type =>
    have hhead := readImportHead_bytes .func (unsigned type ++ rest) hmodule hname
    simp only [Import.bytes, ImportKind.bytes, append_assoc, cons_append]
    refine Except.bind_eq_ok.mpr ⟨_, congrArg (Except.mapError ReadError.imports) hhead, ?_⟩
    exact Except.bind_eq_ok.mpr
      ⟨_, congrArg (Except.mapError ReadError.imports) (u32_unsigned rest (htype rfl)), rfl⟩
  | global type =>
    have hhead := readImportHead_bytes .global (type.bytes ++ rest) hmodule hname
    simp only [Import.bytes, ImportKind.bytes, append_assoc, cons_append]
    refine Except.bind_eq_ok.mpr ⟨_, congrArg (Except.mapError ReadError.imports) hhead, ?_⟩
    exact Except.bind_eq_ok.mpr
      ⟨_, congrArg (Except.mapError ReadError.imports) (readGlobalType_bytes type rest), rfl⟩

theorem readImports_bytes {is : List Import} (rest : Bytes) (h : ∀ i ∈ is, i.Fits) :
    readImports is.length (is.flatMap (·.bytes) ++ rest) = .ok is := by
  induction is with
  | nil => rfl
  | cons i is ih =>
    rw [forall_mem_cons] at h
    rw [flatMap_cons, append_assoc, length_cons, readImports]
    exact Except.bind_eq_ok.mpr
      ⟨(i, _), readImport_bytes _ h.1, Except.bind_eq_ok.mpr ⟨is, ih h.2, rfl⟩⟩

end Import

/-- The bytes of a section that is found in some bytes, with its size written as
short as can be. -/
def SectionInfo.bytesIn (bin : Bytes) (info : SectionInfo) : Bytes :=
  sectionBytes info.id ((bin.drop info.offset).take info.size.toNat)

/-- What is found of sections is what they were written as. -/
theorem Section.flatMap_bytesIn (ss : List Section) (front : Bytes) :
    (infos front.length ss).flatMap (·.bytesIn (front ++ ss.flatMap bytes)) = ss.flatMap bytes := by
  induction ss generalizing front with
  | nil => rfl
  | cons s ss ih =>
    have hrest := ih (front ++ s.bytes)
    rw [append_assoc, length_append] at hrest
    rw [infos, flatMap_cons, flatMap_cons, hrest]
    exact congrArg (sectionBytes s.id · ++ _) (s.take_body front _)

namespace Module

/-- Something to add to a module. Numbers that come from outside have 32
bits. -/
inductive Addition where
  | signature (t : FuncType)
  | importFunc (moduleName name : Bytes) (t : FuncType)
  | importGlobal (moduleName name : Bytes) (t : GlobalType)
  | function (type : UInt32) (locals : List ValType) (body : Bytes)
  | global (g : Global)
  | memory (min : UInt32) (max : Option UInt32)
  | exported (name : Bytes) (kind : ExternKind) (index : UInt32)

/-- The module with an addition, unless that is refused. -/
def perform (m : Module) : Addition → Except Refusal Module
  | .signature t => .ok (m.typeIndex t).2
  | .importFunc moduleName name t => (·.2) <$> m.importFunc moduleName name t
  | .importGlobal moduleName name t => (·.2) <$> m.importGlobal moduleName name t
  | .function type locals body => .ok (m.addFunction ⟨type.toNat, locals, body⟩).2
  | .global g => .ok (m.addGlobal g).2
  | .memory min max => .ok (m.addMemory ⟨min.toNat, max.map (·.toNat)⟩).2
  | .exported name kind index => .ok (m.addExport name kind index.toNat)

/-- The module behind an addition. One that is refused leaves the module as it
was. -/
def add (m : Module) (a : Addition) : Module :=
  match m.perform a with
  | .ok m' => m'
  | .error _ => m

/-- The module that additions build from nothing. -/
def ofAdditions (additions : List Addition) : Module := additions.foldl add {}

/-- That the signatures of imported functions are there, and that what is
exported has an index of 32 bits. -/
structure Indexed (m : Module) : Prop where
  imports : ∀ i ∈ m.imports, ∀ {type : Nat}, i.kind = .func type → type < m.types.length
  exports : ∀ e ∈ m.exports, e.index < 2 ^ 32

variable {m m' : Module} {index : Nat}

/-- Asking for a signature adds at most that signature, and gives the index of
one. -/
theorem typeIndex_eq (m : Module) (t : FuncType) : ∃ added : List FuncType,
    (m.typeIndex t).2 = { m with types := m.types ++ added } ∧
      (m.typeIndex t).1 < m.types.length + added.length := by
  unfold typeIndex
  cases hfind : m.types.findIdx? (·.key == t.key) with
  | none => exact ⟨[t], rfl, by simp⟩
  | some i =>
    obtain ⟨hlt, -⟩ := findIdx?_eq_some_iff_getElem.mp hfind
    exact ⟨[], by simp, by simpa using hlt⟩

theorem Indexed.addTypes (h : m.Indexed) (added : List FuncType) :
    Indexed { m with types := m.types ++ added } := by
  refine ⟨fun i hi type hkind => ?_, h.exports⟩
  rw [length_append]
  exact Nat.lt_add_right _ (h.imports i hi hkind)

theorem Indexed.addImport (h : m.Indexed) {i : Import}
    (hi : ∀ {type : Nat}, i.kind = .func type → type < m.types.length) :
    Indexed { m with imports := m.imports ++ [i] } := by
  refine ⟨fun j hj type hkind => ?_, h.exports⟩
  rcases mem_append.mp hj with hj | hj
  · exact h.imports j hj hkind
  · obtain rfl : j = i := mem_singleton.mp hj
    exact hi hkind

/-- An import that is not refused comes behind the others, and its signature is
there. -/
theorem importFunc_eq_ok {moduleName name : Bytes} {t : FuncType}
    (h : m.importFunc moduleName name t = .ok (index, m')) : ∃ (added : List FuncType) (type : Nat),
      m' = { m with
        types := m.types ++ added, imports := m.imports ++ [⟨moduleName, name, .func type⟩] } ∧
        type < m.types.length + added.length := by
  obtain ⟨added, htypes, hlt⟩ := m.typeIndex_eq t
  unfold importFunc at h
  split at h
  · cases h
  · cases htype : m.typeIndex t with
    | mk type m₁ =>
      rw [htype] at h htypes hlt
      obtain rfl : m₁ = _ := htypes
      exact ⟨added, type, (Prod.mk.inj (Except.ok.inj h)).2.symm, hlt⟩

theorem importGlobal_eq_ok {moduleName name : Bytes} {t : GlobalType}
    (h : m.importGlobal moduleName name t = .ok (index, m')) :
    m' = { m with imports := m.imports ++ [⟨moduleName, name, .global t⟩] } := by
  unfold importGlobal at h
  split at h
  · cases h
  · exact (Prod.mk.inj (Except.ok.inj h)).2.symm

theorem exists_of_map_eq_ok {x : Except Refusal (Nat × Module)} (h : (·.2) <$> x = .ok m') :
    ∃ index, x = .ok (index, m') := by
  cases x with
  | error refusal => cases h
  | ok r =>
    cases h
    exact ⟨r.1, rfl⟩

theorem Indexed.perform (h : m.Indexed) {a : Addition} (ha : m.perform a = .ok m') :
    m'.Indexed := by
  cases a with
  | signature t =>
    obtain ⟨added, htypes, -⟩ := m.typeIndex_eq t
    cases ha
    rw [htypes]
    exact h.addTypes added
  | importFunc moduleName name t =>
    obtain ⟨index, himport⟩ := exists_of_map_eq_ok ha
    obtain ⟨added, type, rfl, hlt⟩ := importFunc_eq_ok himport
    apply (h.addTypes added).addImport
    rintro type ⟨⟩
    simpa using hlt
  | importGlobal moduleName name t =>
    obtain ⟨index, himport⟩ := exists_of_map_eq_ok ha
    obtain rfl := importGlobal_eq_ok himport
    exact h.addImport (by simp)
  | function type locals body =>
    cases ha
    exact ⟨h.imports, h.exports⟩
  | global g =>
    cases ha
    exact ⟨h.imports, h.exports⟩
  | memory min max =>
    cases ha
    exact ⟨h.imports, h.exports⟩
  | exported name kind index =>
    cases ha
    refine ⟨h.imports, fun e he => ?_⟩
    rcases mem_append.mp he with he | he
    · exact h.exports e he
    · obtain rfl := mem_singleton.mp he
      exact index.toNat_lt

theorem Indexed.add (h : m.Indexed) (a : Addition) : (m.add a).Indexed := by
  unfold Module.add
  split
  · rename_i ha
    exact h.perform ha
  · exact h

theorem indexed_ofAdditions (additions : List Addition) : (ofAdditions additions).Indexed := by
  have hfold (additions : List Addition) :
      ∀ {m : Module}, m.Indexed → (additions.foldl Module.add m).Indexed := by
    induction additions with
    | nil => exact fun h => h
    | cons a additions ih => exact fun h => ih (h.add a)
  exact hfold additions ⟨by simp, by simp⟩

/-- That counts and lengths of names have 32 bits, and that the bytes can be
counted at all. -/
structure Countable (m : Module) : Prop where
  types : m.types.length < 2 ^ 32
  imports : m.imports.length < 2 ^ 32
  exports : m.exports.length < 2 ^ 32
  importNames : ∀ i ∈ m.imports, i.moduleName.length < 2 ^ 32 ∧ i.name.length < 2 ^ 32
  exportNames : ∀ e ∈ m.exports, e.name.length < 2 ^ 32
  size : m.encode.length < 2 ^ 63

/-- A module of less than four gibibytes can be counted with 32 bits. -/
theorem countable_of_length (h : m.encode.length < 2 ^ 32) : m.Countable := by
  have htypes : (m.types.flatMap FuncType.bytes).length ≤ m.encode.length :=
    length_flatMap_le .type (by simp [allSections])
  have himports : (m.imports.flatMap Import.bytes).length ≤ m.encode.length :=
    length_flatMap_le .imports (by simp [allSections])
  have htype (t : FuncType) : t.bytes ≠ [] := by simp [FuncType.bytes]
  have himport (i : Import) : i.bytes ≠ [] := by simp [Import.bytes, nameBytes, unsigned_ne_nil]
  have htypesCount := length_le_flatMap htype m.types
  have himportsCount := length_le_flatMap himport m.imports
  have hexportsCount := m.two_mul_length_exports_le
  refine ⟨by omega, by omega, by omega, fun i hi => ?_, fun e he => (length_name_lt he).trans h,
    h.trans (by norm_num)⟩
  have hitem : i.bytes.length ≤ m.encode.length :=
    (length_le_flatMap_of_mem hi Import.bytes).trans himports
  simp only [Import.bytes, nameBytes, length_append] at hitem
  omega

/-- How many items each section has, in the order of the sections. -/
def itemCounts (m : Module) : List (SectionId × Nat) := [
  (.type, m.types.length), (.imports, m.imports.length), (.function, m.functions.length),
  (.memory, m.memories.length), (.global, m.globals.length), (.exports, m.exports.length),
  (.code, m.functions.length)]

theorem map_allSections (m : Module) :
    m.allSections.map (fun s => (s.id, s.count)) = m.itemCounts := rfl

theorem map_infos (position : Nat) (ss : List Section) :
    (Section.infos position ss).map (fun info => (info.id, info.entries)) = ss.map fun s =>
    (s.id, (s.count : Int)) := by
  induction ss generalizing position with
  | nil => rfl
  | cons s ss ih =>
    rw [Section.infos, map_cons, map_cons, ih]
    rfl

/-- Only sections with items are written. -/
theorem map_writtenSections (m : Module) :
    m.writtenSections.map (fun s => (s.id, s.count)) = m.itemCounts.filter (0 < ·.2) := by
  rw [← map_allSections, filter_map]
  rfl

theorem imports_encode (h : m.Indexed) (hm : m.Countable) :
    Wasm.imports m.encode = .ok m.imports := by
  have hsections := sections_encode hm.size
  have hfits (i : Import) (hi : i ∈ m.imports) : i.Fits :=
    ⟨(hm.importNames i hi).1, (hm.importNames i hi).2,
      fun hkind => (h.imports i hi hkind).trans hm.types⟩
  have hbody :=
    bodyOf?_encode (m := m) (s := ⟨.imports, m.imports.length, m.imports.flatMap (·.bytes)⟩)
    (by simp [allSections])
  refine Except.bind_eq_ok.mpr ⟨_, hsections, ?_⟩
  split at hbody
  · have hcount := u32_unsigned (m.imports.flatMap (·.bytes)) hm.imports
    have hread := readImports_bytes [] hfits
    rw [append_nil] at hread
    simp only [hbody]
    exact Except.bind_eq_ok.mpr ⟨_, congrArg (Except.mapError ReadError.imports) hcount, hread⟩
  · rename_i hnone
    have himports : m.imports = [] := by simpa using hnone
    simp only [hbody, himports]
    rfl

theorem exports_encode_of_countable (h : m.Indexed) (hm : m.Countable) :
    Wasm.exports m.encode = .ok m.exports :=
  exports_encode_of_fits hm.exports (fun e he => ⟨hm.exportNames e he, h.exports e he⟩) hm.size

/-- Whatever was added to a module is read back from its bytes. Its sections are
found, those and only those that have items, in their order and with the number
of their items. They fill the bytes behind the header, and the size of each is
written as short as can be. The imports and exports are found as they were
added. -/
theorem ofAdditions_readBack (additions : List Addition) (h : (ofAdditions additions).Countable) :
    ∃ infos : List SectionInfo, sections (ofAdditions additions).encode = .ok infos ∧
      infos.map (fun info => (info.id, info.entries)) =
        ((ofAdditions additions).itemCounts.filter (0 < ·.2)).map (fun c => (c.1, (c.2 : Int))) ∧
      Tiled (ofAdditions additions).encode infos ∧
      (ofAdditions additions).encode =
        header ++ infos.flatMap (·.bytesIn (ofAdditions additions).encode) ∧
      Wasm.imports (ofAdditions additions).encode = .ok (ofAdditions additions).imports ∧
      Wasm.exports (ofAdditions additions).encode = .ok (ofAdditions additions).exports := by
  have hindexed := indexed_ofAdditions additions
  refine ⟨_, sections_encode h.size, ?_, tiled_encode h.size, ?_, imports_encode hindexed h,
    exports_encode_of_countable hindexed h⟩
  · rw [map_infos, ← map_writtenSections, map_map]
    rfl
  · rw [encode_eq, Section.flatMap_bytesIn _ header]

/-- Imports of both kinds, one of them too late, a name that is no text, and
nothing that needs a memory. -/
def mixedAdditions : List Addition := [
  .importGlobal (utf8 "frame") [0xff, 0x00] ⟨.f64, true⟩,
  .importFunc (utf8 "shims") (utf8 "pow") ⟨[.f64, .f64], [.f64]⟩,
  .global ⟨true, .one⟩,
  .importGlobal (utf8 "late") (utf8 "x") ⟨.f64, false⟩,
  .function 300 [.f64, .f64, .i32] [0x0b, 0x00],
  .exported (utf8 "step") .func 4294967295]

theorem mixedAdditions_readBack : ∃ infos : List SectionInfo,
    sections (ofAdditions mixedAdditions).encode = .ok infos ∧
      infos.map (fun info => (info.id, info.entries)) =
        [(.type, 1), (.imports, 2), (.function, 1), (.global, 1), (.exports, 1), (.code, 1)] ∧
      Tiled (ofAdditions mixedAdditions).encode infos ∧
      (ofAdditions mixedAdditions).encode =
        header ++ infos.flatMap (·.bytesIn (ofAdditions mixedAdditions).encode) ∧
      Wasm.imports (ofAdditions mixedAdditions).encode = .ok [
        ⟨utf8 "frame", [0xff, 0x00], .global ⟨.f64, true⟩⟩, ⟨utf8 "shims", utf8 "pow", .func 0⟩] ∧
      Wasm.exports (ofAdditions mixedAdditions).encode =
        .ok [⟨utf8 "step", .func, 4294967295⟩] := by
  have hcountable : (ofAdditions mixedAdditions).Countable :=
    ⟨by decide, by decide, by decide, by decide +kernel, by decide +kernel, by decide +kernel⟩
  exact ofAdditions_readBack mixedAdditions hcountable

end Module

end Eel.Wasm
