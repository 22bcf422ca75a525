import Eel.Proofs.Program.Declarations
import Eel.Proofs.Program.Legibility
import Eel.Proofs.Wasm.Building

/-!
The variables that a compiled module imports.

A module imports the variables of pools that its functions mention, each once,
in the order in which they are first mentioned. The names of the pool and of the
variable are put into one key with a zero byte between them, and the key is cut
again at its first zero byte. So a variable is imported as what it is, unless
the name of its pool has a zero byte.
-/

namespace Eel

open Wasm Lowering Program Prepared List

/-- The variables of its pool that a function mentions, as they are declared, in
the order of the text. -/
def Prepared.mentioned (f : Prepared) : List (Bytes × Bytes) :=
  (Node.mentionsAll f.body).filterMap fun id => (f.pool.find? id.name).map (f.pool.name, ·)

theorem Prepared.externalKeys_eq (f : Prepared) :
    f.externalKeys = f.mentioned.map fun v => variableKey v.1 v.2 := by
  simp [externalKeys, mentioned, map_filterMap, Function.comp_def]

namespace Options

/-- The functions as they were read and simplified; none if one of them cannot
be. -/
def prepared (o : Options) : List Prepared := (o.functions.mapM (ofDecl o)).toOption.getD []

/-- What the functions leave behind when all of them are lowered. -/
def draft (o : Options) : Draft :=
  ((live o.prepared).mapM
    (lower (externalsOf o.prepared) (HostFunction.all.length + (live o.prepared).length))
    {}).toOption.elim {} (·.2)

/-- The variables of pools that functions with a statement mention, in their
order. -/
def mentioned (o : Options) : List (Bytes × Bytes) := (live o.prepared).flatMap (·.mentioned)

/-- That a function with a statement mentions a declared variable of its pool.
Case does not matter. -/
def Mentions (o : Options) (pool x : Bytes) : Prop :=
  ∃ decl ∈ o.liveFunctions, decl.pool = pool ∧ x ∈ (o.pool pool).vars ∧
    ∃ f, ofDecl o decl = .ok f ∧ ∃ id ∈ Node.mentionsAll f.body, Text.lower id.name = Text.lower x

end Options

/-- That a program is what options are compiled to. -/
structure Program.Built (p : Program) (o : Options) : Prop where
  order : o.InOrder
  read : List.Forall₂ (fun decl f => ofDecl o decl = .ok f) o.liveFunctions (live o.prepared)
  measured : p.Measured o.prepared o.draft
  names : p.functions.map (·.name) = o.liveFunctions.map (·.name)

theorem Program.built_of_ofOptions {p : Program} {o : Options} (h : ofOptions o = .ok p) :
    p.Built o := by
  obtain ⟨hfault, fs, hread, hprepared⟩ := ofOptions_eq_ok h
  obtain ⟨final, hmap, hexternals, hglobals, hmemory, hroutines⟩ := ofPrepared_eq_ok hprepared
  obtain ⟨_, _, hfinished⟩ := finished_of_ofOptions h
  have hfs : o.prepared = fs := by
    rw [Options.prepared, hread]
    rfl
  have hfinal : o.draft = final := by
    rw [Options.draft, hfs, hmap]
    rfl
  have hdrafted := drafted_of_mapM hmap hexternals hglobals hmemory hroutines
  refine ⟨Options.fault?_eq_none_iff.mp hfault, ?_, ?_, hfinished.names_eq.symm⟩
  · rw [hfs]
    exact forall₂_liveFunctions hread
  · rw [hfs, hfinal]
    exact measured_of_mapM hmap hdrafted

theorem Options.InOrder.distinct {o : Options} (h : o.InOrder) (name : Bytes) :
    ((o.pool name).vars.map Text.lower).Nodup := by
  unfold Options.pool
  cases hfind : o.pools.find? (·.name == name) with
  | none => simp
  | some pool => exact (h.pools pool (mem_of_find?_eq_some hfind)).distinct

/-- Elements that a function tells apart are first seen where their values
are. -/
theorem eraseDups_map {α β : Type} [BEq α] [LawfulBEq α] [BEq β] [LawfulBEq β] {f : α → β}
    {xs : List α} (h : ∀ x ∈ xs, ∀ y ∈ xs, f x = f y → x = y) :
    (xs.map f).eraseDups = xs.eraseDups.map f := by
  induction xs using List.reverseRecOn with
  | nil => rfl
  | append_singleton xs x ih =>
    have hxs : ∀ y ∈ xs, ∀ z ∈ xs, f y = f z → y = z := fun y hy z hz =>
      h y (mem_append_left _ hy) z (mem_append_left _ hz)
    have hmem : f x ∈ xs.map f ↔ x ∈ xs := by
      refine ⟨fun hx => ?_, mem_map_of_mem⟩
      obtain ⟨y, hy, heq⟩ := mem_map.mp hx
      exact h y (mem_append_left _ hy) x (by simp) heq ▸ hy
    rw [map_append, eraseDups_append, eraseDups_append, ih hxs, map_append, map_singleton]
    congr 1
    by_cases hx : x ∈ xs
    · simp [List.removeAll, hmem.mpr hx, hx]
    · have hfx : f x ∉ xs.map f := fun hfx => hx (hmem.mp hfx)
      simp [List.removeAll, hx, hfx, eraseDups_cons]

/-- What a key is cut into makes the same key again. -/
theorem variableKey_splitKey (q x : Bytes) :
    variableKey (splitKey (variableKey q x)).1 (splitKey (variableKey q x)).2 =
      variableKey q x := by
  have hzero : 0 ∈ variableKey q x := by simp [variableKey]
  obtain ⟨before, behind, hkey, hfirst⟩ := eq_append_cons_of_mem hzero
  rw [splitKey, Bytes.cut?_eq_some_iff.mpr ⟨hkey, hfirst⟩]
  exact hkey.symm

variable {v w : Bytes × Bytes} {f : Prepared}

/-- A key gives its parts back just if the name of the pool has no zero byte. -/
theorem splitKey_variableKey_eq_iff : splitKey (variableKey v.1 v.2) = v ↔ 0 ∉ v.1 := by
  refine ⟨fun heq => ?_, splitKey_variableKey v.2⟩
  unfold splitKey at heq
  split at heq
  · next parts hcut =>
      rw [← heq]
      exact (Bytes.cut?_eq_some_iff.mp hcut).2
  · have hlength := congrArg (·.1.length) heq
    simp [variableKey] at hlength

namespace Program.Built

variable {p : Program} {o : Options} (h : p.Built o)

include h

theorem exists_read (hf : f ∈ live o.prepared) :
    ∃ decl ∈ o.liveFunctions, ofDecl o decl = .ok f := exists_of_forall₂ h.read f hf

theorem mem_live {decl : FunctionDecl} (hdecl : decl ∈ o.liveFunctions)
    (hread : ofDecl o decl = .ok f) : f ∈ live o.prepared := by
  obtain ⟨f', hf', hread'⟩ := exists_of_forall₂ h.read.flip decl hdecl
  obtain rfl : f = f' := Except.ok.inj (hread.symm.trans hread')
  exact hf'

/-- The names of variables that are imported have no zero byte, as they are
mentioned in a source. -/
theorem zero_notMem (hv : v ∈ o.mentioned) : 0 ∉ v.2 := by
  obtain ⟨f, hf, hv⟩ := mem_flatMap.mp hv
  obtain ⟨decl, -, hread⟩ := h.exists_read hf
  obtain ⟨id, hid, hfind⟩ := mem_filterMap.mp hv
  obtain ⟨x, hx, rfl⟩ := Option.map_eq_some_iff.mp hfind
  exact Pool.zero_notMem_of_find? (isLowerName_mentions_of_ofDecl hread id hid) hx

theorem mem_mentioned_iff {q x : Bytes} : (q, x) ∈ o.mentioned ↔ o.Mentions q x := by
  have hfind {decl : FunctionDecl} {f : Prepared} (hread : ofDecl o decl = .ok f) {id : Ident} :
      (f.pool.find? id.name).map (f.pool.name, ·) = some (q, x) ↔
        decl.pool = q ∧ x ∈ (o.pool decl.pool).vars ∧ Text.lower id.name = Text.lower x := by
    rw [pool_of_ofDecl hread, o.pool_name, Option.map_eq_some_iff]
    simp only [Pool.find?_eq_some_iff (h.order.distinct decl.pool), Prod.mk.injEq]
    grind
  constructor
  · intro hv
    obtain ⟨f, hf, hv⟩ := mem_flatMap.mp hv
    obtain ⟨decl, hdecl, hread⟩ := h.exists_read hf
    obtain ⟨id, hid, hv⟩ := mem_filterMap.mp hv
    obtain ⟨rfl, hx, hlower⟩ := (hfind hread).mp hv
    exact ⟨decl, hdecl, rfl, hx, f, hread, id, hid, hlower⟩
  · rintro ⟨decl, hdecl, rfl, hx, f, hread, id, hid, hlower⟩
    refine mem_flatMap.mpr ⟨f, h.mem_live hdecl hread, mem_filterMap.mpr ⟨id, hid, ?_⟩⟩
    exact (hfind hread).mpr ⟨rfl, hx, hlower⟩

/-- No two variables that are mentioned share a key. -/
theorem eq_of_variableKey (hv : v ∈ o.mentioned) (hw : w ∈ o.mentioned)
    (heq : variableKey v.1 v.2 = variableKey w.1 w.2) : v = w := by
  obtain ⟨hpool, hname⟩ := variableKey_inj_of_notMem (h.zero_notMem hv) (h.zero_notMem hw) heq
  exact Prod.ext hpool hname

/-- The keys of the imported variables, in the order in which they are first
mentioned. -/
theorem names_externalsOf :
    (externalsOf o.prepared).names = o.mentioned.eraseDups.map fun v => variableKey v.1 v.2 := by
  have hkeys : (live o.prepared).flatMap (·.externalKeys) = o.mentioned.map fun v =>
      variableKey v.1 v.2 := by
    rw [Options.mentioned, map_flatMap]
    exact flatMap_congr fun f _ => f.externalKeys_eq
  rw [externalsOf, Numbering.names_ofList, hkeys, eraseDups_map]
  exact fun v hv w hw => h.eq_of_variableKey hv hw

/-- What a module imports is what the keys are cut into. -/
theorem externals_eq :
    p.externals = o.mentioned.eraseDups.map fun v => splitKey (variableKey v.1 v.2) := by
  rw [h.measured.externals, h.names_externalsOf, map_map]
  rfl

/-- No variable is imported twice. -/
theorem nodup_externals : p.externals.Nodup := by
  rw [h.externals_eq, ← Numbering.names_ofList]
  refine (Numbering.nodup_ofList _).map_on fun v hv w hw heq => ?_
  rw [Numbering.names_ofList, mem_eraseDups] at hv hw
  refine h.eq_of_variableKey hv hw ?_
  rw [← variableKey_splitKey v.1, heq, variableKey_splitKey]

end Program.Built

theorem Program.globalImports_assembled (p : Program) :
    p.assembled.imports.filter (!·.isFunc) = p.externals.map externalImport := by
  have hexternals :
      (p.externals.map externalImport).filter (!·.isFunc) = p.externals.map externalImport :=
    filter_eq_self.mpr (forall_mem_map.mpr fun _ _ => rfl)
  have hhosts : (HostFunction.all.map hostImport).filter (!·.isFunc) = [] := rfl
  rw [assembled, filter_append, hexternals, hhosts, append_nil]

/-- The imports of a program are found in the bytes of its module, if it is of
less than four gibibytes. -/
theorem Program.imports_assembled {p : Program} (hsize : p.assembled.encode.length < 2 ^ 32) :
    Wasm.imports p.assembled.encode = .ok p.assembled.imports := by
  refine Module.imports_encode ⟨?_, ?_⟩ (Module.countable_of_length hsize)
  · intro i hi type hkind
    rcases mem_append.mp hi with hi | hi
    · obtain ⟨x, -, rfl⟩ := mem_map.mp hi
      cases hkind
    · obtain ⟨f, -, rfl⟩ := mem_map.mp hi
      cases hkind
      exact (List.getElem?_eq_some_iff.mp (types_hostType f)).1
  · intro e he
    have hindex := index_lt_of_mem_exports he
    have hcount := p.assembled.two_mul_length_exports_le
    have hhosts : HostFunction.all.length = 13 := rfl
    omega

/-- A variable as it is imported: a double that can be written. -/
def variableImport (v : Bytes × Bytes) : Import := ⟨v.1, v.2, .global ⟨.f64, true⟩⟩

theorem variableImport_inj : variableImport v = variableImport w ↔ v = w := by
  simp [variableImport, Prod.ext_iff]

/-- The globals that a compiled module imports. They are those of the declared
variables that functions with a statement mention, each once, in the order in
which they are first mentioned, and under the names that the keys of the
variables are cut into. These are the names of the pool and of the variable just
if no such pool has a zero byte in its name. -/
theorem compile_importsMentioned {o : Options} {bin : Bytes} (h : compile o = .ok bin) :
    ∃ (p : Program) (m : Module), Program.ofOptions o = .ok p ∧ p.toModule = .ok m ∧
      m.encode = bin ∧ (bin.length < 2 ^ 32 → Wasm.imports bin = .ok m.imports) ∧
      o.mentioned.eraseDups.Nodup ∧ (∀ q x, (q, x) ∈ o.mentioned.eraseDups ↔ o.Mentions q x) ∧
      m.imports.filter (!·.isFunc) =
        o.mentioned.eraseDups.map (fun v => variableImport (splitKey (variableKey v.1 v.2))) ∧
      (m.imports.filter (!·.isFunc) = o.mentioned.eraseDups.map variableImport ↔
        ∀ q x, o.Mentions q x → 0 ∉ q) := by
  obtain ⟨p, hp, rfl⟩ := compile_eq_ok h
  have hbuilt := Program.built_of_ofOptions hp
  have hmem (q x : Bytes) : (q, x) ∈ o.mentioned.eraseDups ↔ o.Mentions q x := by
    rw [mem_eraseDups, hbuilt.mem_mentioned_iff]
  have hglobals : p.assembled.imports.filter (!·.isFunc) =
      o.mentioned.eraseDups.map (fun v => variableImport (splitKey (variableKey v.1 v.2))) := by
    rw [p.globalImports_assembled, hbuilt.externals_eq, map_map]
    rfl
  refine ⟨p, p.assembled, hp, p.toModule_eq, rfl, Program.imports_assembled, ?_, hmem, hglobals, ?_⟩
  · rw [← Numbering.names_ofList]
    exact Numbering.nodup_ofList _
  · have himport (v : Bytes × Bytes) :
        variableImport (splitKey (variableKey v.1 v.2)) = variableImport v ↔ 0 ∉ v.1 := by
      rw [← splitKey_variableKey_eq_iff, variableImport_inj]
    rw [hglobals, map_inj_left]
    simp only [himport, Prod.forall, hmem]

/-- Two pools with variables of the same names in different case, and a function
without a statement. -/
def crossedNames : Options where
  pools := [⟨utf8 "frame", [utf8 "T", utf8 "X"]⟩, ⟨utf8 "pixel", [utf8 "x", utf8 "y"]⟩]
  functions := [
    ⟨utf8 "step", utf8 "frame", utf8 "z = 1; x = z"⟩,
    ⟨utf8 "idle", utf8 "pixel", utf8 "// y = 1"⟩,
    ⟨utf8 "rest", utf8 "pixel", utf8 "z = X"⟩,
    ⟨utf8 "last", utf8 "frame", utf8 "t = X + T"⟩]

theorem crossedNames_importsMentioned :
    ∃ (bin : Bytes) (m : Module), compile crossedNames = .ok bin ∧ m.encode = bin ∧
    Wasm.imports bin = .ok m.imports ∧ m.imports.filter (!·.isFunc) = [
      variableImport (utf8 "frame", utf8 "X"), variableImport (utf8 "pixel", utf8 "x"),
      variableImport (utf8 "frame", utf8 "T")] := by
  obtain ⟨bin, hbin⟩ := Except.exists_ok_of_isOk (x := compile crossedNames) (by decide +kernel)
  have hlength : (compile crossedNames).map (·.length) = .ok 344 := by decide +kernel
  have hmentioned : crossedNames.mentioned.eraseDups =
      [(utf8 "frame", utf8 "X"), (utf8 "pixel", utf8 "x"), (utf8 "frame", utf8 "T")] := by
        decide +kernel
  rw [hbin] at hlength
  have hsmall : bin.length = 344 := Except.ok.inj hlength
  obtain ⟨-, m, -, -, hencode, hread, -, hmem, -, hexact⟩ := compile_importsMentioned hbin
  refine ⟨bin, m, hbin, hencode, hread (by omega), ?_⟩
  rw [hexact.mpr, hmentioned]
  · rfl
  · intro q x hx
    rw [← hmem, hmentioned] at hx
    revert hx
    simp only [mem_cons, not_mem_nil, Prod.mk.injEq, or_false]
    rintro (⟨rfl, -⟩ | ⟨rfl, -⟩ | ⟨rfl, -⟩) <;> decide

/-- A pool with a zero byte in its name. -/
def zeroPool : Options where
  pools := [⟨[97, 0, 98], [utf8 "x"]⟩]
  functions := [⟨utf8 "f", [97, 0, 98], utf8 "x = 1"⟩]

/-- The variable of such a pool is imported as one of another pool. -/
theorem zeroPool_importsOther :
    ∃ (bin : Bytes) (m : Module), compile zeroPool = .ok bin ∧ m.encode = bin ∧
    Wasm.imports bin = .ok m.imports ∧ zeroPool.mentioned = [([97, 0, 98], utf8 "x")] ∧
      m.imports.filter (!·.isFunc) = [variableImport (utf8 "a", [98, 0, 120])] := by
  have hmentioned : zeroPool.mentioned = [([97, 0, 98], utf8 "x")] := by decide +kernel
  have hlength : (compile zeroPool).map (·.length) = .ok 237 := by decide +kernel
  obtain ⟨bin, hbin⟩ := Except.exists_ok_of_isOk (x := compile zeroPool) (by decide +kernel)
  obtain ⟨p, hp, hencode⟩ := compile_eq_ok hbin
  rw [hbin] at hlength
  have hsmall : bin.length = 237 := Except.ok.inj hlength
  have hread : Wasm.imports bin = .ok p.assembled.imports := by
    rw [← hencode]
    exact Program.imports_assembled (by rw [hencode]; omega)
  refine ⟨bin, p.assembled, hbin, hencode, hread, hmentioned, ?_⟩
  rw [p.globalImports_assembled, (Program.built_of_ofOptions hp).externals_eq, hmentioned]
  decide

end Eel
