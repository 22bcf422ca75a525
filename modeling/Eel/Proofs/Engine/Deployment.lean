import Eel.Proofs.Engine.Binding
import Eel.Proofs.Engine.Calling
import Eel.Proofs.Meaning.Frame

/-!
Modules that run side by side on an engine.

Functions are compiled for the pools of an engine, loaded and called, while
variables are set and instances are closed, in any order. All the time the pools
keep their cells, and every instance has the cells of the variables that it
imports, and behind those of the pools some that no other instance has.
-/

namespace Eel

open Wasm Machine Program Engine List

/-- Where the functions of a pool find their variables. -/
def Options.layout (o : Options) (pool : Bytes) : Layout :=
  layoutOf o.prepared o.draft (o.pool pool)

/-- What the functions of a pool see in an instance that was compiled from
options. -/
def Engine.sees (e : Engine) (o : Options) (i : Instance) (pool : Bytes) : State Random :=
  (o.layout pool).view (e.store i)

/-- What is done with an engine. Functions are compiled for the pools that it
has. -/
inductive Engine.Action where
  | set (pool name : Bytes) (x : Double)
  | load (functions : List FunctionDecl) (simplify : Bool) (maxRounds : Int)
  | call (index : Nat) (name : Bytes)
  | close (index : Nat)

/-- An engine, with the options that each of its instances was compiled from. -/
structure Deployment where
  engine : Engine
  modules : List Options := []

namespace Deployment

/-- Compiles options and loads the module. -/
def load (d : Deployment) (o : Options) : Deployment :=
  match compile o with
  | .error _ => d
  | .ok bin =>
    match d.engine.load bin with
    | (.error _, e) => { d with engine := e }
    | (.ok _, e) => ⟨e, d.modules ++ [o]⟩

/-- What an action comes to, also if it fails. -/
def act (d : Deployment) : Action → Deployment
  | .set pool name x => { d with engine := (d.engine.set pool name x).toOption.getD d.engine }
  | .load functions simplify maxRounds =>
    d.load ⟨d.engine.pools.map (·.declared), functions, simplify, maxRounds⟩
  | .call index name => { d with engine := (d.engine.call index name).2 }
  | .close index => { d with engine := d.engine.close index }

def after (d : Deployment) (actions : List Action) : Deployment := actions.foldl act d

/-- That an instance was compiled from options. -/
def Has (d : Deployment) (index : Nat) (o : Options) (i : Instance) : Prop :=
  d.modules[index]? = some o ∧ d.engine.instances[index]? = some i

end Deployment

/-- What of an instance never changes. -/
def Instance.shape (i : Instance) : List Export × Array Callee × List Nat × Nat :=
  (i.exports, i.table, i.globals, i.memory.size)

/-- That an instance is that of a program which was compiled from options. Its
globals have the cells of the variables that it imports, and cells from `own`
on, which lie behind those of all pools. -/
structure Installed (e : Engine) (limit : Nat) (o : Options) (i : Instance) (p : Program)
    (cells : List Nat) (own : Nat) : Prop where
  built : p.Built o
  pools : o.pools = e.pools.map (·.declared)
  imported : p.externals.mapM e.externalCell? = some cells
  behind : limit ≤ own
  within : own + p.globals ≤ e.cells.size
  shape : i.shape = (p.toInstance (cells ++ List.range' own p.globals)).shape

variable {k c : Nat}

namespace Installed

variable {e e' : Engine} {limit : Nat} {o : Options} {i i' : Instance} {p : Program}
  {cells : List Nat} {own : Nat}

/-- An instance stays what it is while the pools do and no cell is taken
away. -/
theorem congr (h : Installed e limit o i p cells own) (hpools : e'.pools = e.pools)
    (hcells : e.cells.size ≤ e'.cells.size) (hshape : i'.shape = i.shape) :
    Installed e' limit o i' p cells own where
  built := h.built
  pools := hpools ▸ h.pools
  imported := externalCell?_congr hpools ▸ h.imported
  behind := h.behind
  within := Nat.le_trans h.within hcells
  shape := hshape.trans h.shape

section Cells

variable (h : Installed e limit o i p cells own)

include h

theorem exports : i.exports = p.assembled.exports := congrArg (·.1) h.shape

theorem table : i.table = p.table := congrArg (·.2.1) h.shape

theorem globals : i.globals = cells ++ List.range' own p.globals := congrArg (·.2.2.1) h.shape

theorem memory (husesMemory : p.usesMemory = true) : i.memory.size = 2 * bufferBytes := by
  have hsize : i.memory.size = (Memory.ofPages (if p.usesMemory then memoryPages else 0)).size :=
    congrArg (·.2.2.2) h.shape
  rw [hsize, husesMemory]
  rfl

theorem length_cells : cells.length = p.externals.length :=
  (Option.mapM_eq_some_iff.mp h.imported).length_eq.symm

theorem fits : p.Fits (e.store i) where
  globals := by simp [Engine.store, h.globals, h.length_cells]
  memory := h.memory

/-- A global behind the imported ones has a cell behind the pools. -/
theorem limit_le_of_behind (hc : i.globals[k]? = some c) (hk : p.externals.length ≤ k) :
    limit ≤ c := by
  rw [h.globals, getElem?_append_right (h.length_cells ▸ hk)] at hc
  obtain ⟨j, -, rfl⟩ := mem_range'.mp (mem_of_getElem? hc)
  exact Nat.le_add_right_of_le h.behind

variable (hlaid : Laid e.pools limit)

include hlaid

/-- The global of an imported variable has the cell of the declared variable of
this name. -/
theorem exists_declares {v : Bytes × Bytes} (hv : p.externals[k]? = some v) :
    ∃ c, i.globals[k]? = some c ∧ e.Declares v.1 v.2 c := by
  obtain ⟨c, hc, hcell⟩ := getElem?_of_forall₂ (Option.mapM_eq_some_iff.mp h.imported) hv
  refine ⟨c, ?_, ((externalCell?_eq_some_iff hlaid).mp hcell).2⟩
  rw [h.globals, getElem?_append_left (List.getElem?_eq_some_iff.mp hc).1, hc]

theorem lt_limit (hc : c ∈ cells) : c < limit := by
  obtain ⟨v, -, hcell⟩ := exists_of_forall₂ (Option.mapM_eq_some_iff.mp h.imported) c hc
  exact ((externalCell?_eq_some_iff hlaid).mp hcell).2.lt hlaid

/-- Different globals have different cells. -/
theorem nodup_globals : i.globals.Nodup := by
  have hcells : cells.Nodup := by
    refine nodup_of_forall₂ (Option.mapM_eq_some_iff.mp h.imported)
      (fun v w c hv hw => ?_) h.built.nodup_externals
    rw [externalCell?_eq_some_iff hlaid] at hv hw
    obtain ⟨hpool, hname⟩ := hv.2.inj hlaid hw.2
    exact Prod.ext hpool hname
  rw [h.globals, nodup_append]
  refine ⟨hcells, nodup_range', fun c hc c' hc' => ?_⟩
  obtain ⟨j, -, rfl⟩ := mem_range'.mp hc'
  have hlt := h.lt_limit hlaid hc
  have hbehind := h.behind
  omega

theorem globals_lt (hlimit : limit ≤ e.cells.size) (hc : c ∈ i.globals) : c < e.cells.size := by
  rw [h.globals, mem_append] at hc
  rcases hc with hc | hc
  · exact Nat.lt_of_lt_of_le (h.lt_limit hlaid hc) hlimit
  · obtain ⟨j, hj, rfl⟩ := mem_range'.mp hc
    have hwithin := h.within
    omega

end Cells

end Installed

namespace Program.Built

variable {p : Program} {o : Options} (h : p.Built o)

include h

/-- Every function that has a statement is exported, and calls of it do what its
statements do. -/
theorem exists_computes {decl : FunctionDecl} (hdecl : o.liveFunctions[k]? = some decl) :
    ∃ f g, Prepared.ofDecl o decl = .ok f ∧ p.functions[k]? = some g ∧ g.name = decl.name ∧
      p.Computes (HostFunction.all.length + k) (o.layout decl.pool) f.body := by
  obtain ⟨f, hf, hread⟩ := getElem?_of_forall₂ h.read hdecl
  obtain ⟨g, d, d', hg, hcode, hlocals, hfinal⟩ := h.measured.lowered hf
  refine ⟨f, g, hread, hg, ?_, ?_⟩
  · have hname := congrArg (·[k]?) h.names
    simpa [hg, hdecl] using hname
  · rw [Options.layout, ← Prepared.pool_of_ofDecl hread]
    exact h.measured.computes hg hcode hlocals hfinal (Prepared.lower_mentions_of_ofDecl hread)

end Program.Built

/-- That a call of a function ends, with what its statements come to on the
store of an instance. -/
structure Leaves (e : Engine) (index : Nat) (o : Options) (i : Instance) (decl : FunctionDecl)
    (f : Prepared) (store : Store Random) : Prop where
  read : Prepared.ofDecl o decl = .ok f
  call : e.call index decl.name =
    (if i.isClosed then .error (.call decl.name) else .ok (), e.leaving index i store)
  holds : (o.layout decl.pool).Holds store
    (Run.all (Node.evalEach e.host f.body) (e.sees o i decl.pool)).2
  spares : (o.layout decl.pool).Spares (e.store i) store

namespace Installed

variable {e : Engine} {limit index : Nat} {o : Options} {i : Instance} {p : Program}
  {cells : List Nat} {own : Nat}
  (h : Installed e limit o i p cells own)

include h

theorem places (pool : Bytes) : p.Places (o.pool pool) (o.layout pool) :=
  places_layoutOf h.built.measured.toDrafted (o.pool pool)

theorem holds_sees (pool : Bytes) : (o.layout pool).Holds (e.store i) (e.sees o i pool) :=
  (h.places pool).holds_view h.fits

/-- A variable is seen with the value of its cell. -/
theorem exists_sees {pool x : Bytes} (hk : (o.layout pool).place x = some k) :
    ∃ c, i.globals[k]? = some c ∧ (e.sees o i pool).vars x = e.value c := by
  have hvar := (h.holds_sees pool).var hk
  rw [Engine.store, getElem?_toArray, getElem?_map, Option.map_eq_some_iff] at hvar
  obtain ⟨c, hc, hvalue⟩ := hvar
  exact ⟨c, hc, hvalue.symm⟩

/-- A function that has a statement can be called. -/
theorem exists_leaves (hi : e.instances[index]? = some i) {decl : FunctionDecl}
    (hdecl : decl ∈ o.liveFunctions) : ∃ f store, Leaves e index o i decl f store := by
  obtain ⟨k, hk⟩ := getElem?_of_mem hdecl
  obtain ⟨f, g, hread, hg, hname, hcomputes⟩ := h.built.exists_computes hk
  obtain ⟨store, hinvoke, hholds, hspares⟩ := hcomputes e.host (e.store i) h.fits
  have hexport := (find?_exports_eq_some_iff h.built.nodup_names).mpr ⟨k, g, hg, hname, rfl⟩
  rw [← h.exports] at hexport
  rw [← h.table] at hinvoke
  exact ⟨f, store, hread, call_of_invoke hi hexport hinvoke, hholds, hspares⟩

/-- No other function can be called. -/
theorem call_of_notMem (hi : e.instances[index]? = some i) {name : Bytes}
    (hname : name ∉ o.liveFunctions.map (·.name)) :
    e.call index name = (.error (.noFunction name), e) := by
  have hnone : i.exports.find? (fun x => x.name == name && x.kind == .func) = none := by
    rw [h.exports, Option.eq_none_iff_forall_ne_some]
    intro x hx
    obtain ⟨k, g, hg, rfl, -⟩ := (find?_exports_eq_some_iff h.built.nodup_names).mp hx
    exact hname (h.built.names ▸ mem_map_of_mem (mem_of_getElem? hg))
  rw [call, hi]
  simp only [hnone]

variable {decl : FunctionDecl} {f : Prepared} {store : Store Random}
  (hleaves : Leaves e index o i decl f store)

include hleaves

theorem size_memory_of_leaves : store.memory.size = i.memory.size := by
  cases hmemory : (o.layout decl.pool).usesMemory with
  | true => rw [hleaves.holds.memorySize hmemory, h.memory ((h.places decl.pool).memory ▸ hmemory)]
  | false => rw [hleaves.spares.memory hmemory, Engine.store]

/-- A call changes no global but those of variables that the function
assigns. -/
theorem getElem?_of_leaves
    (hk : ∀ x ∈ Node.targetsAll f.body, (o.layout decl.pool).place x ≠ some k) :
    store.globals[k]? = (e.store i).globals[k]? := by
  -- The place of a variable that is not assigned keeps its value, and what is no place at all is
  -- spared.
  by_cases hplace : ∃ x, (o.layout decl.pool).place x = some k
  · obtain ⟨x, hx⟩ := hplace
    have hkept :=
      Node.vars_all_evalEach e.host (fun hassigned => hk x hassigned hx) (e.sees o i decl.pool)
    rw [hleaves.holds.var hx, (h.holds_sees decl.pool).var hx, hkept]
  · exact hleaves.spares.global k fun x hx => hplace ⟨x, hx⟩

end Installed

namespace Deployment

variable {d d' : Deployment} {limit index : Nat} {o : Options} {i : Instance}

/-- That every instance is that of its options, and that no two of them share a
cell behind those of the pools. -/
structure Sound (d : Deployment) (limit : Nat) : Prop where
  laid : Laid d.engine.pools limit
  limit_le : limit ≤ d.engine.cells.size
  matched : d.modules.length = d.engine.instances.length
  installed : ∀ {index : Nat} {o : Options} {i : Instance}, d.Has index o i →
    ∃ p cells own, Installed d.engine limit o i p cells own
  apart : (d.engine.instances.map (·.globals)).Pairwise fun cells cells' =>
    ∀ c ∈ cells, c ∈ cells' → c < limit

theorem sound_of_create {pools : List Pool} {settings : Engine.Settings} {e : Engine}
    (h : create pools settings = .ok e) : Sound ⟨e, []⟩ e.cells.size := by
  have hstarts := starts_of_create h
  refine ⟨hstarts.laid, Nat.le_refl _, by simp [hstarts.instances],
    fun hhas => ?_, by simp [hstarts.instances]⟩
  cases hhas.1

namespace Sound

variable (h : d.Sound limit)

include h

theorem exists_has (hi : d.engine.instances[index]? = some i) : ∃ o, d.Has index o i := by
  have hlt : index < d.modules.length := h.matched ▸ (List.getElem?_eq_some_iff.mp hi).1
  exact ⟨d.modules[index], getElem?_eq_getElem hlt, hi⟩

theorem globals_lt (hi : d.engine.instances[index]? = some i) (hc : c ∈ i.globals) :
    c < d.engine.cells.size := by
  obtain ⟨o, hhas⟩ := h.exists_has hi
  obtain ⟨p, cells, own, hinstalled⟩ := h.installed hhas
  exact hinstalled.globals_lt h.laid h.limit_le hc

/-- Cells behind those of the pools belong to one instance. -/
theorem notMem_globals {index' : Nat} {i' : Instance} (hi : d.engine.instances[index]? = some i)
    (hi' : d.engine.instances[index']? = some i') (hne : index' ≠ index) (hc : c ∈ i'.globals)
    (hbehind : limit ≤ c) : c ∉ i.globals := by
  have hapart := pairwise_iff_getElem.mp h.apart
  obtain ⟨hlt, rfl⟩ := List.getElem?_eq_some_iff.mp hi
  obtain ⟨hlt', rfl⟩ := List.getElem?_eq_some_iff.mp hi'
  simp only [length_map, getElem_map] at hapart
  intro hmem
  refine Nat.not_lt.mpr hbehind ?_
  rcases Nat.lt_or_gt_of_ne hne with hbefore | hbefore
  · exact hapart index' index hlt' hlt hbefore c hc hmem
  · exact hapart index index' hlt hlt' hbefore c hmem hc

/-- All this depends on nothing but the pools, the number of cells, and what
never changes of instances. -/
theorem congr (hpools : d'.engine.pools = d.engine.pools)
    (hcells : d'.engine.cells.size = d.engine.cells.size) (hmodules : d'.modules = d.modules)
    (hshape : d'.engine.instances.map (·.shape) = d.engine.instances.map (·.shape)) :
    d'.Sound limit := by
  have hglobals (e : Engine) :
      e.instances.map (·.globals) = (e.instances.map (·.shape)).map (·.2.2.1) := by
    rw [map_map]
    rfl
  refine ⟨hpools ▸ h.laid, hcells ▸ h.limit_le, ?_, fun {index o i} hhas => ?_, ?_⟩
  · have hlength := congrArg List.length hshape
    rw [length_map, length_map] at hlength
    rw [hmodules, hlength, h.matched]
  · have hsome := congrArg (·[index]?) hshape
    simp only [getElem?_map, hhas.2, Option.map_some] at hsome
    obtain ⟨i₀, hi₀, hsame⟩ := Option.map_eq_some_iff.mp hsome.symm
    obtain ⟨p, cells, own, hinstalled⟩ := h.installed ⟨hmodules ▸ hhas.1, hi₀⟩
    exact ⟨p, cells, own, hinstalled.congr hpools (Nat.le_of_eq hcells.symm) hsame.symm⟩
  · rw [hglobals, hshape, ← hglobals]
    exact h.apart

/-- A program is loaded next to the others, with cells behind all others. -/
theorem withProgram {p : Program} {cells : List Nat}
    (hpools : o.pools = d.engine.pools.map (·.declared)) (hbuilt : p.Built o)
    (himported : p.externals.mapM d.engine.externalCell? = some cells) :
    Sound ⟨d.engine.withProgram p cells, d.modules ++ [o]⟩ limit := by
  have hsize : (d.engine.withProgram p cells).cells.size = d.engine.cells.size + p.globals := by
    simp [Engine.withProgram]
  have hnew : Installed (d.engine.withProgram p cells) limit o
      (p.toInstance (cells ++ List.range' d.engine.cells.size p.globals)) p cells
        d.engine.cells.size :=
    ⟨hbuilt, hpools, himported, h.limit_le, Nat.le_of_eq hsize.symm, rfl⟩
  refine ⟨h.laid, ?_, ?_, fun {index o' i'} hhas => ?_, ?_⟩
  · exact Nat.le_trans h.limit_le (hsize ▸ Nat.le_add_right _ _)
  · simp [Engine.withProgram, h.matched]
  · obtain ⟨ho, hi⟩ := hhas
    rcases Nat.lt_trichotomy index d.modules.length with hlt | rfl | hlt
    · rw [getElem?_append_left hlt] at ho
      rw [Engine.withProgram, getElem?_append_left (h.matched ▸ hlt)] at hi
      obtain ⟨p', cells', own, hinstalled⟩ := h.installed ⟨ho, hi⟩
      exact ⟨p', cells', own, hinstalled.congr rfl (hsize ▸ Nat.le_add_right _ _) rfl⟩
    · rw [getElem?_concat_length, Option.some_inj] at ho
      rw [Engine.withProgram, h.matched, getElem?_concat_length, Option.some_inj] at hi
      subst ho hi
      exact ⟨p, cells, _, hnew⟩
    · rw [getElem?_eq_none (by simpa using hlt)] at ho
      cases ho
  · rw [Engine.withProgram, map_append, pairwise_append]
    refine ⟨h.apart, pairwise_singleton _ _, ?_⟩
    simp only [forall_mem_map, map_singleton, forall_mem_singleton]
    -- The new cells lie behind all that there were, so older instances share with the new one what
    -- it imports.
    intro i hi c hc hmem
    obtain ⟨index, hindex⟩ := getElem?_of_mem hi
    have hlt := h.globals_lt hindex hc
    rcases mem_append.mp hmem with hmem | hmem
    · exact hnew.lt_limit h.laid hmem
    · obtain ⟨j, -, rfl⟩ := mem_range'.mp hmem
      omega

end Sound

/-- What loading comes to: one instance more, or nothing but that the module may
have been counted. -/
theorem load_cases (d : Deployment) (o : Options) :
    (∃ taken, d.load o = { d with engine := { d.engine with taken } }) ∨
      ∃ p cells, p.Built o ∧ p.externals.mapM d.engine.externalCell? = some cells ∧
        d.load o = ⟨d.engine.withProgram p cells, d.modules ++ [o]⟩ := by
  unfold load
  cases hcompile : compile o with
  | error error => exact .inl ⟨d.engine.taken, rfl⟩
  | ok bin =>
    obtain ⟨p, hp, rfl⟩ := compile_eq_ok hcompile
    have hbuilt := built_of_ofOptions hp
    by_cases hread : p.Readable
    · simp only [load_of_readable hread]
      by_cases hname : d.engine.nextName ∈ d.engine.poolNames
      · simp only [hname, if_true]
        exact .inl ⟨_, rfl⟩
      · simp only [hname, if_false]
        cases hcells : p.externals.mapM d.engine.externalCell? with
        | none => exact .inl ⟨_, rfl⟩
        | some cells => exact .inr ⟨p, cells, hbuilt, hcells, rfl⟩
    · obtain ⟨error, hload⟩ := load_of_unread (e := d.engine) (hbuilt.unread hread)
      simp only [hload]
      exact .inl ⟨d.engine.taken, rfl⟩

namespace Sound

variable (h : d.Sound limit)

include h

/-- What a call comes to: a run of a function that has a statement, or
nothing. -/
theorem call_cases (index : Nat) (name : Bytes) :
    (∃ o i decl f store, d.Has index o i ∧ decl ∈ o.liveFunctions ∧ decl.name = name ∧
      Leaves d.engine index o i decl f store) ∨
    (∀ o i, d.Has index o i → name ∉ o.liveFunctions.map (·.name)) ∧
      d.engine.call index name = (.error (.noFunction name), d.engine) := by
  cases hi : d.engine.instances[index]? with
  | none =>
    refine .inr ⟨fun o i hhas => ?_, by simp only [call, hi]⟩
    cases hi.symm.trans hhas.2
  | some i =>
    obtain ⟨o, hhas⟩ := h.exists_has hi
    obtain ⟨p, cells, own, hinstalled⟩ := h.installed hhas
    by_cases hname : name ∈ o.liveFunctions.map (·.name)
    · obtain ⟨decl, hdecl, hname⟩ := mem_map.mp hname
      obtain ⟨f, store, hleaves⟩ := hinstalled.exists_leaves hi hdecl
      exact .inl ⟨o, i, decl, f, store, hhas, hdecl, hname, hleaves⟩
    · refine .inr ⟨fun o' i' hhas' => ?_, hinstalled.call_of_notMem hi hname⟩
      rwa [Option.some.inj (hhas'.1.symm.trans hhas.1)]

theorem leaving {decl : FunctionDecl} {f : Prepared} {store : Store Random} (hhas : d.Has index o i)
    (hleaves : Leaves d.engine index o i decl f store) :
    Sound { d with engine := d.engine.leaving index i store } limit := by
  obtain ⟨p, cells, own, hinstalled⟩ := h.installed hhas
  have hshape : ({ i with memory := store.memory } : Instance).shape = i.shape := by
    simp only [Instance.shape, hinstalled.size_memory_of_leaves hleaves]
  refine h.congr rfl (size_writeCells _ _ _) rfl ?_
  obtain ⟨hlt, rfl⟩ := List.getElem?_eq_some_iff.mp hhas.2
  have hlength : index < (d.engine.instances.map (·.shape)).length := by simpa using hlt
  have hself := set_getElem_self hlength
  rwa [getElem_map, ← hshape, ← map_set] at hself

/-- Every action leaves things in order. -/
theorem act (a : Action) : (d.act a).Sound limit := by
  cases a with
  | set pool name x =>
    cases hset : d.engine.set pool name x with
    | error error =>
      rw [Deployment.act, hset]
      exact h
    | ok e =>
      obtain ⟨c, -, rfl⟩ := set_eq_ok_iff.mp hset
      rw [Deployment.act, hset]
      exact h.congr rfl Array.size_setIfInBounds rfl rfl
  | load functions simplify maxRounds =>
    rcases d.load_cases ⟨d.engine.pools.map (·.declared), functions, simplify, maxRounds⟩ with
      ⟨taken, hload⟩ | ⟨p, cells, hbuilt, himported, hload⟩
    · rw [Deployment.act, hload]
      exact h.congr rfl rfl rfl rfl
    · rw [Deployment.act, hload]
      exact h.withProgram rfl hbuilt himported
  | call index name =>
    rcases h.call_cases index name with ⟨o, i, decl, f, store, hhas, -, rfl, hleaves⟩ | ⟨-, hcall⟩
    · rw [Deployment.act, hleaves.call]
      exact h.leaving hhas hleaves
    · rw [Deployment.act, hcall]
      exact h
  | close index =>
    refine h.congr rfl rfl rfl (ext_getElem? fun k => ?_)
    simp only [Deployment.act, close, getElem?_map, getElem?_modify]
    cases d.engine.instances[k]? with
    | none => rfl
    | some i => by_cases hk : index = k <;> simp [hk, Instance.shape]

/-- So do all actions, one after another. -/
theorem after (actions : List Action) : (d.after actions).Sound limit := by
  induction actions generalizing d with
  | nil => exact h
  | cons a rest ih => exact ih (h.act a)

end Sound

end Deployment

end Eel
