import Eel.Proofs.Program.Correctness
import Eel.Proofs.Program.Drafts

/-!
Whole programs on the machine.

A call of an exported function takes a store that holds a state to one that
holds the state behind the statements of the function.
-/

namespace Eel

open Wasm Machine Lowering HostFunction
open List hiding all

attribute [local instance] Arithmetic.binary64

/-- An exported function in the form in which it runs. -/
def ProgramFunction.toCode (f : ProgramFunction) : Code :=
  ⟨0, 0, f.locals.map .initial, f.code⟩

variable {g : ProgramFunction} {f : Prepared} {pool : Pool}

namespace Program

variable {i : Nat} {final : Draft}

/-- What the function indices of a program lead to. -/
def table (p : Program) : Array Callee :=
  (all.map Callee.host ++ (p.functions.map (Callee.code ·.toCode) ++
    p.routines.map (Callee.code ·.toCode))).toArray

variable (p : Program)

theorem table_host (f : HostFunction) : p.table[f.index]? = some (.host f) := by
  have hindex : f.index < (all.map Callee.host).length := by cases f <;> decide
  have hhost : (all.map Callee.host)[f.index]? = some (.host f) := by cases f <;> rfl
  rw [table, getElem?_toArray, getElem?_append_left hindex, hhost]

theorem table_function (h : p.functions[i]? = some g) :
    p.table[all.length + i]? = some (.code g.toCode) := by
  have hi : i < (p.functions.map (Callee.code ·.toCode)).length := by
    simpa using (List.getElem?_eq_some_iff.mp h).1
  have hlength : all.length = (all.map Callee.host).length := rfl
  rw [table, getElem?_toArray, hlength, getElem?_append_right (by omega),
    Nat.add_sub_cancel_left, getElem?_append_left hi, getElem?_map, h]
  rfl

theorem table_routine {k : Nat} {r : Routine} (h : p.routines[k]? = some r) :
    p.table[all.length + p.functions.length + k]? = some (.code r.toCode) := by
  have hbehind := getElem?_behind (all.map Callee.host)
    (p.functions.map (Callee.code ·.toCode)) (p.routines.map (Callee.code ·.toCode)) k
  rw [length_map, length_map] at hbehind
  rw [table, getElem?_toArray, hbehind, getElem?_map, h]
  rfl

/-- The code that an index leads to is that of an exported function or of a
routine. -/
theorem exists_of_table {index : Nat} {c : Code} (h : p.table[index]? = some (.code c)) :
    (∃ i g, index = all.length + i ∧ p.functions[i]? = some g ∧ c = g.toCode) ∨
      ∃ k r, index = all.length + p.functions.length + k ∧ p.routines[k]? = some r ∧
        c = r.toCode := by
  rw [table, getElem?_toArray, getElem?_append] at h
  split at h
  · rw [getElem?_map, Option.map_eq_some_iff] at h
    obtain ⟨f, -, hf⟩ := h
    cases hf
  · next hhost =>
      rw [length_map] at h hhost
      rw [getElem?_append] at h
      split at h
      · rw [getElem?_map, Option.map_eq_some_iff] at h
        obtain ⟨g, hg, hc⟩ := h
        exact .inl ⟨_, g, by omega, hg, (Callee.code.inj hc).symm⟩
      · next hfunction =>
          rw [length_map] at h hfunction
          rw [getElem?_map, Option.map_eq_some_iff] at h
          obtain ⟨r, hr, hc⟩ := h
          exact .inr ⟨_, r, by omega, hr, (Callee.code.inj hc).symm⟩

/-- How a function of a program reaches the host and the routines. -/
def linkage {σ : Type} (p : Program) {s : Scope} {final : Draft} (host : Host σ) (depth : Nat)
    (hbase : s.routineBase = all.length + p.functions.length)
    (hroutines : p.routines = final.routines.names) : Linkage σ s final where
  host := host
  calls := @invoke σ .binary64 host p.table (depth + 1)
  calls_host f := invoke_host (p.table_host f)
  calls_routine := by
    intro r k hk
    have hr : p.routines[k]? = some r := by
      rw [hroutines]
      exact Numbering.getElem?_of_find? hk
    refine ⟨@invoke σ .binary64 host p.table depth, ?_⟩
    rw [hbase]
    exact invoke_code (p.table_routine hr)

variable {σ : Type} {p} {fs : List Prepared} {store : Store σ}

/-- Where the functions of a pool find their variables. -/
def layoutOf (fs : List Prepared) (final : Draft) (pool : Pool) : Layout :=
  pool.layout (externalsOf fs) final.globals final.usesMemory

/-- That a store has the globals and the memory of a program. -/
structure Fits (p : Program) (store : Store σ) : Prop where
  globals : store.globals.size = p.externals.length + p.globals
  memory : p.usesMemory = true → store.memory.size = 2 * bufferBytes

/-- That calls of a function do what statements do: on every store they end,
with the state behind the statements in the store, and with all else as it was.
What they ask of the host is part of this, since a host may keep a record of its
calls in its state. -/
def Computes (p : Program) (index : Nat) (layout : Layout) (body : List Node) : Prop :=
  ∀ {σ : Type} (host : Host σ) (store : Store σ), p.Fits store →
    ∃ store', @invoke σ .binary64 host p.table depthLimit index store [] = .done store' [] ∧
      layout.Holds store' (Run.all (Node.evalEach host body) (layout.view store)).2 ∧
      layout.Spares store store'

/-- That a layout is one of the variables of a pool in a program: a declared
variable lies where it is imported, the others lie behind the imports, and all
lie among the globals. -/
structure Places (p : Program) (pool : Pool) (layout : Layout) : Prop where
  memory : layout.usesMemory = p.usesMemory
  within : ∀ {x : Bytes} {i : Nat}, layout.place x = some i → i < p.externals.length + p.globals
  declared : ∀ {x name : Bytes} {i : Nat}, layout.place x = some i → pool.find? x = some name →
    0 ∉ pool.name → p.externals[i]? = some (pool.name, name)
  undeclared : ∀ {x : Bytes} {i : Nat}, layout.place x = some i → pool.find? x = none →
    p.externals.length ≤ i

/-- A store of a program holds the state that a layout of it sees there. -/
theorem Places.holds_view {layout : Layout} (h : p.Places pool layout) (hfits : p.Fits store) :
    layout.Holds store (layout.view store) :=
  Layout.holds_view (fun _ _ hi => hfits.globals ▸ h.within hi) fun hm =>
    hfits.memory (h.memory ▸ hm)

/-- What is said of a program and the functions it was made of: there is one
layout for each pool, all variables of a function have a place in it, and a call
of the function computes its statements. -/
structure Realizes (p : Program) (fs : List Prepared) (layout : Pool → Layout) : Prop where
  places : ∀ pool, p.Places pool (layout pool)
  placed : ∀ {f : Prepared}, f ∈ live fs → ∀ x ∈ Node.mentionsAll f.body,
    ((layout f.pool).place x.name).isSome
  computes : ∀ {i : Nat} {f : Prepared}, (live fs)[i]? = some f →
    p.Computes (all.length + i) (layout f.pool) f.body

theorem slot?_of_place {x : Bytes} (h : (layoutOf fs final pool).place x = some i) :
    pool.slot? (externalsOf fs) final.globals x = some i :=
  (Option.ite_none_right_eq_some.mp h).2

section Drafted

variable (h : p.Drafted fs final)

include h

/-- A declared variable lies where its key is imported. -/
theorem Drafted.externals_of_place {x name : Bytes} (hi : (layoutOf fs final pool).place x = some i)
    (hname : pool.find? x = some name) :
    p.externals[i]? = some (splitKey (variableKey pool.name name)) := by
  have hfound := slot?_of_place hi
  simp only [Pool.slot?, hname] at hfound
  rw [h.externals, getElem?_map, Numbering.getElem?_of_find? hfound, Option.map_some]

theorem places_layoutOf (pool : Pool) : p.Places pool (layoutOf fs final pool) := by
  have hsize := h.length_externals
  refine ⟨h.memory.symm, ?_, ?_, ?_⟩
  · intro x i hi
    rw [hsize, h.globals]
    exact (Pool.slot?_lt (slot?_of_place hi)).1
  · intro x name i hi hname hzero
    rw [h.externals_of_place hi hname, splitKey_variableKey name hzero]
  · intro x i hi hnone
    have hfar : ¬i < (externalsOf fs).size := by
      simpa [hnone] using (Pool.slot?_lt (slot?_of_place hi)).2
    omega

section Lowered

variable {d d' : Draft} (hg : p.functions[i]? = some g)
  (hcode : lowerStatements (scopeOf fs f) f.body d = .ok (g.code, d'))
  (hlocals : g.locals = d'.locals)
  (hfinal : d'.Within final) (hnames : ∀ x ∈ Node.mentionsAll f.body, Text.lower x.name = x.name)

include hg hcode hlocals hfinal hnames

/-- A call of a function does what its statements do, on every store that holds
a state. -/
theorem Drafted.runs (host : Host σ) {state : State σ}
    (hholds : (layoutOf fs final f.pool).Holds store state) :
    ∃ store', @invoke σ .binary64 host p.table depthLimit (all.length + i) store [] =
      .done store' [] ∧
      (layoutOf fs final f.pool).Holds store' (Run.all (Node.evalEach host f.body) state).2 ∧
      (layoutOf fs final f.pool).Spares store store' := by
  have hbase : (scopeOf fs f).routineBase = all.length + p.functions.length := by
    rw [h.length]
    rfl
  have hemits := emits_of_lowerStatements _ f.body hcode
  have hruns := hemits.runsAs (p.linkage host (depthLimit - 2) hbase h.routines) hfinal hnames
  obtain ⟨frame', hexec, hholds', hkeeps⟩ :=
    hruns { store, locals := g.locals.map .initial } _ [] hholds (by simp [hlocals])
  refine ⟨frame'.store, ?_, hholds', hkeeps.store⟩
  change @invoke σ .binary64 host p.table (depthLimit - 2 + 1 + 1) _ store [] = _
  rw [invoke_code (p.table_function hg)]
  exact callCode_of_next hexec

theorem Drafted.computes : p.Computes (all.length + i) (layoutOf fs final f.pool) f.body := by
  intro σ host store hfits
  exact h.runs hg hcode hlocals hfinal hnames host ((places_layoutOf h f.pool).holds_view hfits)

end Lowered

/-- Every variable that a function mentions has a place. -/
theorem Drafted.placed (hf : f ∈ live fs) {x : Ident} (hx : x ∈ Node.mentionsAll f.body)
    (hname : Text.lower x.name = x.name) :
    ((layoutOf fs final f.pool).place x.name).isSome := by
  obtain ⟨i, hi⟩ := getElem?_of_mem hf
  obtain ⟨g, d, d', -, hcode, -, hfinal⟩ := h.lowered hi
  obtain ⟨k, hk⟩ := ((emits_of_lowerStatements _ f.body hcode).builds.knows x hx).within hfinal
  have hplace : (layoutOf fs final f.pool).place x.name = some k := (if_pos hname).trans hk
  rw [hplace]
  rfl

/-- A program realizes the functions it was made of, with the variables where
its draft has them. -/
theorem Drafted.realizes
    (hnames : ∀ f ∈ fs, ∀ x ∈ Node.mentionsAll f.body, Text.lower x.name = x.name) :
    p.Realizes fs (layoutOf fs final) := by
  have hnames' {f : Prepared} (hf : f ∈ live fs) := hnames f (mem_of_mem_filter hf)
  refine ⟨places_layoutOf h, ?_, ?_⟩
  · intro f hf x hx
    exact h.placed hf hx (hnames' hf x hx)
  · intro i f hi
    obtain ⟨g, d, d', hg, hcode, hlocals, hfinal⟩ := h.lowered hi
    exact h.computes hg hcode hlocals hfinal (hnames' (mem_of_getElem? hi))

end Drafted

theorem realizes_of_ofPrepared (h : ofPrepared fs = .ok p)
    (hnames : ∀ f ∈ fs, ∀ x ∈ Node.mentionsAll f.body, Text.lower x.name = x.name) :
    ∃ layout, p.Realizes fs layout := by
  obtain ⟨final, hdrafted⟩ := drafted_of_ofPrepared h
  exact ⟨_, hdrafted.realizes hnames⟩

end Program

end Eel
