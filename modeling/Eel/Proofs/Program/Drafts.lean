import Eel.Program.Compile
import Eel.Proofs.Bytes
import Eel.Proofs.Program.References

/-!
The draft of a whole program.

The functions of a program are lowered one after another. Each starts with what
the ones before it have left, so in the end there is one draft that all of them
agree with.
-/

namespace Eel

open Wasm Lowering List

/-- A key gives its parts back, unless the name of the pool holds a zero
byte. -/
theorem splitKey_variableKey {pool : Bytes} (name : Bytes) (h : 0 ∉ pool) :
    splitKey (variableKey pool name) = (pool, name) := by
  rw [splitKey, variableKey, Bytes.cut?_eq_some_iff.mpr ⟨rfl, h⟩]

/-- What a function is lowered against. -/
def Prepared.scope (externals : Numbering Bytes) (routineBase : Nat) (f : Prepared) : Scope :=
  { function := f.name, pool := f.pool, source := f.source, externals, routineBase }

variable {final : Draft} {g : ProgramFunction}

namespace Lowering

variable {externals : Numbering Bytes} {routineBase : Nat} {d d' : Draft}

theorem lowerPrepared_eq_ok {f : Prepared} (h : f.lower externals routineBase d = .ok (g, d')) :
    lowerStatements (f.scope externals routineBase) f.body
      { d with locals := [] } = .ok (g.code, d') ∧ g.locals = d'.locals := by
  simp only [Prepared.lower, bind_eq_ok] at h
  obtain ⟨_, _, hreset, code, d₁, hcode, d₂, _, hget, hpure⟩ := h
  obtain ⟨-, rfl⟩ : _ ∧ _ = _ := Prod.mk.inj (Except.ok.inj hreset)
  obtain ⟨rfl, rfl⟩ : d₁ = d₂ ∧ d₁ = _ := Prod.mk.inj (Except.ok.inj hget)
  obtain ⟨rfl, rfl⟩ := pure_eq_ok.mp hpure
  exact ⟨hcode, rfl⟩

/-- Each function is lowered to the one at its place, within the draft that all
of them leave. -/
theorem mapM_lower_eq_ok {live : List Prepared} {gs : List ProgramFunction}
    (h : live.mapM (Prepared.lower externals routineBase) d = .ok (gs, d')) :
    d.Within d' ∧ gs.length = live.length ∧
      ∀ {i : Nat} {f : Prepared}, live[i]? = some f → ∃ g d₁ d₂, gs[i]? = some g ∧
        f.lower externals routineBase d₁ = .ok (g, d₂) ∧ d₂.Within d' := by
  induction live generalizing d gs with
  | nil =>
    simp only [mapM_nil, pure_eq_ok] at h
    obtain ⟨rfl, rfl⟩ := h
    exact ⟨.refl d, rfl, by simp⟩
  | cons f rest ih =>
    simp only [mapM_cons, bind_eq_ok, pure_eq_ok] at h
    obtain ⟨g, d₁, hf, gs, d₂, hrest, rfl, rfl⟩ := h
    obtain ⟨hwithin, hlength, hall⟩ := ih hrest
    obtain ⟨hcode, -⟩ := lowerPrepared_eq_ok hf
    have hgrows := (emits_of_lowerStatements _ f.body hcode).grows
    have hwithin₁ : d.Within d₁ := ⟨hgrows.globals, hgrows.routines, hgrows.memory⟩
    refine ⟨hwithin₁.trans hwithin, by simp [hlength], fun {i} {f'} hi => ?_⟩
    cases i with
    | zero =>
      obtain rfl : f = f' := by simpa using hi
      exact ⟨g, d, d₁, rfl, hf, hwithin⟩
    | succ i => simpa using hall (by simpa using hi)

end Lowering

theorem getElem?_behind {α : Type} (first second third : List α) (k : Nat) :
    (first ++ (second ++ third))[first.length + second.length + k]? = third[k]? := by
  rw [Nat.add_assoc, getElem?_append_right (by omega), Nat.add_sub_cancel_left,
    getElem?_append_right (by omega), Nat.add_sub_cancel_left]

namespace Program

variable {p : Program} {fs : List Prepared}

/-- The functions that a program has, in their order. -/
def live (fs : List Prepared) : List Prepared := fs.filter (·.isLive)

/-- The keys of the variables that a program imports. -/
def externalsOf (fs : List Prepared) : Numbering Bytes :=
  .ofList ((live fs).flatMap (·.externalKeys))

/-- What a function of a program is lowered against. -/
def scopeOf (fs : List Prepared) (f : Prepared) : Scope :=
  f.scope (externalsOf fs) (HostFunction.all.length + (live fs).length)

/-- That a program comes from functions that have left a draft behind. -/
structure Drafted (p : Program) (fs : List Prepared) (final : Draft) : Prop where
  externals : p.externals = (externalsOf fs).names.map splitKey
  globals : p.globals = final.globals.size
  memory : p.usesMemory = final.usesMemory
  routines : p.routines = final.routines.names
  length : p.functions.length = (live fs).length
  lowered : ∀ {i : Nat} {f : Prepared}, (live fs)[i]? = some f →
    ∃ g d d', p.functions[i]? = some g ∧
    lowerStatements (scopeOf fs f) f.body d = .ok (g.code, d') ∧ g.locals = d'.locals ∧
      d'.Within final

theorem Drafted.length_externals (h : p.Drafted fs final) :
    p.externals.length = (externalsOf fs).size := by
  rw [h.externals, length_map, Numbering.size]

/-- Each function of a program is the one that was lowered at its place. -/
theorem Drafted.exists_lowered (h : p.Drafted fs final) {i : Nat} (hg : p.functions[i]? = some g) :
    ∃ f d d', (live fs)[i]? = some f ∧
      lowerStatements (scopeOf fs f) f.body d = .ok (g.code, d') ∧ g.locals = d'.locals ∧
      d'.Within final := by
  have hlt : i < (live fs).length := h.length ▸ (List.getElem?_eq_some_iff.mp hg).1
  have hf := getElem?_eq_getElem hlt
  obtain ⟨g', d, d', hg', hcode, hlocals, hfinal⟩ := h.lowered hf
  obtain rfl : g = g' := Option.some.inj (hg.symm.trans hg')
  exact ⟨_, d, d', hf, hcode, hlocals, hfinal⟩

theorem ofPrepared_eq_ok (h : ofPrepared fs = .ok p) : ∃ final : Draft,
    (live fs).mapM (Prepared.lower (externalsOf fs)
      (HostFunction.all.length + (live fs).length)) {} = .ok (p.functions, final) ∧
    p.externals = (externalsOf fs).names.map splitKey ∧ p.globals = final.globals.size ∧
    p.usesMemory = final.usesMemory ∧ p.routines = final.routines.names := by
  unfold ofPrepared at h
  change ((live fs).mapM
    (Prepared.lower (externalsOf fs) (HostFunction.all.length + (live fs).length))
    {} >>= fun r => _) = .ok p at h
  obtain ⟨⟨functions, final⟩, hmap, hp⟩ := Except.bind_eq_ok.mp h
  cases hp
  exact ⟨final, hmap, rfl, rfl, rfl, rfl⟩

theorem drafted_of_mapM
    (hmap : (live fs).mapM (Prepared.lower (externalsOf fs)
      (HostFunction.all.length + (live fs).length)) {} = .ok (p.functions, final))
    (hexternals : p.externals = (externalsOf fs).names.map splitKey)
    (hglobals : p.globals = final.globals.size) (hmemory : p.usesMemory = final.usesMemory)
    (hroutines : p.routines = final.routines.names) : p.Drafted fs final := by
  obtain ⟨-, hlength, hall⟩ := mapM_lower_eq_ok hmap
  refine ⟨hexternals, hglobals, hmemory, hroutines, hlength, ?_⟩
  intro i f hi
  obtain ⟨g, d, d', hg, hlower, hfinal⟩ := hall hi
  obtain ⟨hcode, hlocals⟩ := lowerPrepared_eq_ok hlower
  exact ⟨g, _, d', hg, hcode, hlocals, hfinal⟩

theorem drafted_of_ofPrepared (h : ofPrepared fs = .ok p) : ∃ final, p.Drafted fs final := by
  obtain ⟨final, hmap, hexternals, hglobals, hmemory, hroutines⟩ := ofPrepared_eq_ok h
  exact ⟨final, drafted_of_mapM hmap hexternals hglobals hmemory hroutines⟩

end Program

end Eel
