import Eel.Proofs.Double.Truncation
import Eel.Proofs.Meaning.Layout
import Eel.Proofs.Program.References

/-!
Instructions that do what a part of a run does.

A store holds a state when the globals hold the values of the variables and the
memory holds the slots. Code runs like a computation on states when it takes
every frame that holds a state to one that holds the state behind the
computation, and leaves the values of the computation on the stack. Such code is
put together like the computations are.
-/

namespace Eel

open List

theorem variableKey_inj {pool x y : Bytes} (h : variableKey pool x = variableKey pool y) :
    x = y := by
  simpa [variableKey] using h

namespace Pool

variable {pool pool' : Pool} {externals globals : Numbering Bytes} {x y : Bytes} {i : Nat}

theorem lower_of_find? {declared : Bytes} (h : pool.find? x = some declared) :
    Text.lower declared = Text.lower x := by
  simpa using find?_some h

/-- The global of a variable is the one of its key: an imported one if the pool
declares it. -/
theorem slot?_cases (h : pool.slot? externals globals x = some i) :
    (∃ declared, pool.find? x = some declared ∧
      externals.names[i]? = some (variableKey pool.name declared)) ∨
      ∃ k, i = externals.names.length + k ∧ globals.names[k]? = some (variableKey pool.name x) := by
  unfold slot? at h
  cases hx : pool.find? x with
  | some declared =>
    simp only [hx] at h
    exact .inl ⟨declared, rfl, Numbering.getElem?_of_find? h⟩
  | none =>
    simp only [hx, Option.map_eq_some_iff] at h
    obtain ⟨k, hk, rfl⟩ := h
    exact .inr ⟨k, rfl, Numbering.getElem?_of_find? hk⟩

/-- Variables that share a global share a key, that of the declarations if they
are declared. -/
theorem key_eq_of_slot? (hx : pool.slot? externals globals x = some i)
    (hy : pool'.slot? externals globals y = some i) :
    (∃ dx dy, pool.find? x = some dx ∧ pool'.find? y = some dy ∧
      variableKey pool.name dx = variableKey pool'.name dy) ∨
      variableKey pool.name x = variableKey pool'.name y := by
  rcases slot?_cases hx with ⟨dx, hdx, hkx⟩ | ⟨k, rfl, hkx⟩
  · rcases slot?_cases hy with ⟨dy, hdy, hky⟩ | ⟨k, rfl, -⟩
    · exact .inl ⟨dx, dy, hdx, hdy, Option.some.inj (hkx.symm.trans hky)⟩
    · have hlt := (List.getElem?_eq_some_iff.mp hkx).1
      omega
  · rcases slot?_cases hy with ⟨dy, -, hky⟩ | ⟨k', hk', hky⟩
    · have hlt := (List.getElem?_eq_some_iff.mp hky).1
      omega
    · obtain rfl : k = k' := by omega
      exact .inr (Option.some.inj (hkx.symm.trans hky))

/-- Variables with different names in lower case have different globals. -/
theorem slot?_inj (hx : Text.lower x = x) (hy : Text.lower y = y)
    (hxi : pool.slot? externals globals x = some i)
    (hyi : pool.slot? externals globals y = some i) : x = y := by
  rcases key_eq_of_slot? hxi hyi with ⟨dx, dy, hdx, hdy, hkey⟩ | hkey
  · obtain rfl := variableKey_inj hkey
    rw [← hx, ← hy, ← lower_of_find? hdx, ← lower_of_find? hdy]
  · exact variableKey_inj hkey

end Pool

/-- Where the functions of a pool find their variables. Names are those in lower
case. -/
def Pool.layout (pool : Pool) (externals globals : Numbering Bytes) (usesMemory : Bool) :
    Layout where
  place x := if Text.lower x = x then pool.slot? externals globals x else none
  usesMemory := usesMemory
  place_inj := by
    intro x y i hx hy
    simp only [Option.ite_none_right_eq_some] at hx hy
    exact slot?_inj hx.1 hy.1 hx.2 hy.2

namespace Lowering

open Wasm Machine

attribute [local instance] Arithmetic.binary64

variable {σ α β : Type} {s : Scope} {final : Draft} {leaves' : β → List Value} {i : Nat}

/-- How the parts of a finished program are reached while one of its functions
runs. -/
structure Linkage (σ : Type) (s : Scope) (final : Draft) where
  host : Host σ
  calls : Calls σ
  calls_host : ∀ f : HostFunction, calls f.index = Machine.callHost host f
  calls_routine : ∀ {r : Routine} {k : Nat}, final.routines.find? r = some k →
    ∃ inner, calls (s.routineBase + k) = callCode inner r.toCode

/-- Where a function finds what its instructions name. -/
def Scope.layout (s : Scope) (final : Draft) : Layout :=
  s.pool.layout s.externals final.globals final.usesMemory

theorem Scope.place_eq {x : Bytes} (hx : Text.lower x = x) (hi : s.slot? final.globals x = some i) :
    (s.layout final).place x = some i :=
  (if_pos hx).trans hi

/-- What code leaves as it was: all of the store that is no variable or slot,
and the first locals. -/
structure Keeps (layout : Layout) (low : Nat) (frame frame' : Frame σ) : Prop where
  store : layout.Spares frame.store frame'.store
  length : frame'.locals.length = frame.locals.length
  local_ : ∀ i < low, frame'.locals[i]? = frame.locals[i]?

namespace Keeps

variable {layout : Layout} {low low' : Nat} {frame frame₁ frame₂ : Frame σ}

theorem refl (frame : Frame σ) : Keeps layout low frame frame :=
  ⟨.refl _, rfl, fun _ _ => rfl⟩

theorem trans (h : Keeps layout low frame frame₁) (h' : Keeps layout low frame₁ frame₂) :
    Keeps layout low frame frame₂ :=
  ⟨h.store.trans h'.store, h'.length.trans h.length,
    fun i hi => (h'.local_ i hi).trans (h.local_ i hi)⟩

theorem mono (h : Keeps layout low frame frame₁) (hlow : low' ≤ low) :
    Keeps layout low' frame frame₁ :=
  { h with local_ := fun i hi => h.local_ i (hi.trans_le hlow) }

/-- A local behind the first ones may be set. -/
theorem setLocal (frame : Frame σ) (hi : low ≤ i) (v : Value) :
    Keeps layout low frame { frame with locals := frame.locals.set i v } :=
  ⟨.refl _, length_set, fun j hj => getElem?_set_ne (by omega)⟩

/-- Only the state of the host differs. -/
theorem setHost (frame : Frame σ) (state : σ) :
    Keeps layout low frame { frame with store.host := state } :=
  ⟨⟨rfl, fun _ _ => rfl, fun _ => rfl⟩, rfl, fun _ _ => rfl⟩

end Keeps

/-- Code that takes arguments from the stack, does what a run does, and leaves
what `leaves` makes of its value. It uses the locals from `low` to `high`. -/
def Runs (link : Linkage σ s final) (low high : Nat) (code : List Instr) (args : List Value)
    (run : Run σ α) (leaves : α → List Value) : Prop :=
  ∀ (frame : Frame σ) (state : State σ) (stack : List Value),
    (s.layout final).Holds frame.store state → high ≤ frame.locals.length →
    ∃ frame', execAll link.calls code frame (args ++ stack) =
        .next frame' (leaves (run state).1 ++ stack) ∧
      (s.layout final).Holds frame'.store (run state).2 ∧ Keeps (s.layout final) low frame frame'

/-- The stack with one number on it. -/
def top (x : Double) : List Value := [.f64 x]

/-- The stack with numbers on it, the last of them on top. -/
def topAll (xs : List Double) : List Value := (xs.map .f64).reverse

namespace Runs

variable {link : Linkage σ s final} {low low' high high' : Nat} {code code' : List Instr}
  {args : List Value} {run : Run σ α} {leaves : α → List Value}

theorem mono (h : Runs link low high code args run leaves) (hlow : low' ≤ low)
    (hhigh : high ≤ high') : Runs link low' high' code args run leaves := by
  intro frame state stack hholds hlength
  obtain ⟨frame', hexec, hholds', hkeeps⟩ := h frame state stack hholds (hhigh.trans hlength)
  exact ⟨frame', hexec, hholds', hkeeps.mono hlow⟩

/-- What lies further down on the stack stays there. -/
theorem above (h : Runs link low high code args run leaves) (below : List Value) :
    Runs link low high code (args ++ below) run (fun a => leaves a ++ below) := by
  intro frame state stack hholds hlength
  simpa only [append_assoc] using h frame state (below ++ stack) hholds hlength

/-- Code behind code does one run after the other. The second may rely on what
values the first one gives. -/
theorem append {next : α → Run σ β} (h : Runs link low high code args run leaves)
    (h' : ∀ state, Runs link low high code' (leaves (run state).1) (next (run state).1) leaves') :
    Runs link low high (code ++ code') args (run >>= next) leaves' := by
  intro frame state stack hholds hlength
  obtain ⟨frame₁, hexec₁, hholds₁, hkeeps₁⟩ := h frame state stack hholds hlength
  have hlength₁ : high ≤ frame₁.locals.length := hkeeps₁.length ▸ hlength
  obtain ⟨frame₂, hexec₂, hholds₂, hkeeps₂⟩ := h' state frame₁ _ stack hholds₁ hlength₁
  refine ⟨frame₂, ?_, hholds₂, hkeeps₁.trans hkeeps₂⟩
  rw [execAll_append_of_next _ hexec₁]
  exact hexec₂

/-- What is made of the value of a run is left where the value was. -/
theorem map (f : α → β) (h : Runs link low high code args run fun a => leaves' (f a)) :
    Runs link low high code args (do return f (← run)) leaves' := h

/-- Code that only calculates gives a value and leaves the state. -/
theorem of_calculates {a : α}
    (h : ∀ (frame : Frame σ) (stack : List Value),
      execAll link.calls code frame (args ++ stack) = .next frame (leaves a ++ stack)) :
    Runs link low high code args (pure a) leaves :=
  fun frame _ stack hholds _ => ⟨frame, h frame stack, hholds, .refl frame⟩

end Runs

end Lowering

end Eel
