import Eel.Proofs.Machine.Memory

/-!
Stores that stand for states.

A layout says which global is which variable, and whether the buffers lie in
memory. A store holds a state when its globals and its memory have the values of
the variables and slots there.
-/

namespace Eel

open Machine

/-- Where a function finds its variables and slots. -/
structure Layout where
  /-- The index of the global of a variable. -/
  place : Bytes → Option Nat
  usesMemory : Bool
  place_inj : ∀ {x y : Bytes} {i : Nat}, place x = some i → place y = some i → x = y

namespace Layout

variable {σ : Type} {layout : Layout} {k : Nat}

/-- That a store has the values of a state. -/
structure Holds (layout : Layout) (store : Store σ) (state : State σ) : Prop where
  host : store.host = state.host
  var : ∀ {x : Bytes} {i : Nat}, layout.place x = some i → store.globals[i]? = some (state.vars x)
  memorySize : layout.usesMemory = true → store.memory.size = 2 * bufferBytes
  slot : layout.usesMemory = true → ∀ (b : Buffer) {k : Nat}, k < bufferSlots →
    store.memory.load? (b.base + 8 * k) = some (state.slots b k)

/-- That two stores differ in nothing but variables, slots and the state of the
host. -/
structure Spares (layout : Layout) (store store' : Store σ) : Prop where
  size : store'.globals.size = store.globals.size
  global : ∀ i, (∀ x, layout.place x ≠ some i) → store'.globals[i]? = store.globals[i]?
  memory : layout.usesMemory = false → store'.memory = store.memory

theorem Spares.refl (store : Store σ) : layout.Spares store store :=
  ⟨rfl, fun _ _ => rfl, fun _ => rfl⟩

theorem Spares.trans {store store₁ store₂ : Store σ} (h : layout.Spares store store₁)
    (h' : layout.Spares store₁ store₂) : layout.Spares store store₂ :=
  ⟨h'.size.trans h.size, fun i hi => (h'.global i hi).trans (h.global i hi),
    fun hm => (h'.memory hm).trans (h.memory hm)⟩

/-- The state that a store stands for. -/
def view (layout : Layout) (store : Store σ) : State σ where
  vars x := ((layout.place x).bind (store.globals[·]?)).getD .zero
  slots b k := (store.memory.load? (b.base + 8 * k)).getD .zero
  host := store.host

/-- A store with a global for every variable and room for all slots holds the
state it stands for. -/
theorem holds_view {store : Store σ}
    (hglobals : ∀ x i, layout.place x = some i → i < store.globals.size)
    (hmemory : layout.usesMemory = true → store.memory.size = 2 * bufferBytes) :
    layout.Holds store (layout.view store) := by
  refine ⟨rfl, ?_, hmemory, ?_⟩
  · intro x i hi
    simp [view, hi, hglobals x i hi]
  · intro hm b k hk
    simp [view, (Memory.load?_slot (hmemory hm) hk).1]

namespace Holds

variable {store : Store σ} {state : State σ}

theorem setVar (h : layout.Holds store state) {x : Bytes} {i : Nat}
    (hi : layout.place x = some i) (v : Double) :
    layout.Holds { store with globals := store.globals.setIfInBounds i v } (state.setVar x v) := by
  refine ⟨h.host, ?_, h.memorySize, h.slot⟩
  intro y j hj
  have hsize : i < store.globals.size := (Array.getElem?_eq_some_iff.mp (h.var hi)).1
  by_cases hxy : y = x
  · subst hxy
    obtain rfl : i = j := Option.some.inj (hi.symm.trans hj)
    simp [State.setVar, hsize]
  · have hij : i ≠ j := fun hij => hxy (layout.place_inj hj (hij ▸ hi))
    rw [Array.getElem?_setIfInBounds_ne hij, h.var hj]
    simp [State.setVar, Function.update_of_ne hxy]

theorem load (h : layout.Holds store state) (hm : layout.usesMemory = true) (b : Buffer)
    (hk : k < bufferSlots) :
    store.memory.load? (address (offsetOf (some k)) b.base) = some (state.slots b k) := by
  rw [address_offset hk, h.slot hm b hk]

/-- A double put into a slot is what the slot holds from then on, and no other
slot changes. -/
theorem setSlot (h : layout.Holds store state) (hm : layout.usesMemory = true) (b : Buffer)
    (hk : k < bufferSlots) (v : Double) :
    ∃ memory, store.memory.store? (address (offsetOf (some k)) b.base) v = some memory ∧
      layout.Holds { store with memory } (state.setSlot b k v) := by
  have hsize := h.memorySize hm
  obtain ⟨memory, hstore, hsize', hsets⟩ := Memory.exists_store?_slot (b := b) hsize hk v
  refine ⟨memory, by rw [address_offset hk, hstore], h.host, h.var, fun _ => hsize', ?_⟩
  intro _ c j hj
  have hold := h.slot hm c hj
  rw [(Memory.load?_slot hsize hj).1] at hold
  rw [(Memory.load?_slot hsize' hj).1]
  by_cases hbc : c = b
  · subst hbc
    by_cases hkj : j = k
    · subst hkj
      simp [State.setSlot, hsets.written]
    · simp [State.setSlot, Function.update_of_ne hkj, hsets.others hj (.inr hkj),
        Option.some.inj hold]
  · simp [State.setSlot, Function.update_of_ne hbc, hsets.others hj (.inl hbc),
      Option.some.inj hold]

end Holds

end Layout

end Eel
