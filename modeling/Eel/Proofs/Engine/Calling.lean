import Mathlib
import Eel.Engine.Load

/-!
Calls of instances.

A call runs on the cells of an instance's globals and writes them back.
Different globals have different cells, so each cell gets the value of its
global, and no other cell changes.
-/

namespace Eel.Engine

open Machine List

section Cells

variable {cells : Array Double} {is : List Nat} {xs : List Double} {i : Nat}

@[simp]
theorem size_writeCells (cells : Array Double) (is : List Nat) (xs : List Double) :
    (writeCells cells is xs).size = cells.size := by
  fun_induction writeCells cells is xs with
  | case1 cells i rest x xs ih => rw [ih, Array.size_setIfInBounds]
  | case2 => rfl

theorem getElem?_writeCells_of_notMem (h : i ∉ is) : (writeCells cells is xs)[i]? = cells[i]? := by
  fun_induction writeCells cells is xs with
  | case1 cells j rest x xs ih =>
    rw [mem_cons, not_or] at h
    rw [ih h.2, Array.getElem?_setIfInBounds_ne (Ne.symm h.1)]
  | case2 => rfl

/-- A cell that is written once holds what is written. -/
theorem getElem?_writeCells (hnodup : is.Nodup) {k : Nat} {x : Double} (hk : is[k]? = some i)
    (hx : xs[k]? = some x) (hi : i < cells.size) : (writeCells cells is xs)[i]? = some x := by
  induction is generalizing cells xs k with
  | nil => cases hk
  | cons j rest ih =>
    rw [nodup_cons] at hnodup
    cases xs with
    | nil => cases hx
    | cons y ys =>
      rw [writeCells]
      cases k with
      | zero =>
        cases hk
        cases hx
        rw [getElem?_writeCells_of_notMem hnodup.1]
        simp [hi]
      | succ k => exact ih hnodup.2 hk hx (by simpa using hi)

/-- What is written to different cells is found in them. -/
theorem map_getD_writeCells (hnodup : is.Nodup) (hcells : ∀ i ∈ is, i < cells.size)
    (hlength : xs.length = is.length) : is.map ((writeCells cells is xs).getD · .zero) = xs := by
  refine ext_getElem? fun k => ?_
  rw [getElem?_map]
  cases hk : is[k]? with
  | none =>
    rw [List.getElem?_eq_none_iff] at hk
    rw [getElem?_eq_none (hlength ▸ hk)]
    rfl
  | some i =>
    have hx := getElem?_eq_getElem (hlength ▸ (List.getElem?_eq_some_iff.mp hk).1 : k < xs.length)
    have hwritten := getElem?_writeCells hnodup hk hx (hcells i (mem_of_getElem? hk))
    rw [Option.map_some, Array.getD_eq_getD_getElem?, hwritten, hx]
    rfl

end Cells

/-- What an instance works on: the values of its cells, its memory, and the
random numbers of the engine. -/
def store (e : Engine) (i : Instance) : Store Random :=
  ⟨(i.globals.map e.value).toArray, i.memory, e.random⟩

/-- The engine with what a call leaves for an instance to work on. -/
def leaving (e : Engine) (index : Nat) (i : Instance) (store : Store Random) : Engine := { e with
  cells := writeCells e.cells i.globals store.globals.toList
  random := store.host
  instances := e.instances.set index { i with memory := store.memory } }

variable {e : Engine} {i : Instance} {index : Nat} {name : Bytes} {store : Store Random}

/-- A call that ends leaves the globals in their cells. If the instance is
closed, it fails all the same. -/
theorem call_of_invoke {x : Wasm.Export} {stack : List Wasm.Value}
    (hi : e.instances[index]? = some i)
    (hx : i.exports.find? (fun x => x.name == name && x.kind == .func) = some x)
    (hinvoke : @invoke _ .binary64 e.host i.table depthLimit x.index (e.store i) [] =
      .done store stack) :
    e.call index name =
      (if i.isClosed then .error (.call name) else .ok (), e.leaving index i store) := by
  have hrun : e.run i x.index = some ({ e with
      cells := writeCells e.cells i.globals store.globals.toList
      random := store.host }, store.memory) := by
    rw [Engine.store] at hinvoke
    rw [run, hinvoke]
  rw [call, hi]
  simp only [hx, hrun]
  rfl

/-- What is left to work on is found there. -/
theorem store_leaving (hnodup : i.globals.Nodup) (hcells : ∀ c ∈ i.globals, c < e.cells.size)
    (hsize : store.globals.size = i.globals.length) :
    (e.leaving index i store).store { i with memory := store.memory } = store := by
  have hglobals : i.globals.map (e.leaving index i store).value = store.globals.toList :=
    map_getD_writeCells hnodup hcells (by rw [Array.length_toList, hsize])
  rw [Engine.store, hglobals]
  rfl

/-- No other cell changes. -/
theorem value_leaving {c : Nat} (h : c ∉ i.globals) :
    (e.leaving index i store).value c = e.value c := by
  rw [value, Array.getD_eq_getD_getElem?, leaving, getElem?_writeCells_of_notMem h,
    ← Array.getD_eq_getD_getElem?]
  rfl

end Eel.Engine
