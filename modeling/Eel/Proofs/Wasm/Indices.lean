import Eel.Proofs.Wasm.Signatures

/-!
What the indices of functions, globals and memories stand for.

Each kind has a space of indices of its own: what is imported comes first, in
the order of the imports, and then what is defined. An index is given at once,
before it is known what else will be added. It stays right since imports are
refused as soon as something of their kind is defined, so whatever is added
comes behind all that its space has already.
-/

namespace Eel.Wasm

open List

/-- The kinds of what has an index, apart from signatures. -/
inductive Space where
  | func
  | global
  | memory
deriving DecidableEq

/-- What has an index in a module. -/
inductive Entity where
  | imported (i : Import)
  | function (f : Function)
  | global (g : Global)
  | memory (limits : Limits)
deriving DecidableEq

def Entity.space : Entity → Space
  | imported i => if i.isFunc then .func else .global
  | function _ => .func
  | global _ => .global
  | memory _ => .memory

section Bytes

variable {α : Type}

end Bytes

namespace Module

variable {m : Module} {k : Space} {e e' : Entity} {a : Addition} {history : List Addition}
  {position index : Nat}

/-- What has an index of a kind, in the order of the indices. -/
def space (m : Module) : Space → List Entity
  | .func => (m.imports.filter (·.isFunc)).map .imported ++ m.functions.map .function
  | .global => (m.imports.filter (!·.isFunc)).map .imported ++ m.globals.map .global
  | .memory => m.memories.map .memory

section Bytes

variable {α β : Type} {id : SectionId} {items items' : List α} {bytes : α → Bytes} {view : α → β}

end Bytes

section Step

/-- What an addition adds, and the index that is given for it. An import that is
refused adds nothing, and neither signatures nor exports have a place in these
spaces. -/
def gives? (m : Module) : Addition → Option (Entity × Nat)
  | .importFunc moduleName name t => (m.importFunc moduleName name t).toOption.map fun r =>
    (.imported ⟨moduleName, name, .func (m.typeIndex t).1⟩, r.1)
  | .importGlobal moduleName name t => (m.importGlobal moduleName name t).toOption.map fun r =>
    (.imported ⟨moduleName, name, .global t⟩, r.1)
  | .function type locals body =>
    some (.function ⟨type.toNat, locals, body⟩, (m.addFunction ⟨type.toNat, locals, body⟩).1)
  | .global g => some (.global g, (m.addGlobal g).1)
  | .memory min max =>
    some (.memory ⟨min.toNat, max.map (·.toNat)⟩, (m.addMemory ⟨min.toNat, max.map (·.toNat)⟩).1)
  | .signature _ => none
  | .exported _ _ _ => none

/-- A space grows by what is added to it. Imports come in front of definitions,
but there are none yet. -/
theorem space_add (m : Module) (a : Addition) (k : Space) :
    (m.add a).space k = m.space k ++ ((m.gives? a).toList.map Prod.fst).filter (·.space = k) := by
  cases a with
  | signature t =>
    obtain ⟨added, htypes, -⟩ := m.typeIndex_eq t
    cases k <;> simp [space, add, perform, htypes, gives?]
  | importFunc moduleName name t =>
    obtain ⟨added, htypes, -⟩ := m.typeIndex_eq t
    cases hdefined : m.functions with
    | nil =>
      cases k <;>
        simp [space, add, perform, importFunc, hdefined, htypes, gives?, Except.toOption,
          Entity.space, Import.isFunc]
    | cons f fs => cases k <;> simp [add, perform, importFunc, hdefined, gives?, Except.toOption]
  | importGlobal moduleName name t =>
    cases hdefined : m.globals with
    | nil =>
      cases k <;>
        simp [space, add, perform, importGlobal, hdefined, gives?, Except.toOption, Entity.space,
          Import.isFunc]
    | cons g gs => cases k <;> simp [add, perform, importGlobal, hdefined, gives?, Except.toOption]
  | function type locals body =>
    cases k <;> simp [space, add, perform, addFunction, gives?, Entity.space]
  | global g => cases k <;> simp [space, add, perform, addGlobal, gives?, Entity.space]
  | memory min max => cases k <;> simp [space, add, perform, addMemory, gives?, Entity.space]
  | exported name kind index => cases k <;> simp [space, add, perform, addExport, gives?]

theorem length_space_func (m : Module) :
    (m.space .func).length = m.importedFuncs + m.functions.length := by
  simp [space, importedFuncs, countP_eq_length_filter]

theorem length_space_global (m : Module) :
    (m.space .global).length = m.importedGlobals + m.globals.length := by
  simp [space, importedGlobals, countP_eq_length_filter]

/-- The index that is given is the next one of the space. -/
theorem gives?_index (h : m.gives? a = some (e, index)) : index = (m.space e.space).length := by
  cases a with
  | signature t => cases h
  | importFunc moduleName name t =>
    cases hdefined : m.functions with
    | nil =>
      simp only [gives?, importFunc, hdefined] at h
      cases h
      simp [Entity.space, Import.isFunc, length_space_func, hdefined]
    | cons f fs => simp [gives?, importFunc, hdefined, Except.toOption] at h
  | importGlobal moduleName name t =>
    cases hdefined : m.globals with
    | nil =>
      simp only [gives?, importGlobal, hdefined] at h
      cases h
      simp [Entity.space, Import.isFunc, length_space_global, hdefined]
    | cons g gs => simp [gives?, importGlobal, hdefined, Except.toOption] at h
  | function type locals body =>
    cases h
    exact m.length_space_func.symm
  | global g =>
    cases h
    exact m.length_space_global.symm
  | memory min max =>
    cases h
    simp [space, Entity.space, addMemory]
  | exported name kind index => cases h

end Step

section History

/-- That a history adds something at a position, and the index that is given for
it. -/
def Given (history : List Addition) (position : Nat) (e : Entity) (index : Nat) : Prop :=
  ∃ a, history[position]? = some a ∧
    (ofAdditions (history.take position)).gives? a = some (e, index)

theorem ofAdditions_take_succ (h : history[position]? = some a) :
    ofAdditions (history.take (position + 1)) = (ofAdditions (history.take position)).add a := by
  rw [take_add_one, h, Option.toList_some, ofAdditions_concat]

/-- Nothing is taken away from a space, and nothing is put in front of what it
has. -/
theorem space_grows (history later : List Addition) (k : Space) :
    (ofAdditions history).space k <+: (ofAdditions (history ++ later)).space k := by
  induction later using List.reverseRecOn with
  | nil => rw [append_nil]
  | append_singleton later a ih =>
    rw [← append_assoc, ofAdditions_concat, space_add]
    exact ih.trans (prefix_append _ _)

theorem space_take_grows (history : List Addition) {moment later : Nat} (h : moment ≤ later)
    (k : Space) :
    (ofAdditions (history.take moment)).space k <+: (ofAdditions (history.take later)).space k := by
  obtain ⟨more, hmore⟩ := take_prefix_take_left (l := history) h
  rw [← hmore]
  exact space_grows _ more k

namespace Given

variable {position' index' : Nat} (h : Given history position e index)

include h

theorem lt_length : position < history.length := by
  obtain ⟨a, hget, -⟩ := h
  exact (List.getElem?_eq_some_iff.mp hget).1

theorem index_eq : index = ((ofAdditions (history.take position)).space e.space).length := by
  obtain ⟨a, -, hgives⟩ := h
  exact gives?_index hgives

/-- What is added comes last. -/
theorem space_eq : (ofAdditions (history.take (position + 1))).space e.space =
    (ofAdditions (history.take position)).space e.space ++ [e] := by
  obtain ⟨a, hget, hgives⟩ := h
  rw [ofAdditions_take_succ hget, space_add, hgives]
  simp

/-- Of two indices of a space, the one that is given later is larger. -/
theorem index_lt (h' : Given history position' e' index') (hspace : e.space = e'.space)
    (hlt : position < position') : index < index' := by
  have hgrows := (space_take_grows history (Nat.succ_le_of_lt hlt) e.space).length_le
  rw [h.space_eq, length_append, length_singleton, ← h.index_eq] at hgrows
  rw [h'.index_eq, ← hspace]
  omega

/-- What is given does not depend on what comes later. -/
theorem append (later : List Addition) : Given (history ++ later) position e index := by
  have hlt := h.lt_length
  obtain ⟨a, hget, hgives⟩ := h
  refine ⟨a, ?_, ?_⟩
  · rw [getElem?_append_left hlt, hget]
  · rw [take_append_of_le_length hlt.le, hgives]

end Given

namespace Refused

end Refused

end History

end Module

end Eel.Wasm
