import Eel.Proofs.Program.Simulation
import Eel.Proofs.Simplify.Rewriting
import Eel.Proofs.Text.LetterCase

/-!
Every global is that of one variable of one pool.

The key of a variable holds the names of its pool and of itself, with a zero
byte between them. Names that are read from a source have no zero byte, so no
two variables share a key, and no two keys share a global.
-/

namespace Eel

open Reference Token List

variable {x : Bytes}

/-- The last zero byte of a key ends the name of the pool, as the name of a
variable has none. -/
theorem variableKey_inj_of_notMem {pool pool' y : Bytes} (hx : 0 ∉ x) (hy : 0 ∉ y)
    (h : variableKey pool x = variableKey pool' y) : pool = pool' ∧ x = y := by
  rcases append_eq_append_iff.mp h with ⟨t, rfl, ht⟩ | ⟨t, rfl, ht⟩
  · cases t with
    | nil => exact ⟨(append_nil _).symm, (List.cons.inj ht).2⟩
    | cons c t =>
      obtain ⟨-, rfl⟩ := List.cons.inj ht
      simp at hx
  · cases t with
    | nil => exact ⟨append_nil _, (List.cons.inj ht).2.symm⟩
    | cons c t =>
      obtain ⟨-, rfl⟩ := List.cons.inj ht
      simp at hy

theorem Token.continuesName_of_isLowerName (h : isLowerName x = true) :
    ∀ c ∈ x, continuesName c = true := by
  cases x with
  | nil => simp
  | cons c rest =>
    simp only [isLowerName, Bool.and_eq_true] at h
    have hall : (c :: rest).all continuesName = true := by
      simp [continuesName_of_startsName h.1.1, h.1.2]
    exact all_eq_true.mp hall

theorem Token.zero_notMem_of_isLowerName (h : isLowerName x = true) : 0 ∉ x := by
  intro hzero
  have hname := continuesName_iff.mp (continuesName_of_isLowerName h 0 hzero)
  simp at hname

/-- Names are text. -/
theorem Token.isValid_of_continuesName (h : ∀ c ∈ x, continuesName c = true) :
    Text.isValid x = true := by
  refine Text.isValid_of_forall_lt fun c hc => ?_
  have hname := continuesName_iff.mp (h c hc)
  rw [UInt8.lt_iff_toNat_lt]
  change c.toNat < 128
  omega

theorem Token.isValid_of_isLowerName (h : isLowerName x = true) : Text.isValid x = true :=
  isValid_of_continuesName (continuesName_of_isLowerName h)

namespace Pool

variable {pool pool' : Pool} {externals globals : Numbering Bytes} {x y : Bytes} {i : Nat}

theorem zero_notMem_of_find? {declared : Bytes} (hx : isLowerName x = true)
    (h : pool.find? x = some declared) : 0 ∉ declared := by
  intro hzero
  have hlower : Text.lower declared = x := (lower_of_find? h).trans (lower_of_isLowerName hx)
  exact zero_notMem_of_isLowerName hx (hlower ▸ Text.zero_mem_lower hzero)

theorem isSome_find?_iff :
    (pool.find? x).isSome ↔ ∃ declared ∈ pool.vars, Text.lower declared = Text.lower x := by
  simp [find?, find?_isSome]

/-- A variable is found by every name that differs from its own in nothing but
case. -/
theorem find?_eq_some_iff (h : (pool.vars.map Text.lower).Nodup) :
    pool.find? y = some x ↔ x ∈ pool.vars ∧ Text.lower x = Text.lower y := find?_key_eq_some_iff h

/-- Only one variable of one pool has a global. -/
theorem slot?_inj_pools (hx : isLowerName x = true) (hy : isLowerName y = true)
    (hxi : pool.slot? externals globals x = some i)
    (hyi : pool'.slot? externals globals y = some i) : pool.name = pool'.name ∧ x = y := by
  rcases key_eq_of_slot? hxi hyi with ⟨dx, dy, hdx, hdy, hkey⟩ | hkey
  · obtain ⟨hpool, rfl⟩ :=
      variableKey_inj_of_notMem (zero_notMem_of_find? hx hdx) (zero_notMem_of_find? hy hdy) hkey
    refine ⟨hpool, ?_⟩
    rw [← lower_of_isLowerName hx, ← lower_of_isLowerName hy, ← lower_of_find? hdx,
      lower_of_find? hdy]
  · exact variableKey_inj_of_notMem (zero_notMem_of_isLowerName hx)
      (zero_notMem_of_isLowerName hy) hkey

end Pool

/-- The variable that is read or written. -/
def Reference.name? : Named → Option Bytes
  | .read x | .write x => some x
  | .call _ => none

namespace Node

theorem name?_unary (op : UnaryOp) : op.references.filterMap name? = [] := by
  cases op <;> rfl

theorem name?_binary (op : BinaryOp) : op.references.filterMap name? = [] := by
  cases op <;> rfl

theorem name?_assign (op : AssignOp) : op.references.filterMap name? = [] := by
  unfold AssignOp.references
  cases op.combining? with
  | none => rfl
  | some op => exact name?_binary op

theorem name?_builtin (b : Builtin) : b.references.filterMap name? = [] := by
  cases b <;> rfl

theorem name?_chosen (args : List Node) :
    (referencesChosen args).filterMap name? = (referencesAll args).filterMap name? := by
  cases args <;> simp [referencesChosen, referencesAll, name?, filterMap_cons]

theorem names_all_subset {body : List Node}
    (h : ∀ n ∈ body, n.references.filterMap name? ⊆ n.mentions.map (·.name)) :
    (referencesAll body).filterMap name? ⊆ (mentionsAll body).map (·.name) := by
  induction body with
  | nil => simp [referencesAll]
  | cons n rest ih =>
    rw [forall_mem_cons] at h
    rw [referencesAll, mentionsAll, filterMap_append, map_append]
    exact Simplify.append_subset_append h.1 (ih h.2)

/-- What is read or written is mentioned. -/
theorem names_subset (n : Node) : n.references.filterMap name? ⊆ n.mentions.map (·.name) := by
  induction n using inductionOn with
  | missing | number | script => simp [references]
  | ident id => simp [references, mentions, name?]
  | block body span ih => exact names_all_subset ih
  | unary op x span ih => simpa [references, mentions, name?_unary] using ih
  | binary op x y span ihx ihy =>
    simp only [references, mentions, filterMap_append, name?_binary, append_nil, map_append]
    exact Simplify.append_subset_append ihx ihy
  | logical op x y span ihx ihy =>
    simp only [references, mentions, filterMap_append, filterMap_cons, filterMap_nil, name?,
      append_nil, map_append]
    exact Simplify.append_subset_append ihx ihy
  | call callee args span ih =>
    have hargs := names_all_subset ih
    simp only [references, mentions]
    split
    · cases HostFunction.ofName? callee.name <;> simpa [name?, filterMap_cons] using hargs
    · rw [name?_chosen]
      exact hargs
    · simpa [name?_builtin] using hargs
  | assign op target v span iht ihargs ihv =>
    cases target with
    | ident id =>
      have hold : (op.oldReferences id.name).filterMap name? ⊆ [id.name] := by
        unfold AssignOp.oldReferences
        cases op.combining? <;> simp [name?]
      simp only [references, mentions, filterMap_append, name?_assign, nil_append, map_append,
        append_subset]
      refine ⟨subset_append_of_subset_left _ hold, subset_append_of_subset_right _ ihv, ?_⟩
      simp [name?]
    | call callee args callSpan =>
      rcases args with _ | ⟨index, _ | ⟨second, rest⟩⟩
      · simp [references]
      · have hindex := ihargs index (mem_singleton_self index)
        have hcall : (toRoutine .bufferStoreIndex).name? = none := rfl
        simp only [references, mentions, mentionsAll, filterMap_append, filterMap_cons, hcall,
          name?_assign, append_nil, map_append, append_subset]
        exact ⟨subset_append_of_subset_left _ hindex, subset_append_of_subset_right _ ihv,
          subset_append_of_subset_right _ ihv⟩
      · simp [references]
    | _ => simp [references]

end Node

end Eel
