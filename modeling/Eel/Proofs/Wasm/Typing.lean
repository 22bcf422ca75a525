import Mathlib
import Eel.Wasm.Typing

/-!
Code with a type: what it takes from the stack and what it leaves there,
whatever lies below.

The checker walks over instructions and keeps a stack of types. Code that is
typed on its own is typed wherever it stands, so bodies are put together from
typed pieces.
-/

namespace Eel.Wasm

open List

namespace Operands

variable (o : Operands)

@[simp]
theorem pushAll_nil : o.pushAll [] = o := rfl

@[simp]
theorem pushAll_cons (t : ValType) (types : List ValType) :
    o.pushAll (t :: types) = (o.push t).pushAll types := rfl

theorem pushAll_append (first second : List ValType) :
    o.pushAll (first ++ second) = (o.pushAll first).pushAll second :=
  foldl_append

@[simp]
theorem pop?_push (t : ValType) : (o.push t).pop? t = some o := if_pos rfl

@[simp]
theorem drop?_push (t : ValType) : (o.push t).drop? = some o := rfl

@[simp]
theorem popAll?_pushAll (types : List ValType) : (o.pushAll types).popAll? types = some o := by
  induction types using List.reverseRecOn with
  | nil => rfl
  | append_singleton types t ih =>
    rw [pushAll_append, popAll?, reverse_append]
    change ((((o.pushAll types).push t).pop? t).bind fun rest => rest.popAll? types) = some o
    rw [pop?_push]
    exact ih

@[simp]
theorem popAll?_nil : o.popAll? [] = some o := rfl

@[simp]
theorem popAll?_one (t : ValType) : (o.push t).popAll? [t] = some o := o.popAll?_pushAll [t]

@[simp]
theorem popAll?_two (s t : ValType) : ((o.push s).push t).popAll? [s, t] = some o :=
  o.popAll?_pushAll [s, t]

theorem isExactly_pushAll (types : List ValType) :
    (({} : Operands).pushAll types).isExactly types = true := by
  rw [isExactly, popAll?_pushAll]
  rfl

end Operands

namespace Instr

section Check

variable (c : TypeContext) (o : Operands) {index : Nat} {t : ValType}

@[simp]
theorem checkAll_nil : checkAll c [] o = some o := rfl

@[simp]
theorem checkAll_cons (i : Instr) (rest : List Instr) :
    checkAll c (i :: rest) o = (check c i o).bind (checkAll c rest) := rfl

theorem checkAll_append (first second : List Instr) :
    checkAll c (first ++ second) o = (checkAll c first o).bind (checkAll c second) := by
  induction first generalizing o with
  | nil => rfl
  | cons i rest ih =>
    rw [cons_append, checkAll_cons, checkAll_cons, Option.bind_assoc]
    congr 1
    funext o'
    exact ih o'

@[simp]
theorem check_const (v : Value) : check c (.const v) o = some (o.push v.type) := rfl

@[simp]
theorem check_drop (t : ValType) : check c .drop (o.push t) = some o := rfl

@[simp]
theorem check_num (op : NumOp) :
    check c (.num op) o = (o.popAll? op.signature.1).bind fun o =>
      some (o.push op.signature.2) := rfl

variable {c}

theorem check_brIf {depth : Nat} (h : c.labels[depth]? = some []) :
    check c (.brIf depth) (o.push .i32) = some o := by
  change (c.labels[depth]?).bind (fun label => (((o.push .i32).pop? .i32).bind fun o =>
    (o.popAll? label).bind fun o => some (o.pushAll label))) = _
  rw [h]
  rfl

theorem check_call {type : FuncType} (h : c.functions[index]? = some type) :
    check c (.call index) (o.pushAll type.params) = some (o.pushAll type.results) := by
  change (c.functions[index]?).bind (fun type => ((o.pushAll _).popAll? type.params).bind fun o =>
    some (o.pushAll type.results)) = _
  rw [h, Option.bind_some, Operands.popAll?_pushAll]
  rfl

theorem check_localGet (h : c.locals[index]? = some t) :
    check c (.localGet index) o = some (o.push t) := by
  change (c.locals[index]?).bind (fun t => some (o.push t)) = _
  rw [h]
  rfl

theorem check_localSet (h : c.locals[index]? = some t) :
    check c (.localSet index) (o.push t) = some o := by
  change (c.locals[index]?).bind (fun u => (o.push t).pop? u) = _
  rw [h, Option.bind_some, Operands.pop?_push]

theorem check_localTee (h : c.locals[index]? = some t) :
    check c (.localTee index) (o.push t) = some (o.push t) := by
  change (c.locals[index]?).bind (fun u => ((o.push t).pop? u).bind fun o => some (o.push u)) = _
  rw [h, Option.bind_some, Operands.pop?_push]
  rfl

theorem check_globalGet {g : GlobalType} (h : c.globals[index]? = some g) :
    check c (.globalGet index) o = some (o.push g.type) := by
  change (c.globals[index]?).bind (fun g => some (o.push g.type)) = _
  rw [h]
  rfl

theorem check_globalSet (h : c.globals[index]? = some ⟨t, true⟩) :
    check c (.globalSet index) (o.push t) = some o := by
  change (do
    let g ← c.globals[index]?
    guard g.isMutable
    (o.push t).pop? g.type : Option Operands) = _
  rw [h]
  exact o.pop?_push t

theorem check_f64Load (offset : Nat) (h : c.hasMemory = true) :
    check c (.f64Load offset) (o.push .i32) = some (o.push .f64) := by
  change (do
    guard c.hasMemory
    return (← (o.push .i32).pop? .i32).push .f64 : Option Operands) = _
  rw [h]
  rfl

theorem check_f64Store (offset : Nat) (h : c.hasMemory = true) :
    check c (.f64Store offset) ((o.push .i32).push .f64) = some o := by
  change (do
    guard c.hasMemory
    (← ((o.push .i32).push .f64).pop? .f64).pop? .i32 : Option Operands) = _
  rw [h]
  rfl

theorem guard_bind {α : Type} {b : Bool} (h : b = true) (rest : Option α) :
    (guard (b = true) >>= fun _ => rest : Option α) = rest := by
  subst h
  rfl

/-- That instructions can stand alone and leave just the given types. -/
def Leaves (c : TypeContext) (code : List Instr) (types : List ValType) : Prop :=
  ∃ o, checkAll c code {} = some o ∧ o.isExactly types = true

variable (type : BlockType) {body consequent alternate : List Instr}

theorem check_block (h : Leaves (c.inside type.results) body type.results) :
    check c (.block type body) o = some (o.pushAll type.results) := by
  obtain ⟨o', hbody, hexactly⟩ := h
  change (do
    guard ((← checkAll (c.inside type.results) body {}).isExactly type.results)
    return o.pushAll type.results : Option Operands) = _
  rw [hbody]
  exact guard_bind hexactly _

theorem check_loop (h : Leaves (c.inside []) body type.results) :
    check c (.loop type body) o = some (o.pushAll type.results) := by
  obtain ⟨o', hbody, hexactly⟩ := h
  change (do
    guard ((← checkAll (c.inside []) body {}).isExactly type.results)
    return o.pushAll type.results : Option Operands) = _
  rw [hbody]
  exact guard_bind hexactly _

theorem check_choice (h : Leaves (c.inside type.results) consequent type.results)
    (h' : Leaves (c.inside type.results) alternate type.results) :
    check c (.choice type consequent alternate) (o.push .i32) = some (o.pushAll type.results) := by
  obtain ⟨o₁, hconsequent, hexactly⟩ := h
  obtain ⟨o₂, halternate, hexactly'⟩ := h'
  change (do
    guard ((← checkAll (c.inside type.results) consequent {}).isExactly type.results)
    guard ((← checkAll (c.inside type.results) alternate {}).isExactly type.results)
    return o.pushAll type.results : Option Operands) = _
  rw [hconsequent, halternate]
  exact (guard_bind hexactly _).trans (guard_bind hexactly' _)

end Check

/-- That instructions take values of some types and leave values of others,
whatever lies below. -/
def Types (c : TypeContext) (code : List Instr) (takes gives : List ValType) : Prop :=
  ∀ o : Operands, checkAll c code (o.pushAll takes) = some (o.pushAll gives)

namespace Types

variable {c : TypeContext} {code code' : List Instr} {takes between gives : List ValType}

theorem of_check {i : Instr}
    (h : ∀ o : Operands, check c i (o.pushAll takes) = some (o.pushAll gives)) :
    Types c [i] takes gives := by
  intro o
  rw [checkAll_cons, h o]
  rfl

theorem append (h : Types c code takes between) (h' : Types c code' between gives) :
    Types c (code ++ code') takes gives := by
  intro o
  rw [checkAll_append, h o, Option.bind_some, h' o]

/-- What lies below is left alone. -/
theorem above (h : Types c code takes gives) (below : List ValType) :
    Types c code (below ++ takes) (below ++ gives) := by
  intro o
  rw [Operands.pushAll_append, Operands.pushAll_append]
  exact h (o.pushAll below)

theorem onTop (h : Types c code [] gives) (below : List ValType) :
    Types c code below (below ++ gives) := by
  have habove := h.above below
  rwa [append_nil] at habove

theorem leaves (h : Types c code [] gives) : Leaves c code gives :=
  ⟨_, h {}, Operands.isExactly_pushAll gives⟩

end Types

end Instr

end Eel.Wasm
