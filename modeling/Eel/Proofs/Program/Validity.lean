import Eel.Proofs.Program.Assembly
import Eel.Proofs.Program.Drafts

/-!
Compiled modules are valid.

The context in which a module has its bodies checked supports the draft that the
functions were lowered with, so every body is well typed there.
-/

namespace Eel

open Wasm List

namespace Wasm.Module

/-- What a body of a module can refer to. -/
def context (m : Module) (functions : List FuncType) (type : FuncType) (locals : List ValType) :
    TypeContext where
  functions
  globals := m.globalTypes
  hasMemory := !m.memories.isEmpty
  locals := type.params ++ locals
  labels := [type.results]

/-- That a function has the given instructions for a body, and that these leave
just what its signature says. -/
def Accepts (m : Module) (functions : List FuncType) (f : Function) (code : List Instr) : Prop :=
  f.body = Instr.bytesAll code ∧ ∃ type, m.types[f.type]? = some type ∧
    Instr.Types (m.context functions type f.locals) code [] type.results

end Wasm.Module

namespace Program

open Lowering

variable {p : Program} {r : Routine}

/-- The instructions of all functions of a program, the exported ones first. -/
def bodies (p : Program) : List (List Instr) := p.functions.map (·.code) ++ p.routines.map (·.code)

/-- The signatures of all functions that a program can call. -/
def functionTypes (p : Program) : List FuncType :=
  HostFunction.all.map hostType ++
    (List.replicate p.functions.length exportType ++ p.routines.map (·.type))

theorem functionTypes_host (f : HostFunction) : p.functionTypes[f.index]? = some (hostType f) := by
  cases f <;> rfl

theorem functionTypes_routine {k : Nat} (h : p.routines[k]? = some r) :
    p.functionTypes[HostFunction.all.length + p.functions.length + k]? = some r.type := by
  have hbehind := getElem?_behind (HostFunction.all.map hostType)
    (List.replicate p.functions.length exportType) (p.routines.map (·.type)) k
  rw [length_map, length_replicate] at hbehind
  rw [functionTypes, hbehind, getElem?_map, h]
  rfl

theorem routine_accepts (h : r ∈ p.routines) :
    p.assembled.Accepts p.functionTypes (routineFunction r) r.code :=
  ⟨rfl, r.type, types_routine h, r.code_types rfl⟩

variable {fs : List Prepared} {final d : Draft}

/-- Where the bodies of a module are checked there is everything that its
functions have asked for. -/
theorem Drafted.supports (h : p.Drafted fs final) (hd : d.Within final) (f : Prepared) :
    Supports (p.assembled.context p.functionTypes exportType d.locals) (scopeOf fs f) d where
  host := functionTypes_host
  routine := by
    intro r k hk
    have hr : p.routines[k]? = some r := by
      rw [h.routines]
      exact Numbering.getElem?_of_find? (Numbering.find?_mono hd.routines hk)
    have hroutine := functionTypes_routine hr
    rw [h.length] at hroutine
    exact hroutine
  global := by
    intro i hi
    have hglobals : d.globals.size ≤ p.globals := h.globals ▸ hd.globals.length_le
    have hlt : i < p.externals.length + p.globals := by
      rw [h.length_externals]
      exact hi.trans_le (Nat.add_le_add_left hglobals _)
    change p.assembled.globalTypes[i]? = _
    rw [globalTypes_assembled, getElem?_replicate_of_lt hlt]
  memory := by
    intro hm
    have hp : p.usesMemory = true := h.memory ▸ hd.memory hm
    change (!(if p.usesMemory then _ else _ : List Limits).isEmpty) = true
    rw [if_pos hp]
    rfl
  locals := prefix_rfl

/-- That the statements of a function were lowered in some scope, and that each
expression which was lowered there on the way leaves one double on whatever is
on the stack before it. -/
def ExpressionsTyped (c : TypeContext) (g : ProgramFunction) : Prop :=
  ∃ (s : Scope) (body : List Node) (d d' : Draft), lowerStatements s body d = .ok (g.code, d') ∧
    ∀ {n : Node} {d₁ d₂ : Draft} {code : List Instr}, lower s n d₁ = .ok (code, d₂) → d₂.Grows d' →
      Instr.Types c code [] [.f64]

theorem Drafted.function_typed (h : p.Drafted fs final) {g : ProgramFunction}
    (hg : g ∈ p.functions) :
    p.assembled.Accepts p.functionTypes (exportedFunction g) g.code ∧
      ExpressionsTyped (p.assembled.context p.functionTypes exportType g.locals) g := by
  obtain ⟨i, hi⟩ := getElem?_of_mem hg
  obtain ⟨f, d, d', -, hcode, hlocals, hfinal⟩ := h.exists_lowered hi
  have hsupports := h.supports hfinal f
  rw [← hlocals] at hsupports
  refine ⟨⟨rfl, exportType, types_exportType, ?_⟩, _, _, d, d', hcode, ?_⟩
  · exact (emits_of_lowerStatements _ _ hcode).types hsupports
  · intro n d₁ d₂ code hlower hgrows
    exact (emits_of_lower _ n hlower).types (hsupports.of_grows hgrows)

theorem Drafted.bodies_accepted (h : p.Drafted fs final) :
    List.Forall₂ (p.assembled.Accepts p.functionTypes) p.assembled.functions p.bodies := by
  apply rel_append
  · rw [forall₂_map_left_iff, forall₂_map_right_iff, forall₂_same]
    exact fun g hg => (h.function_typed hg).1
  · rw [forall₂_map_left_iff, forall₂_map_right_iff, forall₂_same]
    exact fun r hr => routine_accepts hr

theorem ofOptions_eq_ok {o : Options} (h : ofOptions o = .ok p) :
    o.fault? = none ∧ ∃ fs, o.functions.mapM (Prepared.ofDecl o) = .ok fs ∧
    ofPrepared fs = .ok p := by
  unfold ofOptions at h
  cases hfault : o.fault? with
  | some cause =>
    rw [hfault] at h
    cases h
  | none =>
    rw [hfault] at h
    exact ⟨rfl, Except.bind_eq_ok.mp h⟩

end Program

theorem compile_eq_ok {o : Options} {bin : Bytes} (h : compile o = .ok bin) :
    ∃ p, Program.ofOptions o = .ok p ∧ p.assembled.encode = bin := by
  obtain ⟨p, hp, hbin⟩ := Except.bind_eq_ok.mp h
  rw [p.toModule_eq] at hbin
  exact ⟨p, hp, Except.ok.inj hbin⟩

/-- Compiled modules are valid: every body, of exported functions and of
routines, leaves just what the signature of its function says, and so does each
expression on the way. A body that reaches into memory has one to reach into,
since it would not be typed otherwise. -/
theorem compile_wellTyped {o : Options} {bin : Bytes} (h : compile o = .ok bin) :
    ∃ (p : Program) (m : Module) (functions : List FuncType), Program.ofOptions o = .ok p ∧
      p.toModule = .ok m ∧ m.encode = bin ∧ m.funcTypes? = some functions ∧
      List.Forall₂ (m.Accepts functions) m.functions p.bodies ∧
      ∀ g ∈ p.functions, Program.ExpressionsTyped
        (m.context functions Program.exportType g.locals) g := by
  obtain ⟨p, hp, hbin⟩ := compile_eq_ok h
  obtain ⟨-, fs, -, hprepared⟩ := Program.ofOptions_eq_ok hp
  obtain ⟨final, hdrafted⟩ := Program.drafted_of_ofPrepared hprepared
  refine ⟨p, p.assembled, p.functionTypes, hp, p.toModule_eq, hbin,
    Program.funcTypes_assembled, ?_, ?_⟩
  · exact hdrafted.bodies_accepted
  · exact fun g hg => (hdrafted.function_typed hg).2

/-- Two functions with loops, a slot that is read and written, and every
routine. -/
def everyRoutine : Options where
  pools := [⟨utf8 "frame", [utf8 "x"]⟩]
  functions := [
    ⟨utf8 "step", utf8 "frame",
      utf8 "while(gmegabuf(x) -= 1); loop(x & 3, y = x % 2 | megabuf(x / 2))"⟩,
    ⟨utf8 "rest", utf8 "frame", utf8 "x = sign(x) == !y ? rand(y) : invsqrt(y) || x"⟩]

theorem everyRoutine_wellTyped :
    ∃ (bin : Bytes) (p : Program) (m : Module) (functions : List FuncType),
    compile everyRoutine = .ok bin ∧ m.encode = bin ∧ m.funcTypes? = some functions ∧
      p.routines.length = 9 ∧ List.Forall₂ (m.Accepts functions) m.functions p.bodies := by
  have hok : (compile everyRoutine).isOk = true := by decide +kernel
  obtain ⟨bin, hbin⟩ := Except.exists_ok_of_isOk hok
  obtain ⟨p, m, functions, hp, -, hencode, htypes, haccepts, -⟩ := compile_wellTyped hbin
  have hroutines : (Program.ofOptions everyRoutine).map (·.routines.length) = .ok 9 := by
    decide +kernel
  rw [hp] at hroutines
  exact ⟨bin, p, m, functions, hbin, hencode, htypes, Except.ok.inj hroutines, haccepts⟩

end Eel
