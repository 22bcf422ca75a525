import Eel.Program.Basic
import Eel.Proofs.Machine.Reach
import Eel.Proofs.Program.Growth
import Eel.Proofs.Wasm.Instructions
import Eel.Proofs.Wasm.Typing

/-!
The steps that code is built by, and the code of operators.

Emitted code is put together from few kinds of steps, whatever it is emitted
for. `Builds` has a case for each of them, and what holds of all code without
regard to its meaning is an induction over those. An operator, or a builtin that
only calculates, adds a few instructions behind its operands. `Operates` says
all that is to be known of these at once: the steps, what they take from the
stack and leave there, and that they run straight on.
-/

namespace Eel

open List

/-- A variable that is read or written, or a function that is called. -/
inductive Reference (V F : Type) where
  | read (x : V)
  | write (x : V)
  | call (f : F)
deriving DecidableEq, Repr

/-- Puts indices in the place of names. -/
def Reference.map {V F : Type} (global : V → Nat) (function : F → Nat) :
    Reference V F → Reference Nat Nat
  | .read x => .read (global x)
  | .write x => .write (global x)
  | .call f => .call (function f)

/-- What expressions call: functions of the host, and routines. -/
inductive Callable where
  | host (f : HostFunction)
  | routine (r : Routine)
deriving DecidableEq, Repr

namespace Reference

/-- What trees refer to, by name. -/
abbrev Named := Reference Bytes Callable

abbrev toRoutine (r : Routine) : Named := .call (.routine r)

def routine? : Named → Option Routine
  | .call (.routine r) => some r
  | _ => none

end Reference

open Reference

namespace Wasm.Instr

mutual

/-- The globals and functions that an instruction names, in the order of the
code. -/
def references : Instr → List (Reference Nat Nat)
  | .block _ body | .loop _ body => referencesAll body
  | .choice _ consequent alternate => referencesAll consequent ++ referencesAll alternate
  | .call index => [.call index]
  | .globalGet index => [.read index]
  | .globalSet index => [.write index]
  | _ => []

def referencesAll : List Instr → List (Reference Nat Nat)
  | [] => []
  | i :: rest => i.references ++ referencesAll rest

end

theorem referencesAll_append (first second : List Instr) :
    referencesAll (first ++ second) = referencesAll first ++ referencesAll second := by
  induction first with
  | nil => rfl
  | cons i rest ih => simp only [cons_append, referencesAll, ih, append_assoc]

end Wasm.Instr

def UnaryOp.references : UnaryOp → List Named
  | .not => [toRoutine .isZeroish]
  | _ => []

def BinaryOp.references : BinaryOp → List Named
  | .div => [toRoutine .div]
  | .rem => [toRoutine .rem]
  | .bitAnd => [toRoutine .bitwiseAnd]
  | .bitOr => [toRoutine .bitwiseOr]
  | .pow => [.call (.host .pow)]
  | .eq => [toRoutine .isZeroish]
  | .ne => [toRoutine .isNotZeroish]
  | _ => []

/-- What combining the old value with the new one refers to. -/
def AssignOp.references (op : AssignOp) : List Named :=
  match op.combining? with
  | none => []
  | some op => op.references

/-- A variable is read before it is assigned only if its old value is used. -/
def AssignOp.oldReferences (op : AssignOp) (x : Bytes) : List Named :=
  match op.combining? with
  | none => []
  | some _ => [.read x]

/-- What a builtin refers to behind its arguments. -/
def Builtin.references : Builtin → List Named
  | .whileLoop => [toRoutine .isNotZeroish]
  | .megabuf | .gmegabuf => [toRoutine .bufferIndex]
  | .sign => [toRoutine .sign]
  | .bor | .band => [toRoutine .isNotZeroish, toRoutine .isNotZeroish]
  | .bnot | .equal => [toRoutine .isZeroish]
  | _ => []

theorem Wasm.ValType.isKnown_i32 : ValType.i32.IsKnown := mem_cons_self

theorem Wasm.ValType.isKnown_f64 : ValType.f64.IsKnown := by
  unfold IsKnown
  decide

open Wasm in
def Routine.type (r : Routine) : FuncType := ⟨r.signature.1, r.signature.2⟩

namespace Lowering

open Wasm Instr

variable {s : Scope} {d d₁ d' : Draft} {xs : List Ident} {names names' : List Named}
  {code : List Instr} {i : Instr}
  {c : TypeContext} {r : Routine} {op : AssignOp}

/-- The steps that lead from one draft to another, with the variables that get
globals on the way, what the code refers to by name, and the code. -/
inductive Builds (s : Scope) : List Ident → List Named → Draft → List Instr → Draft → Prop
  | plain {d : Draft} {code : List Instr} (hnames : referencesAll code = [])
      (hlegible : d.locals.length ≤ 2 ^ 32 → areLegible code = true) : Builds s [] [] d code d
  /-- Every local comes with code that uses it. -/
  | addLocal {d : Draft} {type : ValType} {code : List Instr} (htype : type.IsKnown)
      (hne : code ≠ [])
      (hnames : referencesAll code = [])
      (hlegible : d.locals.length < 2 ^ 32 → areLegible code = true) :
      Builds s [] [] d code (d.addLocal type)
  | addMemory {d : Draft} : Builds s [] [] d [] d.addMemory
  | host {d : Draft} (f : HostFunction) : Builds s [] [.call (.host f)] d [callHost f] d
  | routine {d d' : Draft} {r : Routine} {i : Instr} (h : callRoutine s r d = .ok (i, d')) :
      Builds s [] [toRoutine r] d [i] d'
  | again {d d₁ d' : Draft} {r : Routine} {i : Instr} (h : callRoutine s r d = .ok (i, d₁))
      (hd : d₁.Grows d') :
      Builds s [] [toRoutine r] d' [i] d'
  | index {d d' : Draft} {x : Ident} {i : Nat} (h : globalIndex s x d = .ok (i, d')) :
      Builds s [x] [] d [] d'
  | read {d : Draft} {x : Bytes} {i : Nat} (h : s.slot? d.globals x = some i) :
      Builds s [] [.read x] d [.globalGet i] d
  | write {d : Draft} {x : Bytes} {i : Nat} (h : s.slot? d.globals x = some i) :
      Builds s [] [.write x] d [.globalSet i] d
  | append {d d₁ d' : Draft} {xs xs' : List Ident} {names names' : List Named}
      {code code' : List Instr}
      (h : Builds s xs names d code d₁) (h' : Builds s xs' names' d₁ code' d') :
      Builds s (xs ++ xs') (names ++ names') d (code ++ code') d'
  | choice {d d₁ d' : Draft} {xs xs' : List Ident} {names names' : List Named}
      {code code' : List Instr}
      (type : BlockType) (h : Builds s xs names d code d₁) (h' : Builds s xs' names' d₁ code' d') :
      Builds s (xs ++ xs') (names ++ names') d [.choice type code code'] d'
  | block {d d' : Draft} {xs : List Ident} {names : List Named} {code : List Instr}
      (type : BlockType)
      (h : Builds s xs names d code d') : Builds s xs names d [.block type code] d'
  | loop {d d' : Draft} {xs : List Ident} {names : List Named} {code : List Instr}
      (type : BlockType)
      (h : Builds s xs names d code d') : Builds s xs names d [.loop type code] d'
  | same {d d' : Draft} {xs xs' : List Ident} {names : List Named} {code : List Instr}
      (h : Builds s xs names d code d') (hxs : ∀ x, x ∈ xs ↔ x ∈ xs') : Builds s xs' names d code d'

/-- Code without locals. -/
theorem Builds.fixed (code : List Instr) (hnames : referencesAll code = [])
    (hlegible : areLegible code = true) :
    Builds s [] [] d code d := .plain hnames fun _ => hlegible

/-- The draft behind a step knows what the draft before it knew. -/
theorem Builds.grows (h : Builds s xs names d code d') : d.Grows d' := by
  induction h with
  | plain | host | again | read | write => exact .refl _
  | addLocal => exact Draft.grows_addLocal _ _
  | addMemory => exact Draft.grows_addMemory _
  | routine h => exact (callRoutine_eq_ok h).1
  | index h => exact (globalIndex_eq_ok h).1
  | append _ _ ih ih' | choice _ _ _ ih ih' => exact ih.trans ih'
  | block _ _ ih | loop _ _ ih | same _ _ ih => exact ih

/-- That a context has everything that a draft has given a number. -/
structure Supports (c : TypeContext) (s : Scope) (d : Draft) : Prop where
  host : ∀ f : HostFunction, c.functions[f.index]? = some (Program.hostType f)
  routine : ∀ {r : Routine} {k : Nat}, d.routines.find? r = some k →
    c.functions[s.routineBase + k]? = some r.type
  global : ∀ {i : Nat}, i < s.externals.size + d.globals.size →
    c.globals[i]? = some Program.externalType
  memory : d.usesMemory = true → c.hasMemory = true
  locals : d.locals <+: c.locals

namespace Supports

theorem of_grows (h : Supports c s d') (hd : d.Grows d') : Supports c s d where
  host := h.host
  routine hr := h.routine (Numbering.find?_mono hd.routines hr)
  global hi := h.global (hi.trans_le (Nat.add_le_add_left hd.globals.length_le _))
  memory hm := h.memory (hd.memory hm)
  locals := hd.locals.trans h.locals

theorem inside (h : Supports c s d) (label : List ValType) : Supports (c.inside label) s d :=
  ⟨h.host, h.routine, h.global, h.memory, h.locals⟩

theorem newLocal {t : ValType} (h : Supports c s (d.addLocal t)) :
    c.locals[d.locals.length]? = some t := by
  obtain ⟨rest, hrest⟩ := h.locals
  rw [← hrest]
  simp [Draft.addLocal]

end Supports

theorem callRoutine_check {i : Instr} (h : callRoutine s r d = .ok (i, d')) (hc : Supports c s d')
    (o : Operands) : check c i (o.pushAll r.signature.1) = some (o.pushAll r.signature.2) := by
  obtain ⟨-, k, hk, rfl⟩ := callRoutine_eq_ok h
  exact check_call o (hc.routine hk)

/-- Whether the code of a function may call the function of an index: those of
the host and the routines. -/
def Scope.mayCall (s : Scope) (index : Nat) : Bool :=
  index < HostFunction.all.length || s.routineBase ≤ index

/-- That code does one operation after another, with locals from `low` on. -/
structure Simple (s : Scope) (low : Nat) (code : List Instr) : Prop where
  confined : ∀ labels, areConfined labels low code = true
  plain : arePlain s.mayCall code = true

theorem callRoutine_isConfined (h : callRoutine s r d = .ok (i, d')) (labels low : Nat) :
    i.isConfined labels low = true := by
  obtain ⟨-, k, -, rfl⟩ := callRoutine_eq_ok h
  rfl

theorem callRoutine_isPlain (h : callRoutine s r d = .ok (i, d')) : i.isPlain s.mayCall = true := by
  obtain ⟨-, k, -, rfl⟩ := callRoutine_eq_ok h
  simp [isPlain, Scope.mayCall]

theorem callHost_isPlain (f : HostFunction) : (callHost f).isPlain s.mayCall = true := by
  have hindex : f.index < HostFunction.all.length := by cases f <;> decide
  simp [callHost, isPlain, Scope.mayCall, hindex]

/-- What is known of the code of an operator: the steps that build it, the types
of what it takes and leaves, and that it does one operation after another with
new locals. -/
structure Operates (s : Scope) (names : List Named) (takes gives : List ValType) (d : Draft)
    (code : List Instr) (d' : Draft) : Prop where
  builds : Builds s [] names d code d'
  types : ∀ {c : TypeContext}, Supports c s d' → Types c code takes gives
  simple : ∀ low ≤ d.locals.length, Simple s low code

namespace Operates

variable {takes between gives : List ValType}

theorem nil : Operates s [] takes takes d [] d :=
  ⟨.fixed [] rfl rfl, fun _ _ => rfl, fun _ _ => ⟨fun _ => rfl, rfl⟩⟩

theorem num (op : NumOp) {type : ValType} (h : op.signature = (takes, type)) :
    Operates s [] takes [type] d [.num op] d where
  builds := .fixed _ rfl rfl
  types _ := .of_check fun o => by rw [check_num, h, Operands.popAll?_pushAll]; rfl
  simple _ _ := ⟨fun _ => rfl, rfl⟩

theorem host (f : HostFunction) :
    Operates s [.call (.host f)] (List.replicate f.arity .f64) [.f64] d [callHost f] d where
  builds := .host f
  types hc := .of_check fun o => check_call o (hc.host f)
  simple _ _ := ⟨fun _ => rfl, by simp [callHost_isPlain]⟩

theorem routine (h : callRoutine s r d = .ok (i, d')) :
    Operates s [toRoutine r] r.signature.1 r.signature.2 d [i] d' where
  builds := .routine h
  types hc := .of_check fun o => callRoutine_check h hc o
  simple low _ := ⟨by simp [callRoutine_isConfined h], by simp [callRoutine_isPlain h]⟩

theorem cons (h : Operates s names takes between d [i] d₁)
    (h' : Operates s names' between gives d₁ code d') :
    Operates s (names ++ names') takes gives d (i :: code) d' where
  builds := h.builds.append h'.builds
  types hc := (h.types (hc.of_grows h'.builds.grows)).append (h'.types hc)
  simple low hlow := by
    obtain ⟨hconfined, hplain⟩ := h.simple low hlow
    obtain ⟨hconfined', hplain'⟩ := h'.simple low (hlow.trans h.builds.grows.length_le)
    constructor
    · intro labels
      simpa [hconfined' labels] using hconfined labels
    · simpa [hplain'] using hplain

/-- A comparison, as a number. -/
theorem truth (op : NumOp) (h : op.signature = (takes, .i32)) :
    Operates s [] takes [.f64] d [.num op, asDouble] d :=
  (num op h).cons (num .f64ConvertI32S rfl)

end Operates

section Operation

variable {span : Span}

theorem unaryCode_operates {op : UnaryOp} (h : unaryCode s span op d = .ok (code, d')) :
    Operates s op.references [.f64] [.f64] d code d' := by
  cases op <;> simp only [unaryCode, bind_eq_ok, pure_eq_ok, fault_ne_ok] at h
  case not =>
    obtain ⟨test, _, htest, rfl, rfl⟩ := h
    exact (Operates.routine htest).cons (.num _ rfl)
  all_goals obtain ⟨rfl, rfl⟩ := h
  case neg => exact .num _ rfl
  case plus => exact .nil

theorem binaryCode_operates {op : BinaryOp} (h : binaryCode s span op d = .ok (code, d')) :
    Operates s op.references [.f64, .f64] [.f64] d code d' := by
  cases op <;> simp only [binaryCode, bind_eq_ok, pure_eq_ok, fault_ne_ok] at h
  case div | rem | bitAnd | bitOr =>
    obtain ⟨call, _, hcall, rfl, rfl⟩ := h
    exact .routine hcall
  case eq | ne =>
    obtain ⟨test, _, htest, rfl, rfl⟩ := h
    exact (Operates.num .f64Sub rfl).cons ((Operates.routine htest).cons (.num _ rfl))
  all_goals obtain ⟨rfl, rfl⟩ := h
  case pow => exact .host .pow
  case lt | gt | le | ge => exact .truth _ rfl
  all_goals exact .num _ rfl

/-- What lies under the right side of an assignment when the two are
combined. -/
def oldTypes (op : AssignOp) : List ValType :=
  match op.combining? with
  | none => []
  | some _ => [.f64]

theorem combineCode_operates (h : combineCode s span op d = .ok (code, d')) :
    Operates s op.references (oldTypes op ++ [.f64]) [.f64] d code d' := by
  unfold combineCode at h
  unfold AssignOp.references oldTypes
  cases hop : op.combining? with
  | none =>
    simp only [hop, pure_eq_ok] at h
    obtain ⟨rfl, rfl⟩ := h
    exact .nil
  | some op =>
    simp only [hop] at h
    exact binaryCode_operates h

/-- Builtins that only calculate. -/
theorem builtinCode_operates {b : Builtin} (h : builtinCode s span b d = .ok (code, d')) :
    Operates s b.references (List.replicate b.arity .f64) [.f64] d code d' := by
  cases b <;> simp only [builtinCode, builtinCode.bothTests, bind_eq_ok, pure_eq_ok, newLocal_eq_ok,
    fault_ne_ok] at h
  case sign =>
    obtain ⟨call, _, hcall, rfl, rfl⟩ := h
    exact .routine hcall
  case bnot =>
    obtain ⟨test, _, htest, rfl, rfl⟩ := h
    exact (Operates.routine htest).cons (.num _ rfl)
  case equal =>
    obtain ⟨test, _, htest, rfl, rfl⟩ := h
    exact (Operates.num .f64Sub rfl).cons ((Operates.routine htest).cons (.num _ rfl))
  case sqr | invsqrt =>
    obtain ⟨_, _, ⟨rfl, rfl⟩, rfl, rfl⟩ := h
    refine ⟨.addLocal ValType.isKnown_f64 (cons_ne_nil _ _) rfl fun hlt => ?_, fun hc o => ?_,
      fun low hlow => ?_⟩
    · simp [isLegible]
      omega
    · have hlocal := hc.newLocal
      simp [Builtin.arity, check_localGet _ hlocal, check_localSet _ hlocal,
        check_localTee _ hlocal, NumOp.signature, Value.type]
    · constructor <;> simp [isConfined, isPlain, hlow]
  case bor | band =>
    obtain ⟨_, _, ⟨rfl, rfl⟩, test, d₂, htest, rfl, rfl⟩ := h
    have hset : Builds s [] [] d [.localSet d.locals.length] (d.addLocal .f64) :=
      .addLocal ValType.isKnown_f64 (cons_ne_nil _ _) rfl fun hlt => by simpa [isLegible] using hlt
    have hget : Builds s [] [] d₂ [.localGet d.locals.length] d₂ := by
      refine .plain rfl fun hfits => ?_
      rw [callRoutine_locals htest, Draft.addLocal, length_append] at hfits
      simpa [isLegible] using hfits
    have hagain := Builds.again htest (.refl d₂)
    refine ⟨hset.append
      ((Builds.routine htest).append (hget.append (hagain.append (.fixed _ rfl rfl)))),
      fun {c} hc o => ?_, fun low hlow => ?_⟩
    · have hlocal := (hc.of_grows (callRoutine_eq_ok htest).1).newLocal
      have hcheck (o : Operands) : check c test (o.push .f64) = some (o.push .i32) :=
        callRoutine_check htest hc o
      simp [Builtin.arity, List.replicate, check_localGet _ hlocal, check_localSet _ hlocal,
        hcheck, asDouble, NumOp.signature]
    · constructor <;>
        simp [callRoutine_isConfined htest, callRoutine_isPlain htest, asDouble, isConfined,
          isPlain, hlow]
  all_goals obtain ⟨rfl, rfl⟩ := h
  case sqrt => exact (Operates.num .f64Abs rfl).cons (.num _ rfl)
  case above | below => exact .truth _ rfl
  all_goals exact .num _ rfl

end Operation

end Lowering

end Eel
