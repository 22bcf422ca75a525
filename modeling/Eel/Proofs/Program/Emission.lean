import Eel.Program.Lowering
import Eel.Proofs.Program.Numbering
import Eel.Proofs.Steps

/-!
What lowering emits, as a relation.

Lowering threads a draft through the tree and may fail anywhere, so it is taken
apart once: `Emits` has a case for every way in which instructions come about,
with the drafts before and behind each part. Whatever holds of all emitted code
is then an induction over these cases.
-/

namespace Eel.Lowering

open Wasm Builtin

variable {span : Span} {cause : CompileError.Cause} {code : List Instr} {callee : Ident}

section Steps

variable {α : Type} {s : Scope} {d d' : Draft} {r : α × Draft}

theorem fault_ne_ok : fault s span cause d ≠ .ok r := by
  change Except.error _ ≠ _
  simp

theorem refuse_ne_ok : refuse s span cause d ≠ .ok r := by
  change Except.error _ ≠ _
  simp

/-- The draft with one more local. -/
def Draft.addLocal (d : Draft) (type : ValType) : Draft := { d with locals := d.locals ++ [type] }

/-- The draft of a program that has a memory. -/
def Draft.addMemory (d : Draft) : Draft := { d with usesMemory := true }

theorem newLocal_eq_ok {type : ValType} {i : Nat} :
    newLocal type d = .ok (i, d') ↔ d.locals.length = i ∧ d.addLocal type = d' := by
  change Except.ok (d.locals.length, d.addLocal type) = _ ↔ _
  simp

theorem needMemory_eq_ok {u : Unit} : needMemory d = .ok (u, d') ↔ d.addMemory = d' := by
  change Except.ok ((), d.addMemory) = _ ↔ _
  simp

theorem hostFunction_eq_ok {args : Nat} {f : HostFunction}
    (h : hostFunction s callee args span d = .ok (f, d')) :
    HostFunction.ofName? callee.name = some f ∧ args = f.arity ∧ d = d' := by
  unfold hostFunction at h
  split at h
  · simp only [bind_eq_ok, refuse_ne_ok, false_and, exists_false] at h
  · cases hname : HostFunction.ofName? callee.name with
    | none => simp only [hname, refuse_ne_ok] at h
    | some g =>
      simp only [hname] at h
      split at h
      · simp only [bind_eq_ok, refuse_ne_ok, false_and, exists_false] at h
      · rename_i harity
        simp only [pure_eq_ok] at h
        obtain ⟨rfl, rfl⟩ := h
        exact ⟨rfl, not_not.mp harity, rfl⟩

end Steps

/-- What instructions are made for, which says what they leave on the stack: one
value for an expression or a sequence, all values of arguments, none of
statements. -/
inductive Piece where
  | expr (n : Node)
  | all (args : List Node)
  | sequence (body : List Node)
  | statements (body : List Node)

/-- Puts the value on the stack into a slot and keeps it. -/
def storeCode (base offset stored : Nat) : List Instr :=
  [.localSet stored, .localGet offset, .localGet stored, .f64Store base, .localGet stored]

/-- An assignment to a slot, with one branch for a slot that exists and one for
any other. -/
def slotCode (index : List Instr) (find : Instr) (offset : Nat) (stored skipped : List Instr) :
    List Instr :=
  index ++ find :: (slotExists offset ++ [.choice .f64 stored skipped])

/-- What reads the value before an assignment, which only one that combines it
needs. -/
def oldCode (op : AssignOp) (read : List Instr) : List Instr :=
  match op.combining? with
  | none => []
  | some _ => read

/-- What combines the value before an assignment with the one on its right
side. -/
def combineCode (s : Scope) (span : Span) (op : AssignOp) : Lower (List Instr) :=
  match op.combining? with
  | none => return []
  | some op => binaryCode s span op

/-- The instructions that lowering makes of a piece, with the drafts before and
behind it. -/
inductive Emits (s : Scope) : Piece → Draft → List Instr → Draft → Prop
  | number {value : Double} {span : Span} {d : Draft} :
      Emits s (.expr (.number value span)) d [.f64Const value] d
  | ident {id : Ident} {d d' : Draft} {i : Nat} (hi : globalIndex s id d = .ok (i, d')) :
      Emits s (.expr (.ident id)) d [.globalGet i] d'
  | block {body : List Node} {span : Span} {d d' : Draft} {code : List Instr}
      (hbody : Emits s (.sequence body) d code d') : Emits s (.expr (.block body span)) d code d'
  | unary {op : UnaryOp} {x : Node} {span : Span} {d d₁ d' : Draft} {cx cop : List Instr}
      (hx : Emits s (.expr x) d cx d₁) (hop : unaryCode s span op d₁ = .ok (cop, d')) :
      Emits s (.expr (.unary op x span)) d (cx ++ cop) d'
  | binary {op : BinaryOp} {x y : Node} {span : Span} {d d₁ d₂ d' : Draft} {cx cy cop : List Instr}
      (hx : Emits s (.expr x) d cx d₁) (hy : Emits s (.expr y) d₁ cy d₂)
      (hop : binaryCode s span op d₂ = .ok (cop, d')) :
      Emits s (.expr (.binary op x y span)) d (cx ++ (cy ++ cop)) d'
  | and {x y : Node} {span : Span} {d d₁ d₂ d' : Draft} {cx cy : List Instr} {test : Instr}
      (hx : Emits s (.expr x) d cx d₁) (htest : callRoutine s .isNotZeroish d₁ = .ok (test, d₂))
      (hy : Emits s (.expr y) d₂ cy d') :
      Emits s (.expr (.logical .and x y span)) d
        (cx ++ [test, .choice .f64 (cy ++ [test, asDouble]) [.f64Const .zero]]) d'
  | or {x y : Node} {span : Span} {d d₁ d₂ d' : Draft} {cx cy : List Instr} {test : Instr}
      (hx : Emits s (.expr x) d cx d₁) (htest : callRoutine s .isNotZeroish d₁ = .ok (test, d₂))
      (hy : Emits s (.expr y) d₂ cy d') :
      Emits s (.expr (.logical .or x y span)) d
        (cx ++ [test, .choice .f64 [.f64Const .one] (cy ++ [test, asDouble])]) d'
  | assignVar {op : AssignOp} {id : Ident} {v : Node} {span : Span} {d d₁ d₂ d' : Draft} {i : Nat}
      {cv cop : List Instr} (hi : globalIndex s id d = .ok (i, d₁))
      (hv : Emits s (.expr v) d₁ cv d₂)
      (hop : combineCode s span op d₂ = .ok (cop, d')) :
      Emits s (.expr (.assign op (.ident id) v span)) d
        (oldCode op [.globalGet i] ++ (cv ++ (cop ++ [.globalSet i, .globalGet i]))) d'
  | assignSlot {op : AssignOp} {callee : Ident} {index v : Node} {callSpan span : Span}
      {d d₁ d₂ d₃ d₄ d' : Draft} {base : Nat} {find : Instr} {ci cv cop cs : List Instr}
      (hbase : bufferBase? callee.name = some base)
      (hindex : Emits s (.expr index) d.addMemory ci d₁)
      (hfind : callRoutine s .bufferStoreIndex d₁ = .ok (find, d₂))
      (hv : Emits s (.expr v) ((d₂.addLocal .i32).addLocal .f64) cv d₃)
      (hop : combineCode s span op d₃ = .ok (cop, d₄)) (hs : Emits s (.expr v) d₄ cs d') :
      Emits s (.expr (.assign op (.call callee [index] callSpan) v span)) d
        (slotCode ci find d₂.locals.length
          (oldCode op [.localGet d₂.locals.length, .f64Load base] ++
            (cv ++ (cop ++ storeCode base d₂.locals.length (d₂.locals.length + 1)))) cs) d'
  | host {callee : Ident} {args : List Node} {span : Span} {f : HostFunction} {d d' : Draft}
      {cargs : List Instr} (hbuiltin : ofName? callee.name = none)
      (hname : HostFunction.ofName? callee.name = some f) (harity : args.length = f.arity)
      (hargs : Emits s (.all args) d cargs d') :
      Emits s (.expr (.call callee args span)) d (cargs ++ [callHost f]) d'
  | choose {callee : Ident} {x y z : Node} {span : Span} {d d₁ d₂ d₃ d' : Draft}
      {cx cy cz : List Instr} {test : Instr} (hname : ofName? callee.name = some .choose)
      (hx : Emits s (.expr x) d cx d₁) (htest : callRoutine s .isNotZeroish d₁ = .ok (test, d₂))
      (hy : Emits s (.expr y) d₂ cy d₃) (hz : Emits s (.expr z) d₃ cz d') :
      Emits s (.expr (.call callee [x, y, z] span)) d (cx ++ [test, .choice .f64 cy cz]) d'
  | exec {callee : Ident} {args : List Node} {span : Span} {b : Builtin} {d d' : Draft}
      {code : List Instr} (hname : ofName? callee.name = some b)
      (hb : b = .exec2 ∨ b = .exec3) (harity : args.length = b.arity)
      (hargs : Emits s (.sequence args) d code d') :
        Emits s (.expr (.call callee args span)) d code d'
  | whileLoop {callee : Ident} {body : Node} {span : Span} {d d₁ d' : Draft} {cb code : List Instr}
      (hname : ofName? callee.name = some .whileLoop)
      (hbody : Emits s (.expr body) (d.addLocal .i32) cb d₁)
      (hcode : whileCode s d.locals.length cb d₁ = .ok (code, d')) :
      Emits s (.expr (.call callee [body] span)) d code d'
  | countedLoop {callee : Ident} {count body : Node} {span : Span} {d d₁ d' : Draft}
      {cc cb : List Instr} (hname : ofName? callee.name = some .countedLoop)
      (hcount : Emits s (.expr count) d cc d₁)
      (hbody : Emits s (.expr body) (d₁.addLocal .i32) cb d') :
      Emits s (.expr (.call callee [count, body] span)) d
        (cc ++ .num .i32TruncSatF64S :: .localSet d₁.locals.length ::
          countedCode d₁.locals.length cb) d'
  | slot {callee : Ident} {index : Node} {span : Span} {b : Builtin} {base : Nat} {d d₁ d' : Draft}
      {ci code : List Instr} (hname : ofName? callee.name = some b)
      (hb : b = .megabuf ∧ base = 0 ∨ b = .gmegabuf ∧ base = bufferBytes)
      (hindex : Emits s (.expr index) d.addMemory ci d₁)
      (hload : bufferLoad s base ci d₁ = .ok (code, d')) :
      Emits s (.expr (.call callee [index] span)) d code d'
  | builtin {callee : Ident} {args : List Node} {span : Span} {b : Builtin} {d d₁ d' : Draft}
      {cargs code : List Instr} (hname : ofName? callee.name = some b)
      (harity : args.length = b.arity) (hargs : Emits s (.all args) d cargs d₁)
      (hb : builtinCode s span b d₁ = .ok (code, d')) :
      Emits s (.expr (.call callee args span)) d (cargs ++ code) d'
  | allNil {d : Draft} : Emits s (.all []) d [] d
  | allCons {n : Node} {rest : List Node} {d d₁ d' : Draft} {cn cr : List Instr}
      (hn : Emits s (.expr n) d cn d₁) (hr : Emits s (.all rest) d₁ cr d') :
      Emits s (.all (n :: rest)) d (cn ++ cr) d'
  | sequenceLast {n : Node} {d d' : Draft} {cn : List Instr} (hn : Emits s (.expr n) d cn d') :
      Emits s (.sequence [n]) d cn d'
  | sequenceCons {n m : Node} {rest : List Node} {d d₁ d' : Draft} {cn cr : List Instr}
      (hn : Emits s (.expr n) d cn d₁) (hr : Emits s (.sequence (m :: rest)) d₁ cr d') :
      Emits s (.sequence (n :: m :: rest)) d (cn ++ .drop :: cr) d'
  | statementsNil {d : Draft} : Emits s (.statements []) d [] d
  | statementsCons {n : Node} {rest : List Node} {d d₁ d' : Draft} {cn cr : List Instr}
      (hn : Emits s (.expr n) d cn d₁) (hr : Emits s (.statements rest) d₁ cr d') :
      Emits s (.statements (n :: rest)) d (cn ++ .drop :: cr) d'

/-- The parts of an assignment to a slot, in the order in which they are
lowered. The right side is lowered twice, once for each branch. -/
theorem lower_assignSlot_eq_ok {s : Scope} {op : AssignOp} {index v : Node} {callSpan : Span}
    {d d' : Draft}
    (h : lower s (.assign op (.call callee [index] callSpan) v span) d = .ok (code, d')) :
    ∃ base ci d₁ find d₂ cv d₃ cop d₄ cs, bufferBase? callee.name = some base ∧
      lower s index d.addMemory = .ok (ci, d₁) ∧
      callRoutine s .bufferStoreIndex d₁ = .ok (find, d₂) ∧
      lower s v ((d₂.addLocal .i32).addLocal .f64) = .ok (cv, d₃) ∧
      combineCode s span op d₃ = .ok (cop, d₄) ∧ lower s v d₄ = .ok (cs, d') ∧
      code = slotCode ci find d₂.locals.length
        (oldCode op [.localGet d₂.locals.length, .f64Load base] ++
          (cv ++ (cop ++ storeCode base d₂.locals.length (d₂.locals.length + 1)))) cs := by
  rw [lower] at h
  cases hbase : bufferBase? callee.name with
  | none => simp only [hbase, refuse_ne_ok] at h
  | some base =>
    simp only [hbase, bind_eq_ok, needMemory_eq_ok, newLocal_eq_ok] at h
    obtain ⟨-, _, rfl, ci, d₁, hi, find, d₂, hfind, _, _, ⟨rfl, rfl⟩, _, _, ⟨rfl, rfl⟩, cv, d₃, hv,
      h⟩ := h
    have hstored : (d₂.addLocal .i32).locals.length = d₂.locals.length + 1 := by
      simp [Draft.addLocal]
    cases hop : op.combining? with
    | none =>
      simp only [hop, bind_eq_ok, pure_eq_ok] at h
      obtain ⟨_, _, ⟨rfl, rfl⟩, cs, _, hs, rfl, rfl⟩ := h
      have hcop : combineCode s span op d₃ = .ok ([], d₃) := by simp [combineCode, hop, pure_eq_ok]
      refine ⟨base, ci, d₁, find, d₂, cv, d₃, [], d₃, cs, rfl, hi, hfind, hv, hcop, hs, ?_⟩
      simp [oldCode, hop, slotCode, storeCode, hstored]
    | some bop =>
      simp only [hop, bind_eq_ok, pure_eq_ok] at h
      obtain ⟨cop, d₄, hcop, _, _, ⟨rfl, rfl⟩, cs, _, hs, rfl, rfl⟩ := h
      have hcop' : combineCode s span op d₃ = .ok (cop, d₄) := by simp [combineCode, hop, hcop]
      refine ⟨base, ci, d₁, find, d₂, cv, d₃, cop, d₄, cs, rfl, hi, hfind, hv, hcop', hs, ?_⟩
      simp [oldCode, hop, slotCode, storeCode, hstored]

mutual

/-- Every expression that is lowered has its instructions by one of the cases of
`Emits`. -/
theorem emits_of_lower (s : Scope) : ∀ (n : Node) {d d' : Draft} {code : List Instr},
    lower s n d = .ok (code, d') → Emits s (.expr n) d code d'
  | .number value span, d, d', code, h => by
      simp only [lower, pure_eq_ok] at h
      obtain ⟨rfl, rfl⟩ := h
      exact .number
  | .ident id, d, d', code, h => by
      simp only [lower, bind_eq_ok, pure_eq_ok] at h
      obtain ⟨i, d₁, hi, rfl, rfl⟩ := h
      exact .ident hi
  | .block body span, d, d', code, h => by
      rw [lower] at h
      split at h
      · exact absurd h fault_ne_ok
      · rename_i hbody
        exact .block (emits_of_lowerSequence s body (by simpa using hbody) h)
  | .unary op x span, d, d', code, h => by
      simp only [lower, bind_eq_ok, pure_eq_ok] at h
      obtain ⟨cx, d₁, hx, cop, d₂, hop, rfl, rfl⟩ := h
      exact .unary (emits_of_lower s x hx) hop
  | .binary op x y span, d, d', code, h => by
      simp only [lower, bind_eq_ok, pure_eq_ok] at h
      obtain ⟨cx, d₁, hx, cy, d₂, hy, cop, d₃, hop, rfl, rfl⟩ := h
      rw [List.append_assoc]
      exact .binary (emits_of_lower s x hx) (emits_of_lower s y hy) hop
  | .logical op x y span, d, d', code, h => by
      simp only [lower, bind_eq_ok] at h
      obtain ⟨cx, d₁, hx, test, d₂, htest, h⟩ := h
      cases op with
      | and =>
        simp only [bind_eq_ok, pure_eq_ok] at h
        obtain ⟨cy, d₃, hy, rfl, rfl⟩ := h
        exact .and (emits_of_lower s x hx) htest (emits_of_lower s y hy)
      | or =>
        simp only [bind_eq_ok, pure_eq_ok] at h
        obtain ⟨cy, d₃, hy, rfl, rfl⟩ := h
        exact .or (emits_of_lower s x hx) htest (emits_of_lower s y hy)
      | other spelling => exact absurd h fault_ne_ok
  | .assign op (.ident id) v span, d, d', code, h => by
      simp only [lower, bind_eq_ok] at h
      obtain ⟨i, d₁, hi, h⟩ := h
      cases hop : op.combining? with
      | none =>
        simp only [hop, bind_eq_ok, pure_eq_ok] at h
        obtain ⟨cv, d₂, hv, rfl, rfl⟩ := h
        have hcop : combineCode s span op d₂ = .ok ([], d₂) := by
          simp [combineCode, hop, pure_eq_ok]
        simpa [oldCode, hop] using Emits.assignVar hi (emits_of_lower s v hv) hcop
      | some bop =>
        simp only [hop, bind_eq_ok, pure_eq_ok] at h
        obtain ⟨cv, d₂, hv, cop, d₃, hcop, rfl, rfl⟩ := h
        have hcop' : combineCode s span op d₂ = .ok (cop, d₃) := by simp [combineCode, hop, hcop]
        simpa [oldCode, hop] using Emits.assignVar hi (emits_of_lower s v hv) hcop'
  | .assign op (.call callee [index] callSpan) v span, d, d', code, h => by
      obtain ⟨base, ci, d₁, find, d₂, cv, d₃, cop, d₄, cs, hbase, hi, hfind, hv, hcop, hs, rfl⟩ :=
        lower_assignSlot_eq_ok h
      exact .assignSlot hbase (emits_of_lower s index hi) hfind (emits_of_lower s v hv) hcop
        (emits_of_lower s v hs)
  | .assign op (.call callee [] callSpan) v span, d, d', code, h => by
      rw [lower] at h
      cases hbase : bufferBase? callee.name <;> simp only [hbase, refuse_ne_ok] at h
  | .assign op (.call callee (_ :: _ :: _) callSpan) v span, d, d', code, h => by
      rw [lower] at h
      cases hbase : bufferBase? callee.name <;> simp only [hbase, refuse_ne_ok] at h
  | .assign _ .missing _ _, _, _, _, h => absurd (by simpa only [lower] using h) fault_ne_ok
  | .assign _ (.script ..) _ _, _, _, _, h => absurd (by simpa only [lower] using h) fault_ne_ok
  | .assign _ (.block ..) _ _, _, _, _, h => absurd (by simpa only [lower] using h) fault_ne_ok
  | .assign _ (.unary ..) _ _, _, _, _, h => absurd (by simpa only [lower] using h) fault_ne_ok
  | .assign _ (.binary ..) _ _, _, _, _, h => absurd (by simpa only [lower] using h) fault_ne_ok
  | .assign _ (.logical ..) _ _, _, _, _, h => absurd (by simpa only [lower] using h) fault_ne_ok
  | .assign _ (.assign ..) _ _, _, _, _, h => absurd (by simpa only [lower] using h) fault_ne_ok
  | .assign _ (.number ..) _ _, _, _, _, h => absurd (by simpa only [lower] using h) fault_ne_ok
  | .call callee args span, d, d', code, h => by
      rw [lower] at h
      cases hname : ofName? callee.name with
      | none =>
        simp only [hname, bind_eq_ok, pure_eq_ok] at h
        obtain ⟨f, d₁, hf, cargs, d₂, hargs, rfl, rfl⟩ := h
        obtain ⟨hf', harity, rfl⟩ := hostFunction_eq_ok hf
        exact .host hname hf' harity (emits_of_lowerAll s args hargs)
      | some b =>
        simp only [hname] at h
        split at h
        · exact absurd h refuse_ne_ok
        · rename_i harity
          have harity : args.length = b.arity := not_not.mp harity
          cases b
          case choose =>
            match args, harity with
            | [x, y, z], _ =>
              simp only [bind_eq_ok, pure_eq_ok] at h
              obtain ⟨cx, d₁, hx, test, d₂, htest, cy, d₃, hy, cz, d₄, hz, rfl, rfl⟩ := h
              exact .choose hname (emits_of_lower s x hx) htest (emits_of_lower s y hy)
                (emits_of_lower s z hz)
          case exec2 =>
            have hargs : args ≠ [] := List.ne_nil_of_length_pos (by simp [harity, arity])
            exact .exec hname (.inl rfl) harity (emits_of_lowerSequence s args hargs h)
          case exec3 =>
            have hargs : args ≠ [] := List.ne_nil_of_length_pos (by simp [harity, arity])
            exact .exec hname (.inr rfl) harity (emits_of_lowerSequence s args hargs h)
          case whileLoop =>
            match args, harity with
            | [body], _ =>
              simp only [bind_eq_ok, newLocal_eq_ok] at h
              obtain ⟨_, _, ⟨rfl, rfl⟩, cb, d₁, hb, hcode⟩ := h
              exact .whileLoop hname (emits_of_lower s body hb) hcode
          case countedLoop =>
            match args, harity with
            | [count, body], _ =>
              simp only [bind_eq_ok, newLocal_eq_ok, pure_eq_ok] at h
              obtain ⟨cc, d₁, hc, _, _, ⟨rfl, rfl⟩, cb, d₂, hb, rfl, rfl⟩ := h
              simpa using Emits.countedLoop hname (emits_of_lower s count hc)
                (emits_of_lower s body hb)
          case megabuf =>
            match args, harity with
            | [index], _ =>
              simp only [bind_eq_ok, needMemory_eq_ok] at h
              obtain ⟨-, _, rfl, ci, d₁, hi, hload⟩ := h
              exact .slot hname (.inl ⟨rfl, rfl⟩) (emits_of_lower s index hi) hload
          case gmegabuf =>
            match args, harity with
            | [index], _ =>
              simp only [bind_eq_ok, needMemory_eq_ok] at h
              obtain ⟨-, _, rfl, ci, d₁, hi, hload⟩ := h
              exact .slot hname (.inr ⟨rfl, rfl⟩) (emits_of_lower s index hi) hload
          -- All other builtins evaluate their arguments and calculate.
          all_goals
            simp only [bind_eq_ok, pure_eq_ok] at h
            obtain ⟨cargs, d₁, hargs, cb, d₂, hb, rfl, rfl⟩ := h
            exact .builtin hname harity (emits_of_lowerAll s args hargs) hb
  | .script .., _, _, _, h => absurd (by simpa only [lower] using h) fault_ne_ok
  | .missing, _, _, _, h => absurd (by simpa only [lower] using h) fault_ne_ok

theorem emits_of_lowerAll (s : Scope) : ∀ (args : List Node) {d d' : Draft} {code : List Instr},
    lowerAll s args d = .ok (code, d') → Emits s (.all args) d code d'
  | [], d, d', code, h => by
      simp only [lowerAll, pure_eq_ok] at h
      obtain ⟨rfl, rfl⟩ := h
      exact .allNil
  | n :: rest, d, d', code, h => by
      simp only [lowerAll, bind_eq_ok, pure_eq_ok] at h
      obtain ⟨cn, d₁, hn, cr, d₂, hr, rfl, rfl⟩ := h
      exact .allCons (emits_of_lower s n hn) (emits_of_lowerAll s rest hr)

theorem emits_of_lowerSequence (s : Scope) :
    ∀ (body : List Node) {d d' : Draft} {code : List Instr},
    body ≠ [] → lowerSequence s body d = .ok (code, d') → Emits s (.sequence body) d code d'
  | [n], d, d', code, _, h =>
    .sequenceLast (emits_of_lower s n (by simpa only [lowerSequence] using h))
  | n :: m :: rest, d, d', code, _, h => by
      simp only [lowerSequence, bind_eq_ok, pure_eq_ok] at h
      obtain ⟨cn, d₁, hn, cr, d₂, hr, rfl, rfl⟩ := h
      simpa using Emits.sequenceCons (emits_of_lower s n hn)
        (emits_of_lowerSequence s (m :: rest) (by simp) hr)

end

theorem emits_of_lowerStatements (s : Scope) (body : List Node) {d d' : Draft}
    (h : lowerStatements s body d = .ok (code, d')) : Emits s (.statements body) d code d' := by
  induction body generalizing d code with
  | nil =>
    simp only [lowerStatements, pure_eq_ok] at h
    obtain ⟨rfl, rfl⟩ := h
    exact .statementsNil
  | cons n rest ih =>
    simp only [lowerStatements, bind_eq_ok, pure_eq_ok] at h
    obtain ⟨cn, d₁, hn, cr, d₂, hr, rfl, rfl⟩ := h
    simpa using Emits.statementsCons (emits_of_lower s n hn) (ih hr)

end Eel.Lowering
