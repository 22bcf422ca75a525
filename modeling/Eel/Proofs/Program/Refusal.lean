import Eel.Proofs.Program.Emission
import Eel.Proofs.Tree.Calls

/-!
What lowering refuses.

An expression is refused for a call in it and for nothing else: its first call,
in the order of the tree, that names no function or has the wrong number of
arguments. Lowering looks at a call before its arguments, and at all branches,
so what it stops at can be read off the list of calls.
-/

namespace Eel

open Node
open List hiding span

variable {ε α β : Type} {callee : Ident} {name : Bytes} {c : Call} {op : AssignOp} {n : Node}

theorem failure?_bind {x : Except ε α} {f : α → Except ε β} {e : Option ε}
    (h : ∀ a, x = .ok a → failure? (f a) = e) : failure? (x >>= f) = (failure? x).or e := by
  cases x with
  | error e' => rfl
  | ok a => exact h a rfl

theorem failure?_bind_of_ok {x : Except ε α} {f : α → Except ε β} (h : ∀ a, failure? (f a) = none) :
    failure? (x >>= f) = failure? x := by
  rw [failure?_bind fun a _ => h a, Option.or_none]

theorem findSome?_cons_eq_or {g : α → Option β} (x : α) (rest : List α) :
    (x :: rest).findSome? g = (g x).or (rest.findSome? g) := by
  rw [findSome?_cons]
  cases g x <;> rfl

/-- The elements of a list are gone through up to the first that fails. -/
theorem failure?_mapM {f : α → Except ε β} (xs : List α) :
    failure? (xs.mapM f) = xs.findSome? fun x => failure? (f x) := by
  induction xs with
  | nil => rfl
  | cons x rest ih =>
    have hrest (y : β) : failure? (rest.mapM f >>= fun ys => pure (y :: ys)) =
        rest.findSome? fun x => failure? (f x) :=
      (failure?_bind_of_ok fun _ => rfl).trans ih
    rw [mapM_cons, failure?_bind fun y _ => hrest y, findSome?_cons_eq_or]

namespace Builtin

theorem ofName?_name (b : Builtin) : ofName? b.name = some b := by
  cases b <;> rfl

theorem name_of_ofName? {b : Builtin} (h : ofName? name = some b) : b.name = name := by
  simpa using find?_some h

end Builtin

namespace HostFunction

theorem ofName?_name (f : HostFunction) : ofName? f.name = some f := by
  cases f <;> rfl

theorem name_of_ofName? {f : HostFunction} (h : ofName? name = some f) : f.name = name := by
  simpa using find?_some h

/-- Functions of the host are neither builtins nor kept for routines. -/
theorem name_isFree (f : HostFunction) :
    Builtin.ofName? f.name = none ∧ (f.name.head? == some '_'.toUInt8) = false := by
  cases f <;> exact ⟨rfl, rfl⟩

end HostFunction

namespace Call

/-- That a call names a builtin or a function of the host, and has as many
arguments as that takes. -/
def IsProper (c : Call) : Prop :=
  (∃ b : Builtin, c.callee.name = b.name ∧ c.args = b.arity) ∨
    ∃ f : HostFunction, c.callee.name = f.name ∧ c.args = f.arity

/-- What is wrong with a call, and where. -/
def fault? (c : Call) : Option (Span × CompileError.Cause) :=
  match Builtin.ofName? c.callee.name with
  | some b => if c.args ≠ b.arity then some (c.span, .arity c.callee.name b.arity c.args) else none
  | none =>
    if c.callee.name.head? == some '_'.toUInt8 then some (c.callee.span,
      .privateFunction c.callee.name)
    else
      match HostFunction.ofName? c.callee.name with
      | none => some (c.callee.span, .unknownFunction c.callee.name)
      | some f =>
        if c.args ≠ f.arity then some (c.span, .arity c.callee.name f.arity c.args) else none

theorem fault?_eq_none_iff : c.fault? = none ↔ c.IsProper := by
  constructor
  · intro h
    unfold fault? at h
    split at h
    · rename_i b hb
      exact .inl ⟨b, (Builtin.name_of_ofName? hb).symm, by simpa using h⟩
    · split at h
      · cases h
      · split at h
        · cases h
        · rename_i f hf
          exact .inr ⟨f, (HostFunction.name_of_ofName? hf).symm, by simpa using h⟩
  · rintro (⟨b, hname, hargs⟩ | ⟨f, hname, hargs⟩)
    · simp [fault?, hname, hargs, Builtin.ofName?_name]
    · simp [fault?, hname, hargs, f.name_isFree, HostFunction.ofName?_name]

end Call

namespace Lowering

open Wasm

variable {s : Scope}

/-- The error that calls cause: that of the first one with something wrong. -/
def Scope.refusal? (s : Scope) (calls : List Call) : Option CompileError :=
  calls.findSome? fun c => c.fault?.map fun (span, cause) => s.error .user span cause

@[simp]
theorem Scope.refusal?_nil : s.refusal? [] = none := rfl

@[simp]
theorem Scope.refusal?_append (calls calls' : List Call) :
    s.refusal? (calls ++ calls') = (s.refusal? calls).or (s.refusal? calls') :=
  findSome?_append

theorem Scope.refusal?_cons (c : Call) (calls : List Call) :
    s.refusal? (c :: calls) = (s.refusal? [c]).or (s.refusal? calls) :=
  s.refusal?_append [c] calls

theorem Scope.refusal?_of_fault? {span : Span} {cause : CompileError.Cause}
    (h : c.fault? = some (span, cause)) (calls : List Call) :
    s.refusal? (c :: calls) = some (s.error .user span cause) := by
  simp [refusal?, h]

theorem Scope.refusal?_of_isProper (h : c.fault? = none) (calls : List Call) :
    s.refusal? (c :: calls) = s.refusal? calls := by
  simp [refusal?, h]

/-- That a step fails with the given error, or goes through if there is none,
whatever has come up before. -/
def Settles (e : Option CompileError) (x : Lower α) : Prop :=
  ∀ d, failure? (x d) = e

namespace Settles

variable {e e' : Option CompileError} {x : Lower α} {f : α → Lower β}

theorem pure (a : α) : Settles none (pure a) := fun _ => rfl

theorem throw (e : CompileError) : Settles (some e) (throw e : Lower α) := fun _ => rfl

/-- The error of two steps is that of the first if it fails. -/
theorem bind (hx : Settles e x) (hf : ∀ a, Settles e' (f a)) : Settles (e.or e') (x >>= f) := by
  intro d
  change failure? (x d >>= fun r => f r.1 r.2) = _
  rw [failure?_bind fun r _ => hf r.1 r.2, hx d]

theorem before (hx : Settles e x) (hf : ∀ a, Settles none (f a)) : Settles e (x >>= f) := by
  simpa using hx.bind hf

theorem behind (hx : Settles none x) (hf : ∀ a, Settles e (f a)) : Settles e (x >>= f) := hx.bind hf

/-- The error of the steps for a list is that of the first that fails. -/
theorem mapM {g : α → Option CompileError} {f : α → Lower β} {xs : List α}
    (h : ∀ x ∈ xs, Settles (g x) (f x)) : Settles (xs.findSome? g) (xs.mapM f) := by
  induction xs with
  | nil => exact .pure []
  | cons x rest ih =>
    have hx := h x mem_cons_self
    have hrest := ih fun y hy => h y (mem_cons_of_mem x hy)
    rw [mapM_cons, findSome?_cons_eq_or]
    exact hx.bind fun y => hrest.before fun ys => .pure (y :: ys)

end Settles

/-- That the variables of the pool among some that are mentioned are
imported. -/
def Scope.Collects (s : Scope) (ids : List Ident) : Prop :=
  ∀ id ∈ ids, ∀ declared, s.pool.find? id.name = some declared →
    ∃ i, s.externals.find? (variableKey s.pool.name declared) = some i

@[simp]
theorem Scope.collects_append {ids ids' : List Ident} :
    s.Collects (ids ++ ids') ↔ s.Collects ids ∧ s.Collects ids' := by
  simp only [Collects, mem_append, or_imp, forall_and]

theorem Scope.Collects.of_mem {body : List Node} (h : s.Collects (mentionsAll body))
    (hn : n ∈ body) : s.Collects n.mentions :=
  fun id hid => h id (mem_mentionsAll.mpr ⟨n, hn, hid⟩)

theorem globalIndex_settles {id : Ident} (h : s.Collects [id]) :
    Settles none (globalIndex s id) := by
  intro d
  unfold globalIndex
  cases hdeclared : s.pool.find? id.name with
  | none => rfl
  | some declared =>
    obtain ⟨i, hi⟩ := h id (mem_singleton_self id) declared hdeclared
    simp only [hi]
    rfl

theorem callRoutine_settles (r : Routine) : Settles none (callRoutine s r) := fun _ => rfl

theorem newLocal_settles (type : ValType) : Settles none (newLocal type) := fun _ => rfl

theorem needMemory_settles : Settles none needMemory := fun _ => rfl

theorem unaryCode_settles {op : UnaryOp} (h : op.isProper = true) (span : Span) :
    Settles none (unaryCode s span op) := by
  cases op with
  | other => simp [UnaryOp.isProper] at h
  | _ => exact fun _ => rfl

theorem binaryCode_settles {op : BinaryOp} (h : op.isProper = true) (span : Span) :
    Settles none (binaryCode s span op) := by
  cases op with
  | other => simp [BinaryOp.isProper] at h
  | _ => exact fun _ => rfl

theorem isProper_of_combining? (h : op.isProper = true) {bop : BinaryOp}
    (hop : op.combining? = some bop) : bop.isProper = true := by
  cases op with
  | other => simp [AssignOp.isProper] at h
  | _ => cases hop <;> rfl

/-- A call that is no builtin is refused for its name or the number of its
arguments. -/
theorem hostFunction_settles (h : Builtin.ofName? callee.name = none) (args : Nat) (span : Span) :
    Settles (s.refusal? [⟨callee, args, span⟩]) (hostFunction s callee args span) := by
  intro d
  unfold hostFunction
  simp only [Scope.refusal?, findSome?_cons, findSome?_nil, Call.fault?, h]
  split
  · rfl
  · cases HostFunction.ofName? callee.name with
    | none => rfl
    | some f =>
      simp only
      split
      · rfl
      · rfl

theorem bufferLoad_settles (base : Nat) (index : List Instr) :
    Settles none (bufferLoad s base index) := fun _ => rfl

theorem whileCode_settles (counter : Nat) (body : List Instr) :
    Settles none (whileCode s counter body) :=
  fun _ => rfl

/-- The name of a buffer is that of the builtin that reads it. -/
theorem exists_bufferBase? (h : isBufferName name = true) :
    (∃ base, bufferBase? name = some base) ∧ ∃ b, Builtin.ofName? name = some b ∧ b.arity = 1 := by
  simp only [isBufferName, Bool.or_eq_true, beq_iff_eq] at h
  rcases h with rfl | rfl
  · exact ⟨⟨0, rfl⟩, .megabuf, rfl, rfl⟩
  · exact ⟨⟨bufferBytes, rfl⟩, .gmegabuf, rfl, rfl⟩

/-- A slot is assigned only if its buffer has one index. -/
theorem refusal?_slot (h : isBufferName callee.name = true) (args : Nat) (span : Span)
    (calls : List Call) :
    s.refusal? (⟨callee, args, span⟩ :: calls) =
      if args ≠ 1 then some (s.error .user span (.arity callee.name 1 args))
      else s.refusal? calls := by
  obtain ⟨-, b, hb, harity⟩ := exists_bufferBase? h
  have hfault : (⟨callee, args, span⟩ : Call).fault? =
      if args ≠ 1 then some (span, .arity callee.name 1 args) else none := by
    simp only [Call.fault?, hb, harity]
  split
  · rename_i hargs
    exact s.refusal?_of_fault? (by rw [hfault, if_pos hargs]) calls
  · rename_i hargs
    exact s.refusal?_of_isProper (by rw [hfault, if_neg hargs]) calls

/-- The value that a slot is assigned is lowered twice. The second time it fails
only if it did so the first time. -/
theorem lower_slot_settles {index v : Node} {callSpan span : Span} {base : Nat}
    {e e' : Option CompileError} (hop : op.isProper = true)
    (hbase : bufferBase? callee.name = some base) (hindex : Settles e (lower s index))
    (hv : Settles e' (lower s v)) :
    Settles (e.or e') (lower s (.assign op (.call callee [index] callSpan) v span)) := by
  rw [← Option.or_self (o := e')]
  simp only [lower, hbase]
  refine needMemory_settles.behind fun _ => hindex.bind fun _ =>
    (callRoutine_settles _).behind fun _ =>
    (newLocal_settles _).behind fun _ => (newLocal_settles _).behind fun _ => hv.bind fun _ => ?_
  cases hcombining : op.combining? with
  | none => exact (Settles.pure _).behind fun _ => hv.before fun _ => .pure _
  | some bop =>
    have hbop := isProper_of_combining? hop hcombining
    exact (binaryCode_settles hbop span).behind fun _ => (Settles.pure _).behind fun _ =>
      hv.before fun _ => .pure _

section Parts

variable {body : List Node} (h : ∀ n ∈ body, Settles (s.refusal? n.calls) (lower s n))

include h

theorem lowerAll_settles : Settles (s.refusal? (callsAll body)) (lowerAll s body) := by
  induction body with
  | nil => exact .pure []
  | cons n rest ih =>
    simp only [forall_mem_cons] at h
    rw [lowerAll, callsAll, Scope.refusal?_append]
    exact h.1.bind fun _ => (ih h.2).before fun _ => .pure _

theorem lowerSequence_settles : Settles (s.refusal? (callsAll body)) (lowerSequence s body) := by
  induction body with
  | nil => exact .pure []
  | cons n rest ih =>
    rw [forall_mem_cons] at h
    cases rest with
    | nil =>
      simp only [lowerSequence, callsAll, append_nil]
      exact h.1
    | cons m rest =>
      rw [lowerSequence, callsAll, Scope.refusal?_append]
      · exact h.1.bind fun _ => (ih h.2).before fun _ => .pure _
      · simp

theorem lowerStatements_settles :
    Settles (s.refusal? (callsAll body)) (lowerStatements s body) := by
  induction body with
  | nil => exact .pure []
  | cons n rest ih =>
    simp only [forall_mem_cons] at h
    rw [lowerStatements, callsAll, Scope.refusal?_append]
    exact h.1.bind fun _ => (ih h.2).before fun _ => .pure _

/-- A call is looked at before its arguments, and all of them are lowered. -/
theorem lower_call_settles (callee : Ident) (span : Span) :
    Settles (s.refusal? (call callee body span).calls) (lower s (.call callee body span)) := by
  rw [lower, calls]
  cases hname : Builtin.ofName? callee.name with
  | none =>
    rw [Scope.refusal?_cons]
    exact (hostFunction_settles hname _ span).bind fun _ =>
      (lowerAll_settles h).before fun _ => .pure _
  | some b =>
    have hfault : (⟨callee, body.length, span⟩ : Call).fault? =
        if body.length ≠ b.arity then some (span, .arity callee.name b.arity body.length)
        else none := by
      simp only [Call.fault?, hname]
    simp only
    split
    · rename_i harity
      rw [s.refusal?_of_fault? (hfault.trans (if_pos harity))]
      exact .throw _
    · rename_i harity
      rw [s.refusal?_of_isProper (hfault.trans (if_neg harity))]
      have harity : body.length = b.arity := not_not.mp harity
      cases b
      case choose =>
        obtain ⟨x, y, z, rfl⟩ := length_eq_three.mp harity
        simp only [forall_mem_cons] at h
        obtain ⟨hx, hy, hz, -⟩ := h
        simp only [callsAll, Scope.refusal?_append, Scope.refusal?_nil, Option.or_none]
        exact hx.bind fun _ => (callRoutine_settles _).behind fun _ => hy.bind fun _ =>
          hz.before fun _ => .pure _
      case exec2 | exec3 => exact lowerSequence_settles h
      case whileLoop =>
        obtain ⟨x, rfl⟩ := length_eq_one_iff.mp harity
        simp only [callsAll, append_nil]
        exact (newLocal_settles _).behind fun _ => (h x (mem_singleton_self x)).before fun _ =>
          whileCode_settles _ _
      case countedLoop =>
        obtain ⟨count, x, rfl⟩ := length_eq_two.mp harity
        simp only [forall_mem_cons] at h
        obtain ⟨hcount, hx, -⟩ := h
        simp only [callsAll, Scope.refusal?_append, Scope.refusal?_nil, Option.or_none]
        exact hcount.bind fun _ => (newLocal_settles _).behind fun _ => hx.before fun _ => .pure _
      case megabuf | gmegabuf =>
        obtain ⟨index, rfl⟩ := length_eq_one_iff.mp harity
        simp only [callsAll, append_nil]
        exact needMemory_settles.behind fun _ =>
          (h index (mem_singleton_self index)).before fun _ =>
          bufferLoad_settles _ _
      -- All other builtins evaluate their arguments and calculate, which always goes through.
      all_goals exact (lowerAll_settles h).before fun _ _ => rfl

end Parts

/-- An expression is lowered unless something is wrong with one of its calls,
and the first such call is what it is refused for. -/
theorem lower_settles (h : n.isExpression = true) (hids : s.Collects n.mentions) :
    Settles (s.refusal? n.calls) (lower s n) := by
  induction n using inductionOn with
  | number value span => exact .pure _
  | ident id =>
    rw [lower]
    exact (globalIndex_settles hids).before fun _ => .pure _
  | block body span ih =>
    simp only [isExpression, Bool.and_eq_true, Bool.not_eq_true', areExpressions_iff] at h
    rw [lower, if_neg (by simp [h.1])]
    exact lowerSequence_settles fun n hn => ih n hn (h.2 n hn) (hids.of_mem hn)
  | unary op x span ih =>
    simp only [isExpression, Bool.and_eq_true] at h
    rw [lower]
    exact (ih h.2 hids).before fun _ => (unaryCode_settles h.1 span).before fun _ => .pure _
  | binary op x y span ihx ihy =>
    simp only [isExpression, Bool.and_eq_true] at h
    obtain ⟨hidx, hidy⟩ := Scope.collects_append.mp hids
    rw [lower, calls, Scope.refusal?_append]
    exact (ihx h.1.2 hidx).bind fun _ => (ihy h.2 hidy).before fun _ =>
      (binaryCode_settles h.1.1 span).before fun _ => .pure _
  | logical op x y span ihx ihy =>
    simp only [isExpression, Bool.and_eq_true] at h
    obtain ⟨hidx, hidy⟩ := Scope.collects_append.mp hids
    rw [lower, calls, Scope.refusal?_append]
    refine (ihx h.1.2 hidx).bind fun _ => (callRoutine_settles _).behind fun _ => ?_
    cases op with
    | and => exact (ihy h.2 hidy).before fun _ => .pure _
    | or => exact (ihy h.2 hidy).before fun _ => .pure _
    | other spelling => simp [LogicalOp.isProper] at h
  | call callee args span ih =>
    simp only [isExpression, areExpressions_iff] at h
    exact lower_call_settles (fun n hn => ih n hn (h n hn) (hids.of_mem hn)) callee span
  | assign op target v span iht ihargs ihv =>
    simp only [isExpression, Bool.and_eq_true] at h
    obtain ⟨hidt, hidv⟩ := Scope.collects_append.mp hids
    have hv := ihv h.2 hidv
    cases target with
    | ident id =>
      rw [lower]
      refine (globalIndex_settles hidt).behind fun _ => ?_
      cases hop : op.combining? with
      | none => exact hv.before fun _ => .pure _
      | some bop =>
        have hbop := isProper_of_combining? h.1.1.1 hop
        exact hv.before fun _ => (binaryCode_settles hbop span).before fun _ => .pure _
    | call callee args callSpan =>
      obtain ⟨⟨base, hbase⟩, -⟩ := exists_bufferBase? h.1.1.2
      simp only [calls, cons_append, refusal?_slot h.1.1.2]
      rcases args with _ | ⟨index, _ | ⟨second, rest⟩⟩
      · simp only [lower, hbase]
        exact .throw _
      · have hexpr := areExpressions_iff.mp h.1.2 index (mem_singleton_self index)
        have hindex := ihargs index (mem_singleton_self index) hexpr
          (hidt.of_mem (mem_singleton_self index))
        simp only [callsAll, append_nil, Scope.refusal?_append]
        exact lower_slot_settles h.1.1.1 hbase hindex hv
      · simp only [lower, hbase]
        exact .throw _
    | _ => cases h.1.1.2
  | script | missing => simp [isExpression] at h

end Lowering

end Eel
