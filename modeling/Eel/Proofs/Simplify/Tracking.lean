import Eel.Proofs.Meaning.Eval
import Eel.Proofs.Simplify.Linear

/-!
Known variables along a run.

While a linear tree is evaluated, the variables that propagation takes for known
have the values that it knows. So a number in the place of a variable is the
value that the variable has there.
-/

namespace Eel.Simplify

open Node Run
open List hiding all

open Machine (Host)

section Rewrite

variable (known : Known)

/-- The tree behind propagation. -/
abbrev replaced (n : Node) : Node := (rewrite visitKnown n known).1

/-- The variables that are known behind a tree. -/
abbrev behind (n : Node) : Known := (rewrite visitKnown n known).2

abbrev replacedAll (body : List Node) : List Node := (rewriteAll visitKnown body known).1

abbrev behindAll (body : List Node) : Known := (rewriteAll visitKnown body known).2

/-- What is known behind an assignment to a variable. -/
def learned (op : AssignOp) (name : Bytes) (value : Node) : Known :=
  match op, value with
  | .set, .number x _ => known.learn name x
  | _, _ => known.forget name

theorem rewrite_var (op : AssignOp) (id : Ident) (value : Node) (span : Span) :
    rewrite visitKnown (.assign op (.ident id) value span) known =
      (.assign op (.ident id) (replaced known value) span,
        learned (behind known value) op id.name (replaced known value)) := by
  change settle visitKnown (.assign op (.ident id) (replaced known value) span)
    (behind known value) = _
  generalize replaced known value = v
  cases op <;> cases v <;> rfl

theorem rewrite_slot (op : AssignOp) (callee : Ident) (args : List Node) (value : Node)
    (callSpan span : Span) :
    rewrite visitKnown (.assign op (.call callee args callSpan) value span) known =
      (.assign op (.call callee (replacedAll known args) callSpan)
        (replaced (behindAll known args) value) span, behind (behindAll known args) value) := by
  cases op <;> rfl

/-- What is assigned but neither a variable nor a call is left alone. -/
theorem rewrite_assign {target : Node} (op : AssignOp) (value : Node) (span : Span)
    (hident : ∀ id, target ≠ .ident id)
    (hcall : ∀ callee args span, target ≠ .call callee args span) :
    rewrite visitKnown (.assign op target value span) known =
      (.assign op target (replaced known value) span, behind known value) := by
  cases target with
  | ident id => exact absurd rfl (hident id)
  | call callee args span => exact absurd rfl (hcall callee args span)
  | _ => cases op <;> rfl

end Rewrite

theorem behindAll_of_areQuiet {body : List Node}
    (h : ∀ n ∈ body, ∀ known, n.isQuiet = true → behind known n = known) (known : Known)
    (hbody : areQuiet body = true) : behindAll known body = known := by
  induction body with
  | nil => rfl
  | cons n rest ih =>
    simp only [mem_cons, forall_eq_or_imp] at h
    simp only [areQuiet, Bool.and_eq_true] at hbody
    change behindAll (behind known n) rest = known
    rw [h.1 known hbody.1]
    exact ih h.2 hbody.2

/-- Where no variable is assigned, nothing is learnt or forgotten. -/
theorem behind_of_isQuiet (n : Node) :
    ∀ known : Known, n.isQuiet = true → behind known n = known := by
  induction n using inductionOn with
  | missing | number => exact fun _ _ => rfl
  | ident id => exact fun _ _ => rfl
  | script body span ih | block body span ih | call callee body span ih =>
    exact fun known h => behindAll_of_areQuiet ih known h
  | binary op left right span ihl ihr | logical op left right span ihl ihr =>
    intro known h
    simp only [isQuiet, Bool.and_eq_true] at h
    change behind (behind known left) right = known
    rw [ihl known h.1, ihr known h.2]
  | unary op operand span ih => exact ih
  | assign op target value span _ ihargs ihv =>
    intro known h
    simp only [isQuiet, Bool.and_eq_true] at h
    cases target with
    | ident id => simp [isIdent] at h
    | call callee args callSpan =>
      have hargs : behindAll known args = known := behindAll_of_areQuiet ihargs known h.1.2
      rw [behind, rewrite_slot, hargs]
      exact ihv known h.2
    | _ =>
      rw [behind, rewrite_assign known op value span (by simp) (by simp)]
      exact ihv known h.2

namespace Known

theorem find?_cons (rest : Known) (name other : Bytes) (value : Double) :
    find? ((name, value) :: rest) other = if other = name then some value
      else find? rest other := by
  unfold find?
  rw [lookup_cons]
  by_cases h : other = name
  · simp [h]
  · have hbeq : (other == name) = false := by simpa using h
    rw [if_neg h, hbeq]

theorem forget_cons (rest : Known) (name x : Bytes) (value : Double) :
    forget ((x, value) :: rest) name =
      if x = name then forget rest name else (x, value) :: forget rest name := by
  by_cases h : x = name <;> simp [forget, h]

theorem find?_forget (known : Known) (name other : Bytes) :
    (known.forget name).find? other = if other = name then none else known.find? other := by
  induction known with
  | nil => simp [forget, find?]
  | cons entry rest ih =>
    obtain ⟨x, value⟩ := entry
    rw [forget_cons, find?_cons]
    by_cases hx : x = name
    · rw [if_pos hx, ih, hx]
      by_cases hother : other = name <;> simp [hother]
    · rw [if_neg hx, find?_cons, ih]
      by_cases hother : other = x
      · subst hother
        simp [hx]
      · simp [hother]

theorem find?_learn (known : Known) (name other : Bytes) (value : Double) :
    (known.learn name value).find? other = if other = name then some value
      else known.find? other := by
  rw [learn, find?_cons, find?_forget]
  by_cases h : other = name <;> simp [h]

end Known

/-- That the known variables have their values. -/
def Agrees (known : Known) (vars : Bytes → Double) : Prop :=
  ∀ {name : Bytes} {value : Double}, known.find? name = some value → vars name = value

namespace Agrees

variable {known : Known} {vars : Bytes → Double}

theorem forget (h : Agrees known vars) (name : Bytes) (x : Double) :
    Agrees (known.forget name) (Function.update vars name x) := by
  intro other value hvalue
  rw [Known.find?_forget, Option.ite_none_left_eq_some] at hvalue
  rw [Function.update_of_ne hvalue.1]
  exact h hvalue.2

theorem learn (h : Agrees known vars) (name : Bytes) (x : Double) :
    Agrees (known.learn name x) (Function.update vars name x) := by
  intro other value hvalue
  rw [Known.find?_learn] at hvalue
  by_cases hother : other = name
  · subst hother
    simpa using hvalue
  · rw [if_neg hother] at hvalue
    rw [Function.update_of_ne hother]
    exact h hvalue

end Agrees

variable {σ α β : Type} {k k₁ k₂ : Known}

/-- That a run does what another does wherever the known variables have their
values, and what is known behind it. -/
def Tracks (known known' : Known) (new old : Run σ α) : Prop :=
  ∀ s : State σ, Agrees known s.vars → new s = old s ∧ Agrees known' (old s).2.vars

/-- That a run changes no variable. -/
def Steady (r : Run σ α) : Prop := ∀ s : State σ, (r s).2.vars = s.vars

theorem steady_callHost (host : Host σ) (f : HostFunction) (args : List Double) :
    Steady (callHost host f args) := fun _ => rfl

theorem steady_binary (host : Host σ) (op : BinaryOp) (x y : Double) :
    Steady (op.apply host x y) := by
  intro s
  cases op <;> rfl

theorem steady_assign (host : Host σ) (op : AssignOp) (x y : Double) :
    Steady (op.apply host x y) := by
  unfold AssignOp.apply
  cases op.combining? with
  | none => exact fun _ => rfl
  | some op => exact steady_binary host op x y

theorem steady_readSlot (b : Buffer) (index : Double) :
    Steady (readSlot b index : Run σ Double) := by
  intro s
  unfold readSlot
  cases index.slot? <;> rfl

namespace Tracks

theorem of_steady {r : Run σ α} (h : Steady r) : Tracks k k r r := by
  intro s hs
  refine ⟨rfl, ?_⟩
  rw [h s]
  exact hs

theorem pure (a : α) : Tracks k k (Pure.pure a : Run σ α) (Pure.pure a) :=
  of_steady fun _ => rfl

theorem bind {x' x : Run σ α} {f' f : α → Run σ β} (hx : Tracks k k₁ x' x)
    (hf : ∀ a, Tracks k₁ k₂ (f' a) (f a)) : Tracks k k₂ (x' >>= f') (x >>= f) := by
  intro s hs
  obtain ⟨hsame, hs₁⟩ := hx s hs
  change f' (x' s).1 (x' s).2 = f (x s).1 (x s).2 ∧ Agrees k₂ (f (x s).1 (x s).2).2.vars
  rw [hsame]
  exact hf _ _ hs₁

variable {body' body : Run σ Double}

theorem whileNonzero (h : Tracks k k body' body) (limit : Nat) :
    Tracks k k (whileNonzero body' limit) (whileNonzero body limit) := by
  induction limit with
  | zero => exact pure ()
  | succ limit ih =>
    refine h.bind fun x => ?_
    cases x.isZeroish with
    | true => exact pure ()
    | false => exact ih

theorem times (h : Tracks k k body' body) (count : Nat) :
    Tracks k k (times body' count) (times body count) := by
  induction count with
  | zero => exact pure ()
  | succ count ih => exact h.bind fun _ => ih

end Tracks

/-- Runs that track others one by one, each with what is known behind the one
before it. -/
inductive TracksEach : Known → Known → List (Run σ Double) → List (Run σ Double) → Prop
  | nil {k : Known} : TracksEach k k [] []
  | cons {k k₁ k₂ : Known} {r' r : Run σ Double} {rest' rest : List (Run σ Double)}
      (h : Tracks k k₁ r' r) (hrest : TracksEach k₁ k₂ rest' rest) :
      TracksEach k k₂ (r' :: rest') (r :: rest)

namespace TracksEach

variable {runs' runs : List (Run σ Double)}

/-- Runs that leave what is known as it was. -/
theorem of_forall₂ (h : List.Forall₂ (Tracks k k) runs' runs) : TracksEach k k runs' runs := by
  induction h with
  | nil => exact .nil
  | cons h _ ih => exact .cons h ih

theorem all (h : TracksEach k k₁ runs' runs) : Tracks k k₁ (all runs') (all runs) := by
  induction h with
  | nil => exact .pure []
  | cons h _ ih => exact h.bind fun _ => ih.bind fun _ => .pure _

theorem last (h : TracksEach k k₁ runs' runs) : Tracks k k₁ (last runs') (last runs) := by
  induction h with
  | nil => exact .pure _
  | cons h hrest ih =>
    cases hrest with
    | nil => exact h
    | cons _ _ => exact h.bind fun _ => ih

end TracksEach

section Operations

variable {host : Host σ} {x' x y' y z' z value' value : Run σ Double}
  {args' args : List (Run σ Double)}

/-- The right operand may be left out, so it must not change what is known. -/
theorem logical_tracks (op : LogicalOp) (hx : Tracks k k₁ x' x) (hy : Tracks k₁ k₁ y' y) :
    Tracks k k₁ (op.run x' y') (op.run x y) := by
  refine hx.bind fun a => ?_
  cases op with
  | and =>
    cases a.isZeroish with
    | true => exact .pure _
    | false => exact hy.bind fun _ => .pure _
  | or =>
    cases a.isZeroish with
    | true => exact hy.bind fun _ => .pure _
    | false => exact .pure _
  | other spelling => exact .pure _

theorem runVar_tracks (op : AssignOp) (name : Bytes) (hvalue : Tracks k k₁ value' value) :
    Tracks k (k₁.forget name) (op.runVar host name value') (op.runVar host name value) := by
  refine (Tracks.of_steady fun _ => rfl).bind fun s₀ => hvalue.bind fun a => ?_
  refine (Tracks.of_steady (steady_assign host op _ a)).bind fun new => ?_
  exact fun s hs => ⟨rfl, hs.forget name new⟩

/-- A plain assignment of a number makes the variable known. -/
theorem runVar_tracks_number (name : Bytes) (a : Double) (hvalue : Tracks k k₁ (pure a) value) :
    Tracks k (k₁.learn name a) (AssignOp.set.runVar host name (pure a))
      (AssignOp.set.runVar host name value) := by
  intro s hs
  obtain ⟨hsame, hs₁⟩ := hvalue s hs
  have hrun : AssignOp.set.runVar host name value s = (a, s.setVar name a) := by
    change ((value s).1, (value s).2.setVar name (value s).1) = _
    rw [← hsame]
    rfl
  rw [← hsame] at hs₁
  rw [hrun]
  exact ⟨rfl, Agrees.learn hs₁ name a⟩

theorem runAt_tracks (op : AssignOp) (b : Buffer) (hvalue : Tracks k k₁ value' value)
    (slot : Option Nat) :
    Tracks k k₁ (op.runAt host b value' slot) (op.runAt host b value slot) := by
  cases slot with
  | none => exact hvalue
  | some i =>
    refine (Tracks.of_steady fun _ => rfl).bind fun s₀ => hvalue.bind fun a => ?_
    refine (Tracks.of_steady (steady_assign host op _ a)).bind fun new => ?_
    exact .of_steady fun _ => rfl

theorem runCall_tracks (op : AssignOp) (name : Bytes) (hargs : TracksEach k k₁ args' args)
    (hvalue : Tracks k₁ k₂ value' value) :
    Tracks k k₂ (op.runCall host name args' value') (op.runCall host name args value) := by
  have hplain : Tracks k k₂ (do let _ ← all args'; let _ ← value'; return Double.zero)
      (do let _ ← all args; let _ ← value; return Double.zero) :=
    hargs.all.bind fun _ => hvalue.bind fun _ => .pure _
  unfold AssignOp.runCall
  cases Buffer.ofName? name with
  | none => exact hplain
  | some b =>
    cases hargs with
    | nil => exact hplain
    | cons hindex hrest =>
      cases hrest with
      | nil => exact hindex.bind fun i => runAt_tracks op b hvalue i.storeSlot?
      | cons _ _ => exact hplain

/-- A choice and a counted loop evaluate the first argument once, and may leave
out or repeat the others. -/
theorem headed_tracks {b : Builtin} (hb : b = .choose ∨ b = .countedLoop) (hx : Tracks k k₁ x' x)
    (hrest : List.Forall₂ (Tracks k₁ k₁) args' args) :
    Tracks k k₁ (b.run (x' :: args')) (b.run (x :: args)) := by
  have hplain : Tracks k k₁ (do return b.apply (← all (x' :: args')))
      (do return b.apply (← all (x :: args))) :=
    (TracksEach.cons hx (.of_forall₂ hrest)).all.bind fun _ => .pure _
  rcases hb with rfl | rfl
  · rcases hrest with _ | ⟨hy, _ | ⟨hz, _ | _⟩⟩
    · exact hplain
    · exact hplain
    · refine hx.bind fun a => ?_
      cases a.isZeroish with
      | true => exact hz
      | false => exact hy
    · exact hplain
  · rcases hrest with _ | ⟨hy, _ | _⟩
    · exact hplain
    · exact hx.bind fun _ => (hy.times _).bind fun _ => .pure _
    · exact hplain

theorem whileLoop_tracks (h : List.Forall₂ (Tracks k k) args' args) :
    Tracks k k (Builtin.run .whileLoop args') (Builtin.run .whileLoop args) := by
  have hplain : Tracks k k (do return Builtin.whileLoop.apply (← all args'))
      (do return Builtin.whileLoop.apply (← all args)) :=
        (TracksEach.of_forall₂ h).all.bind fun _ => .pure _
  rcases h with _ | ⟨hx, _ | _⟩
  · exact hplain
  · exact (hx.whileNonzero _).bind fun _ => .pure _
  · exact hplain

/-- All builtins but three evaluate all their arguments once, in their order. -/
theorem builtin_tracks {b : Builtin} (hchoose : b ≠ .choose) (hwhile : b ≠ .whileLoop)
    (hcounted : b ≠ .countedLoop) (hargs : TracksEach k k₁ args' args) :
    Tracks k k₁ (b.run args') (b.run args) := by
  have hplain : Tracks k k₁ (do return b.apply (← all args')) (do return b.apply (← all args)) :=
    hargs.all.bind fun _ => .pure _
  cases b with
  | choose => exact absurd rfl hchoose
  | whileLoop => exact absurd rfl hwhile
  | countedLoop => exact absurd rfl hcounted
  | exec2 | exec3 => exact hargs.last
  | megabuf | gmegabuf =>
    cases hargs with
    | nil => exact hplain
    | cons hindex hrest =>
      cases hrest with
      | nil => exact hindex.bind fun i => .of_steady (steady_readSlot _ i)
      | cons _ _ => exact hplain
  | _ => exact hplain

theorem callByName_tracks {name : Bytes} (hname : Builtin.ofName? name = none)
    (hargs : TracksEach k k₁ args' args) :
    Tracks k k₁ (callByName host name args') (callByName host name args) := by
  unfold callByName
  rw [hname]
  cases HostFunction.ofName? name with
  | none => exact hargs.all.bind fun _ => .pure _
  | some f => exact hargs.all.bind fun xs => .of_steady (steady_callHost host f xs)

end Operations

/-- That a tree does behind propagation what it did before, wherever the known
variables have their values. -/
def IsTracked (host : Host σ) (n : Node) : Prop :=
  ∀ known : Known, Tracks known (behind known n) (eval host (replaced known n)) (eval host n)

theorem rewriteAll_tracks {host : Host σ} {body : List Node} (h : ∀ n ∈ body, IsTracked host n)
    (known : Known) : TracksEach known (behindAll known body)
      (evalEach host (replacedAll known body)) (evalEach host body) := by
  induction body generalizing known with
  | nil => exact .nil
  | cons n rest ih =>
    simp only [mem_cons, forall_eq_or_imp] at h
    exact .cons (h.1 known) (ih h.2 (behind known n))

/-- A quiet part leaves the known variables as they were, and may be left out or
repeated. -/
theorem IsTracked.quiet {host : Host σ} {n : Node} (h : IsTracked host n) (hn : n.isQuiet = true)
    (known : Known) : Tracks known known (eval host (replaced known n)) (eval host n) := by
  have hn' := h known
  rwa [behind_of_isQuiet n known hn] at hn'

theorem rewriteAll_quiet {host : Host σ} {body : List Node} (h : ∀ n ∈ body, IsTracked host n)
    (hquiet : areQuiet body = true) (known : Known) :
    List.Forall₂ (Tracks known known) (evalEach host (replacedAll known body))
      (evalEach host body) := by
  induction body with
  | nil => exact .nil
  | cons n rest ih =>
    simp only [mem_cons, forall_eq_or_imp] at h
    simp only [areQuiet, Bool.and_eq_true] at hquiet
    refine .cons (h.1.quiet hquiet.1 known) ?_
    change List.Forall₂ _ (evalEach host (replacedAll (behind known n) rest)) _
    rw [behind_of_isQuiet n known hquiet.1]
    exact ih h.2 hquiet.2

section Call

variable {host : Host σ} {callee : Ident} {args : List Node} {span : Span}

theorem headedCall_tracks {b : Builtin} (hb : b = .choose ∨ b = .countedLoop)
    (hargs : ∀ n ∈ args, IsTracked host n) (hquiet : areQuiet args.tail = true) (known : Known) :
    Tracks known (behindAll known args) (b.run (evalEach host (replacedAll known args)))
      (b.run (evalEach host args)) := by
  cases args with
  | nil => rcases hb with rfl | rfl <;> exact .pure _
  | cons x rest =>
    simp only [mem_cons, forall_eq_or_imp] at hargs
    rw [tail_cons] at hquiet
    change Tracks known (behindAll (behind known x) rest) (b.run (_ :: _)) _
    rw [behindAll_of_areQuiet (fun n _ => behind_of_isQuiet n) _ hquiet]
    exact headed_tracks hb (hargs.1 known) (rewriteAll_quiet hargs.2 hquiet _)

/-- A call is tracked if its arguments are, and if those that may be left out or
repeated assign no variable. -/
theorem call_isTracked (hargs : ∀ n ∈ args, IsTracked host n)
    (hquiet : areQuiet (optionalArgs callee.name args) = true) :
    IsTracked host (.call callee args span) := by
  intro known
  have heach := rewriteAll_tracks hargs known
  change Tracks known (behindAll known args)
    (callByName host callee.name (evalEach host (replacedAll known args)))
    (callByName host callee.name (evalEach host args))
  cases hname : Builtin.ofName? callee.name with
  | none => exact callByName_tracks hname heach
  | some b =>
    simp only [callByName, hname]
    simp only [optionalArgs, hname] at hquiet
    cases b with
    | choose => exact headedCall_tracks (.inl rfl) hargs hquiet known
    | countedLoop => exact headedCall_tracks (.inr rfl) hargs hquiet known
    | whileLoop =>
      rw [behindAll_of_areQuiet (fun n _ => behind_of_isQuiet n) known hquiet]
      exact whileLoop_tracks (rewriteAll_quiet hargs hquiet known)
    | _ => exact builtin_tracks nofun nofun nofun heach

end Call

theorem areLinear_iff {body : List Node} :
    areLinear body = true ↔ ∀ n ∈ body, n.isLinear = true := by
  induction body with
  | nil => simp [areLinear]
  | cons n rest ih => simp [areLinear, ih]

/-- An assignment to a variable teaches what it stores, or takes away what was
known. -/
theorem assignVar_isTracked {host : Host σ} {value : Node} (op : AssignOp) (id : Ident)
    (span : Span) (hvalue : IsTracked host value) :
    IsTracked host (.assign op (.ident id) value span) := by
  intro known
  have hknown := hvalue known
  rw [behind, replaced, rewrite_var]
  cases op with
  | set =>
    cases hreplaced : replaced known value with
    | number a span' =>
      rw [hreplaced] at hknown
      exact runVar_tracks_number id.name a hknown
    | _ =>
      rw [hreplaced] at hknown
      exact runVar_tracks .set id.name hknown
  | _ => exact runVar_tracks _ id.name hknown

/-- Propagation keeps what a linear tree does. -/
theorem isTracked_of_isLinear (host : Host σ) (n : Node) (h : n.isLinear = true) :
    IsTracked host n := by
  induction n using inductionOn with
  | missing | number => exact fun _ => .pure _
  | ident id =>
    intro known s hs
    change eval host (((known.find? id.name).map (number · id.span)).getD (.ident id)) s =
      (s.vars id.name, s) ∧ Agrees known s.vars
    refine ⟨?_, hs⟩
    cases hfound : known.find? id.name with
    | none => rfl
    | some value =>
      rw [hs hfound]
      rfl
  | script body span ih | block body span ih =>
    simp only [isLinear, areLinear_iff] at h
    exact fun known => (rewriteAll_tracks (fun n hn => ih n hn (h n hn)) known).last
  | binary op left right span ihl ihr =>
    simp only [isLinear, Bool.and_eq_true] at h
    intro known
    refine (ihl h.1 known).bind fun x => (ihr h.2 (behind known left)).bind fun y => ?_
    exact .of_steady (steady_binary host op x y)
  | logical op left right span ihl ihr =>
    simp only [isLinear, Bool.and_eq_true] at h
    intro known
    have hright := (ihr h.1.2).quiet h.2 (behind known left)
    have hlogical := logical_tracks op (ihl h.1.1 known) hright
    change Tracks known (behind (behind known left) right) (eval host (.logical op _ _ span)) _
    rw [behind_of_isQuiet right _ h.2]
    exact hlogical
  | unary op operand span ih => exact fun known => (ih h known).bind fun _ => .pure _
  | assign op target value span _ ihargs ihv =>
    simp only [isLinear, Bool.and_eq_true] at h
    cases target with
    | ident id => exact assignVar_isTracked op id span (ihv h.2)
    | call callee args callSpan =>
      simp only [isLinear, Bool.and_eq_true, areLinear_iff] at h
      intro known
      have hargs := rewriteAll_tracks (fun n hn => ihargs n hn (h.1.1 n hn)) known
      rw [behind, replaced, rewrite_slot]
      exact runCall_tracks op callee.name hargs (ihv h.2 (behindAll known args))
    | _ =>
      intro known
      rw [behind, replaced, rewrite_assign known op value span (by simp) (by simp)]
      exact (ihv h.2 known).bind fun _ => .pure _
  | call callee args span ih =>
    simp only [isLinear, Bool.and_eq_true, areLinear_iff] at h
    exact call_isTracked (fun n hn => ih n hn (h.1 n hn)) h.2

end Eel.Simplify
