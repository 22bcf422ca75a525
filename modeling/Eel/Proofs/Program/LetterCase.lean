import Eel.Proofs.Program.Drafts
import Eel.Proofs.Tree.LetterCase

/-!
Programs without regard to the case of letters.

The text of a source is not looked at again once it is read, except to show
where an error is. So functions with the same scripts are lowered to the same
instructions, whatever their texts are, and options whose sources differ in the
case of letters give the same module, byte for byte, or none.
-/

namespace Eel

open Wasm List

namespace Lowering

variable {α β : Type}

/-- That two steps of lowering do the same, except that they may fail with
different errors. -/
def SameSteps (x y : Lower α) : Prop := ∀ d, Parallel (· = ·) (x d) (y d)

namespace SameSteps

theorem refl (x : Lower α) : SameSteps x x := by
  intro d
  cases x d with
  | ok result => exact .ok rfl
  | error e => exact .error

theorem bind {x y : Lower α} {f g : α → Lower β} (h : SameSteps x y)
    (hnext : ∀ a, SameSteps (f a) (g a)) : SameSteps (x >>= f) (y >>= g) := by
  intro d
  refine Parallel.bind (h d) ?_
  rintro ⟨a, d⟩ _ rfl
  exact hnext a d

theorem mapM {γ : Type} {R : α → β → Prop} {f : α → Lower γ} {g : β → Lower γ} {xs : List α}
    {ys : List β} (hxs : List.Forall₂ R xs ys) (h : ∀ x y, R x y → SameSteps (f x) (g y)) :
    SameSteps (xs.mapM f) (ys.mapM g) := by
  induction hxs with
  | nil => exact .refl _
  | cons hxy _ ih =>
    rw [mapM_cons, mapM_cons]
    exact (h _ _ hxy).bind fun c => ih.bind fun cs => .refl _

theorem throw {e e' : CompileError} : SameSteps (throw e : Lower α) (throw e') := fun _ => .error

theorem throw_bind {e e' : CompileError} {f g : α → Lower β} :
    SameSteps (MonadExcept.throw e >>= f) (MonadExcept.throw e' >>= g) := fun _ => .error

end SameSteps

/-- The scope with another source to show errors in. -/
abbrev Scope.showing (s : Scope) (source : Source) : Scope := { s with source }

section Steps

variable (s : Scope) (source : Source)

theorem globalIndex_same (id : Ident) :
    SameSteps (globalIndex s id) (globalIndex (s.showing source) id) := by
  unfold globalIndex
  dsimp only
  cases s.pool.find? id.name with
  | none => exact .refl _
  | some declared =>
    dsimp only
    cases s.externals.find? (variableKey s.pool.name declared) with
    | none => exact .throw
    | some i => exact .refl _

theorem unaryCode_same (span : Span) (op : UnaryOp) :
    SameSteps (unaryCode s span op) (unaryCode (s.showing source) span op) := by
  cases op with
  | other spelling => exact .throw
  | _ => exact .refl _

theorem binaryCode_same (span : Span) (op : BinaryOp) :
    SameSteps (binaryCode s span op) (binaryCode (s.showing source) span op) := by
  cases op with
  | other spelling => exact .throw
  | _ => exact .refl _

theorem builtinCode_same (span : Span) (b : Builtin) :
    SameSteps (builtinCode s span b) (builtinCode (s.showing source) span b) := by
  cases b
  case choose | exec2 | exec3 | whileLoop | countedLoop | megabuf | gmegabuf => exact .throw
  all_goals exact .refl _

theorem hostFunction_same (callee : Ident) (args : Nat) (span : Span) :
    SameSteps (hostFunction s callee args span)
      (hostFunction (s.showing source) callee args span) := by
  unfold hostFunction
  dsimp only
  split
  · exact .throw_bind
  · cases HostFunction.ofName? callee.name with
    | none => exact .throw
    | some f =>
      dsimp only
      split
      · exact .throw_bind
      · exact .refl _

variable {s source} in
theorem lowerAll_same {args : List Node}
    (h : ∀ n ∈ args, SameSteps (lower s n) (lower (s.showing source) n)) :
    SameSteps (lowerAll s args) (lowerAll (s.showing source) args) := by
  induction args with
  | nil =>
    rw [lowerAll, lowerAll]
    exact .refl _
  | cons n rest ih =>
    rw [lowerAll, lowerAll]
    exact (h n (by simp)).bind fun cn => (ih fun m hm => h m (by simp [hm])).bind fun cr => .refl _

variable {s source} in
theorem lowerSequence_same {body : List Node}
    (h : ∀ n ∈ body, SameSteps (lower s n) (lower (s.showing source) n)) :
    SameSteps (lowerSequence s body) (lowerSequence (s.showing source) body) := by
  induction body with
  | nil =>
    rw [lowerSequence, lowerSequence]
    exact .refl _
  | cons n rest ih =>
    cases rest with
    | nil =>
      rw [lowerSequence, lowerSequence]
      exact h n (by simp)
    | cons m rest =>
      have hcons (s : Scope) : lowerSequence s (n :: m :: rest) =
          (do return (← lower s n) ++ [.drop] ++ (← lowerSequence s (m :: rest))) := by
        rw [lowerSequence]
        simp
      rw [hcons, hcons]
      exact (h n (by simp)).bind fun cn =>
        (ih fun k hk => h k (by simp [hk])).bind fun cr => .refl _

mutual

/-- An expression is lowered to the same instructions, whatever source its
errors are shown in. -/
theorem lower_same : ∀ n : Node, SameSteps (lower s n) (lower (s.showing source) n)
  | .number value span => by
      rw [lower, lower]
      exact .refl _
  | .ident id => by
      rw [lower, lower]
      exact (globalIndex_same s source id).bind fun i => .refl _
  | .block body span => by
      rw [lower, lower]
      split
      · exact .throw
      · exact lowerSequence_same (lower_same_of_mem body)
  | .unary op x span => by
      rw [lower, lower]
      exact (lower_same x).bind fun cx => (unaryCode_same s source span op).bind fun cop => .refl _
  | .binary op x y span => by
      rw [lower, lower]
      exact (lower_same x).bind fun cx => (lower_same y).bind fun cy =>
        (binaryCode_same s source span op).bind fun cop => .refl _
  | .logical op x y span => by
      rw [lower, lower]
      refine (lower_same x).bind fun cx => (SameSteps.refl _).bind fun test => ?_
      cases op with
      | and => exact (lower_same y).bind fun cy => .refl _
      | or => exact (lower_same y).bind fun cy => .refl _
      | other spelling => exact .throw
  | .assign op target v span => by
      cases target with
      | ident id =>
        rw [lower, lower]
        refine (globalIndex_same s source id).bind fun i => ?_
        cases op.combining? with
        | none => exact (lower_same v).bind fun cv => .refl _
        | some op => exact (lower_same v).bind fun cv =>
          (binaryCode_same s source span op).bind fun cop => .refl _
      | call callee args callSpan =>
        have hargs := lower_same_of_mem args
        rw [lower, lower]
        cases bufferBase? callee.name with
        | none => exact .throw
        | some base =>
          rcases args with _ | ⟨index, _ | ⟨second, rest⟩⟩
          · exact .throw
          · refine (SameSteps.refl _).bind fun _ => (hargs index (by simp)).bind fun ci =>
              (SameSteps.refl _).bind fun find => (SameSteps.refl _).bind fun offset =>
              (SameSteps.refl _).bind fun stored => (lower_same v).bind fun cv => ?_
            dsimp only
            cases op.combining? with
            | none => exact (SameSteps.refl _).bind fun cn => (lower_same v).bind fun cs => .refl _
            | some op =>
              exact (binaryCode_same s source span op).bind fun cop =>
                (SameSteps.refl _).bind fun cn =>
                (lower_same v).bind fun cs => .refl _
          · exact .throw
      | _ =>
        rw [lower, lower]
        · exact .throw
        all_goals simp
  | .call callee args span => by
      have hargs := lower_same_of_mem args
      rw [lower, lower]
      cases Builtin.ofName? callee.name with
      | none =>
        exact (hostFunction_same s source callee args.length span).bind fun f =>
          (lowerAll_same hargs).bind fun cargs => .refl _
      | some b =>
        dsimp only
        split
        · exact .throw
        · rename_i harity
          have harity : args.length = b.arity := not_not.mp harity
          cases b
          case choose =>
            obtain ⟨x, y, z, rfl⟩ := length_eq_three.mp harity
            exact (hargs x (by simp)).bind fun cx => (SameSteps.refl _).bind fun test =>
              (hargs y (by simp)).bind fun cy => (hargs z (by simp)).bind fun cz => .refl _
          case exec2 | exec3 => exact lowerSequence_same hargs
          case whileLoop =>
            obtain ⟨body, rfl⟩ := length_eq_one_iff.mp harity
            exact (SameSteps.refl _).bind fun counter =>
              (hargs body (by simp)).bind fun cb => .refl _
          case countedLoop =>
            obtain ⟨count, body, rfl⟩ := length_eq_two.mp harity
            exact (hargs count (by simp)).bind fun cc => (SameSteps.refl _).bind fun remaining =>
              (hargs body (by simp)).bind fun cb => .refl _
          case megabuf | gmegabuf =>
            obtain ⟨index, rfl⟩ := length_eq_one_iff.mp harity
            exact (SameSteps.refl _).bind fun _ => (hargs index (by simp)).bind fun ci => .refl _
          all_goals
            exact (lowerAll_same hargs).bind fun cargs =>
              (builtinCode_same s source span _).bind fun cb => .refl _
  | .script body span => by
      rw [lower, lower]
      · exact .throw
      all_goals simp
  | .missing => by
      rw [lower, lower]
      · exact .throw
      all_goals simp

theorem lower_same_of_mem :
    ∀ args : List Node, ∀ n ∈ args, SameSteps (lower s n) (lower (s.showing source) n)
  | [], _, h => absurd h not_mem_nil
  | m :: rest, n, h =>
    (mem_cons.mp h).elim (fun heq => heq ▸ lower_same m) (lower_same_of_mem rest n)

end

theorem lowerStatements_same (body : List Node) :
    SameSteps (lowerStatements s body) (lowerStatements (s.showing source) body) := by
  induction body with
  | nil =>
    rw [lowerStatements, lowerStatements]
    exact .refl _
  | cons n rest ih =>
    rw [lowerStatements, lowerStatements]
    exact (lower_same s source n).bind fun cn => ih.bind fun cr => .refl _

end Steps

end Lowering

namespace Prepared

/-- Two functions that were read alike, from whatever texts. -/
structure SameScript (f g : Prepared) : Prop where
  name : f.name = g.name
  pool : f.pool = g.pool
  script : f.source.script = g.source.script
  body : f.body = g.body

variable {f g : Prepared}

theorem SameScript.isLive (h : f.SameScript g) : f.isLive = g.isLive := by
  rw [Prepared.isLive, Prepared.isLive, h.script]

theorem SameScript.externalKeys (h : f.SameScript g) : f.externalKeys = g.externalKeys := by
  rw [Prepared.externalKeys, Prepared.externalKeys, h.body, h.pool]

theorem SameScript.lower (h : f.SameScript g) (externals : Numbering Bytes) (routineBase : Nat) :
    Lowering.SameSteps (f.lower externals routineBase) (g.lower externals routineBase) := by
  obtain ⟨name, pool, source, body⟩ := f
  obtain ⟨name', pool', source', body'⟩ := g
  obtain ⟨rfl, rfl, -, rfl⟩ := h
  refine (Lowering.SameSteps.refl _).bind fun _ => ?_
  exact (Lowering.lowerStatements_same _ source' body).bind fun code => .refl _

end Prepared

/-- Functions that were read alike make the same program, or none. -/
theorem Program.ofPrepared_parallel {fs gs : List Prepared}
    (h : List.Forall₂ Prepared.SameScript fs gs) :
    Parallel (· = ·) (ofPrepared fs) (ofPrepared gs) := by
  have hlive : List.Forall₂ Prepared.SameScript (fs.filter (·.isLive)) (gs.filter (·.isLive)) :=
    rel_filter (fun f g hfg => by simp [hfg.isLive]) h
  have hkeys : (fs.filter (·.isLive)).flatMap (·.externalKeys) =
      (gs.filter (·.isLive)).flatMap (·.externalKeys) := by
    rw [flatMap_def, flatMap_def, map_eq_of_forall₂ (hlive.imp fun f g hfg => hfg.externalKeys)]
  unfold ofPrepared
  dsimp only
  rw [hkeys, hlive.length_eq]
  refine Parallel.bind (Lowering.SameSteps.mapM hlive (fun f g hfg => hfg.lower _ _) {}) ?_
  rintro ⟨functions, draft⟩ _ rfl
  exact .ok rfl

/-- Two declarations whose sources differ at most in the case of letters. -/
structure FunctionDecl.SameButCase (f g : FunctionDecl) : Prop where
  name : f.name = g.name
  pool : f.pool = g.pool
  source : f.source.SameButCase g.source

namespace Options

/-- Options that are the same, except that sources may differ in the case of
letters. -/
structure SameButCase (o o' : Options) : Prop where
  pools : o.pools = o'.pools
  functions : List.Forall₂ FunctionDecl.SameButCase o.functions o'.functions
  simplify : o.simplify = o'.simplify
  maxRounds : o.maxRounds = o'.maxRounds

theorem functionFault?_eq (pools seen : List Bytes) {fs gs : List FunctionDecl}
    (h : List.Forall₂ FunctionDecl.SameButCase fs gs) :
    functionFault? pools seen fs = functionFault? pools seen gs := by
  induction h generalizing seen with
  | nil => rfl
  | cons hfg _ ih => simp only [functionFault?, hfg.name, hfg.pool, ih]

variable {o o' : Options}

theorem SameButCase.fault? (h : o.SameButCase o') : o.fault? = o'.fault? := by
  rw [Options.fault?, Options.fault?, h.pools, functionFault?_eq _ _ h.functions]

end Options

theorem Prepared.ofDecl_parallel {o o' : Options} (h : o.SameButCase o') {f g : FunctionDecl}
    (hfg : f.SameButCase g) : Parallel SameScript (ofDecl o f) (ofDecl o' g) := by
  have hparse := Source.parse_parallel hfg.source
  have hpool : o.pool f.pool = o'.pool g.pool := by
    rw [Options.pool, Options.pool, h.pools, hfg.pool]
  unfold ofDecl
  generalize Source.parse f.source = x, Source.parse g.source = y at hparse
  cases hparse with
  | error => exact .error
  | @ok source source' htree =>
    simp only [h.simplify, h.maxRounds, htree.script, hpool]
    split
    · split
      · exact .ok ⟨hfg.name, rfl, htree.script, rfl⟩
      · exact .error
    · exact .ok ⟨hfg.name, rfl, htree.script, rfl⟩

theorem Program.ofOptions_parallel {o o' : Options} (h : o.SameButCase o') :
    Parallel (· = ·) (ofOptions o) (ofOptions o') := by
  unfold ofOptions
  rw [← h.fault?]
  cases o.fault? with
  | some cause => exact .error
  | none =>
    exact (Parallel.mapM h.functions fun f g hfg => Prepared.ofDecl_parallel h hfg).bind
      fun fs gs hfs =>
      ofPrepared_parallel hfs

/-- Letter case never matters. Sources that differ in the case of ASCII letters
only are both refused or hold the same tree, with the same spans, and options
that differ in nothing else are both refused or give the same module. -/
theorem letter_case_never_matters :
    (∀ s s' : Bytes, s.SameButCase s' →
      Parallel Source.SameTree (Source.parse s) (Source.parse s')) ∧
      ∀ o o' : Options, o.SameButCase o' → Parallel (· = ·) (compile o) (compile o') := by
  refine ⟨fun s s' h => Source.parse_parallel h, fun o o' h => ?_⟩
  refine (Program.ofOptions_parallel h).bind ?_
  rintro p _ rfl
  cases p.toModule with
  | ok m => exact .ok rfl
  | error refusal => exact .error

section Spellings

/-- A source in which a word of the language, a buffer, a variable of a pool and
one of the program are spelled in several ways. -/
def loudSource : Bytes := utf8 "IF(Level > 1, MegaBuf(2) = LEVEL, X = x + level)"

def quietSource : Bytes := utf8 "if(level > 1, megabuf(2) = level, x = X + LEVEL)"

/-- A function against a pool that spells its variable in a way of its own. -/
def levelOptions (source : Bytes) : Options where
  pools := [⟨utf8 "main", [utf8 "LeveL"]⟩]
  functions := [⟨utf8 "tick", utf8 "main", source⟩]

theorem levelOptions_sameButCase {s s' : Bytes} (h : s.SameButCase s') :
    (levelOptions s).SameButCase (levelOptions s') :=
  ⟨rfl, .cons ⟨rfl, rfl, h⟩ .nil, rfl, rfl⟩

theorem loudSource_as_quietSource :
    loudSource ≠ quietSource ∧ loudSource.SameButCase quietSource ∧
      (levelOptions loudSource).SameButCase (levelOptions quietSource) ∧
      (∃ a b, Source.parse loudSource = .ok a ∧ Source.parse quietSource = .ok b ∧ a.SameTree b) ∧
      ∃ binary, compile (levelOptions loudSource) = .ok binary ∧
        compile (levelOptions quietSource) = .ok binary := by
  have hcase : loudSource.SameButCase quietSource := by
    unfold Bytes.SameButCase
    decide
  have hoptions := levelOptions_sameButCase hcase
  have hreads : (Source.parse loudSource).isOk = true := by decide +kernel
  have hcompiles : (compile (levelOptions loudSource)).isOk = true := by decide +kernel
  refine ⟨by decide, hcase, hoptions, ?_, ?_⟩
  · obtain ⟨a, ha⟩ := Except.exists_ok_of_isOk hreads
    have hparse := letter_case_never_matters.1 _ _ hcase
    rw [ha] at hparse
    obtain ⟨b, hb, htree⟩ := hparse.exists_ok
    exact ⟨a, b, ha, hb, htree⟩
  · obtain ⟨binary, hbinary⟩ := Except.exists_ok_of_isOk hcompiles
    have hcompile := letter_case_never_matters.2 _ _ hoptions
    rw [hbinary] at hcompile
    obtain ⟨_, hquiet, rfl⟩ := hcompile.exists_ok
    exact ⟨binary, hbinary, hquiet⟩

end Spellings

end Eel
