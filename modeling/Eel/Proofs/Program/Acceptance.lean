import Eel.Proofs.Program.Assembly
import Eel.Proofs.Program.Drafts
import Eel.Proofs.Program.Refusal
import Eel.Proofs.Tree.Soundness

/-!
Which programs are made, and what stands in the way of the others.

Declarations are judged first, then all sources, and then the calls of one
function after another. Nothing else is ever wrong: what simplifying makes of a
tree that was read can be lowered as well as the tree itself, so the outcome
does not depend on it, and no source brings the compiler at odds with itself.
-/

namespace Eel

open Lowering Source List

/-- The calls of a source, in the order of its tree. -/
def Source.calls (s : Source) : List Call := Node.callsAll s.script.body

/-- The place of a span of the cleaned text, in the source. -/
def Source.locOf (s : Source) (span : Span) : CompileError.Loc :=
  if span.isNone then {} else .ofSpan (s.locateSpan span)

variable {decls : List FunctionDecl} {source : Source} {s : Bytes}

theorem Source.text_of_parse (h : parse s = .ok source) : source.text = s := by
  unfold parse at h
  cases hscript : Script.parse (Cleaned.ofSource s).text with
  | error e => simp [hscript] at h
  | ok script =>
    simp only [hscript, Except.ok.injEq] at h
    rw [← h]

namespace FunctionDecl

/-- The error of a source that does not parse. -/
def parseFailure? (f : FunctionDecl) : Option CompileError :=
  (failure? (parse f.source)).map (.ofParseError f.name f.source)

/-- The error of the first call with something wrong. -/
def callFailure? (f : FunctionDecl) : Option CompileError :=
  match parse f.source with
  | .error _ => none
  | .ok source => source.calls.findSome? fun c => c.fault?.map fun (span, cause) =>
    { function := f.name, loc := source.locOf span, source := f.source, cause }

end FunctionDecl

namespace Prepared

variable {o : Options} {decl : FunctionDecl} {f : Prepared}

theorem areExpressions_of_parse (h : parse s = .ok source) :
    Node.areExpressions source.script.body = true := by
  obtain ⟨-, hparse⟩ := parse_eq_ok h
  refine Node.areExpressions_iff.mpr fun n hn => ?_
  exact Node.isExpression_of_isWellFormed (Script.isRead_of_parse hparse n hn).wellFormed

theorem failure?_ofDecl : failure? (ofDecl o decl) = decl.parseFailure? := by
  unfold ofDecl FunctionDecl.parseFailure?
  cases parse decl.source with
  | error e => rfl
  | ok source =>
    obtain ⟨body, hrun, -⟩ :
        ∃ body, (Simplify.run .clamped o.maxRounds source.script.toNode).1.node =
          .script body source.script.span ∧ True :=
      Simplify.run_invariant (fun _ => id) o.maxRounds _ trivial
    simp only [hrun]
    split <;> rfl

theorem Reads.areExpressions (h : Reads decl f) : Node.areExpressions f.body = true := by
  refine Node.areExpressions_iff.mpr fun n hn => ?_
  obtain ⟨m, hm, hreduced⟩ := exists_of_forall₂ h.reduced n hn
  exact hreduced.isExpression (Node.areExpressions_iff.mp (areExpressions_of_parse h.parse) m hm)

theorem Reads.calls (h : Reads decl f) : Node.callsAll f.body = f.source.calls :=
  (Simplify.Reduced.script h.reduced default).calls

theorem Reads.callFailure? (h : Reads decl f) (externals : Numbering Bytes) (routineBase : Nat) :
    (f.scope externals routineBase).refusal? (Node.callsAll f.body) = decl.callFailure? := by
  have htext : f.source.text = decl.source := text_of_parse h.parse
  rw [FunctionDecl.callFailure?, h.parse]
  simp only [h.calls, Scope.refusal?, scope, Scope.error, h.name, htext]
  rfl

end Prepared

namespace Program

variable {o : Options} {fs : List Prepared} {f : Prepared}

/-- The variables that a function mentions were collected before it is
lowered. -/
theorem scopeOf_collects (hf : f ∈ live fs) :
    (scopeOf fs f).Collects (Node.mentionsAll f.body) := by
  intro id hid declared hdeclared
  apply Numbering.exists_find?_ofList
  refine mem_flatMap.mpr ⟨f, hf, mem_filterMap.mpr ⟨id, hid, ?_⟩⟩
  simp only [show f.pool.find? id.name = some declared from hdeclared]
  rfl

theorem lower_settles_of_areExpressions (h : Node.areExpressions f.body = true) (hf : f ∈ live fs) :
    Settles ((scopeOf fs f).refusal? (Node.callsAll f.body))
      (f.lower (externalsOf fs) (HostFunction.all.length + (live fs).length)) := by
  have hreset : Settles none (modify ({ · with locals := [] }) : Lower PUnit) := fun _ => rfl
  have hbody : Settles ((scopeOf fs f).refusal? (Node.callsAll f.body))
      (lowerStatements (scopeOf fs f) f.body) :=
    lowerStatements_settles fun n hn =>
      lower_settles (Node.areExpressions_iff.mp h n hn) ((scopeOf_collects hf).of_mem hn)
  exact hreset.behind fun _ => hbody.before fun _ _ => rfl

/-- A function that is left out has no statement, so it has no call that could
be refused. -/
theorem findSome?_live {g : Prepared → Option CompileError}
    (hg : ∀ decl f, Prepared.Reads decl f → g f = decl.callFailure?)
    (h : List.Forall₂ Prepared.Reads decls fs) :
    (live fs).findSome? g = decls.findSome? (·.callFailure?) := by
  induction h with
  | nil => rfl
  | @cons decl f decls fs hf _ ih =>
    rw [findSome?_cons_eq_or, ← ih, ← hg decl f hf, live, filter_cons]
    split
    · rw [findSome?_cons_eq_or, live]
    · rename_i hlive
      have hbody : f.source.script.body = [] := by
        simpa [Prepared.isLive, Script.isEmpty] using hlive
      have hnone : decl.callFailure? = none := by
        simp [FunctionDecl.callFailure?, hf.parse, calls, hbody, Node.callsAll]
      rw [hg decl f hf, hnone, Option.none_or, live]

theorem failure?_ofPrepared (h : List.Forall₂ Prepared.Reads decls fs) :
    failure? (ofPrepared fs) = decls.findSome? (·.callFailure?) := by
  have hmap : Settles ((live fs).findSome? fun f => (scopeOf fs f).refusal? (Node.callsAll f.body))
      ((live fs).mapM
        (Prepared.lower (externalsOf fs) (HostFunction.all.length + (live fs).length))) := by
    refine .mapM fun f hf => ?_
    obtain ⟨decl, -, hdecl⟩ := exists_of_forall₂ h f (mem_of_mem_filter hf)
    exact lower_settles_of_areExpressions hdecl.areExpressions hf
  have hcalls : (live fs).findSome? (fun f => (scopeOf fs f).refusal? (Node.callsAll f.body)) =
      decls.findSome? (·.callFailure?) :=
    findSome?_live (fun _ _ hf => hf.callFailure? _ _) h
  rw [hcalls] at hmap
  exact (failure?_bind_of_ok fun _ => rfl).trans (hmap {})

/-- What stands in the way of a program: its declarations, then a source, then a
call. -/
theorem failure?_ofOptions (o : Options) : failure? (ofOptions o) =
    (o.fault?.map fun cause => { cause }).or
      ((o.functions.findSome? (·.parseFailure?)).or (o.functions.findSome? (·.callFailure?))) := by
  unfold ofOptions
  cases o.fault? with
  | some cause => rfl
  | none =>
    have hread : failure? (o.functions.mapM (Prepared.ofDecl o)) =
        o.functions.findSome? (·.parseFailure?) := by
      simp only [failure?_mapM, Prepared.failure?_ofDecl]
    rw [← hread]
    refine failure?_bind fun fs hfs => failure?_ofPrepared ?_
    exact (Except.forall₂_of_mapM hfs).imp fun _ _ => Prepared.reads_of_ofDecl

end Program

/-- Only the making of a program can fail, not that of its module. -/
theorem failure?_compile (o : Options) : failure? (compile o) = failure? (Program.ofOptions o) := by
  refine failure?_bind_of_ok fun p => ?_
  rw [p.toModule_eq]
  rfl

namespace FunctionDecl

variable {f : FunctionDecl} {e : CompileError}

theorem parseFailure?_eq_none_iff :
    f.parseFailure? = none ↔ ∃ source, parse f.source = .ok source := by
  rw [parseFailure?, Option.map_eq_none_iff, failure?_eq_none_iff]

theorem parseFailure?_eq_some_iff : f.parseFailure? = some e ↔
    ∃ error, parse f.source = .error error ∧ .ofParseError f.name f.source error = e := by
  simp only [parseFailure?, Option.map_eq_some_iff, failure?_eq_some_iff]

theorem callFailure?_eq_none_iff : f.callFailure? = none ↔
    ∀ source, parse f.source = .ok source → ∀ c ∈ source.calls, c.IsProper := by
  unfold callFailure?
  cases parse f.source with
  | error error => simp
  | ok source => simp [Call.fault?_eq_none_iff]

theorem callFailure?_eq_some_iff : f.callFailure? = some e ↔
    ∃ source calls c calls' span cause, parse f.source = .ok source ∧
      source.calls = calls ++ c :: calls' ∧
      (∀ c' ∈ calls, c'.IsProper) ∧ c.fault? = some (span, cause) ∧
      { function := f.name, loc := source.locOf span, source := f.source, cause } = e := by
  unfold callFailure?
  cases parse f.source with
  | error error => simp
  | ok source =>
    simp only [findSome?_eq_some_iff, Option.map_eq_some_iff, Option.map_eq_none_iff,
      Call.fault?_eq_none_iff, Prod.exists, Except.ok.injEq]
    constructor
    · rintro ⟨calls, c, calls', hcalls, ⟨span, cause, hfault, he⟩, hproper⟩
      exact ⟨source, calls, c, calls', span, cause, rfl, hcalls, hproper, hfault, he⟩
    · rintro ⟨_, calls, c, calls', span, cause, rfl, hcalls, hproper, hfault, he⟩
      exact ⟨calls, c, calls', hcalls, ⟨span, cause, hfault, he⟩, hproper⟩

end FunctionDecl

/-- The error that options fail with: what is wrong with the declarations, or
else the error of the first source that does not parse, or else that of the
first call with something wrong in the first function that has one. -/
inductive Options.Fails (o : Options) : CompileError → Prop
  | declaration {cause : CompileError.Cause} (h : o.fault? = some cause) : Fails o { cause }
  | source {before after : List FunctionDecl} {f : FunctionDecl} {error : ParseError}
      (hdeclared : o.fault? = none)
      (hfunctions : o.functions = before ++ f :: after)
      (hbefore : ∀ g ∈ before, ∃ source, parse g.source = .ok source)
      (hparse : parse f.source = .error error) : Fails o (.ofParseError f.name f.source error)
  | call {before after : List FunctionDecl} {f : FunctionDecl} {source : Source}
      {calls calls' : List Call} {c : Call}
      {span : Span} {cause : CompileError.Cause} (hdeclared : o.fault? = none)
      (hparse : ∀ g ∈ o.functions, ∃ source, parse g.source = .ok source)
      (hfunctions : o.functions = before ++ f :: after)
      (hbefore : ∀ g ∈ before, ∀ source, parse g.source = .ok source →
        ∀ c ∈ source.calls, c.IsProper)
      (hsource : parse f.source = .ok source) (hcalls : source.calls = calls ++ c :: calls')
      (hproper : ∀ c' ∈ calls, c'.IsProper) (hfault : c.fault? = some (span, cause)) :
      Fails o { function := f.name, loc := source.locOf span, source := f.source, cause }

theorem compile_eq_error_iff {o : Options} {e : CompileError} :
    compile o = .error e ↔ o.Fails e := by
  rw [← failure?_eq_some_iff, failure?_compile, Program.failure?_ofOptions]
  simp only [Option.or_eq_some_iff, Option.map_eq_some_iff, Option.map_eq_none_iff,
    findSome?_eq_some_iff, findSome?_eq_none_iff, FunctionDecl.parseFailure?_eq_none_iff,
    FunctionDecl.parseFailure?_eq_some_iff, FunctionDecl.callFailure?_eq_none_iff,
    FunctionDecl.callFailure?_eq_some_iff]
  constructor
  · rintro (⟨cause, h, rfl⟩
      | ⟨hdeclared, ⟨before, f, after, hfunctions, ⟨error, hparse, rfl⟩, hbefore⟩ |
      ⟨hparse, before, f, after, hfunctions,
        ⟨source, calls, c, calls', span, cause, hsource, hcalls, hproper, hfault,
        rfl⟩, hbefore⟩⟩)
    · exact .declaration h
    · exact .source hdeclared hfunctions hbefore hparse
    · exact .call hdeclared hparse hfunctions hbefore hsource hcalls hproper hfault
  · intro h
    cases h with
    | declaration h => exact .inl ⟨_, h, rfl⟩
    | source hdeclared hfunctions hbefore hparse =>
      exact .inr ⟨hdeclared, .inl ⟨_, _, _, hfunctions, ⟨_, hparse, rfl⟩, hbefore⟩⟩
    | call hdeclared hparse hfunctions hbefore hsource hcalls hproper hfault =>
      exact .inr ⟨hdeclared, .inr ⟨hparse, _, _, _, hfunctions,
        ⟨_, _, _, _, _, _, hsource, hcalls, hproper, hfault, rfl⟩, hbefore⟩⟩

theorem compile_eq_ok_iff {o : Options} : (∃ bin, compile o = .ok bin) ↔ o.fault? = none ∧
    ∀ f ∈ o.functions, ∃ source, parse f.source = .ok source ∧ ∀ c ∈ source.calls, c.IsProper := by
  rw [← failure?_eq_none_iff, failure?_compile, Program.failure?_ofOptions]
  simp only [Option.or_eq_none_iff, Option.map_eq_none_iff, findSome?_eq_none_iff,
    FunctionDecl.parseFailure?_eq_none_iff, FunctionDecl.callFailure?_eq_none_iff]
  refine and_congr_right fun _ =>
    ⟨fun h f hf => ?_, fun h => ⟨fun f hf => ?_, fun f hf source hsource => ?_⟩⟩
  · obtain ⟨source, hsource⟩ := h.1 f hf
    exact ⟨source, hsource, h.2 f hf source hsource⟩
  · obtain ⟨source, hsource, -⟩ := h f hf
    exact ⟨source, hsource⟩
  · obtain ⟨source', hsource', hproper⟩ := h f hf
    obtain rfl : source' = source := Except.ok.inj (hsource'.symm.trans hsource)
    exact hproper

/-- What is accepted does not depend on simplifying. Options are accepted if and
only if their declarations are in order, all sources parse and every call in
them is proper; otherwise they fail with the error that comes first. Whether
scripts are simplified, and for how many rounds, changes neither. -/
theorem compile_judges (o : Options) :
    ((∃ bin, compile o = .ok bin) ↔ o.fault? = none ∧
      ∀ f ∈ o.functions, ∃ source, Source.parse f.source = .ok source ∧
        ∀ c ∈ source.calls, c.IsProper) ∧
    (∀ e, compile o = .error e ↔ o.Fails e) ∧
    ∀ (simplify : Bool) (maxRounds : Int),
      (∃ bin bin', compile o = .ok bin ∧ compile { o with simplify, maxRounds } = .ok bin') ∨
        ∃ e, compile o = .error e ∧ compile { o with simplify, maxRounds } = .error e := by
  refine ⟨compile_eq_ok_iff, fun e => compile_eq_error_iff, fun simplify maxRounds => ?_⟩
  have hsame : failure? (compile o) = failure? (compile { o with simplify, maxRounds }) := by
    simp only [failure?_compile, Program.failure?_ofOptions]
    rfl
  cases hcompile : compile o with
  | ok bin =>
    rw [hcompile] at hsame
    obtain ⟨bin', hbin'⟩ := failure?_eq_none_iff.mp hsame.symm
    exact .inl ⟨bin, bin', rfl, hbin'⟩
  | error e =>
    rw [hcompile] at hsame
    exact .inr ⟨e, rfl, failure?_eq_some_iff.mp hsame.symm⟩

namespace CompileError

/-- Whether a cause means that the compiler is at odds with itself. -/
def Cause.isInternal : Cause → Bool
  | uncollected .. | emptyBlock | noExpression | unknownOperator .. | noTarget | noLowering _
  | notScript | refusedImport _ => true
  | _ => false

end CompileError

namespace Options

variable {cause : CompileError.Cause}

theorem isInternal_poolFault? {seen : List Bytes} {pools : List Pool}
    (h : poolFault? seen pools = some cause) : cause.isInternal = false := by
  fun_induction poolFault? seen pools with
  | case1 => cases h
  | case6 _ _ _ _ _ _ _ ih => exact ih h
  | _ =>
    obtain rfl := Option.some.inj h
    rfl

theorem isInternal_functionFault? {pools seen : List Bytes} {functions : List FunctionDecl}
    (h : functionFault? pools seen functions = some cause) : cause.isInternal = false := by
  fun_induction functionFault? pools seen functions with
  | case1 => cases h
  | case5 _ _ _ _ _ _ ih => exact ih h
  | _ =>
    obtain rfl := Option.some.inj h
    rfl

theorem isInternal_fault? {o : Options} (h : o.fault? = some cause) : cause.isInternal = false := by
  unfold fault? at h
  cases hpool : poolFault? [] o.pools with
  | some cause' =>
    rw [hpool] at h
    obtain rfl : cause' = cause := Option.some.inj h
    exact isInternal_poolFault? hpool
  | none =>
    rw [hpool] at h
    exact isInternal_functionFault? h

end Options

theorem Call.isInternal_fault? {c : Call} {span : Span} {cause : CompileError.Cause}
    (h : c.fault? = some (span, cause)) : cause.isInternal = false := by
  unfold fault? at h
  repeat' split at h
  all_goals cases h
  all_goals rfl

/-- No options and no source bring the compiler at odds with itself: it makes a
module, or there is an error in what was declared or written. -/
theorem compile_neverInternal (o : Options) : (∃ bin, compile o = .ok bin) ∨
    ∃ e, compile o = .error e ∧ e.kind = .user ∧ e.cause.isInternal = false := by
  cases hcompile : compile o with
  | ok bin => exact .inl ⟨bin, rfl⟩
  | error e =>
    refine .inr ⟨e, rfl, ?_⟩
    cases compile_eq_error_iff.mp hcompile with
    | declaration h => exact ⟨rfl, Options.isInternal_fault? h⟩
    | source => exact ⟨rfl, rfl⟩
    | call _ _ _ _ _ _ _ hfault => exact ⟨rfl, Call.isInternal_fault? hfault⟩

end Eel
