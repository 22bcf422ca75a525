import Eel.Proofs.Program.Acceptance
import Eel.Proofs.Program.Realization
import Eel.Proofs.Simplify.Preservation

/-!
Folding on its own.

Replacing variables by numbers keeps what a script does only where no part of it
is left out or repeated. Folding needs no such condition, since it looks at
nothing but numbers: every tree keeps its meaning, with branches, loops and
assignments anywhere in it. A program made of folded functions can still be
lowered, and its code does what the functions say that were not folded.
-/

namespace Eel

open Wasm Machine Lowering List

variable {σ : Type} {fs : List Prepared} {f : Prepared} {p : Program}

namespace Simplify

theorem node_fold (n : Node) : (fold .clamped n).node = foldedTree n :=
  congrArg (fun r : StateM Unit Node => (r ()).1) (node_sweep (visitFolded .clamped) n)

theorem foldedAll_eq_map (body : List Node) :
    foldedAll body = body.map fun n => (fold .clamped n).node := by
  induction body with
  | nil => rfl
  | cons n rest ih =>
    rw [map_cons, ← ih, node_fold]
    rfl

/-- Folding keeps what a tree does. -/
theorem eval_fold (host : Host σ) (n : Node) :
    Node.eval host (fold .clamped n).node = Node.eval host n := by
  rw [node_fold]
  exact eval_foldedTree host n

end Simplify

/-- A quotient is zero where the divisor is a zero, be it the positive or the
negative one. -/
theorem Double.quotient_of_eq_zero (x : Double) {y : Double} (h : y.eq .zero = true) :
    x.quotient y = .zero :=
  if_pos h

theorem Node.eval_div_zero (host : Host σ) {left right : Node} (span : Span) {s s₁ s₂ : State σ}
    {x y : Double} (hleft : eval host left s = (x, s₁)) (hright : eval host right s₁ = (y, s₂))
    (hy : y.eq .zero = true) : eval host (.binary .div left right span) s = (.zero, s₂) := by
  have hquotient : eval host (.binary .div left right span) s =
      BinaryOp.apply host .div (eval host left s).1 (eval host right (eval host left s).2).1
        (eval host right (eval host left s).2).2 := rfl
  rw [hquotient, hleft, hright]
  exact congrArg (·, s₂) (x.quotient_of_eq_zero hy)

section

attribute [local instance] Arithmetic.binary64

theorem callCode_div_zero (calls : Calls σ) (store : Store σ) (stack : List Value) (x : Double)
    {y : Double} (hy : y.eq .zero = true) :
    callCode calls Routine.div.toCode store (.f64 y :: .f64 x :: stack) =
      .done store (.f64 .zero :: stack) := by
  have hne : Arithmetic.ne y .zero = false := by
    change (!y.eq .zero) = false
    rw [hy]
    rfl
  rw [callCode_div, hne]
  rfl

end

namespace Prepared

/-- A function with every statement folded. -/
def folded (f : Prepared) : Prepared :=
  { f with body := f.body.map fun n => (Simplify.fold .clamped n).node }

theorem body_folded (f : Prepared) : f.folded.body = Simplify.foldedAll f.body :=
  (Simplify.foldedAll_eq_map f.body).symm

theorem evalEach_folded (host : Host σ) (f : Prepared) :
    Node.evalEach host f.folded.body = Node.evalEach host f.body := by
  rw [body_folded]
  exact Simplify.evalEach_foldedAll host fun n _ => Simplify.eval_foldedTree host n

theorem reduced_folded (f : Prepared) : List.Forall₂ Simplify.Reduced f.body f.folded.body :=
  forall₂_map_right_iff.mpr (forall₂_same.mpr fun n _ =>
    Simplify.sweep_reduced (Simplify.visitFolded_sparesEffects .clamped) n ())

theorem Reads.folded {decl : FunctionDecl} (h : Reads decl f) : Reads decl f.folded :=
  ⟨h.parse, h.name, Simplify.Reduced.trans_all h.reduced f.reduced_folded⟩

end Prepared

namespace Program

theorem live_map_folded (fs : List Prepared) :
    live (fs.map (·.folded)) = (live fs).map (·.folded) :=
  filter_map

/-- Folded functions are lowered whenever the functions are that they come
from. -/
theorem exists_ofPrepared_folded {decls : List FunctionDecl}
    (hreads : List.Forall₂ Prepared.Reads decls fs) (hlowered : ofPrepared fs = .ok p) :
    ∃ p', ofPrepared (fs.map (·.folded)) = .ok p' := by
  have hfolded : List.Forall₂ Prepared.Reads decls (fs.map (·.folded)) :=
    forall₂_map_right_iff.mpr (hreads.imp fun _ _ h => h.folded)
  apply failure?_eq_none_iff.mp
  rw [failure?_ofPrepared hfolded, ← failure?_ofPrepared hreads]
  exact failure?_eq_none_iff.mpr ⟨p, hlowered⟩

/-- What computes the statements of folded functions computes those of the
functions themselves. -/
theorem Realizes.computes_folded {layout : Pool → Layout}
    (h : p.Realizes (fs.map (·.folded)) layout) {i : Nat} (hi : (live fs)[i]? = some f) :
    p.Computes (HostFunction.all.length + i) (layout f.pool) f.body := by
  have hfolded : (live (fs.map (·.folded)))[i]? = some f.folded := by
    rw [live_map_folded, getElem?_map, hi]
    rfl
  intro σ host store hfits
  obtain ⟨store', hrun, hholds, hspares⟩ := h.computes hfolded host store hfits
  rw [Prepared.evalEach_folded] at hholds
  exact ⟨store', hrun, hholds, hspares⟩

end Program

namespace Simplify

attribute [local instance] Arithmetic.binary64

/-- Folding with a quotient that is zero for a zero divisor keeps the meaning of
every tree, whatever branches, loops and assignments it holds: from every state
and with every host it has the same value, and leaves the same variables and
slots, after the same calls of the host. A division by either zero gives zero,
in a tree and on the machine. So functions of a program can be folded: they are
lowered as they were before, and every call of the code does, from every store
and with every host, what the statements say that were not folded. -/
theorem fold_keeps_meaning :
    (∀ {σ : Type} (host : Host σ) (n : Node),
      Node.eval host (fold .clamped n).node = Node.eval host n) ∧
    (∀ y : Double, y = .zero ∨ y = Double.zero.neg →
      (∀ {σ : Type} (host : Host σ) (left right : Node) (span : Span) (s s₁ s₂ : State σ)
        (x : Double), Node.eval host left s = (x, s₁) → Node.eval host right s₁ = (y, s₂) →
          Node.eval host (.binary .div left right span) s = (.zero, s₂)) ∧
      ∀ {σ : Type} (calls : Nat → Store σ → List Value → Outcome σ) (store : Store σ) (x : Double)
        (stack : List Value),
        callCode calls Routine.div.toCode store (.f64 y :: .f64 x :: stack) =
          .done store (.f64 .zero :: stack)) ∧
    ∀ (o : Options) (fs : List Prepared) (p : Program),
      o.functions.mapM (Prepared.ofDecl o) = .ok fs → Program.ofPrepared fs = .ok p →
      ∃ (p' : Program) (layout layout' : Pool → Layout),
        Program.ofPrepared (fs.map (·.folded)) = .ok p' ∧
        p.Realizes fs layout ∧ p'.Realizes (fs.map (·.folded)) layout' ∧
        ∀ {i : Nat} {f : Prepared}, (Program.live fs)[i]? = some f →
          p'.Computes (HostFunction.all.length + i) (layout' f.pool) f.body := by
  refine ⟨eval_fold, ?_, ?_⟩
  · intro y hy
    have hzero : y.eq .zero = true := by
      obtain rfl | rfl := hy
      · decide +kernel
      · decide +kernel
    constructor
    · intro σ host left right span s s₁ s₂ x hleft hright
      exact Node.eval_div_zero host span hleft hright hzero
    · intro σ calls store x stack
      exact callCode_div_zero calls store stack x hzero
  · intro o fs p hread hlowered
    have hreads : List.Forall₂ Prepared.Reads o.functions fs :=
      (Except.forall₂_of_mapM hread).imp fun _ _ => Prepared.reads_of_ofDecl
    have hnames : ∀ f ∈ fs, ∀ x ∈ Node.mentionsAll f.body, Text.lower x.name = x.name := by
      intro f hf
      obtain ⟨decl, -, hdecl⟩ := Except.mapM_eq_ok hread f hf
      exact Prepared.lower_mentions_of_ofDecl hdecl
    have hfolded :
        ∀ f ∈ fs.map (·.folded), ∀ x ∈ Node.mentionsAll f.body, Text.lower x.name = x.name := by
      intro g hg x hx
      obtain ⟨f, hf, rfl⟩ := mem_map.mp hg
      exact hnames f hf x ((Reduced.script f.reduced_folded default).mentions_subset hx)
    obtain ⟨p', hlowered'⟩ := Program.exists_ofPrepared_folded hreads hlowered
    obtain ⟨layout, hrealizes⟩ := Program.realizes_of_ofPrepared hlowered hnames
    obtain ⟨layout', hrealizes'⟩ := Program.realizes_of_ofPrepared hlowered' hfolded
    exact ⟨p', layout, layout', hlowered', hrealizes, hrealizes', hrealizes'.computes_folded⟩

/-- Divisions by both zeros, in a branch that is left out, in a loop and behind
a short circuit. -/
def zeroDivisors : Options where
  pools := [⟨utf8 "frame", [utf8 "x"]⟩]
  functions := [⟨utf8 "step", utf8 "frame",
    utf8 "x = if(x, y = 1/0, 3/-0); loop(2*3, x += 1/(1-1) + 6/4); " ++
      utf8 "y = x && (z = -(2)/0 - 5); megabuf(8/4) = 1/-0"⟩]
  simplify := false

theorem fold_keeps_zeroDivisors : ∃ (fs : List Prepared) (p p' : Program) (layout' : Pool → Layout),
    zeroDivisors.functions.mapM (Prepared.ofDecl zeroDivisors) = .ok fs ∧
      Program.ofPrepared fs = .ok p ∧
      Program.ofPrepared (fs.map (·.folded)) = .ok p' ∧ (Program.live fs).length = 1 ∧
      ∀ {i : Nat} {f : Prepared}, (Program.live fs)[i]? = some f →
        p'.Computes (HostFunction.all.length + i) (layout' f.pool) f.body := by
  have hok :
      (zeroDivisors.functions.mapM (Prepared.ofDecl zeroDivisors) >>= Program.ofPrepared).isOk =
        true := by
    decide +kernel
  have hlive : (zeroDivisors.functions.mapM (Prepared.ofDecl zeroDivisors)).toOption.all
      (fun fs => (Program.live fs).length = 1) = true := by
    decide +kernel
  obtain ⟨p, hp⟩ := Except.exists_ok_of_isOk hok
  obtain ⟨fs, hread, hlowered⟩ := Except.bind_eq_ok.mp hp
  rw [hread] at hlive
  obtain ⟨p', layout, layout', hlowered', -, -, hcomputes⟩ :=
    fold_keeps_meaning.2.2 zeroDivisors fs p hread hlowered
  exact ⟨fs, p, p', layout', hread, hlowered, hlowered', of_decide_eq_true hlive, hcomputes⟩

end Simplify

end Eel
