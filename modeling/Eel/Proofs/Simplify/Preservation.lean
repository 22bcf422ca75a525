import Eel.Proofs.Simplify.Tracking
import Eel.Proofs.Steps

/-!
Simplifying keeps what scripts do.

Folding never changes what a tree does, and propagation does not change what a
linear one does. Both keep a tree linear, so they can follow each other in any
number of rounds.
-/

namespace Eel.Simplify

open Node

open Machine (Host)

variable {σ : Type} (host : Host σ) {body : List Node}

section Folding

/-- The number behind an operation is the value of the operation. -/
theorem eval_folded {n m : Node} (h : folded? .clamped n = some m) :
    eval host m = eval host n := by
  unfold folded? at h
  split at h
  · cases h
    rfl
  · cases h
    rfl
  · rename_i op left _ right _ _
    obtain ⟨f, hf, rfl⟩ := Option.map_eq_some_iff.mp h
    cases op <;> cases hf <;> rfl
  · cases h

theorem eval_settle (n : Node) (s : Unit) :
    eval host (settle (visitFolded .clamped) n s).1 = eval host n := by
  change eval host ((folded? .clamped n).getD n) = _
  cases h : folded? .clamped n with
  | none => rfl
  | some m => exact eval_folded host h

/-- The tree behind folding. -/
abbrev foldedTree (n : Node) : Node := (rewrite (visitFolded .clamped) n ()).1

abbrev foldedAll (body : List Node) : List Node := (rewriteAll (visitFolded .clamped) body ()).1

theorem evalEach_foldedAll {body : List Node}
    (h : ∀ n ∈ body, eval host (foldedTree n) = eval host n) :
    evalEach host (foldedAll body) = evalEach host body := by
  induction body with
  | nil => rfl
  | cons n rest ih =>
    simp only [List.mem_cons, forall_eq_or_imp] at h
    change eval host (foldedTree n) :: evalEach host (foldedAll rest) = _
    rw [h.1, ih h.2]
    rfl

/-- Folding keeps what every tree does. -/
theorem eval_foldedTree (n : Node) : eval host (foldedTree n) = eval host n := by
  induction n using inductionOn with
  | missing | number | ident id => exact eval_settle host _ ()
  | script body span ih =>
    refine (eval_settle host (.script (foldedAll body) span) ()).trans ?_
    rw [eval, eval, evalEach_foldedAll host ih]
  | block body span ih =>
    refine (eval_settle host (.block (foldedAll body) span) ()).trans ?_
    rw [eval, eval, evalEach_foldedAll host ih]
  | call callee args span ih =>
    refine (eval_settle host (.call callee (foldedAll args) span) ()).trans ?_
    rw [eval, eval, evalEach_foldedAll host ih]
  | binary op left right span ihl ihr =>
    refine (eval_settle host (.binary op (foldedTree left) (foldedTree right) span) ()).trans ?_
    rw [eval, eval, ihl, ihr]
  | logical op left right span ihl ihr =>
    refine (eval_settle host (.logical op (foldedTree left) (foldedTree right) span) ()).trans ?_
    rw [eval, eval, ihl, ihr]
  | unary op operand span ih =>
    refine (eval_settle host (.unary op (foldedTree operand) span) ()).trans ?_
    rw [eval, eval, ih]
  | assign op target value span _ ihargs ihv =>
    cases target with
    | ident id =>
      refine (eval_settle host (.assign op (.ident id) (foldedTree value) span) ()).trans ?_
      rw [eval, eval, ihv]
    | call callee args callSpan =>
      have hargs : evalEach host (foldedAll args) = evalEach host args :=
        evalEach_foldedAll host ihargs
      refine (eval_settle host (.assign op (.call callee (foldedAll args) callSpan)
        (foldedTree value) span) ()).trans ?_
      rw [eval, eval, hargs, ihv]
    | _ =>
      refine (eval_settle host (.assign op _ (foldedTree value) span) ()).trans ?_
      rw [eval, eval, ihv] <;> simp

end Folding

/-- Nothing is known before the first statement, which every state agrees
with. -/
theorem all_replacedAll (h : areLinear body = true) :
    Run.all (evalEach host (replacedAll [] body)) = Run.all (evalEach host body) := by
  have htracked (n : Node) (hn : n ∈ body) : IsTracked host n :=
    isTracked_of_isLinear host n (areLinear_iff.mp h n hn)
  funext s
  exact ((rewriteAll_tracks htracked []).all s nofun).1

theorem all_roundBody (h : areLinear body = true) :
    Run.all (evalEach host (roundBody .clamped body)) = Run.all (evalEach host body) := by
  change Run.all (evalEach host (foldedAll (replacedAll [] body))) = _
  rw [evalEach_foldedAll host fun n _ => eval_foldedTree host n, all_replacedAll host h]

theorem areLinear_roundBody (division : Division) (h : areLinear body = true) :
    areLinear (roundBody division body) = true :=
  areLinear_of_reduced (roundBody_reduced division body) h

/-- That statements are linear and do what others do. -/
structure StandsFor (body' body : List Node) : Prop where
  linear : areLinear body' = true
  all : ∀ {σ : Type} (host : Host σ),
    Run.all (evalEach host body') = Run.all (evalEach host body)

theorem StandsFor.roundBody {body' : List Node} (h : StandsFor body' body) :
    StandsFor (roundBody .clamped body') body where
  linear := areLinear_roundBody .clamped h.linear
  all host := (all_roundBody host h.linear).trans (h.all host)

/-- Simplifying keeps what a script does if no part of it that may be left out
or repeated assigns a variable: with every limit on rounds, from every state and
with every host, all statements have the values that they had, and all
variables, slots and calls of the host are the same. -/
theorem run_keeps_meaning (script : Script) (hlinear : Node.areLinear script.body = true)
    (limit : Int) :
    ∃ body, (run .clamped limit script.toNode).1.node = .script body script.span ∧
      ∀ {σ : Type} (host : Host σ),
        Run.all (Node.evalEach host body) = Run.all (Node.evalEach host script.body) := by
  have hround (body : List Node) (h : StandsFor body script.body) :
      StandsFor (roundBody .clamped body) script.body := h.roundBody
  obtain ⟨body, hrun, hstands⟩ := run_invariant hround limit script.span ⟨hlinear, fun _ => rfl⟩
  exact ⟨body, hrun, hstands.all⟩

/-- Assignments inside an operand, an index and an argument, and a loop that
fills a buffer. -/
def nestedAssignments : Bytes :=
  utf8 "x = 2; y = x * (x = x - 1) + x / 0; megabuf(x = y) = x; loop(x, megabuf(x) += y); " ++
    utf8 "z = sin(x *= 3) && x"

theorem run_keeps_nestedAssignments : ∃ script body, Script.parse nestedAssignments = .ok script ∧
    Node.areLinear script.body = true ∧
    (run .clamped 0 script.toNode).1.node = .script body script.span ∧
    Run.all (Node.evalEach (⟨fun _ _ calls => (.zero, calls + 1)⟩ : Host Nat) body) =
      Run.all (Node.evalEach ⟨fun _ _ calls => (.zero, calls + 1)⟩ script.body) := by
  have hok : (Script.parse nestedAssignments).isOk = true := by decide +kernel
  have hlinear :
      (Script.parse nestedAssignments).toOption.all (fun s => Node.areLinear s.body) = true := by
    decide +kernel
  obtain ⟨script, hscript⟩ := Except.exists_ok_of_isOk hok
  rw [hscript] at hlinear
  obtain ⟨body, hrun, hall⟩ := run_keeps_meaning script hlinear 0
  exact ⟨script, body, hscript, hlinear, hrun, hall _⟩

end Eel.Simplify
