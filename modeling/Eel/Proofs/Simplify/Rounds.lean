import Eel.Proofs.Simplify.Rewriting

/-!
Rounds, one after another.

A round rewrites the statements of a script twice, and nothing else. Whatever a
round keeps of them is kept by all rounds, however many are run.
-/

namespace Eel.Simplify

/-- Folding as a visit. -/
def visitFolded (division : Division) : Visit Unit := fun n => return folded? division n

theorem visitKnown_eq_some {n m : Node} {known : Known} (h : (visitKnown n known).1 = some m) :
    ∃ id value, n = .ident id ∧ m = .number value id.span := by
  unfold visitKnown at h
  split at h
  · cases h
  · cases h
  · obtain ⟨value, -, rfl⟩ := Option.map_eq_some_iff.mp h
    exact ⟨_, value, rfl, rfl⟩
  · cases h

theorem visitKnown_sparesEffects : SparesEffects visitKnown := by
  intro n m known h
  obtain ⟨id, value, rfl, rfl⟩ := visitKnown_eq_some h
  exact ⟨rfl, by simp, value, id.span, rfl⟩

theorem isArithmetic_of_operation? {division : Division} {op : BinaryOp}
    {f : Double → Double → Double} (h : operation? division op = some f) :
    op.isArithmetic = true := by
  cases op with
  | add | sub | mul | div => rfl
  | _ => cases h

theorem visitFolded_sparesEffects (division : Division) : SparesEffects (visitFolded division) := by
  intro n m _ h
  replace h : folded? division n = some m := h
  unfold folded? at h
  split at h
  · cases h
    exact ⟨rfl, by simp, _, _, rfl⟩
  · cases h
    exact ⟨rfl, by simp, _, _, rfl⟩
  · rename_i op left _ right _ _
    obtain ⟨f, hf, rfl⟩ := Option.map_eq_some_iff.mp h
    refine ⟨?_, by simp, _, _, rfl⟩
    simp only [Node.isArithmetic, isArithmetic_of_operation? hf, Bool.and_self]
  · cases h

/-- The statements behind a round. -/
def roundBody (division : Division) (body : List Node) : List Node :=
  (rewriteAll (visitFolded division) (rewriteAll visitKnown body []).1 ()).1

section

variable {τ : Type} {visit : Visit τ}

theorem SparesEffects.script (hvisit : SparesEffects visit) (body : List Node)
    (span : Span) (s : τ) : (visit (.script body span) s).1 = none := by
  cases h : (visit (.script body span) s).1 with
  | none => rfl
  | some m => cases (hvisit h).1

theorem node_sweep_script (hvisit : SparesEffects visit) (body : List Node) (span : Span) (s : τ) :
    (sweep visit (.script body span) s).1.node = .script (rewriteAll visit body s).1 span := by
  have hsweep :
      (sweep visit (.script body span) s).1.node = (rewrite visit (.script body span) s).1 :=
    congrArg (fun r : StateM τ Node => (r s).1) (node_sweep visit (.script body span))
  rw [hsweep, rewrite]
  change ((visit (.script (rewriteAll visit body s).1 span) (rewriteAll visit body s).2).1.getD
    (.script (rewriteAll visit body s).1 span)) = _
  rw [hvisit.script]
  rfl

end

variable {division : Division}

theorem node_round (body : List Node) (span : Span) :
    (round division (.script body span)).node = .script (roundBody division body) span := by
  have hknown :
      (propagate (.script body span)).node = .script (rewriteAll visitKnown body []).1 span :=
    node_sweep_script visitKnown_sparesEffects body span []
  change (fold division (propagate (.script body span)).node).node = _
  rw [hknown]
  exact node_sweep_script (visitFolded_sparesEffects division) _ span ()

/-- What every round keeps of a tree is kept by all of them. -/
theorem rounds_keep {P : Node → Prop} {division : Division}
    (hround : ∀ n, P n → P (round division n).node) (remaining done : Nat) {reached : Swept}
    (h : P reached.node) : P (rounds division remaining done reached).1.node := by
  induction remaining generalizing done reached with
  | zero => exact h
  | succ remaining ih =>
    rw [rounds]
    split
    · exact h
    · exact ih (done + 1) (hround _ h)

/-- What every round keeps of the statements is kept by simplifying, with every
limit on rounds. A script stays a script. -/
theorem run_invariant {P : List Node → Prop} (hround : ∀ body, P body → P (roundBody division body))
    (limit : Int) (span : Span) {body : List Node} (hbody : P body) :
    ∃ body', (run division limit (.script body span)).1.node = .script body' span ∧ P body' := by
  refine rounds_keep (P := fun n => ∃ body', n = .script body' span ∧ P body') ?_ _ 0
    ⟨body, rfl, hbody⟩
  rintro n ⟨body', rfl, hbody'⟩
  exact ⟨_, node_round body' span, hround body' hbody'⟩

end Eel.Simplify
