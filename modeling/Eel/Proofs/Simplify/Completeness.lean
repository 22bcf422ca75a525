import Eel.Proofs.Simplify.Reduction
import Eel.Proofs.Simplify.Tracking

/-!
One sweep is enough.

Folding and propagation each do all they can in one sweep. Behind folding no
operation on numbers is left, behind propagation no variable is read whose last
assignment, in the order of the sweep, stored a number; and these are exactly
the trees that the two leave alone.
-/

namespace Eel

open List

namespace Node

/-- Whether a node is a sign of a number or one of the four operations of
arithmetic on two numbers. -/
def isFoldable : Node → Bool
  | unary op (number ..) _ => op.isSign
  | binary op (number ..) (number ..) _ => op.isArithmetic
  | _ => false

/-- The number that an assignment stores, if it is a plain one of a number. -/
def constant? : AssignOp → Node → Option Double
  | .set, number value _ => some value
  | _, _ => none

/-- What a node stores in a variable, if it assigns it: a number, or what is not
known. -/
def stored? (name : Bytes) : Node → Option (Option Double)
  | assign op (ident target) value _ =>
    if name = target.name then some (constant? op value) else none
  | _ => none

end Node

variable {n : Node}

namespace Simplify

/-- The number that the last assignment to a variable stored, if there is one
and it stored a number. -/
def lastStored (name : Bytes) (nodes : List Node) : Option Double :=
  (nodes.filterMap (Node.stored? name)).getLast?.join

/-- That no operation in a tree is one on numbers. -/
def IsFolded (n : Node) : Prop := ∀ p ∈ n.postorder, p.isFoldable = false

/-- That a tree reads no variable whose last assignment before stored a
number. -/
def IsPropagated (n : Node) : Prop :=
  ∀ before id rest, n.postorder = before ++ .ident id :: rest → lastStored id.name before = none

section Settling

variable {τ : Type} {visit : Visit τ}

/-- That a visit puts numbers into a tree and leaves them alone, and that no
state is lost with what is replaced: it has no parts, unless there is but one
state. -/
structure Settles (visit : Visit τ) : Prop where
  number : ∀ (value : Double) (span : Span) (s : τ), visit (.number value span) s = (none, s)
  replaced : ∀ {n m : Node} {s : τ}, (visit n s).1 = some m →
    (∃ value span, m = .number value span) ∧
    (visit n s).2 = s
  parts : ∀ {n m : Node} {s : τ}, (visit n s).1 = some m → n.subnodes = [] ∨ Subsingleton τ

theorem Settles.sweep_number (h : Settles visit) (value : Double) (span : Span) (s : τ) :
    sweep visit (.number value span) s = (.unchanged (.number value span), s) := by
  have hnone : (visit (.number value span) s).1 = none := congrArg Prod.fst (h.number value span s)
  have hsame : (visit (.number value span) s).2 = s := congrArg Prod.snd (h.number value span s)
  change finish visit (.number value span) true [] s = _
  rw [finish_of_none hnone, hsame]
  rfl

theorem sweepAll_settled {body : List Node}
    (h : ∀ n ∈ body, ∀ s,
      sweep visit (sweep visit n s).1.node s =
        (.unchanged (sweep visit n s).1.node, (sweep visit n s).2))
    (s : τ) :
    sweepAll visit ((sweepAll visit body s).1.map (·.node)) s =
      (((sweepAll visit body s).1.map (·.node)).map .unchanged, (sweepAll visit body s).2) := by
  induction body generalizing s with
  | nil => rfl
  | cons n rest ih =>
    simp only [mem_cons, forall_eq_or_imp] at h
    rw [sweepAll_cons, map_cons, sweepAll_cons, h.1 s, ih h.2]
    rfl

/-- A second sweep from the same state finds nothing to do, and ends in the same
state. -/
theorem sweep_settled (h : Settles visit) (n : Node) :
    ∀ s : τ, sweep visit (sweep visit n s).1.node s =
      (.unchanged (sweep visit n s).1.node, (sweep visit n s).2) := by
  induction n using Node.partsInduction with
  | step n ih =>
    intro s
    have hparts := sweepAll_settled ih s
    rw [sweep_eq visit n s]
    have hlength : ((sweepAll visit n.subnodes s).1.map (·.node)).length = n.subnodes.length := by
      rw [length_map, length_sweepAll]
    have hstate : n.subnodes = [] → (sweepAll visit n.subnodes s).2 = s := by
      intro hn
      rw [hn]
      rfl
    generalize sweepAll visit n.subnodes s = swept at hparts hlength hstate ⊢
    have hrebuilt : (n.withParts (swept.1.map (·.node))).subnodes = swept.1.map (·.node) :=
      Node.subnodes_withParts hlength
    generalize n.withParts (swept.1.map (·.node)) = m at hrebuilt ⊢
    cases hvisit : (visit m swept.2).1 with
    | none =>
      rw [finish_of_none hvisit]
      change sweep visit m s = (.unchanged m, (visit m swept.2).2)
      rw [← hrebuilt] at hparts
      rw [sweep_eq, hparts, withParts_unchanged, finish_of_none hvisit, all_kept_unchanged,
        ← unchanged_eq]
    | some r =>
      rw [finish_of_some hvisit]
      obtain ⟨⟨value, span, rfl⟩, hsame⟩ := h.replaced hvisit
      change sweep visit (.number value span) s =
        (.unchanged (.number value span), (visit m swept.2).2)
      have hstart : swept.2 = s := by
        obtain hnil | hone := h.parts hvisit
        · apply hstate
          rw [hrebuilt] at hnil
          rw [hnil] at hlength
          exact eq_nil_of_length_eq_zero hlength.symm
        · exact hone.elim _ _
      rw [h.sweep_number, hsame, hstart]

end Settling

section Folding

variable {division : Division}

theorem folded?_eq_none_iff : folded? division n = none ↔ n.isFoldable = false := by
  cases n with
  | unary op operand span =>
    cases operand with
    | number => cases op <;> simp [folded?, Node.isFoldable, UnaryOp.isSign]
    | _ => simp [folded?, Node.isFoldable]
  | binary op left right span =>
    cases left with
    | number =>
      cases right with
      | number => cases op <;> simp [folded?, Node.isFoldable, operation?, BinaryOp.isArithmetic]
      | _ => simp [folded?, Node.isFoldable]
    | _ => simp [folded?, Node.isFoldable]
  | _ => simp [folded?, Node.isFoldable]

theorem visitFolded_settles (division : Division) : Settles (visitFolded division) where
  number _ _ _ := rfl
  replaced h := ⟨(visitFolded_sparesEffects division h).2.2, rfl⟩
  parts _ := .inr inferInstance

theorem leavesAll_visitFolded (nodes : List Node) :
    leavesAll (visitFolded division) nodes () = true ↔ ∀ n ∈ nodes, n.isFoldable = false := by
  induction nodes with
  | nil => simp [leavesAll]
  | cons n rest ih =>
    rw [leavesAll, Bool.and_eq_true, Option.isNone_iff_eq_none, forall_mem_cons]
    exact and_congr folded?_eq_none_iff ih

/-- Folding leaves exactly the trees alone that hold no operation on numbers. -/
theorem fold_eq_unchanged_iff : fold division n = .unchanged n ↔ IsFolded n := by
  rw [IsFolded, ← leavesAll_visitFolded]
  exact sweep_eq_unchanged_iff

end Folding

section Propagation

theorem visitKnown_settles : Settles visitKnown where
  number _ _ _ := rfl
  replaced h := by
    obtain ⟨id, value, rfl, rfl⟩ := visitKnown_eq_some h
    exact ⟨⟨value, id.span, rfl⟩, rfl⟩
  parts h := by
    obtain ⟨id, value, rfl, rfl⟩ := visitKnown_eq_some h
    exact .inl rfl

theorem visitKnown_assign (op : AssignOp) (id : Ident) (value : Node) (span : Span)
    (known : Known) :
    visitKnown (.assign op (.ident id) value span) known =
      (none, learned known op id.name value) := by
  cases op with
  | set => cases value <;> rfl
  | _ => rfl

theorem find?_learned (known : Known) (op : AssignOp) (name other : Bytes) (value : Node) :
    (learned known op name value).find? other =
      if other = name then Node.constant? op value else known.find? other := by
  cases op with
  | set =>
    cases value with
    | number x span => exact Known.find?_learn known name other x
    | _ => exact Known.find?_forget known name other
  | _ => exact Known.find?_forget known name other

theorem find?_visitKnown (n : Node) (known : Known) (name : Bytes) :
    (visitKnown n known).2.find? name = (n.stored? name).getD (known.find? name) := by
  cases n with
  | assign op target value span =>
    cases target with
    | ident id =>
      rw [visitKnown_assign, find?_learned, Node.stored?]
      split <;> rfl
    | _ => cases op <;> rfl
  | _ => rfl

theorem find?_after (nodes : List Node) (known : Known) (name : Bytes) :
    (after visitKnown nodes known).find? name =
      (nodes.filterMap (Node.stored? name)).getLast?.getD (known.find? name) := by
  induction nodes generalizing known with
  | nil => rfl
  | cons n rest ih =>
    change (after visitKnown rest (visitKnown n known).2).find? name = _
    rw [ih, find?_visitKnown, filterMap_cons]
    cases n.stored? name with
    | none => rfl
    | some value => rw [getLast?_cons]; rfl

theorem find?_after_nil (nodes : List Node) (name : Bytes) :
    (after visitKnown nodes []).find? name = lastStored name nodes := by
  rw [find?_after, lastStored]
  cases (nodes.filterMap (Node.stored? name)).getLast? <;> rfl

/-- Propagation leaves exactly the trees alone that read no variable whose last
assignment stored a number. -/
theorem propagate_eq_unchanged_iff : propagate n = .unchanged n ↔ IsPropagated n := by
  rw [show propagate n = (sweep visitKnown n []).1 from rfl, sweep_eq_unchanged_iff, leavesAll_iff]
  constructor
  · intro h before id rest hnodes
    have hfind : (after visitKnown before []).find? id.name = none := by
      simpa [visitKnown] using h before (.ident id) rest hnodes
    rwa [find?_after_nil] at hfind
  · intro h before p rest hnodes
    cases hvisit : (visitKnown p (after visitKnown before [])).1 with
    | none => rfl
    | some m =>
      obtain ⟨id, value, rfl, -⟩ := visitKnown_eq_some hvisit
      have hfind := find?_after_nil before id.name
      rw [h before id rest hnodes] at hfind
      simp [visitKnown, hfind] at hvisit

end Propagation

/-- Each of the two passes does all it can in one sweep. Behind folding,
whatever division by zero gives, no operation on numbers is left, and a second
one changes nothing; behind propagation no variable is read whose last
assignment before it stored a number, and a second one changes nothing. -/
theorem pass_complete (n : Node) :
    (∀ division, fold division (fold division n).node = .unchanged (fold division n).node ∧
      IsFolded (fold division n).node) ∧
    propagate (propagate n).node = .unchanged (propagate n).node ∧
    IsPropagated (propagate n).node := by
  have hfold (division : Division) :
      fold division (fold division n).node = .unchanged (fold division n).node :=
    congrArg Prod.fst (sweep_settled (visitFolded_settles division) n ())
  have hpropagate : propagate (propagate n).node = .unchanged (propagate n).node :=
    congrArg Prod.fst (sweep_settled visitKnown_settles n [])
  exact ⟨fun division => ⟨hfold division, fold_eq_unchanged_iff.mp (hfold division)⟩, hpropagate,
    propagate_eq_unchanged_iff.mp hpropagate⟩

end Simplify

end Eel
