import Eel.Proofs.Simplify.Reduction

/-!
The calls of a tree.

Calls are listed in the order in which they stand in the tree, each before the
calls in its arguments. Simplifying puts numbers in the place of names and of
operations on numbers, so it keeps every call, with its name, its place and the
number of its arguments.
-/

namespace Eel

/-- A call as it stands in a tree. -/
structure Call where
  callee : Ident
  /-- The number of arguments. -/
  args : Nat
  span : Span
deriving DecidableEq, Repr

namespace Node

mutual

/-- The calls of a tree, those of slots that are assigned included. -/
def calls : Node → List Call
  | missing | ident _ | number _ _ => []
  | script body _ | block body _ => callsAll body
  | binary _ left right _ | logical _ left right _ => left.calls ++ right.calls
  | unary _ operand _ => operand.calls
  | assign _ target value _ => target.calls ++ value.calls
  | call callee args span => ⟨callee, args.length, span⟩ :: callsAll args

def callsAll : List Node → List Call
  | [] => []
  | n :: rest => n.calls ++ callsAll rest

end

mutual

/-- Whether an expression holds none but operators of the language, and nothing
is assigned but variables and slots. Any numbers may stand in it, also those
that have no source text. -/
def isExpression : Node → Bool
  | missing | script _ _ => false
  | block body _ => !body.isEmpty && areExpressions body
  | binary op left right _ => op.isProper && left.isExpression && right.isExpression
  | logical op left right _ => op.isProper && left.isExpression && right.isExpression
  | unary op operand _ => op.isProper && operand.isExpression
  | assign op target value _ =>
    op.isProper && Tree.isAssignable target && target.isExpression && value.isExpression
  | call _ args _ => areExpressions args
  | ident _ | number _ _ => true

def areExpressions : List Node → Bool
  | [] => true
  | n :: rest => n.isExpression && areExpressions rest

end

theorem areExpressions_iff {body : List Node} :
    areExpressions body = true ↔ ∀ n ∈ body, n.isExpression = true := by
  induction body with
  | nil => simp [areExpressions]
  | cons n rest ih => simp [areExpressions, ih]

/-- What has a source text is an expression. -/
theorem isExpression_of_isWellFormed {n : Node} (h : n.isWellFormed = true) :
    n.isExpression = true := by
  induction n using inductionOn with
  | missing | script => simp [isWellFormed] at h
  | block body span ih =>
    simp only [isWellFormed, Bool.and_eq_true, areWellFormed_iff, decide_eq_true_eq] at h
    have hne : body ≠ [] := by
      rintro rfl
      simp at h
    simp only [isExpression, Bool.and_eq_true, areExpressions_iff]
    exact ⟨by simp [hne], fun n hn => ih n hn (h.2 n hn)⟩
  | binary op left right span ihl ihr | logical op left right span ihl ihr =>
    simp only [isWellFormed, Bool.and_eq_true] at h
    simp only [isExpression, Bool.and_eq_true]
    exact ⟨⟨h.1.1, ihl h.1.2⟩, ihr h.2⟩
  | unary op operand span ih =>
    simp only [isWellFormed, Bool.and_eq_true] at h
    simp only [isExpression, Bool.and_eq_true]
    exact ⟨h.1, ih h.2⟩
  | assign op target value span iht _ ihv =>
    simp only [isWellFormed, Bool.and_eq_true] at h
    simp only [isExpression, Bool.and_eq_true]
    exact ⟨⟨h.1.1, iht h.1.2⟩, ihv h.2⟩
  | call callee args span ih =>
    simp only [isWellFormed, Bool.and_eq_true, areWellFormed_iff] at h
    simp only [isExpression, areExpressions_iff]
    exact fun n hn => ih n hn (h.2 n hn)
  | ident | number => rfl

theorem calls_of_isArithmetic {n : Node} (h : n.isArithmetic = true) : n.calls = [] := by
  induction n using inductionOn with
  | number | ident => rfl
  | unary op operand span ih =>
    simp only [isArithmetic, Bool.and_eq_true] at h
    exact ih h.2
  | binary op left right span ihl ihr =>
    simp only [isArithmetic, Bool.and_eq_true] at h
    rw [calls, ihl h.1.2, ihr h.2, List.append_nil]
  | _ => cases h

end Node

namespace Simplify

namespace Reduced

variable {n m : Node}

/-- Numbers in the place of arithmetic leave every call where it is. -/
theorem calls (h : Reduced n m) : m.calls = n.calls := by
  have hall {body body' : List Node} (h : List.Forall₂ (fun n m => m.calls = n.calls) body body') :
      body'.length = body.length ∧ Node.callsAll body' = Node.callsAll body := by
    refine ⟨h.length_eq.symm, ?_⟩
    induction h with
    | nil => rfl
    | cons hn _ ih => exact congrArg₂ (· ++ ·) hn ih
  apply kindInduction (P := fun n m => m.calls = n.calls) h
  case number => exact fun _ _ _ hn => (Node.calls_of_isArithmetic hn).symm
  case same => exact fun _ => rfl
  case script | block => exact fun _ _ _ hbody => (hall hbody).2
  case binary | logical => exact fun _ _ _ _ _ _ => congrArg₂ (· ++ ·)
  case unary => exact fun _ _ _ _ => id
  case assign => exact fun _ _ _ _ _ => congrArg (_ ++ ·)
  case slot =>
    intro op callee args args' callSpan v v' span hargs hv
    simp only [Node.calls, hall hargs, hv]
  case call =>
    intro callee args args' span hargs
    simp only [Node.calls, hall hargs]

theorem isExpression (h : Reduced n m) : n.isExpression = true → m.isExpression = true := by
  have hall {body body' : List Node}
      (h : List.Forall₂ (fun n m => n.isExpression = true → m.isExpression = true) body body') :
      Node.areExpressions body = true → Node.areExpressions body' = true := by
    intro hbody
    induction h with
    | nil => rfl
    | cons hn _ ih =>
      simp only [Node.areExpressions, Bool.and_eq_true] at hbody ⊢
      exact ⟨hn hbody.1, ih hbody.2⟩
  apply kindInduction (P := fun n m => n.isExpression = true → m.isExpression = true) h
  case number => exact fun _ _ _ _ _ => rfl
  case same => exact fun _ => id
  case script => exact fun _ _ _ _ => id
  case block =>
    intro body body' span hbody hn
    simp only [Node.isExpression, Bool.and_eq_true, Bool.not_eq_true', List.isEmpty_eq_false_iff,
      ← List.length_pos_iff] at hn ⊢
    exact ⟨hbody.length_eq ▸ hn.1, hall hbody hn.2⟩
  case binary | logical =>
    intro op x x' y y' span hx hy hn
    simp only [Node.isExpression, Bool.and_eq_true] at hn ⊢
    exact ⟨⟨hn.1.1, hx hn.1.2⟩, hy hn.2⟩
  case unary =>
    intro op x x' span hx hn
    simp only [Node.isExpression, Bool.and_eq_true] at hn ⊢
    exact ⟨hn.1, hx hn.2⟩
  case assign =>
    intro op target v v' span hv hn
    simp only [Node.isExpression, Bool.and_eq_true] at hn ⊢
    exact ⟨hn.1, hv hn.2⟩
  case slot =>
    -- What is assigned stays a slot of the same buffer.
    intro op callee args args' callSpan v v' span hargs hv hn
    simp only [Node.isExpression, Bool.and_eq_true] at hn ⊢
    exact ⟨⟨hn.1.1, hall hargs hn.1.2⟩, hv hn.2⟩
  case call => exact fun _ _ _ _ => hall

end Reduced

end Simplify

end Eel
