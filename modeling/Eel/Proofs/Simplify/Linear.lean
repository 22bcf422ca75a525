import Eel.Proofs.Simplify.Reduction

/-!
Trees whose assignments all happen in the order of the text.

Propagation follows assignments as if every part of a tree ran just once. This
is how a tree is evaluated if the parts that may be left out or repeated assign
no variable. Simplifying puts numbers into a tree and so keeps it like this.
-/

namespace Eel

namespace Node

def isIdent : Node → Bool
  | ident _ => true
  | _ => false

/-- The arguments of a call that may be left out or evaluated more than once. -/
def optionalArgs (name : Bytes) (args : List Node) : List Node :=
  match Builtin.ofName? name with
  | some .choose | some .countedLoop => args.tail
  | some .whileLoop => args
  | _ => []

mutual

/-- Whether a tree assigns no variable. -/
def isQuiet : Node → Bool
  | missing | ident _ | number .. => true
  | script body _ | block body _ => areQuiet body
  | binary _ left right _ | logical _ left right _ => left.isQuiet && right.isQuiet
  | unary _ operand _ => operand.isQuiet
  | assign _ target value _ => !target.isIdent && target.isQuiet && value.isQuiet
  | call _ args _ => areQuiet args

def areQuiet : List Node → Bool
  | [] => true
  | n :: rest => n.isQuiet && areQuiet rest

end

mutual

/-- Whether no variable is assigned in a part of a tree that may be left out or
evaluated more than once. -/
def isLinear : Node → Bool
  | missing | ident _ | number .. => true
  | script body _ | block body _ => areLinear body
  | binary _ left right _ => left.isLinear && right.isLinear
  | logical _ left right _ => left.isLinear && right.isLinear && right.isQuiet
  | unary _ operand _ => operand.isLinear
  | assign _ target value _ => target.isLinear && value.isLinear
  | call callee args _ => areLinear args && areQuiet (optionalArgs callee.name args)

def areLinear : List Node → Bool
  | [] => true
  | n :: rest => n.isLinear && areLinear rest

end

end Node

namespace Simplify

open Node

variable {body body' : List Node}

theorem forall₂_optionalArgs {R : Node → Node → Prop} {args args' : List Node}
    (h : List.Forall₂ R args args') (name : Bytes) :
    List.Forall₂ R (optionalArgs name args) (optionalArgs name args') := by
  have htail : List.Forall₂ R args.tail args'.tail := by
    cases h with
    | nil => exact .nil
    | cons _ hrest => exact hrest
  unfold optionalArgs
  split
  · exact htail
  · exact htail
  · exact h
  · exact .nil

/-- That a tree assigns no variable if another one does not, and none in parts
that may be left out or repeated. -/
@[mk_iff]
structure KeepsOrder (n m : Node) : Prop where
  quiet : n.isQuiet = true → m.isQuiet = true
  linear : n.isLinear = true → m.isLinear = true

theorem areQuiet_of_forall₂ (h : List.Forall₂ KeepsOrder body body')
    (hbody : areQuiet body = true) : areQuiet body' = true := by
  induction h with
  | nil => rfl
  | cons hn _ ih =>
    simp only [areQuiet, Bool.and_eq_true] at hbody ⊢
    exact ⟨hn.quiet hbody.1, ih hbody.2⟩

theorem areLinear_of_forall₂ (h : List.Forall₂ KeepsOrder body body')
    (hbody : areLinear body = true) : areLinear body' = true := by
  induction h with
  | nil => rfl
  | cons hn _ ih =>
    simp only [areLinear, Bool.and_eq_true] at hbody ⊢
    exact ⟨hn.linear hbody.1, ih hbody.2⟩

theorem Reduced.keepsOrder {n m : Node} (h : Reduced n m) : KeepsOrder n m := by
  have hcall (callee : Ident) {args args' : List Node} (span : Span)
      (hargs : List.Forall₂ KeepsOrder args args') :
      KeepsOrder (.call callee args span) (.call callee args' span) := by
    refine ⟨areQuiet_of_forall₂ hargs, fun hn => ?_⟩
    simp only [isLinear, Bool.and_eq_true] at hn ⊢
    exact ⟨areLinear_of_forall₂ hargs hn.1,
      areQuiet_of_forall₂ (forall₂_optionalArgs hargs callee.name) hn.2⟩
  apply kindInduction (P := KeepsOrder) h
  case number => exact fun _ _ _ _ => ⟨fun _ => rfl, fun _ => rfl⟩
  case same => exact fun _ => ⟨id, id⟩
  case script | block => exact fun _ _ _ hbody =>
    ⟨areQuiet_of_forall₂ hbody, areLinear_of_forall₂ hbody⟩
  case unary => exact fun _ _ _ _ hx => ⟨hx.quiet, hx.linear⟩
  case call => exact fun callee _ _ span => hcall callee span
  case binary =>
    intro op x x' y y' span hx hy
    simp only [keepsOrder_iff, isQuiet, isLinear, Bool.and_eq_true]
    exact ⟨fun hn => ⟨hx.quiet hn.1, hy.quiet hn.2⟩, fun hn => ⟨hx.linear hn.1, hy.linear hn.2⟩⟩
  case logical =>
    intro op x x' y y' span hx hy
    simp only [keepsOrder_iff, isQuiet, isLinear, Bool.and_eq_true]
    exact ⟨fun hn => ⟨hx.quiet hn.1, hy.quiet hn.2⟩,
      fun hn => ⟨⟨hx.linear hn.1.1, hy.linear hn.1.2⟩, hy.quiet hn.2⟩⟩
  case assign =>
    intro op target v v' span hv
    simp only [keepsOrder_iff, isQuiet, isLinear, Bool.and_eq_true]
    exact ⟨fun hn => ⟨hn.1, hv.quiet hn.2⟩, fun hn => ⟨hn.1, hv.linear hn.2⟩⟩
  case slot =>
    intro op callee args args' callSpan v v' span hargs hv
    have hslot := hcall callee callSpan hargs
    rw [keepsOrder_iff, isQuiet, isQuiet, isLinear, isLinear]
    simp only [Bool.and_eq_true]
    exact ⟨fun hn => ⟨⟨rfl, hslot.quiet hn.1.2⟩, hv.quiet hn.2⟩,
      fun hn => ⟨hslot.linear hn.1, hv.linear hn.2⟩⟩

/-- Numbers in the place of arithmetic keep statements linear. -/
theorem areLinear_of_reduced (h : List.Forall₂ Reduced body body') :
    areLinear body = true → areLinear body' = true :=
  (Reduced.script h default).keepsOrder.linear

end Simplify

end Eel
