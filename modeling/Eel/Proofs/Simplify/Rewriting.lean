import Eel.Program.Builtin
import Eel.Proofs.Tree.WellFormed
import Eel.Simplify.Fixpoint

/-!
Sweeps as plain rewriting, and what they keep.

A sweep also tells what it has changed. For the tree that it leaves this does
not matter, so sweeps are read as rewriting from the leaves up. Both kinds of
visit put numbers in the place of arithmetic and nothing else: names, calls and
assignments stay where they are.
-/

namespace Eel

open List

/-- Whether an operator can be carried out on two numbers beforehand. -/
def BinaryOp.isArithmetic : BinaryOp → Bool
  | add | sub | mul | div => true
  | _ => false

def UnaryOp.isSign : UnaryOp → Bool
  | neg | plus => true
  | _ => false

/-- Whether a tree holds nothing but numbers, variables that are read, signs and
the four operations of arithmetic. -/
def Node.isArithmetic : Node → Bool
  | .number .. | .ident _ => true
  | .unary op operand _ => op.isSign && operand.isArithmetic
  | .binary op left right _ => op.isArithmetic && left.isArithmetic && right.isArithmetic
  | _ => false

namespace Simplify

variable {τ : Type}

/-- Visits a node whose parts have been rewritten. -/
def settle (visit : Visit τ) (n : Node) : StateM τ Node := do
  return (← visit n).getD n

mutual

/-- The tree that a sweep leaves. -/
def rewrite (visit : Visit τ) : Node → StateM τ Node
  | .script body span => do settle visit (.script (← rewriteAll visit body) span)
  | .block body span => do settle visit (.block (← rewriteAll visit body) span)
  | .binary op left right span => do
    settle visit (.binary op (← rewrite visit left) (← rewrite visit right) span)
  | .logical op left right span => do
    settle visit (.logical op (← rewrite visit left) (← rewrite visit right) span)
  | .unary op operand span => do settle visit (.unary op (← rewrite visit operand) span)
  | .assign op (.call callee args callSpan) value span => do
    let args ← rewriteAll visit args
    settle visit (.assign op (.call callee args callSpan) (← rewrite visit value) span)
  | .assign op target value span => do settle visit (.assign op target (← rewrite visit value) span)
  | .call callee args span => do settle visit (.call callee (← rewriteAll visit args) span)
  | .ident id => settle visit (.ident id)
  | .number value span => settle visit (.number value span)
  | .missing => settle visit .missing

def rewriteAll (visit : Visit τ) : List Node → StateM τ (List Node)
  | [] => return []
  | n :: rest => return (← rewrite visit n) :: (← rewriteAll visit rest)

end

variable (visit : Visit τ)

theorem node_finish (n : Node) (kept : Bool) (bodyKept : List Bool) :
    Swept.node <$> finish visit n kept bodyKept = settle visit n := by
  unfold finish settle
  rw [map_bind]
  congr 1
  funext r
  cases r <;> rfl

mutual

/-- A sweep rewrites the tree. -/
theorem node_sweep : ∀ n : Node, Swept.node <$> sweep visit n = rewrite visit n
  | .script body span | .block body span => by
      simp only [sweep, rewrite, map_bind, node_finish, ← nodes_sweepAll body, bind_map_left]
  | .binary op left right span | .logical op left right span => by
      simp only [sweep, rewrite, map_bind, node_finish, ← node_sweep left, ← node_sweep right,
        bind_map_left]
  | .unary op operand span => by
      simp only [sweep, rewrite, map_bind, node_finish, ← node_sweep operand, bind_map_left]
  | .assign op (.call callee args callSpan) value span => by
      simp only [sweep, rewrite, map_bind, node_finish, ← node_sweep value, ← nodes_sweepAll args,
        bind_map_left]
  | .assign op .missing value span | .assign op (.script ..) value span
  | .assign op (.block ..) value span | .assign op (.binary ..) value span
  | .assign op (.logical ..) value span | .assign op (.unary ..) value span
  | .assign op (.assign ..) value span | .assign op (.ident ..) value span
  | .assign op (.number ..) value span => by
      simp only [sweep, rewrite, map_bind, node_finish, ← node_sweep value, bind_map_left]
  | .call callee args span => by
      simp only [sweep, rewrite, map_bind, node_finish, ← nodes_sweepAll args, bind_map_left]
  | .ident id | .number value span | .missing => by simp only [sweep, rewrite, node_finish]

theorem nodes_sweepAll : ∀ body : List Node,
    List.map Swept.node <$> sweepAll visit body = rewriteAll visit body
  | [] => rfl
  | n :: rest => by
      simp only [sweepAll, rewriteAll, map_bind, map_pure, map_cons, ← node_sweep n,
        ← nodes_sweepAll rest, bind_map_left]

end

/-- That a visit replaces only arithmetic, by numbers, and no number. -/
def SparesEffects (visit : Visit τ) : Prop :=
  ∀ ⦃n m : Node⦄ ⦃s : τ⦄, (visit n s).1 = some m →
    n.isArithmetic = true ∧ (∀ value span, n ≠ .number value span) ∧
      ∃ value span, m = .number value span

theorem append_subset_append {α : Type} {xs xs' ys ys' : List α} (hx : xs' ⊆ xs) (hy : ys' ⊆ ys) :
    xs' ++ ys' ⊆ xs ++ ys :=
  append_subset.mpr ⟨subset_append_of_subset_left _ hx, subset_append_of_subset_right _ hy⟩

end Simplify

end Eel
