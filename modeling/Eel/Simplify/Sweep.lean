import Eel.Tree.Basic

/-!
Changing a tree from the leaves up.

A sweep visits every node behind its parts and may put another node in its
place. What was not touched is kept: a node is kept when its visit leaves it
alone and all of its parts are kept. A name that is assigned or called is no
part, so a sweep never changes one; the arguments of an assigned buffer slot are
parts.
-/

namespace Eel.Simplify

/-- What a sweep makes of a node: the tree, whether it is the very node that was
there before, and the same for each statement or expression of a body. -/
structure Swept where
  node : Node
  kept : Bool
  bodyKept : List Bool := []

namespace Swept

def bodyLength : Node → Nat
  | .script body _ | .block body _ => body.length
  | _ => 0

def unchanged (n : Node) : Swept := ⟨n, true, List.replicate (bodyLength n) true⟩

def followedBy (first second : Swept) : Swept :=
  ⟨second.node, first.kept && second.kept, List.zipWith (· && ·) first.bodyKept second.bodyKept⟩

end Swept

/-- A visit of a node: the node to put in its place, or none to leave it. Visits
share a state. -/
abbrev Visit (σ : Type) := Node → StateM σ (Option Node)

def finish {σ : Type} (visit : Visit σ) (n : Node) (partsKept : Bool) (bodyKept : List Bool) :
    StateM σ Swept := do
  match ← visit n with
  | some replacement => return ⟨replacement, false, bodyKept.map fun _ => false⟩
  | none => return ⟨n, partsKept, bodyKept⟩

mutual

def sweep {σ : Type} (visit : Visit σ) : Node → StateM σ Swept
  | .script body span => do
    let parts ← sweepAll visit body
    finish visit (.script (parts.map (·.node)) span) (parts.all (·.kept)) (parts.map (·.kept))
  | .block body span => do
    let parts ← sweepAll visit body
    finish visit (.block (parts.map (·.node)) span) (parts.all (·.kept)) (parts.map (·.kept))
  | .binary op left right span => do
    let l ← sweep visit left
    let r ← sweep visit right
    finish visit (.binary op l.node r.node span) (l.kept && r.kept) []
  | .logical op left right span => do
    let l ← sweep visit left
    let r ← sweep visit right
    finish visit (.logical op l.node r.node span) (l.kept && r.kept) []
  | .unary op operand span => do
    let x ← sweep visit operand
    finish visit (.unary op x.node span) x.kept []
  | .assign op (.call callee args callSpan) value span => do
    let parts ← sweepAll visit args
    let v ← sweep visit value
    finish visit (.assign op (.call callee (parts.map (·.node)) callSpan) v.node span)
      (parts.all (·.kept) && v.kept) []
  | .assign op target value span => do
    let v ← sweep visit value
    finish visit (.assign op target v.node span) v.kept []
  | .call callee args span => do
    let parts ← sweepAll visit args
    finish visit (.call callee (parts.map (·.node)) span) (parts.all (·.kept)) []
  | .ident id => finish visit (.ident id) true []
  | .number value span => finish visit (.number value span) true []
  | .missing => finish visit .missing true []

def sweepAll {σ : Type} (visit : Visit σ) : List Node → StateM σ (List Swept)
  | [] => return []
  | n :: rest => do
    let first ← sweep visit n
    return first :: (← sweepAll visit rest)

end

end Eel.Simplify
