import Eel.Proofs.Meaning.Eval
import Eel.Proofs.Simplify.Linear
import Eel.Proofs.Tree.Grammar

/-!
The places of nodes have no meaning.

Trees that differ only in where their nodes were read mention the same variables
in the same order, have their assignments in the same parts, and do the same
when they are evaluated.
-/

namespace Eel.Node

open Machine (Host)

mutual

theorem names_mentions_bare : ∀ n : Node, n.bare.mentions.map (·.name) = n.mentions.map (·.name)
  | .missing | .ident _ | .number .. => rfl
  | .script body _ | .block body _ | .call _ body _ => names_mentionsAll_bareAll body
  | .binary _ left right _ | .logical _ left right _ | .assign _ left right _ => by
      simp only [bare, mentions, List.map_append, names_mentions_bare left,
        names_mentions_bare right]
  | .unary _ operand _ => names_mentions_bare operand

theorem names_mentionsAll_bareAll : ∀ body : List Node,
    (mentionsAll (bareAll body)).map (·.name) = (mentionsAll body).map (·.name)
  | [] => rfl
  | n :: rest => by
      simp only [bareAll, mentionsAll, List.map_append, names_mentions_bare n,
        names_mentionsAll_bareAll rest]

end

section

variable {σ : Type} (host : Host σ)

mutual

theorem eval_bare : ∀ n : Node, n.bare.eval host = n.eval host
  | .missing | .ident _ | .number .. => rfl
  | .script body _ | .block body _ | .call _ body _ => by
    simp only [bare, eval, evalEach_bareAll body]
  | .binary _ left right _ | .logical _ left right _ => by
    simp only [bare, eval, eval_bare left, eval_bare right]
  | .unary _ operand _ => by simp only [bare, eval, eval_bare operand]
  | .assign _ (.call _ args _) value _ => by
    simp only [bare, eval, evalEach_bareAll args, eval_bare value]
  | .assign _ .missing value _ | .assign _ (.script ..) value _ | .assign _ (.block ..) value _
  | .assign _ (.binary ..) value _ | .assign _ (.logical ..) value _ | .assign _ (.unary ..) value _
  | .assign _ (.assign ..) value _ | .assign _ (.ident _) value _
  | .assign _ (.number ..) value _ => by
      simp only [bare, eval, eval_bare value]

theorem evalEach_bareAll : ∀ body : List Node, evalEach host (bareAll body) = evalEach host body
  | [] => rfl
  | n :: rest => by simp only [bareAll, evalEach, eval_bare n, evalEach_bareAll rest]

end

end

theorem isIdent_bare (n : Node) : n.bare.isIdent = n.isIdent := by cases n <;> rfl

mutual

theorem isQuiet_bare : ∀ n : Node, n.bare.isQuiet = n.isQuiet
  | .missing | .ident _ | .number .. => rfl
  | .script body _ | .block body _ | .call _ body _ => areQuiet_bareAll body
  | .binary _ left right _ | .logical _ left right _ => by
    simp only [bare, isQuiet, isQuiet_bare left, isQuiet_bare right]
  | .unary _ operand _ => isQuiet_bare operand
  | .assign _ target value _ => by
      simp only [bare, isQuiet, isIdent_bare target, isQuiet_bare target, isQuiet_bare value]

theorem areQuiet_bareAll : ∀ body : List Node, areQuiet (bareAll body) = areQuiet body
  | [] => rfl
  | n :: rest => by simp only [bareAll, areQuiet, isQuiet_bare n, areQuiet_bareAll rest]

end

theorem areQuiet_optionalArgs_bareAll (name : Bytes) (args : List Node) :
    areQuiet (optionalArgs name (bareAll args)) = areQuiet (optionalArgs name args) := by
  have htail : (bareAll args).tail = bareAll args.tail := by cases args <;> rfl
  unfold optionalArgs
  split
  · rw [htail, areQuiet_bareAll]
  · rw [htail, areQuiet_bareAll]
  · rw [areQuiet_bareAll]
  · rfl

mutual

theorem isLinear_bare : ∀ n : Node, n.bare.isLinear = n.isLinear
  | .missing | .ident _ | .number .. => rfl
  | .script body _ | .block body _ => areLinear_bareAll body
  | .binary _ left right _ | .assign _ left right _ => by
      simp only [bare, isLinear, isLinear_bare left, isLinear_bare right]
  | .logical _ left right _ => by
      simp only [bare, isLinear, isLinear_bare left, isLinear_bare right, isQuiet_bare right]
  | .unary _ operand _ => isLinear_bare operand
  | .call callee args _ => by
      simp only [bare, isLinear, areLinear_bareAll args,
        areQuiet_optionalArgs_bareAll callee.name args]

theorem areLinear_bareAll : ∀ body : List Node, areLinear (bareAll body) = areLinear body
  | [] => rfl
  | n :: rest => by simp only [bareAll, areLinear, isLinear_bare n, areLinear_bareAll rest]

end

end Eel.Node
