import Eel.Tree.Basic

/-!
The variables that a tree mentions, read or assigned, in the order of the text.
Names of functions are none.
-/

namespace Eel.Node

mutual

def mentions : Node → List Ident
  | .script body _ | .block body _ => mentionsAll body
  | .binary _ left right _ | .logical _ left right _ => left.mentions ++ right.mentions
  | .unary _ operand _ => operand.mentions
  | .assign _ target value _ => target.mentions ++ value.mentions
  | .call _ args _ => mentionsAll args
  | .ident id => [id]
  | .missing | .number _ _ => []

def mentionsAll : List Node → List Ident
  | [] => []
  | n :: rest => n.mentions ++ mentionsAll rest

end

def firstOccurrences (names : List Bytes) : List Bytes :=
  names.foldl (fun seen name => if seen.contains name then seen else seen ++ [name]) []

/-- The names of the variables, each once, in the order of their first
mention. -/
def variableNames (n : Node) : List Bytes := firstOccurrences (n.mentions.map (·.name))

end Eel.Node
