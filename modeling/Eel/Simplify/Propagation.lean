import Eel.Simplify.Sweep

/-!
Variables whose value is known, replaced by it.

A variable is known from a plain assignment of a number on, up to any other
assignment to it. Assignments count in the order of the sweep, as if every
branch and loop body ran once.
-/

namespace Eel.Simplify

/-- The variables with a known value. -/
abbrev Known := List (Bytes × Double)

namespace Known

def find? (known : Known) (name : Bytes) : Option Double := known.lookup name

def forget (known : Known) (name : Bytes) : Known := known.filter (·.1 ≠ name)

def learn (known : Known) (name : Bytes) (value : Double) : Known :=
  (name, value) :: known.forget name

end Known

/-- Puts the value in the place of a known variable and follows the
assignments. -/
def visitKnown : Visit Known
  | .assign .set (.ident target) (.number value _) _ =>
    fun known => (none, known.learn target.name value)
  | .assign _ (.ident target) _ _ => fun known => (none, known.forget target.name)
  | .ident id => fun known => ((known.find? id.name).map fun value => .number value id.span, known)
  | _ => fun known => (none, known)

def propagate (n : Node) : Swept := ((sweep visitKnown n).run []).1

end Eel.Simplify
