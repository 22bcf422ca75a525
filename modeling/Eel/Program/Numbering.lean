import Eel.Bytes

/-!
Names numbered in the order in which they are first seen. A number once given
stays.
-/

namespace Eel

/-- The names that have numbers, each at its own. -/
structure Numbering (α : Type) where
  names : List α := []
deriving DecidableEq, Repr

namespace Numbering

variable {α : Type} [BEq α]

def size (n : Numbering α) : Nat := n.names.length

def find? (n : Numbering α) (name : α) : Option Nat := n.names.findIdx? (· == name)

/-- The number of a name, which gets the next free one if it has none. -/
def resolve (n : Numbering α) (name : α) : Nat × Numbering α :=
  match n.find? name with
  | some i => (i, n)
  | none => (n.size, ⟨n.names ++ [name]⟩)

def ofList (names : List α) : Numbering α := names.foldl (fun n name => (n.resolve name).2) {}

end Numbering

end Eel
