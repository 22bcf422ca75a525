import Eel.Proofs.Program.Numbering

/-!
What a numbering answers, whatever is asked of it and in whatever order.

A name is either resolved, which gives it the next free number if it has none,
or only looked up. Over any run of both the names stand in the order in which
they were first given, each at its number, and a number that was answered once
is answered ever after, for its own name alone.
-/

namespace Eel.Numbering

open List

variable {α : Type}

/-- What is asked of a numbering. -/
inductive Request (α : Type) where
  | resolve (name : α)
  | find (name : α)

namespace Request

def name : Request α → α
  | resolve name | find name => name

/-- The name that has a number from then on, whether it had one before or
not. -/
def numbered? : Request α → Option α
  | resolve name => some name
  | find _ => none

end Request

/-- The names that are given, in order and with repetitions. -/
def given (seed : List α) (requests : List (Request α)) : List α :=
  seed ++ requests.filterMap Request.numbered?

variable [BEq α]

def answer (n : Numbering α) : Request α → Option Nat
  | .resolve name => some (n.resolve name).1
  | .find name => n.find? name

/-- The numbering that a request leaves. -/
def step (n : Numbering α) : Request α → Numbering α
  | .resolve name => (n.resolve name).2
  | .find _ => n

/-- The numbering that requests leave of the one that is made of a list. -/
def after (seed : List α) (requests : List (Request α)) : Numbering α :=
  requests.foldl step (ofList seed)

variable (seed : List α) (requests : List (Request α))

theorem after_append (later : List (Request α)) :
    after seed (requests ++ later) = later.foldl step (after seed requests) :=
  foldl_append

variable [LawfulBEq α]

variable {n : Numbering α} {i : Nat} {r : Request α}

theorem find?_eq_some_iff (h : n.names.Nodup) {name : α} :
    n.find? name = some i ↔ n.names[i]? = some name := by
  refine ⟨getElem?_of_find?, fun hname => ?_⟩
  obtain ⟨hi, hname⟩ := List.getElem?_eq_some_iff.mp hname
  refine findIdx?_eq_some_iff_getElem.mpr ⟨hi, by simp [hname], fun j hj => ?_⟩
  have hdistinct : n.names[j] ≠ n.names[i] := fun heq => hj.ne (h.getElem_inj_iff.mp heq)
  simpa [hname] using hdistinct

end Eel.Numbering
