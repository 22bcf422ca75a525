import Eel.Proofs.Meaning.Bare
import Eel.Proofs.Program.Acceptance
import Eel.Proofs.Program.Realization
import Eel.Proofs.Session.Variables
import Eel.Proofs.Simplify.Preservation
import Eel.Proofs.Tree.Printing

/-!
What inputs are made of.

An input ends with an assignment to the variable that is shown, whether this was
typed or not. Its text is read as its script, apart from the places, and
simplifying leaves the last assignment where it is. So the value of the last
statement is what the variable holds in the end.
-/

namespace Eel

open List

open Machine (Host)

namespace Run

variable {σ : Type}

theorem all_concat (rs : List (Run σ Double)) (r : Run σ Double) (s : State σ) :
    all (rs ++ [r]) s = ((all rs s).1 ++ [(r (all rs s).2).1], (r (all rs s).2).2) := by
  induction rs generalizing s with
  | nil => rfl
  | cons r' rest ih =>
    change ((r' s).1 :: (all (rest ++ [r]) (r' s).2).1, (all (rest ++ [r]) (r' s).2).2) = _
    rw [ih]
    rfl

end Run

namespace Node

theorem evalEach_concat {σ : Type} (host : Host σ) (front : List Node) (n : Node) :
    evalEach host (front ++ [n]) = evalEach host front ++ [n.eval host] := by
  induction front with
  | nil => rfl
  | cons m front ih => rw [cons_append, evalEach, ih, evalEach, cons_append]

theorem firstOccurrences_eq_eraseDups (names : List Bytes) :
    firstOccurrences names = names.eraseDups := by
  induction names using List.reverseRecOn with
  | nil => rfl
  | append_singleton names name ih =>
    rw [firstOccurrences, foldl_concat, ← firstOccurrences, ih, eraseDups_append]
    by_cases hname : name ∈ names <;> simp [List.removeAll, hname, eraseDups_cons]

end Node

variable {body : List Node} {n : Node}

namespace Input

open Node

/-- The variable that the last of some statements assigns to as a whole. -/
def target? (body : List Node) : Option Bytes := body.getLast?.bind assigned?

@[simp]
theorem target?_concat (body : List Node) (n : Node) : target? (body ++ [n]) = assigned? n := by
  simp [target?]

theorem assigned?_bare (n : Node) : assigned? n.bare = assigned? n := by
  cases n with
  | assign op target value span => cases target <;> rfl
  | _ => rfl

theorem target?_bareAll (body : List Node) : target? (bareAll body) = target? body := by
  rw [target?, bareAll_eq_map, getLast?_map, target?]
  cases body.getLast? with
  | none => rfl
  | some n => exact assigned?_bare n

theorem target?_congr {body' : List Node} (h : bareAll body = bareAll body') :
    target? body = target? body' := by
  rw [← target?_bareAll, h, target?_bareAll]

theorem exists_of_assigned? {name : Bytes} (h : assigned? n = some name) :
    ∃ op id value span, n = .assign op (.ident id) value span ∧ id.name = name := by
  unfold assigned? at h
  split at h
  · exact ⟨_, _, _, _, rfl, Option.some.inj h⟩
  · cases h

theorem exists_of_target? {name : Bytes} (h : target? body = some name) :
    ∃ front n, body = front ++ [n] ∧ assigned? n = some name := by
  obtain ⟨n, hlast, hn⟩ := Option.bind_eq_some_iff.mp h
  obtain ⟨front, rfl⟩ := getLast?_eq_some_iff.mp hlast
  exact ⟨front, n, rfl, hn⟩

section Simplifying

open Simplify

variable {τ : Type} {visit : Visit τ} {name : Bytes}

/-- That a visit leaves assignments to variables where they are. -/
def SparesAssignments (visit : Visit τ) : Prop :=
  ∀ (op : AssignOp) (id : Ident) (value : Node) (span : Span) (s : τ),
    (visit (.assign op (.ident id) value span) s).1 = none

theorem visitKnown_sparesAssignments : SparesAssignments visitKnown := by
  intro op id value span s
  cases op with
  | set => cases value <;> rfl
  | _ => rfl

theorem assigned?_rewrite (hvisit : SparesAssignments visit) (h : assigned? n = some name) (s : τ) :
    assigned? (rewrite visit n s).1 = some name := by
  obtain ⟨op, id, value, span, rfl, rfl⟩ := exists_of_assigned? h
  have hnone := hvisit op id (rewrite visit value s).1 span (rewrite visit value s).2
  change assigned?
    ((visit (.assign op (.ident id) (rewrite visit value s).1 span)
      (rewrite visit value s).2).1.getD
    (.assign op (.ident id) (rewrite visit value s).1 span)) = _
  rw [hnone]
  rfl

theorem target?_rewriteAll (hvisit : SparesAssignments visit)
    (h : target? body = some name) (s : τ) : target? (rewriteAll visit body s).1 = some name := by
  induction body generalizing s with
  | nil => cases h
  | cons n rest ih =>
    cases rest with
    | nil => exact assigned?_rewrite hvisit h s
    | cons m rest => exact ih h (rewrite visit n s).2

theorem target?_roundBody (division : Division) (h : target? body = some name) :
    target? (roundBody division body) = some name :=
  target?_rewriteAll (fun _ _ _ _ _ => rfl)
    (target?_rewriteAll visitKnown_sparesAssignments h []) ()

end Simplifying

section Prepared

variable {o : Options} {decl : FunctionDecl} {f : Prepared} (h : Prepared.ofDecl o decl = .ok f)

include h

/-- Simplifying leaves the last assignment where it is. -/
theorem target?_of_ofDecl {name : Bytes} (hname : target? f.source.script.body = some name) :
    target? f.body = some name := by
  have hround (body : List Node) (hbody : target? body = some name) :=
    target?_roundBody .clamped hbody
  exact (Prepared.invariant_of_ofDecl (P := fun body => target? body = some name)
    hround h).2.2.2 hname

/-- Simplifying keeps what statements do if no part that may be left out or
repeated assigns a variable. -/
theorem all_of_ofDecl (hlinear : areLinear f.source.script.body = true) {σ : Type} (host : Host σ) :
    Run.all (evalEach host f.body) = Run.all (evalEach host f.source.script.body) := by
  have hround (body : List Node) (hbody : Simplify.StandsFor body f.source.script.body) :=
    hbody.roundBody
  exact ((Prepared.invariant_of_ofDecl hround h).2.2.2 ⟨hlinear, fun _ => rfl⟩).all host

end Prepared

section Value

variable {σ : Type} (host : Host σ) {name : Bytes}

/-- The value of an assignment is what the variable holds behind it. -/
theorem vars_eval_of_assigned? (h : assigned? n = some name) (s : State σ) :
    (n.eval host s).2.vars name = (n.eval host s).1 := by
  obtain ⟨op, id, value, span, rfl, rfl⟩ := exists_of_assigned? h
  exact Function.update_self ..

/-- The value of the last statement is what the variable holds in the end. -/
theorem getLast?_all_of_target? (h : target? body = some name) (s : State σ) :
    (Run.all (evalEach host body) s).1.getLast? =
      some ((Run.all (evalEach host body) s).2.vars name) := by
  obtain ⟨front, n, rfl, hn⟩ := exists_of_target? h
  rw [evalEach_concat, Run.all_concat, getLast?_concat, vars_eval_of_assigned? host hn]

end Value

variable {source again : Source} {input : Input}

theorem ofSource?_eq_none_iff : ofSource? source = none ↔ source.script.body = [] := by
  unfold ofSource?
  cases hlast : source.script.body.getLast? with
  | none => simpa using hlast
  | some last =>
    have hbody : source.script.body ≠ [] := by
      intro hnil
      rw [hnil] at hlast
      cases hlast
    cases hname : assigned? last with
    | none => simp [hbody, hname]
    | some name => simp [hbody, hname]

section Given

variable (h : ofSource? source = some input)

include h

/-- An input is the script as it was typed, or the script with an assignment
around its last statement. -/
theorem exists_of_ofSource? : ∃ front last, source.script.body = front ++ [last] ∧
    ((assigned? last = some input.shown ∧ input.script = source.script ∧ input.text = source.text) ∨
      (input.shown = Session.resultName ∧ input.script.body = front ++ [keepResult last] ∧
        input.text = input.script.toNode.print)) := by
  unfold ofSource? at h
  cases hlast : source.script.body.getLast? with
  | none => simp [hlast] at h
  | some last =>
    obtain ⟨front, hbody⟩ := getLast?_eq_some_iff.mp hlast
    refine ⟨front, last, hbody, ?_⟩
    cases hname : assigned? last with
    | none =>
      simp only [hlast, hname] at h
      cases h
      exact .inr ⟨rfl, by rw [hbody, dropLast_concat], rfl⟩
    | some name =>
      simp only [hlast, hname] at h
      cases h
      exact .inl ⟨rfl, rfl, rfl⟩

/-- What an input does is what its source does, with the value of the last
statement in the variable that is shown. -/
theorem exists_all_of_ofSource? {σ : Type} (host : Host σ) (s : State σ) :
    ∃ x, (Run.all (evalEach host source.script.body) s).1.getLast? = some x ∧
      Run.all (evalEach host input.script.body) s =
        ((Run.all (evalEach host source.script.body) s).1,
          (Run.all (evalEach host source.script.body) s).2.setVar input.shown x) := by
  obtain ⟨front, last, hbody, ⟨hshown, hscript, -⟩ | ⟨hshown, hscript, -⟩⟩ := exists_of_ofSource? h
  · rw [hscript, hbody, evalEach_concat, Run.all_concat, ← vars_eval_of_assigned? host hshown]
    refine ⟨_, getLast?_concat, Prod.ext rfl ?_⟩
    simp [State.setVar]
  · rw [hscript, hbody, evalEach_concat, evalEach_concat, Run.all_concat, Run.all_concat, hshown]
    exact ⟨_, getLast?_concat, rfl⟩

theorem areLinear_of_ofSource? (hlinear : areLinear source.script.body = true) :
    areLinear input.script.body = true := by
  obtain ⟨front, last, hbody, ⟨-, hscript, -⟩ | ⟨-, hscript, -⟩⟩ := exists_of_ofSource? h
  · rw [hscript, hlinear]
  · rw [hbody, Simplify.areLinear_iff] at hlinear
    rw [hscript, Simplify.areLinear_iff]
    simp only [forall_mem_append, forall_mem_singleton] at hlinear ⊢
    exact ⟨hlinear.1, by simpa [keepResult, isLinear] using hlinear.2⟩

end Given

/-- That a text is read as the script of an input, apart from the places. -/
structure IsReadAs (input : Input) (again : Source) : Prop where
  parse : Source.parse input.text = .ok again
  same : bareAll again.script.body = bareAll input.script.body
  target : target? input.script.body = some input.shown

/-- Reading a text of trees that were read gives them again. -/
theorem exists_parse_print {t : Script} (h : ∀ n ∈ t.body, n.IsRead) :
    ∃ again, Source.parse t.toNode.print = .ok again ∧
      bareAll again.script.body = bareAll t.body := by
  have hwellFormed : t.isWellFormed = true := areWellFormed_iff.mpr fun n hn => (h n hn).wellFormed
  obtain ⟨r, hr, hbody⟩ := Script.exists_parse_print hwellFormed
  have hunsigned : unsignedAll t.body = t.body := by
    rw [unsignedAll_eq_map]
    exact (map_congr_left fun n hn => unsigned_of_literals (h n hn).literals).trans (map_id _)
  rw [← Script.cleaned_print hwellFormed] at hr
  exact ⟨_, Source.parse_of_script hr, hbody.trans (by rw [hunsigned])⟩

theorem isRead_keepResult (h : n.IsRead) : (keepResult n).IsRead :=
  .assign rfl ⟨by decide, by simp [literals]⟩ rfl h

/-- Every input that a text gives is read as its script. -/
theorem exists_isReadAs {text : Bytes} (hparse : Source.parse text = .ok source)
    (h : ofSource? source = some input) : ∃ again, input.IsReadAs again := by
  have hread := Script.isRead_of_parse (Source.parse_eq_ok hparse).2
  obtain ⟨front, last, hbody, ⟨hshown, hscript, htext⟩ | ⟨hshown, hscript, htext⟩⟩ :=
    exists_of_ofSource? h
  · refine ⟨source, ?_, by rw [hscript], ?_⟩
    · rw [htext, Source.text_of_parse hparse, hparse]
    · rw [hscript, hbody, target?_concat, hshown]
  · rw [hbody, forall_mem_append, forall_mem_singleton] at hread
    have hread' : ∀ n ∈ input.script.body, n.IsRead := by
      rw [hscript, forall_mem_append, forall_mem_singleton]
      exact ⟨hread.1, isRead_keepResult hread.2⟩
    obtain ⟨again, hagain, hsame⟩ := exists_parse_print hread'
    refine ⟨again, htext ▸ hagain, hsame, ?_⟩
    rw [hscript, target?_concat, hshown]
    rfl

namespace IsReadAs

variable (h : input.IsReadAs again)

include h

theorem target?_again : target? again.script.body = some input.shown := by
  rw [target?_congr h.same, h.target]

theorem body_ne_nil : again.script.body ≠ [] := by
  intro hnil
  have htarget := h.target?_again
  rw [hnil] at htarget
  cases htarget

theorem names_eq : input.names = ((mentionsAll again.script.body).map (·.name)).eraseDups := by
  rw [← names_mentionsAll_bareAll, h.same, names_mentionsAll_bareAll]
  exact firstOccurrences_eq_eraseDups _

theorem name_mem {x : Ident} (hx : x ∈ mentionsAll again.script.body) : x.name ∈ input.names := by
  rw [h.names_eq, mem_eraseDups]
  exact mem_map_of_mem hx

theorem areNames : Session.AreNames input.names where
  nodup := by
    rw [h.names_eq, ← Numbering.names_ofList]
    exact Numbering.nodup_ofList _
  lower := by
    intro x hx
    rw [h.names_eq, mem_eraseDups] at hx
    obtain ⟨id, hid, rfl⟩ := mem_map.mp hx
    exact Prepared.isLowerName_mentions_of_parse h.parse id hid

theorem shown_mem : input.shown ∈ input.names := by
  obtain ⟨front, n, hbody, hn⟩ := exists_of_target? h.target?_again
  obtain ⟨op, id, value, span, rfl, hname⟩ := exists_of_assigned? hn
  rw [← hname]
  refine h.name_mem (mem_mentionsAll.mpr ⟨_, hbody ▸ mem_append_right _ (mem_singleton_self _), ?_⟩)
  simp [mentions]

end IsReadAs

end Input

end Eel
