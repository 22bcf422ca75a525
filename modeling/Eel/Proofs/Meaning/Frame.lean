import Eel.Proofs.Program.Realization
import Eel.Proofs.Simplify.Tracking

/-!
What a tree leaves alone.

Evaluating a tree changes no variable that the tree does not assign. Whatever is
known of such variables is known behind the tree as well, along every way that
it may take. Simplifying a tree brings in no assignment.
-/

namespace Eel

open List

open Machine (Host)

open Simplify

variable {σ : Type} {known : Known} {body : List Node} {args : List (Run σ Double)}

/-- That a run keeps what is known. -/
abbrev Run.Keeps (known : Known) (r : Run σ Double) : Prop := Tracks known known r r

theorem Run.keepsEach {runs : List (Run σ Double)} (h : ∀ r ∈ runs, r.Keeps known) :
    TracksEach known known runs runs :=
  .of_forall₂ (forall₂_same.mpr h)

theorem Builtin.run_keeps (b : Builtin) (h : ∀ r ∈ args, r.Keeps known) :
    (b.run args).Keeps known := by
  cases b with
  | choose | countedLoop =>
    cases args with
    | nil => exact .pure _
    | cons x rest =>
      rw [forall_mem_cons] at h
      exact headed_tracks (by simp) h.1 (forall₂_same.mpr h.2)
  | whileLoop => exact whileLoop_tracks (forall₂_same.mpr h)
  | _ => exact builtin_tracks (by decide) (by decide) (by decide) (Run.keepsEach h)

theorem callByName_keeps (host : Host σ) (name : Bytes) (h : ∀ r ∈ args, r.Keeps known) :
    (callByName host name args).Keeps known := by
  cases hname : Builtin.ofName? name with
  | none => exact callByName_tracks hname (Run.keepsEach h)
  | some b =>
    rw [callByName, hname]
    exact b.run_keeps h

namespace Node

variable (host : Host σ)

theorem mem_evalEach {r : Run σ Double} : r ∈ evalEach host body ↔ ∃ n ∈ body, eval host n = r := by
  induction body with
  | nil => simp [evalEach]
  | cons n rest ih => simp [evalEach, ih, eq_comm]

/-- The name of the variable that an assignment is to. Slots of buffers are
none. -/
def targetName : Node → List Bytes
  | .ident id => [id.name]
  | _ => []

mutual

/-- The names of all variables that a tree assigns. -/
def targets : Node → List Bytes
  | .script body _ | .block body _ => targetsAll body
  | .binary _ left right _ | .logical _ left right _ => left.targets ++ right.targets
  | .unary _ operand _ => operand.targets
  | .assign _ target value _ => target.targetName ++ (target.targets ++ value.targets)
  | .call _ args _ => targetsAll args
  | .ident _ | .missing | .number _ _ => []

def targetsAll : List Node → List Bytes
  | [] => []
  | n :: rest => n.targets ++ targetsAll rest

end

theorem mem_targetsAll {x : Bytes} : x ∈ targetsAll body ↔ ∃ n ∈ body, x ∈ n.targets := by
  induction body with
  | nil => simp [targetsAll]
  | cons n rest ih => simp [targetsAll, ih]

/-- What is known of variables that a tree does not assign stays known. -/
theorem eval_keeps (n : Node) (h : ∀ x ∈ n.targets, known.find? x = none) :
    (n.eval host).Keeps known := by
  have heach {body : List Node}
      (ih : ∀ n ∈ body, (∀ x ∈ n.targets, known.find? x = none) → (n.eval host).Keeps known)
      (h : ∀ x ∈ targetsAll body, known.find? x = none) :
        ∀ r ∈ evalEach host body, r.Keeps known := by
    intro r hr
    obtain ⟨n, hn, rfl⟩ := (mem_evalEach host).mp hr
    exact ih n hn fun x hx => h x (mem_targetsAll.mpr ⟨n, hn, hx⟩)
  induction n using inductionOn with
  | missing => exact .pure _
  | number value span => exact .pure _
  | ident id => exact .of_steady fun _ => rfl
  | script body span ih | block body span ih => exact (Run.keepsEach (heach ih h)).last
  | call callee args span ih => exact callByName_keeps host callee.name (heach ih h)
  | binary op left right span ihl ihr =>
    simp only [targets, forall_mem_append] at h
    exact (ihl h.1).bind fun x => (ihr h.2).bind fun y => .of_steady (steady_binary host op x y)
  | logical op left right span ihl ihr =>
    simp only [targets, forall_mem_append] at h
    exact logical_tracks op (ihl h.1) (ihr h.2)
  | unary op operand span ih => exact (ih h).bind fun _ => .pure _
  | assign op target value span _ ihargs ihv =>
    simp only [targets, forall_mem_append] at h
    have hvalue := ihv h.2.2
    cases target with
    | ident id =>
      have hid : known.find? id.name = none := h.1 id.name (mem_singleton.mpr rfl)
      refine fun s hs => ⟨rfl, ?_⟩
      intro name x hx
      have hne : name ≠ id.name := by
        rintro rfl
        rw [hid] at hx
        cases hx
      apply (runVar_tracks op id.name hvalue s hs).2
      rw [Known.find?_forget, if_neg hne]
      exact hx
    | call callee args callSpan =>
      exact runCall_tracks op callee.name (Run.keepsEach (heach ihargs h.2.1)) hvalue
    | _ => exact hvalue.bind fun _ => .pure _

/-- Statements leave the variables alone that they do not assign. -/
theorem vars_all_evalEach {name : Bytes} (h : name ∉ targetsAll body) (s : State σ) :
    (Run.all (evalEach host body) s).2.vars name = s.vars name := by
  have heach : ∀ r ∈ evalEach host body, r.Keeps [(name, s.vars name)] := by
    intro r hr
    obtain ⟨n, hn, rfl⟩ := (mem_evalEach host).mp hr
    refine n.eval_keeps host fun x hx => ?_
    have hne : x ≠ name := fun heq => h (heq ▸ mem_targetsAll.mpr ⟨n, hn, hx⟩)
    rw [Known.find?_cons, if_neg hne]
    rfl
  refine ((Run.keepsEach heach).all s ?_).2 (by rw [Known.find?_cons, if_pos rfl])
  intro other x hx
  rw [Known.find?_cons] at hx
  split at hx
  · rename_i hother
    rw [hother]
    exact Option.some.inj hx
  · cases hx

theorem targetName_subset (n : Node) : n.targetName ⊆ n.mentions.map (·.name) := by
  cases n with
  | ident id => exact List.Subset.refl _
  | _ => exact nil_subset _

mutual

/-- What is assigned is mentioned. -/
theorem targets_subset : ∀ n : Node, n.targets ⊆ n.mentions.map (·.name)
  | .script body _ | .block body _ => targetsAll_subset body
  | .binary _ left right _ | .logical _ left right _ => by
      rw [targets, mentions, map_append]
      exact append_subset_append left.targets_subset right.targets_subset
  | .unary _ operand _ => operand.targets_subset
  | .assign _ target value _ => by
      rw [targets, mentions, map_append, ← append_assoc]
      exact append_subset_append
        (append_subset.mpr ⟨target.targetName_subset, target.targets_subset⟩)
        value.targets_subset
  | .call _ args _ => targetsAll_subset args
  | .ident _ | .missing | .number _ _ => nil_subset _

theorem targetsAll_subset : ∀ body : List Node, targetsAll body ⊆ (mentionsAll body).map (·.name)
  | [] => nil_subset _
  | n :: rest => by
      rw [targetsAll, mentionsAll, map_append]
      exact append_subset_append n.targets_subset (targetsAll_subset rest)

end

end Node

/-- Numbers in the place of nodes assign no new variable. -/
theorem Simplify.Reduced.targets_subset {n m : Node} (h : Reduced n m) : m.targets ⊆ n.targets := by
  have hall {body body' : List Node}
      (h : List.Forall₂ (fun n m => m.targets ⊆ n.targets) body body') :
      Node.targetsAll body' ⊆ Node.targetsAll body := by
    induction h with
    | nil => exact List.Subset.refl _
    | cons hn _ ih => exact append_subset_append hn ih
  have hkept := List.Subset.refl (α := Bytes)
  apply kindInduction (P := fun n m => m.targets ⊆ n.targets) h
  case number => exact fun _ _ _ _ => nil_subset _
  case same => exact fun n => hkept n.targets
  case script | block => exact fun _ _ _ => hall
  case binary | logical => exact fun _ _ _ _ _ _ => append_subset_append
  case unary => exact fun _ _ _ _ => id
  case assign => exact fun _ _ _ _ _ hv =>
    append_subset_append (hkept _) (append_subset_append (hkept _) hv)
  case slot =>
    exact fun _ _ _ _ _ _ _ _ hargs hv =>
      append_subset_append (hkept _) (append_subset_append (hall hargs) hv)
  case call => exact fun _ _ _ _ => hall

/-- Simplifying a function that was read lets it assign no other variable. -/
theorem Prepared.targetsAll_of_ofDecl {o : Options} {decl : FunctionDecl} {f : Prepared}
    (h : ofDecl o decl = .ok f) : Node.targetsAll f.body ⊆ Node.targetsAll f.source.script.body :=
  (Simplify.Reduced.script (reads_of_ofDecl h).reduced default).targets_subset

end Eel
