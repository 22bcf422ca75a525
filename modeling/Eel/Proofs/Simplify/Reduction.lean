import Eel.Program.Compile
import Eel.Proofs.Simplify.Parts
import Eel.Proofs.Simplify.Rounds
import Eel.Proofs.Steps

/-!
What simplifying takes away.

Simplifying puts numbers in the place of arithmetic: of trees that hold nothing
but numbers, variables that are read, signs, sums, differences, products and
quotients. All other nodes stay, and so do the names that are assigned or
called. Hence the effects of a tree, listed as they stand in it, are the same
before and behind.
-/

namespace Eel

open List

/-- What an assignment changes. -/
inductive Destination where
  | name (id : Ident)
  | slot (callee : Ident) (args : Nat)
  | other (n : Node)

/-- What a node does apart from arithmetic. -/
inductive Effect where
  | script (statements : Nat)
  | block (expressions : Nat)
  | assign (op : AssignOp) (target : Destination)
  | call (callee : Ident) (args : Nat)
  | logical (op : LogicalOp)
  | binary (op : BinaryOp)
  | unary (op : UnaryOp)

namespace Node

mutual

/-- The nodes of a tree, each before those in it. A variable that is assigned is
not listed on its own. -/
def preorder : Node → List Node
  | n@missing | n@(ident _) | n@(number ..) => [n]
  | n@(script body _) | n@(block body _) | n@(call _ body _) => n :: preorderAll body
  | n@(binary _ left right _) | n@(logical _ left right _) => n :: (left.preorder ++ right.preorder)
  | n@(unary _ operand _) => n :: operand.preorder
  | n@(assign _ (ident _) value _) => n :: value.preorder
  | n@(assign _ target value _) => n :: (target.preorder ++ value.preorder)

def preorderAll : List Node → List Node
  | [] => []
  | n :: rest => n.preorder ++ preorderAll rest

end

/-- The nodes of a tree down to its parts. -/
def heads : Node → List Node
  | n@(assign _ (ident _) _ _) => [n]
  | n@(assign _ (call callee args span) _ _) => [n, call callee args span]
  | n@(assign _ target _ _) => n :: target.preorder
  | n => [n]

theorem preorderAll_append (xs ys : List Node) :
    preorderAll (xs ++ ys) = preorderAll xs ++ preorderAll ys := by
  induction xs with
  | nil => rfl
  | cons n rest ih => simp only [cons_append, preorderAll, ih, append_assoc]

theorem preorder_eq (n : Node) : n.preorder = n.heads ++ preorderAll n.subnodes := by
  cases n with
  | assign op target value span =>
    cases target <;> simp [preorder, heads, subnodes, preorderAll, preorderAll_append]
  | _ => simp [preorder, heads, subnodes, preorderAll]

def effect? : Node → Option Effect
  | script body _ => some (.script body.length)
  | block body _ => some (.block body.length)
  | assign op (ident id) _ _ => some (.assign op (.name id))
  | assign op (call callee args _) _ _ => some (.assign op (.slot callee args.length))
  | assign op target _ _ => some (.assign op (.other target))
  | call callee args _ => some (.call callee args.length)
  | logical op _ _ _ => some (.logical op)
  | binary op _ _ _ => if op.isArithmetic then none else some (.binary op)
  | unary op _ _ => if op.isSign then none else some (.unary op)
  | missing | ident _ | number .. => none

/-- The effects of a tree, in the order in which they stand in it. -/
def effects (n : Node) : List Effect := n.preorder.filterMap effect?

theorem effects_eq (n : Node) :
    n.effects = n.heads.filterMap effect? ++ (preorderAll n.subnodes).filterMap effect? := by
  rw [effects, preorder_eq, filterMap_append]

theorem filterMap_preorderAll {body body' : List Node}
    (h : List.Forall₂ (fun n m => m.effects = n.effects) body body') :
    (preorderAll body').filterMap effect? = (preorderAll body).filterMap effect? := by
  induction h with
  | nil => rfl
  | cons hn _ ih =>
    simp only [preorderAll, filterMap_append, ih]
    exact congrArg (· ++ _) hn

theorem effect?_heads_frame (n : Node) :
    n.frame.heads.filterMap effect? = n.heads.filterMap effect? := by
  cases n with
  | assign op target value span =>
    cases target <;> simp [frame, subnodes, withParts, heads, effect?]
  | binary | unary => rfl
  | _ => simp [frame, subnodes, withParts, heads, effect?]

/-- Other parts leave a node its own effects. -/
theorem effect?_heads_withParts {n : Node} {ps : List Node} (h : ps.length = n.subnodes.length) :
    (n.withParts ps).heads.filterMap effect? = n.heads.filterMap effect? := by
  rw [← effect?_heads_frame, frame_withParts h, effect?_heads_frame]

theorem effects_of_isArithmetic {n : Node} (h : n.isArithmetic = true) : n.effects = [] := by
  induction n using inductionOn with
  | number | ident => rfl
  | unary op operand span ih =>
    simp only [isArithmetic, Bool.and_eq_true] at h
    simpa [effects, preorder, effect?, h.1] using ih h.2
  | binary op left right span ihl ihr =>
    simp only [isArithmetic, Bool.and_eq_true] at h
    have hleft : left.preorder.filterMap effect? = [] := ihl h.1.2
    have hright : right.preorder.filterMap effect? = [] := ihr h.2
    simp only [effects, preorder, filterMap_cons, effect?, h.1.1, if_true, filterMap_append,
      hleft, hright, append_nil]
  | _ => cases h

end Node

namespace Simplify

/-- That a tree is another one with numbers in the place of some arithmetic in
it. A number stays as it is. -/
inductive Reduced : Node → Node → Prop
  | number {n : Node} (h : n.isArithmetic = true) (hn : ∀ value span, n ≠ .number value span)
      (value : Double)
      (span : Span) : Reduced n (.number value span)
  | parts {n : Node} {ps : List Node} (h : List.Forall₂ Reduced n.subnodes ps) :
      Reduced n (n.withParts ps)

namespace Reduced

variable {n m r : Node}

theorem cases_parts (h : Reduced n m) :
    (n.isArithmetic = true ∧ (∀ value span, n ≠ .number value span) ∧
      ∃ value span, m = .number value span) ∨
      ∃ ps, List.Forall₂ Reduced n.subnodes ps ∧ m = n.withParts ps := by
  cases h with
  | number h hn value span => exact .inl ⟨h, hn, value, span, rfl⟩
  | parts h => exact .inr ⟨_, h, rfl⟩

theorem refl (n : Node) : Reduced n n := by
  induction n using Node.partsInduction with
  | step n ih =>
    have hparts : List.Forall₂ Reduced n.subnodes n.subnodes := forall₂_same.mpr ih
    simpa only [Node.withParts_subnodes] using Reduced.parts hparts

/-- Induction over a tree and what it is reduced to. -/
theorem inductionOn {motive : ∀ n m : Node, Reduced n m → Prop} (h : Reduced n m)
    (number : ∀ {n : Node} (h : n.isArithmetic = true) (hn : ∀ value span, n ≠ .number value span)
      (value : Double) (span : Span), motive n (.number value span) (.number h hn value span))
    (parts : ∀ {n : Node} {ps : List Node} (h : List.Forall₂ Reduced n.subnodes ps),
      List.Forall₂ (fun p q => ∃ hpq : Reduced p q, motive p q hpq) n.subnodes ps →
        motive n (n.withParts ps) (.parts h)) :
    motive n m h := by
  induction n using Node.partsInduction generalizing m with
  | step n ih =>
    cases h with
    | number h hn value span => exact number h hn value span
    | parts h =>
      refine parts h (((forall₂_and_left _ _).mpr ⟨ih, h⟩).imp ?_)
      exact fun p q hpq => ⟨hpq.2, hpq.1 hpq.2⟩

/-- Induction over a tree and what it is reduced to, by the kinds of nodes. -/
theorem kindInduction {P : Node → Node → Prop} (h : Reduced n m)
    (number : ∀ n value span, n.isArithmetic = true → P n (.number value span)) (same : ∀ n, P n n)
    (script : ∀ body body' span, List.Forall₂ P body body' →
      P (.script body span) (.script body' span))
    (block : ∀ body body' span, List.Forall₂ P body body' →
      P (.block body span) (.block body' span))
    (binary : ∀ op x x' y y' span, P x x' → P y y' →
      P (.binary op x y span) (.binary op x' y' span))
    (logical : ∀ op x x' y y' span, P x x' → P y y' →
      P (.logical op x y span) (.logical op x' y' span))
    (unary : ∀ op x x' span, P x x' → P (.unary op x span) (.unary op x' span))
    (assign : ∀ op target v v' span, P v v' →
      P (.assign op target v span) (.assign op target v' span))
    (slot : ∀ op callee args args' callSpan v v' span, List.Forall₂ P args args' → P v v' →
      P (.assign op (.call callee args callSpan) v span)
        (.assign op (.call callee args' callSpan) v' span))
    (call : ∀ callee args args' span, List.Forall₂ P args args' →
      P (.call callee args span) (.call callee args' span)) :
    P n m := by
  induction h using inductionOn with
  | number h hn value span => exact number _ value span h
  | @parts n ps _ ih =>
    replace ih : List.Forall₂ P n.subnodes ps := ih.imp fun p q hpq => hpq.2
    cases n with
    | missing | ident | number => exact same _
    | script body span => exact script _ _ span ih
    | block body span => exact block _ _ span ih
    | call callee args span => exact call callee _ _ span ih
    | unary op x span =>
      obtain ⟨x', rfl⟩ := length_eq_one_iff.mp ih.length_eq.symm
      exact unary op x x' span (forall₂_cons.mp ih).1
    | binary op x y span =>
      obtain ⟨x', y', rfl⟩ := length_eq_two.mp ih.length_eq.symm
      simp only [Node.subnodes, forall₂_cons] at ih
      exact binary op x x' y y' span ih.1 ih.2.1
    | logical op x y span =>
      obtain ⟨x', y', rfl⟩ := length_eq_two.mp ih.length_eq.symm
      simp only [Node.subnodes, forall₂_cons] at ih
      exact logical op x x' y y' span ih.1 ih.2.1
    | assign op target v span =>
      cases target with
      | call callee args callSpan =>
        obtain rfl | ⟨args', v', rfl⟩ := eq_nil_or_concat ps
        · simp [Node.subnodes] at ih
        · rw [Node.subnodes, concat_eq_append, ← forall₂_reverse_iff, reverse_concat,
            reverse_concat, forall₂_cons, forall₂_reverse_iff] at ih
          simpa [Node.withParts] using slot op callee args args' callSpan v v' span ih.2 ih.1
      | _ =>
        obtain ⟨v', rfl⟩ := length_eq_one_iff.mp ih.length_eq.symm
        exact assign op _ v v' span (forall₂_cons.mp ih).1

/-- What becomes arithmetic was arithmetic before. -/
theorem isArithmetic (h : Reduced n m) : m.isArithmetic = true → n.isArithmetic = true := by
  apply kindInduction (P := fun n m => m.isArithmetic = true → n.isArithmetic = true) h
  case number => exact fun n value span h _ => h
  case same => exact fun n => id
  case unary =>
    intro op x x' span ih hm
    simp only [Node.isArithmetic, Bool.and_eq_true] at hm ⊢
    exact ⟨hm.1, ih hm.2⟩
  case binary =>
    intro op x x' y y' span ihx ihy hm
    simp only [Node.isArithmetic, Bool.and_eq_true] at hm ⊢
    exact ⟨⟨hm.1.1, ihx hm.1.2⟩, ihy hm.2⟩
  all_goals
    intros
    contradiction

theorem eq_of_number {value : Double} {span : Span} (h : Reduced (.number value span) m) :
    m = .number value span := by
  obtain ⟨-, hn, -⟩ | ⟨ps, -, rfl⟩ := h.cases_parts
  · exact absurd rfl (hn value span)
  · rfl

theorem trans (h : Reduced n m) (h' : Reduced m r) : Reduced n r := by
  induction h using inductionOn generalizing r with
  | number h hn value span =>
    rw [h'.eq_of_number]
    exact .number h hn value span
  | @parts n ps h ih =>
    have hlength : ps.length = n.subnodes.length := h.length_eq.symm
    obtain ⟨hm, hnumber, value, span, rfl⟩ | ⟨qs, hqs, rfl⟩ := h'.cases_parts
    · refine .number ((Reduced.parts h).isArithmetic hm) (fun value span hn => ?_) value span
      subst hn
      exact hnumber value span rfl
    · rw [Node.subnodes_withParts hlength] at hqs
      rw [Node.withParts_withParts hlength (hqs.length_eq.symm.trans hlength)]
      exact .parts (forall₂_trans (fun p q r hpq hqr => hpq.2 hqr) ih hqs)

theorem trans_all {xs ys zs : List Node} (h : List.Forall₂ Reduced xs ys)
    (h' : List.Forall₂ Reduced ys zs) : List.Forall₂ Reduced xs zs :=
  forall₂_trans (R := Reduced) (S := Reduced) (fun _ _ _ => trans) h h'

theorem effects (h : Reduced n m) : m.effects = n.effects := by
  induction h using inductionOn with
  | number h hn value span => exact (Node.effects_of_isArithmetic h).symm
  | @parts n ps h ih =>
    have hlength : ps.length = n.subnodes.length := h.length_eq.symm
    have hparts : (Node.preorderAll ps).filterMap Node.effect? =
        (Node.preorderAll n.subnodes).filterMap Node.effect? :=
      Node.filterMap_preorderAll (ih.imp fun p q hpq => hpq.2)
    rw [Node.effects_eq, Node.effects_eq, Node.subnodes_withParts hlength,
      Node.effect?_heads_withParts hlength, hparts]

theorem script {body body' : List Node} (h : List.Forall₂ Reduced body body') (span : Span) :
    Reduced (.script body span) (.script body' span) :=
  .parts h

/-- Numbers in the place of nodes mention no new variable. -/
theorem mentions_subset (h : Reduced n m) : m.mentions ⊆ n.mentions := by
  have hall {body body' : List Node}
      (h : List.Forall₂ (fun n m => m.mentions ⊆ n.mentions) body body') :
      Node.mentionsAll body' ⊆ Node.mentionsAll body := by
    induction h with
    | nil => exact List.Subset.refl _
    | cons hn _ ih => exact append_subset_append hn ih
  apply kindInduction (P := fun n m => m.mentions ⊆ n.mentions) h
  case number => exact fun _ _ _ _ => nil_subset _
  case same => exact fun _ => List.Subset.refl _
  case script | block => exact fun _ _ _ => hall
  case binary | logical => exact fun _ _ _ _ _ _ => append_subset_append
  case unary => exact fun _ _ _ _ => id
  case assign => exact fun _ _ _ _ _ => append_subset_append (List.Subset.refl _)
  case slot => exact fun _ _ _ _ _ _ _ _ hargs => append_subset_append (hall hargs)
  case call => exact fun _ _ _ _ => hall

end Reduced

variable {τ : Type} {visit : Visit τ}

theorem SparesEffects.reduced (hvisit : SparesEffects visit) {n m : Node} {s : τ}
    (h : (visit n s).1 = some m) : Reduced n m := by
  obtain ⟨hn, hnumber, value, span, rfl⟩ := hvisit h
  exact .number hn hnumber value span

theorem sweep_reduced (hvisit : SparesEffects visit) (n : Node) (s : τ) :
    Reduced n (sweep visit n s).1.node := by
  refine sweep_induction (R := fun n r => Reduced n r.node) ?_ n s
  intro n swept s hswept
  have hparts : Reduced n (n.withParts (swept.map (·.node))) :=
    .parts (forall₂_map_right_iff.mpr hswept)
  cases h : (visit (n.withParts (swept.map (·.node))) s).1 with
  | none => simpa only [finish_of_none h] using hparts
  | some m => simpa only [finish_of_some h] using hparts.trans (hvisit.reduced h)

theorem round_reduced (division : Division) (n : Node) : Reduced n (round division n).node :=
  (sweep_reduced visitKnown_sparesEffects n []).trans
    (sweep_reduced (visitFolded_sparesEffects division) _ ())

theorem roundBody_reduced (division : Division) (body : List Node) :
    List.Forall₂ Reduced body (roundBody division body) := by
  have hround := round_reduced division (.script body default)
  rw [node_round] at hround
  obtain ⟨hn, -⟩ | ⟨ps, hps, hscript⟩ := hround.cases_parts
  · cases hn
  · cases hscript
    exact hps

/-- Simplifying takes no effect away, adds none and moves none: with every limit
on rounds and every kind of division, the tree that is left is the one that was
there with numbers in the place of some arithmetic, and its assignments with
what they assign, its calls with their arguments, its logical operators, its
blocks and all operators that are not of arithmetic are those that were there,
in their order. -/
theorem run_keeps_effects (division : Division) (limit : Int) (n : Node) :
    Reduced n (run division limit n).1.node ∧
    (run division limit n).1.node.effects = n.effects := by
  have hreduced : Reduced n (run division limit n).1.node :=
    rounds_keep (P := Reduced n) (fun m hm => hm.trans (round_reduced division m)) _ 0 (.refl n)
  exact ⟨hreduced, hreduced.effects⟩

end Simplify

namespace Prepared

open Simplify

variable {o : Options} {decl : FunctionDecl} {f : Prepared}

/-- What every round keeps of statements holds of a function that was read and
simplified, if it holds of what was read. -/
theorem invariant_of_ofDecl {P : List Node → Prop}
    (hround : ∀ body, P body → P (roundBody .clamped body)) (h : ofDecl o decl = .ok f) :
    Source.parse decl.source = .ok f.source ∧ f.name = decl.name ∧ f.pool = o.pool decl.pool ∧
      (P f.source.script.body → P f.body) := by
  unfold ofDecl at h
  cases hparse : Source.parse decl.source with
  | error e => simp [hparse] at h
  | ok source =>
    obtain ⟨body, hrun, hbody⟩ := run_invariant (P := fun body => P source.script.body → P body)
      (fun body hbody hsource => hround body (hbody hsource)) o.maxRounds source.script.span id
    simp only [hparse, Script.toNode, hrun] at h
    split at h
    · cases h
      exact ⟨rfl, rfl, rfl, hbody⟩
    · cases h
      exact ⟨rfl, rfl, rfl, id⟩

/-- That a function was read from its declaration, and perhaps simplified. -/
structure Reads (decl : FunctionDecl) (f : Prepared) : Prop where
  parse : Source.parse decl.source = .ok f.source
  name : f.name = decl.name
  reduced : List.Forall₂ Reduced f.source.script.body f.body

theorem reads_of_ofDecl (h : ofDecl o decl = .ok f) : Reads decl f := by
  have hround (body : List Node) (hbody : List.Forall₂ Reduced f.source.script.body body) :=
    Reduced.trans_all hbody (roundBody_reduced .clamped body)
  obtain ⟨hparse, hname, -, hbody⟩ := invariant_of_ofDecl hround h
  exact ⟨hparse, hname, hbody (forall₂_same.mpr fun n _ => .refl n)⟩

theorem pool_of_ofDecl (h : ofDecl o decl = .ok f) : f.pool = o.pool decl.pool :=
  (invariant_of_ofDecl (P := fun _ => True) (fun _ _ => trivial) h).2.2.1

/-- Simplifying a function that was read lets it mention no other variable. -/
theorem mentionsAll_of_ofDecl (h : ofDecl o decl = .ok f) :
    Node.mentionsAll f.body ⊆ Node.mentionsAll f.source.script.body :=
  (Reduced.script (reads_of_ofDecl h).reduced default).mentions_subset

end Prepared

end Eel
