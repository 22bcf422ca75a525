import Eel.Proofs.Simplify.Rewriting

/-!
The parts of a node.

A sweep does the same at every node: it sweeps the parts from left to right,
puts the node together again around what they have become, and visits it. So
what a sweep does is told once for all kinds of nodes, by the parts of a node
and by the node with other parts. Nodes are visited in the order in which they
are left; a sweep keeps a tree exactly when all of these visits leave their
nodes alone.
-/

namespace Eel

open List

variable {n : Node} {body ps : List Node} {R : Node → Swept → Prop}

namespace Node

/-- The parts of a node that a sweep goes into, from left to right. The
arguments of an assigned slot come before the value. Whatever else is assigned
is no part, and names never are. -/
def subnodes : Node → List Node
  | script body _ | block body _ => body
  | binary _ left right _ | logical _ left right _ => [left, right]
  | unary _ operand _ => [operand]
  | assign _ (call _ args _) value _ => args ++ [value]
  | assign _ _ value _ => [value]
  | call _ args _ => args
  | missing | ident _ | number .. => []

/-- A node with other parts in the place of its own. It stays as it is unless
these are as many. -/
def withParts : Node → List Node → Node
  | script _ span, ps => script ps span
  | block _ span, ps => block ps span
  | binary op _ _ span, [left, right] => binary op left right span
  | logical op _ _ span, [left, right] => logical op left right span
  | unary op _ span, [operand] => unary op operand span
  | assign op (call callee _ callSpan) _ span, ps =>
    assign op (call callee ps.dropLast callSpan) (ps.getLastD missing) span
  | assign op target _ span, [value] => assign op target value span
  | call callee _ span, ps => call callee ps span
  | n, _ => n

/-- Whether the parts of a node are statements or expressions of a body. -/
def isBody : Node → Bool
  | script .. | block .. => true
  | _ => false

theorem withParts_subnodes (n : Node) : n.withParts n.subnodes = n := by
  cases n with
  | assign op target value span =>
    cases target with
    | call callee args callSpan => simp [subnodes, withParts]
    | _ => rfl
  | _ => rfl

theorem subnodes_withParts (h : ps.length = n.subnodes.length) :
    (n.withParts ps).subnodes = ps := by
  cases n with
  | script | block | call => rfl
  | missing | ident | number => exact (eq_nil_of_length_eq_zero h).symm
  | unary op operand span =>
    obtain ⟨x, rfl⟩ := length_eq_one_iff.mp h
    rfl
  | binary op left right span | logical op left right span =>
    obtain ⟨l, r, rfl⟩ := length_eq_two.mp h
    rfl
  | assign op target value span =>
    cases target with
    | call callee args callSpan =>
      obtain rfl | ⟨init, last, rfl⟩ := eq_nil_or_concat ps
      · simp [subnodes] at h
      · simp [subnodes, withParts]
    | _ =>
      obtain ⟨v, rfl⟩ := length_eq_one_iff.mp h
      rfl

theorem withParts_withParts {qs : List Node} (hps : ps.length = n.subnodes.length)
    (hqs : qs.length = n.subnodes.length) : (n.withParts ps).withParts qs = n.withParts qs := by
  cases n with
  | script | block | call | missing | ident | number => rfl
  | unary op operand span =>
    obtain ⟨x, rfl⟩ := length_eq_one_iff.mp hps
    obtain ⟨y, rfl⟩ := length_eq_one_iff.mp hqs
    rfl
  | binary op left right span | logical op left right span =>
    obtain ⟨l, r, rfl⟩ := length_eq_two.mp hps
    obtain ⟨l', r', rfl⟩ := length_eq_two.mp hqs
    rfl
  | assign op target value span =>
    cases target with
    | call callee args callSpan => rfl
    | _ =>
      obtain ⟨v, rfl⟩ := length_eq_one_iff.mp hps
      obtain ⟨w, rfl⟩ := length_eq_one_iff.mp hqs
      rfl

/-- A node without its parts, of which only the places are left. -/
def frame (n : Node) : Node := n.withParts (n.subnodes.map fun _ => missing)

theorem frame_withParts (h : ps.length = n.subnodes.length) : (n.withParts ps).frame = n.frame := by
  rw [frame, frame, subnodes_withParts h, withParts_withParts h (by simp [h]), map_const',
    map_const', h]

/-- Induction over trees by the parts of nodes. -/
theorem partsInduction {P : Node → Prop} (step : ∀ n : Node, (∀ p ∈ n.subnodes, P p) → P n)
    (n : Node) : P n := by
  induction n using inductionOn with
  | missing | number | ident => exact step _ (by simp [subnodes])
  | script body span ih | block body span ih | call callee body span ih => exact step _ ih
  | binary op left right span ihl ihr | logical op left right span ihl ihr =>
    exact step _ (by simp [subnodes, ihl, ihr])
  | unary op operand span ih => exact step _ (by simp [subnodes, ih])
  | assign op target value span _ ihargs ihv =>
    apply step
    cases target with
    | call callee args callSpan =>
      intro p hp
      obtain hp | hp := mem_append.mp hp
      · exact ihargs p hp
      · rw [mem_singleton.mp hp]
        exact ihv
    | _ => simp [subnodes, ihv]

mutual

/-- The nodes that a sweep visits, each behind its parts. -/
def postorder : Node → List Node
  | n@(script body _) | n@(block body _) | n@(call _ body _) => postorderAll body ++ [n]
  | n@(binary _ left right _) | n@(logical _ left right _) =>
    left.postorder ++ right.postorder ++ [n]
  | n@(unary _ operand _) => operand.postorder ++ [n]
  | n@(assign _ (call _ args _) value _) => postorderAll args ++ value.postorder ++ [n]
  | n@(assign _ _ value _) => value.postorder ++ [n]
  | n@missing | n@(ident _) | n@(number ..) => [n]

def postorderAll : List Node → List Node
  | [] => []
  | n :: rest => n.postorder ++ postorderAll rest

end

theorem postorderAll_append (xs ys : List Node) :
    postorderAll (xs ++ ys) = postorderAll xs ++ postorderAll ys := by
  induction xs with
  | nil => rfl
  | cons n rest ih => simp only [cons_append, postorderAll, ih, append_assoc]

theorem postorder_eq (n : Node) : n.postorder = postorderAll n.subnodes ++ [n] := by
  cases n with
  | assign op target value span =>
    cases target with
    | call callee args callSpan => simp [subnodes, postorder, postorderAll_append, postorderAll]
    | _ => simp [subnodes, postorder, postorderAll]
  | _ => simp [subnodes, postorder, postorderAll]

end Node

namespace Simplify

variable {τ : Type} (visit : Visit τ)

theorem sweepAll_nil (s : τ) : sweepAll visit [] s = ([], s) := rfl

theorem sweepAll_cons (n : Node) (rest : List Node) (s : τ) :
    sweepAll visit (n :: rest) s =
      ((sweep visit n s).1 :: (sweepAll visit rest (sweep visit n s).2).1,
        (sweepAll visit rest (sweep visit n s).2).2) := rfl

theorem sweepAll_append (xs ys : List Node) (s : τ) :
    sweepAll visit (xs ++ ys) s =
      ((sweepAll visit xs s).1 ++ (sweepAll visit ys (sweepAll visit xs s).2).1,
        (sweepAll visit ys (sweepAll visit xs s).2).2) := by
  induction xs generalizing s with
  | nil => rfl
  | cons n rest ih => simp only [cons_append, sweepAll_cons, ih]

theorem length_sweepAll (body : List Node) (s : τ) :
    (sweepAll visit body s).1.length = body.length := by
  induction body generalizing s with
  | nil => rfl
  | cons n rest ih => exact congrArg (· + 1) (ih _)

/-- What the swept parts of a node tell of its statements or expressions. -/
def bodyFlags (n : Node) (swept : List Swept) : List Bool :=
  if n.isBody then swept.map (·.kept) else []

/-- A sweep of a node is a sweep of its parts and a visit. -/
theorem sweep_eq (n : Node) (s : τ) :
    sweep visit n s =
      finish visit (n.withParts ((sweepAll visit n.subnodes s).1.map (·.node)))
        ((sweepAll visit n.subnodes s).1.all (·.kept)) (bodyFlags n (sweepAll visit n.subnodes s).1)
        (sweepAll visit n.subnodes s).2 := by
  -- On a few parts, `all` ends with a `true` that the sweep of such a node leaves out.
  cases n with
  | binary op left right span | logical op left right span | unary op operand span =>
    simp only [Node.subnodes, sweepAll_cons, all_cons, sweepAll_nil, all_nil, Bool.and_true]
    rfl
  | assign op target value span =>
    cases target with
    | call callee args callSpan =>
      simp only [Node.subnodes, sweepAll_append, sweepAll_cons, sweepAll_nil, all_append, all_cons,
        all_nil, Bool.and_true, Node.withParts, map_append, map_cons, map_nil,
        dropLast_concat, getLastD_concat]
      rfl
    | _ =>
      simp only [Node.subnodes, sweepAll_cons, all_cons, sweepAll_nil, all_nil, Bool.and_true]
      rfl
  | _ => rfl

variable {visit} {s : τ}

theorem finish_eq (n : Node) (kept : Bool) (flags : List Bool) (s : τ) :
    finish visit n kept flags s =
      ((visit n s).1.elim ⟨n, kept, flags⟩ fun m => ⟨m, false, flags.map fun _ => false⟩,
        (visit n s).2) := by
  simp only [finish, bind, StateT.bind]
  rcases visit n s with ⟨_ | m, s'⟩ <;> rfl

theorem finish_of_none (h : (visit n s).1 = none) (kept : Bool) (flags : List Bool) :
    finish visit n kept flags s = (⟨n, kept, flags⟩, (visit n s).2) := by
  rw [finish_eq, h, Option.elim_none]

theorem finish_of_some {m : Node} (h : (visit n s).1 = some m) (kept : Bool) (flags : List Bool) :
    finish visit n kept flags s = (⟨m, false, flags.map fun _ => false⟩, (visit n s).2) := by
  rw [finish_eq, h, Option.elim_some]

theorem kept_finish (n : Node) (kept : Bool) (flags : List Bool) (s : τ) :
    (finish visit n kept flags s).1.kept = ((visit n s).1.isNone && kept) := by
  rw [finish_eq]
  cases (visit n s).1 <;> rfl

theorem node_finish_run (n : Node) (kept : Bool) (flags : List Bool) (s : τ) :
    (finish visit n kept flags s).1.node = (visit n s).1.getD n := by
  rw [finish_eq]
  cases (visit n s).1 <;> rfl

theorem forall₂_sweepAll (h : ∀ n ∈ body, ∀ s, R n (sweep visit n s).1) (s : τ) :
    List.Forall₂ R body (sweepAll visit body s).1 := by
  induction body generalizing s with
  | nil => exact .nil
  | cons n rest ih =>
    simp only [mem_cons, forall_eq_or_imp] at h
    exact .cons (h.1 s) (ih h.2 _)

/-- What holds of a node and its sweep whenever it holds of the parts and
theirs, holds of every tree. -/
theorem sweep_induction
    (step : ∀ (n : Node) (swept : List Swept) (s : τ), List.Forall₂ R n.subnodes swept →
      R n (finish visit (n.withParts (swept.map (·.node))) (swept.all (·.kept))
        (bodyFlags n swept) s).1)
    (n : Node) : ∀ s : τ, R n (sweep visit n s).1 := by
  induction n using Node.partsInduction with
  | step n ih =>
    intro s
    rw [sweep_eq]
    exact step n _ _ (forall₂_sweepAll ih s)

section Leaving

variable (visit)

/-- The state behind visits of nodes, one after the other. -/
def after (nodes : List Node) (s : τ) : τ := nodes.foldl (fun s n => (visit n s).2) s

/-- Whether visits of nodes, one after the other, leave all of them alone. -/
def leavesAll : List Node → τ → Bool
  | [], _ => true
  | n :: rest, s => (visit n s).1.isNone && leavesAll rest (visit n s).2

theorem after_append (xs ys : List Node) (s : τ) :
    after visit (xs ++ ys) s = after visit ys (after visit xs s) :=
  foldl_append

theorem leavesAll_append (xs ys : List Node) (s : τ) :
    leavesAll visit (xs ++ ys) s =
      (leavesAll visit xs s && leavesAll visit ys (after visit xs s)) := by
  induction xs generalizing s with
  | nil => rfl
  | cons n rest ih =>
    simp only [cons_append, leavesAll, ih, Bool.and_assoc]
    rfl

theorem leavesAll_iff {nodes : List Node} :
    leavesAll visit nodes s = true ↔
      ∀ before n rest, nodes = before ++ n :: rest → (visit n (after visit before s)).1 = none := by
  induction nodes generalizing s with
  | nil => simp [leavesAll]
  | cons n nodes ih =>
    rw [leavesAll, Bool.and_eq_true, Option.isNone_iff_eq_none, ih]
    constructor
    · rintro ⟨hn, hnodes⟩ before m rest h
      cases before with
      | nil =>
        cases h
        exact hn
      | cons first before =>
        cases h
        exact hnodes before m rest rfl
    · intro h
      exact ⟨h [] n nodes rfl,
        fun before m rest hnodes => h (n :: before) m rest (congrArg (n :: ·) hnodes)⟩

theorem unchanged_eq (n : Node) :
    Swept.unchanged n = ⟨n, true, bodyFlags n (n.subnodes.map .unchanged)⟩ := by
  cases n <;> simp [Swept.unchanged, Swept.bodyLength, bodyFlags, Node.isBody, Node.subnodes,
    Function.comp_def]

theorem withParts_unchanged (n : Node) :
    n.withParts ((n.subnodes.map Swept.unchanged).map (·.node)) = n := by
  have hnodes : (n.subnodes.map Swept.unchanged).map (·.node) = n.subnodes := by
    rw [map_map]
    exact map_id' n.subnodes
  rw [hnodes, Node.withParts_subnodes]

theorem all_kept_unchanged (body : List Node) : (body.map Swept.unchanged).all (·.kept) = true := by
  rw [all_map]
  exact all_eq_true.mpr fun _ _ => rfl

variable {visit}

theorem sweepAll_of_leavesAll
    (h : ∀ n ∈ body, ∀ s, leavesAll visit n.postorder s = true →
      sweep visit n s = (.unchanged n, after visit n.postorder s))
    (s : τ) (hall : leavesAll visit (Node.postorderAll body) s = true) :
    sweepAll visit body s = (body.map .unchanged, after visit (Node.postorderAll body) s) := by
  induction body generalizing s with
  | nil => rfl
  | cons n rest ih =>
    simp only [mem_cons, forall_eq_or_imp] at h
    rw [Node.postorderAll, leavesAll_append, Bool.and_eq_true] at hall
    rw [sweepAll_cons, h.1 s hall.1, ih h.2 _ hall.2, Node.postorderAll, after_append, map_cons]

/-- A sweep all of whose visits leave their nodes alone changes nothing. -/
theorem sweep_of_leavesAll (n : Node) :
    ∀ s : τ, leavesAll visit n.postorder s = true →
      sweep visit n s = (.unchanged n, after visit n.postorder s) := by
  induction n using Node.partsInduction with
  | step n ih =>
    intro s h
    rw [Node.postorder_eq, leavesAll_append, Bool.and_eq_true] at h
    obtain ⟨hparts, hn⟩ := h
    have hnone : (visit n (after visit (Node.postorderAll n.subnodes) s)).1 = none := by
      simpa [leavesAll] using hn
    rw [sweep_eq, sweepAll_of_leavesAll ih s hparts, withParts_unchanged, finish_of_none hnone,
      unchanged_eq, all_kept_unchanged, Node.postorder_eq, after_append]
    rfl

theorem leavesAll_of_all_kept
    (h : ∀ n ∈ body, ∀ s, (sweep visit n s).1.kept = true → leavesAll visit n.postorder s = true)
    (s : τ) (hall : (sweepAll visit body s).1.all (·.kept) = true) :
    leavesAll visit (Node.postorderAll body) s = true := by
  induction body generalizing s with
  | nil => rfl
  | cons n rest ih =>
    simp only [mem_cons, forall_eq_or_imp] at h
    rw [sweepAll_cons, all_cons, Bool.and_eq_true] at hall
    have hn : leavesAll visit n.postorder s = true := h.1 s hall.1
    have hrest := ih h.2 _ hall.2
    rw [sweep_of_leavesAll n s hn] at hrest
    rw [Node.postorderAll, leavesAll_append, hn, hrest]
    rfl

theorem leavesAll_of_kept (n : Node) :
    ∀ s : τ, (sweep visit n s).1.kept = true → leavesAll visit n.postorder s = true := by
  induction n using Node.partsInduction with
  | step n ih =>
    intro s h
    rw [sweep_eq, kept_finish, Bool.and_eq_true] at h
    obtain ⟨hn, hkept⟩ := h
    have hparts : leavesAll visit (Node.postorderAll n.subnodes) s = true :=
      leavesAll_of_all_kept ih s hkept
    rw [sweepAll_of_leavesAll (fun p _ => sweep_of_leavesAll p) s hparts, withParts_unchanged] at hn
    rw [Node.postorder_eq, leavesAll_append, hparts, leavesAll, hn]
    rfl

/-- A sweep changes nothing exactly when its visits leave all nodes alone. -/
theorem sweep_eq_unchanged_iff :
    (sweep visit n s).1 = .unchanged n ↔ leavesAll visit n.postorder s = true := by
  constructor
  · intro h
    exact leavesAll_of_kept n s (congrArg Swept.kept h)
  · intro h
    rw [sweep_of_leavesAll n s h]

end Leaving

end Simplify

end Eel
