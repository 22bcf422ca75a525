import Eel.Proofs.Simplify.Reduction
import Eel.Proofs.Steps

/-!
Rounds come to an end.

A round that changes a tree takes a variable that is read or an operator away
and puts none back. So there are no more rounds than a tree has of these, and
one that changes nothing. That last round is what ends simplifying, unless the
limit is too low; behind it there is nothing left to do.
-/

namespace Eel

open List

namespace Node

/-- Whether a number can come into the place of a node: whether it reads a
variable or is an operator with one or two operands. -/
def isPending : Node → Bool
  | ident _ | unary .. | binary .. => true
  | _ => false

def pendingAll (body : List Node) : Nat := (preorderAll body).countP isPending

/-- The number of variables that are read and of operators with one or two
operands. -/
def pending (n : Node) : Nat := n.preorder.countP isPending

theorem pending_eq (n : Node) : n.pending = n.heads.countP isPending + pendingAll n.subnodes := by
  rw [pending, preorder_eq, countP_append, pendingAll]

theorem pendingAll_cons (n : Node) (rest : List Node) :
    pendingAll (n :: rest) = n.pending + pendingAll rest := by
  rw [pendingAll, preorderAll, countP_append, pending, pendingAll]

variable {n : Node} {ps : List Node}

theorem countP_heads_frame (n : Node) :
    n.frame.heads.countP isPending = n.heads.countP isPending := by
  cases n with
  | assign op target value span =>
    cases target <;> simp [frame, subnodes, withParts, heads, isPending]
  | _ => rfl

theorem pending_withParts (h : ps.length = n.subnodes.length) :
    (n.withParts ps).pending + pendingAll n.subnodes = n.pending + pendingAll ps := by
  rw [pending_eq, pending_eq, subnodes_withParts h, ← countP_heads_frame, frame_withParts h,
    countP_heads_frame]
  omega

theorem pending_pos_of_isArithmetic (h : n.isArithmetic = true)
    (hn : ∀ value span, n ≠ .number value span) : 0 < n.pending := by
  cases n with
  | number value span => exact absurd rfl (hn value span)
  | ident | unary | binary => simp [pending, preorder, isPending]
  | _ => cases h

end Node

namespace Simplify

variable {n : Node}

/-- That a swept tree has no more to replace than before, and less if it was
changed. -/
structure Shrinks (n : Node) (r : Swept) : Prop where
  le : r.node.pending ≤ n.pending
  lt : r.kept = false → r.node.pending < n.pending

theorem pendingAll_of_shrinks {body : List Node} {swept : List Swept}
    (h : List.Forall₂ Shrinks body swept) :
    Node.pendingAll (swept.map (·.node)) ≤ Node.pendingAll body ∧
      (swept.all (·.kept) = false →
        Node.pendingAll (swept.map (·.node)) < Node.pendingAll body) := by
  induction h with
  | nil => exact ⟨Nat.le_refl _, fun h => absurd h Bool.noConfusion⟩
  | @cons n r body swept hn _ ih =>
    simp only [map_cons, Node.pendingAll_cons, all_cons, Bool.and_eq_false_iff]
    refine ⟨Nat.add_le_add hn.le ih.1, ?_⟩
    rintro (hr | hrest)
    · exact Nat.add_lt_add_of_lt_of_le (hn.lt hr) ih.1
    · exact Nat.add_lt_add_of_le_of_lt hn.le (ih.2 hrest)

variable {τ : Type} {visit : Visit τ}

theorem sweep_shrinks (hvisit : SparesEffects visit) (n : Node) (s : τ) :
    Shrinks n (sweep visit n s).1 := by
  refine sweep_induction ?_ n s
  intro n swept s hswept
  have hlength : (swept.map (·.node)).length = n.subnodes.length := by
    rw [length_map, hswept.length_eq]
  have hpending := Node.pending_withParts hlength
  have hparts := pendingAll_of_shrinks hswept
  cases h : (visit (n.withParts (swept.map (·.node))) s).1 with
  | none =>
    rw [finish_of_none h]
    refine ⟨?_, fun hkept => ?_⟩
    · change (n.withParts (swept.map (·.node))).pending ≤ n.pending
      omega
    · have hless := hparts.2 hkept
      change (n.withParts (swept.map (·.node))).pending < n.pending
      omega
  | some m =>
    obtain ⟨harithmetic, hnumber, value, span, rfl⟩ := hvisit h
    have hpos := Node.pending_pos_of_isArithmetic harithmetic hnumber
    rw [finish_of_some h]
    have hzero : (Node.number value span).pending = 0 := rfl
    refine ⟨?_, fun _ => ?_⟩
    · change (Node.number value span).pending ≤ n.pending
      omega
    · change (Node.number value span).pending < n.pending
      omega

theorem sweep_of_kept {s : τ} (h : (sweep visit n s).1.kept = true) :
    (sweep visit n s).1 = .unchanged n := by
  rw [sweep_of_leavesAll n s (leavesAll_of_kept n s h)]

variable (division : Division)

/-- The tree behind a round. -/
abbrev next (n : Node) : Node := (round division n).node

variable {division}

theorem round_shrinks (n : Node) : Shrinks n (round division n) := by
  have hknown : Shrinks n (propagate n) := sweep_shrinks visitKnown_sparesEffects n []
  have hfolded : Shrinks (propagate n).node (fold division (propagate n).node) :=
    sweep_shrinks (visitFolded_sparesEffects division) _ ()
  refine ⟨Nat.le_trans hfolded.le hknown.le, fun hkept => ?_⟩
  have hround : ((propagate n).kept && (fold division (propagate n).node).kept) = false := hkept
  obtain h | h := Bool.and_eq_false_iff.mp hround
  · exact Nat.lt_of_le_of_lt hfolded.le (hknown.lt h)
  · exact Nat.lt_of_lt_of_le (hfolded.lt h) hknown.le

theorem followedBy_unchanged (n : Node) :
    (Swept.unchanged n).followedBy (.unchanged n) = .unchanged n := by
  simp [Swept.followedBy, Swept.unchanged]

/-- A round that keeps a tree changes nothing in it. -/
theorem round_of_kept (h : (round division n).kept = true) : round division n = .unchanged n := by
  have hround : ((propagate n).kept && (fold division (propagate n).node).kept) = true := h
  rw [Bool.and_eq_true] at hround
  have hknown : propagate n = .unchanged n := sweep_of_kept hround.1
  have hfolded : fold division (propagate n).node = .unchanged (propagate n).node :=
    sweep_of_kept hround.2
  rw [hknown] at hfolded
  change (propagate n).followedBy (fold division (propagate n).node) = _
  rw [hknown, hfolded]
  exact followedBy_unchanged n

/-- That the rounds up to a number change the tree, each the one that the rounds
before it leave, and the next one changes nothing. -/
structure StopsBehind (division : Division) (n : Node) (k : Nat) : Prop where
  changes : ∀ j < k, (round division ((next division)^[j] n)).kept = false
  keeps : (round division ((next division)^[k] n)).kept = true

theorem StopsBehind.succ {k : Nat} (hn : (round division n).kept = false)
    (h : StopsBehind division (next division n) k) : StopsBehind division n (k + 1) where
  changes j hj := by
    cases j with
    | zero => exact hn
    | succ j => exact h.changes j (Nat.lt_of_succ_lt_succ hj)
  keeps := h.keeps

theorem rounds_stop (remaining done : Nat) (reached : Swept)
    (h : reached.node.pending < remaining) :
    ∃ k ≤ reached.node.pending, StopsBehind division reached.node k ∧
      (rounds division remaining done reached).1.node = (next division)^[k] reached.node ∧
      (rounds division remaining done reached).2 = done + k + 1 := by
  induction remaining generalizing done reached with
  | zero => exact absurd h (Nat.not_lt_zero _)
  | succ remaining ih =>
    rw [rounds]
    cases hkept : (round division reached.node).kept with
    | true => exact ⟨0, Nat.zero_le _, ⟨fun j hj => absurd hj (Nat.not_lt_zero j), hkept⟩, rfl, rfl⟩
    | false =>
      have hless : (next division reached.node).pending < reached.node.pending :=
        (round_shrinks _).lt hkept
      obtain ⟨k, hk, hstops, hnode, hcount⟩ :=
        ih (done + 1) (reached.followedBy (round division reached.node)) (by
          change (next division reached.node).pending < remaining
          omega)
      refine ⟨k + 1, ?_, hstops.succ hkept, hnode, ?_⟩
      · exact Nat.le_trans (Nat.succ_le_succ hk) hless
      · exact hcount.trans (by omega)

theorem roundLimit_pos (limit : Int) : 0 < roundLimit limit := by
  unfold roundLimit defaultRounds
  split <;> omega

/-- What a round keeps is left alone, in one round. -/
theorem run_of_kept (h : (round division n).kept = true) (limit : Int) :
    run division limit n = (.unchanged n, 1) := by
  obtain ⟨remaining, hremaining⟩ := Nat.exists_eq_succ_of_ne_zero (roundLimit_pos limit).ne'
  have hround : (round division (Swept.unchanged n).node).kept = true := h
  rw [run, hremaining, rounds]
  exact if_pos hround

/-- Simplifying comes to an end by itself. A round that changes a tree leaves
fewer variables that are read and fewer operators with one or two operands, and
one that does not leaves the tree itself. So under a limit above the number of
these, there are at most as many rounds that change something; the one behind
them changes nothing and is the last. Simplifying what is left then changes
nothing, in one round. -/
theorem run_reaches_fixpoint (division : Division) (n : Node) :
    ((round division n).kept = false → (next division n).pending < n.pending) ∧
    ((round division n).kept = true → round division n = .unchanged n) ∧
    ∀ limit : Int, n.pending < roundLimit limit →
      ∃ k ≤ n.pending, StopsBehind division n k ∧
        (run division limit n).1.node = (next division)^[k] n ∧ (run division limit n).2 = k + 1 ∧
        ∀ again : Int,
          run division again (run division limit n).1.node =
            (.unchanged (run division limit n).1.node, 1) := by
  refine ⟨(round_shrinks n).lt, round_of_kept, ?_⟩
  intro limit hlimit
  obtain ⟨k, hk, hstops, hnode, hcount⟩ := rounds_stop (roundLimit limit) 0 (.unchanged n) hlimit
  replace hnode : (run division limit n).1.node = (next division)^[k] n := hnode
  refine ⟨k, hk, hstops, hnode, hcount.trans (by omega), fun again => ?_⟩
  rw [hnode]
  exact run_of_kept hstops.keeps again

/-- Three assignments, each of which needs the number that the one before it
stores. -/
def chain : Bytes := utf8 "a = 1; b = a + 1; c = b * 2"

theorem run_reaches_fixpoint_chain :
    ∃ script, Script.parse chain = .ok script ∧ script.toNode.pending = 4 ∧
    (round .ieee script.toNode).kept = false ∧
    (next .ieee script.toNode).pending < script.toNode.pending ∧
    ∃ k ≤ 4, StopsBehind .ieee script.toNode k ∧
      round .ieee ((next .ieee)^[k] script.toNode) = .unchanged ((next .ieee)^[k] script.toNode) ∧
      (run .ieee 5 script.toNode).2 = k + 1 ∧ k = 2 ∧
      run .ieee 0 (run .ieee 5 script.toNode).1.node =
        (.unchanged (run .ieee 5 script.toNode).1.node, 1) := by
  have hok : (Script.parse chain).isOk = true := by decide +kernel
  have hpending : (Script.parse chain).toOption.all (fun s => s.toNode.pending == 4) = true := by
    decide +kernel
  have hkept : (Script.parse chain).toOption.all (fun s => !(round .ieee s.toNode).kept) =
      true := by decide +kernel
  have hrounds :
      (Script.parse chain).toOption.all (fun s => (run .ieee 5 s.toNode).2 == 3) = true := by
    decide +kernel
  obtain ⟨script, hscript⟩ := Except.exists_ok_of_isOk hok
  rw [hscript] at hpending hkept hrounds
  replace hpending : script.toNode.pending = 4 := by simpa [Except.toOption] using hpending
  replace hkept : (round .ieee script.toNode).kept = false := by simpa [Except.toOption] using hkept
  replace hrounds : (run .ieee 5 script.toNode).2 = 3 := by simpa [Except.toOption] using hrounds
  obtain ⟨hshrinks, -, hstop⟩ := run_reaches_fixpoint .ieee script.toNode
  obtain ⟨k, hk, hstops, -, hcount, hagain⟩ := hstop 5 (hpending ▸ by decide)
  obtain ⟨-, hunchanged, -⟩ := run_reaches_fixpoint .ieee ((next .ieee)^[k] script.toNode)
  exact ⟨script, hscript, hpending, hkept, hshrinks hkept, k, hpending ▸ hk, hstops,
    hunchanged hstops.keeps, hcount, by omega, hagain 0⟩

end Simplify

end Eel
