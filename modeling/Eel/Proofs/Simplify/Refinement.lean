import Eel.Proofs.Simplify.Identity
import Eel.Proofs.Simplify.Rounds

/-!
A sweep in memory is a plain one.

If what the function does depends on the trees alone, and not on where they lie,
a sweep in memory gives the same tree by the same calls as one that puts every
node together anew. If it gives back another node only in the place of one that
is replaced, the flags of a sweep tell which nodes are the same.
-/

namespace Eel.Simplify

open Placed List

variable {σ τ υ : Type} {look : Memory τ → σ} {ρ : σ → υ → Prop} {visit' : Visit υ} {own : σ}

section Visits

variable {f : Rewriter τ} {visit : Visit σ}

/-- That a function does to trees in memory what a visit does to trees, where
the state of the visits can be seen in memory. -/
structure Matches (f : Rewriter τ) (visit : Visit σ) (look : Memory τ → σ) : Prop where
  grows : ∀ {m m' : Memory τ}, m.Grows m' → look m' = look m
  node : ∀ {t : Placed} {m : Memory τ}, t.LiesIn m.heap →
    (invoke f t m).1.toNode = (visit t.toNode (look m)).1.getD t.toNode
  state : ∀ {t : Placed} {m : Memory τ}, t.LiesIn m.heap →
    look (invoke f t m).2 = (visit t.toNode (look m)).2

/-- That what becomes of a tree in memory is what a sweep makes of it. -/
def Simulates (visit : Visit σ) (look : Memory τ → σ) (t : Placed) (m : Memory τ) (r : Placed)
    (m' : Memory τ) : Prop :=
  (sweep visit t.toNode (look m)).1.node = r.toNode ∧ (sweep visit t.toNode (look m)).2 = look m'

theorem Each.simulates (hmatches : Matches f visit look) {ts rs : List Placed} {m m' : Memory τ}
    (h : Each (Simulates visit look) ts m rs m') :
    (sweepAll visit (ts.map Placed.toNode) (look m)).1.map (·.node) = rs.map Placed.toNode ∧
      (sweepAll visit (ts.map Placed.toNode) (look m)).2 = look m' := by
  induction h with
  | nil m => exact ⟨rfl, rfl⟩
  | cons hr _ ih =>
    rw [map_cons, sweepAll_cons, hr.2]
    exact ⟨congrArg₂ List.cons hr.1 ih.1, ih.2⟩
  | more hgrows _ ih =>
    rw [← hmatches.grows hgrows]
    exact ih

theorem share_simulates (hf : IsSafe f) (hmatches : Matches f visit look) (t : Placed) :
    ∀ m : Memory τ, t.LiesIn m.heap → Simulates visit look t m (share f t m).1 (share f t m).2 := by
  refine share_induction hf ?_ t
  intro t m ps m₁ r ht heach hrebuilt
  obtain ⟨hnodes, hstate⟩ := Each.simulates hmatches (heach.imp fun _ _ _ _ _ h => h.2)
  rw [← subnodes_toNode] at hnodes hstate
  have hlook : look r.2 = look m₁ := hmatches.grows hrebuilt.grows
  rw [Simulates, sweep_eq, hnodes, ← hrebuilt.toNode, hstate, node_finish_run, finish_eq,
    hmatches.node hrebuilt.lies, hmatches.state hrebuilt.lies, hlook]
  exact ⟨rfl, rfl⟩

end Visits

section Recording

/-- A visit that also lists the nodes that it is called on. -/
def recorded (visit : Visit σ) : Visit (σ × List Node) := fun n s =>
  ((visit n s.1).1, (visit n s.1).2, s.2 ++ [n])

/-- The nodes on which a visit is called when every node is put together
anew. -/
def visited (visit : Visit σ) (n : Node) (s : σ) : List Node :=
  (rewrite (recorded visit) n (s, [])).2.2

theorem rewrite_run (visit : Visit σ) (n : Node) (s : σ) :
    rewrite visit n s = ((sweep visit n s).1.node, (sweep visit n s).2) := by
  rw [← node_sweep]
  rfl

variable {visit : Visit σ}

theorem sweepAll_related {body : List Node}
    (h : ∀ n ∈ body, ∀ s u, ρ s u →
      (sweep visit n s).1 = (sweep visit' n u).1 ∧ ρ (sweep visit n s).2 (sweep visit' n u).2)
    (s : σ) (u : υ) (hρ : ρ s u) :
    (sweepAll visit body s).1 = (sweepAll visit' body u).1 ∧
      ρ (sweepAll visit body s).2 (sweepAll visit' body u).2 := by
  induction body generalizing s u with
  | nil => exact ⟨rfl, hρ⟩
  | cons n rest ih =>
    simp only [mem_cons, forall_eq_or_imp] at h
    obtain ⟨hn, hρ⟩ := h.1 s u hρ
    obtain ⟨hrest, hρ⟩ := ih h.2 _ _ hρ
    rw [sweepAll_cons, sweepAll_cons]
    exact ⟨congrArg₂ List.cons hn hrest, hρ⟩

/-- Visits that do the same in related states sweep trees alike. -/
theorem sweep_related
    (hvisit : ∀ n s u, ρ s u → (visit n s).1 = (visit' n u).1 ∧ ρ (visit n s).2 (visit' n u).2)
    (n : Node) :
    ∀ s u, ρ s u → (sweep visit n s).1 = (sweep visit' n u).1 ∧
      ρ (sweep visit n s).2 (sweep visit' n u).2 := by
  induction n using Node.partsInduction with
  | step n ih =>
    intro s u hρ
    obtain ⟨hparts, hρ⟩ := sweepAll_related ih s u hρ
    obtain ⟨hn, hρ⟩ := hvisit (n.withParts ((sweepAll visit n.subnodes s).1.map (·.node))) _ _ hρ
    rw [sweep_eq, sweep_eq, finish_eq, finish_eq, ← hparts, hn]
    exact ⟨rfl, hρ⟩

theorem sweep_recorded (visit : Visit σ) (n : Node) (s : σ) (seen : List Node) :
    sweep (recorded visit) n (s, seen) =
      ((sweep visit n s).1, (sweep visit n s).2, seen ++ visited visit n s) := by
  -- Recording does not change the sweep, and what was seen before does not change the recording.
  have hvisit : ∀ n s u, s.1 = u →
      (recorded visit n s).1 = (visit n u).1 ∧ (recorded visit n s).2.1 = (visit n u).2 := by
    rintro n s - rfl
    exact ⟨rfl, rfl⟩
  have hlist : ∀ n s u, s.1 = u.1 ∧ s.2 = seen ++ u.2 →
      (recorded visit n s).1 = (recorded visit n u).1 ∧
        (recorded visit n s).2.1 = (recorded visit n u).2.1 ∧
        (recorded visit n s).2.2 = seen ++ (recorded visit n u).2.2 := by
    rintro n s u ⟨hs, hseen⟩
    simp [recorded, hs, hseen]
  have hstate := sweep_related hvisit n (s, seen) s rfl
  have hseen := sweep_related hlist n (s, seen) (s, []) ⟨rfl, (append_nil _).symm⟩
  rw [visited, rewrite_run]
  exact Prod.ext hstate.1 (Prod.ext hstate.2 hseen.2.2)

end Recording

/-- That a function does what a visit does, whatever lies where: `view` is the
state of the visits in that of the function. -/
structure Follows (f : Rewriter τ) (visit : Visit σ) (view : τ → σ) : Prop where
  node : ∀ {t : Placed} {heap : Heap} (own : τ), t.LiesIn heap →
    (f t (heap, own)).1.toNode = (visit t.toNode (view own)).1.getD t.toNode
  state : ∀ {t : Placed} {heap : Heap} (own : τ), t.LiesIn heap →
    view (f t (heap, own)).2.2 = (visit t.toNode (view own)).2

/-- That a function which follows a visit gives back what it was given when the
visit leaves a node alone, and something else otherwise, made of new nodes and
of nodes that were there. -/
structure Renews (f : Rewriter τ) (visit : Visit σ) (view : τ → σ) : Prop where
  same : ∀ {t : Placed} {heap : Heap} (own : τ), t.LiesIn heap →
    ((f t (heap, own)).1 = t ↔ (visit t.toNode (view own)).1 = none)
  nodes : ∀ {t : Placed} {heap : Heap} (own : τ), t.LiesIn heap →
    ∀ q ∈ (f t (heap, own)).1.nodes, q.IsNew heap ∨ q ∈ t.nodes

section Following

variable {f : Rewriter τ} {visit : Visit σ} {view : τ → σ}

theorem Follows.matches (h : Follows f visit view) : Matches f visit (fun m => view m.own) where
  grows hgrows := congrArg view hgrows.own
  node ht := h.node _ ht
  state ht := h.state _ ht

theorem Follows.matches_recorded (h : Follows f visit view) :
    Matches f (recorded visit) (fun m => (view m.own, m.calls.map (·.1.toNode))) where
  grows hgrows := by rw [hgrows.own, hgrows.calls]
  node ht := h.node _ ht
  state {t m} ht := Prod.ext (h.state _ ht) (by simp [invoke, recorded])

section Rebuilding

variable {t : Placed} {m m₁ : Memory τ} {ps : List Placed} {r : Placed × Memory τ}

/-- What a node that was put together refers to is new, or the node referred to
it before. -/
theorem Rebuilt.nodes_of_parts (h : Rebuilt m.heap t ps m₁ r)
    (hnodes : ∀ q ∈ nodesAll ps, q.IsNew m.heap ∨ q ∈ nodesAll t.parts) :
    ∀ q ∈ r.1.nodes, q = r.1 ∨ q.IsNew m.heap ∨ q ∈ nodesAll t.children := by
  intro q hq
  obtain heq | hnew | hpart | hchild := h.nodes q hq
  · exact .inl heq
  · exact .inr (.inl hnew)
  · obtain hnew | hpart := hnodes q hpart
    · exact .inr (.inl hnew)
    · obtain ⟨p, hp, hq⟩ := mem_nodesAll.mp hpart
      exact .inr (.inr (nodes_subset_of_mem_parts hp hq))
  · exact .inr (.inr hchild)

/-- What a function gives back is not the node that was there unless it was
given this node. -/
theorem Renews.eq_of_rebuilt (h : Renews f visit view) (ht : t.LiesIn m.heap)
    (hheap : m.heap <+: r.2.heap) (hrebuilt : Rebuilt m.heap t ps m₁ r)
    (hlength : ps.length = t.parts.length) (hnodes : ∀ q ∈ nodesAll ps, q.IsNew m.heap ∨
      q ∈ nodesAll t.parts) (heq : (invoke f r.1 r.2).1 = t) :
    r.1 = t := by
  by_cases hmissing : t.address? = none
  · obtain rfl := eq_missing_of_address? hmissing
    exact hrebuilt.kept (eq_nil_of_length_eq_zero hlength)
  · have hself : t ∈ (invoke f r.1 r.2).1.nodes := by
      rw [heq]
      exact mem_nodes_iff.mpr (.inl ⟨rfl, hmissing⟩)
    obtain hnew | hgiven := h.nodes r.2.own hrebuilt.lies t hself
    · exact absurd (hnew.mono hheap) ht.not_isNew
    · obtain hgiven | hnew | hchild := hrebuilt.nodes_of_parts hnodes t hgiven
      · exact hgiven.symm
      · exact absurd hnew ht.not_isNew
      · exact absurd hchild (not_mem_nodesAll_children t)

end Rebuilding

variable (hf : IsSafe f) (h : Follows f visit view)

include hf h

/-- A sweep in memory gives the tree and the state of one that puts every node
together anew, by the same calls. -/
theorem share_eq_rewrite {t : Placed} {m : Memory τ} (ht : t.LiesIn m.heap) :
    rewrite visit t.toNode (view m.own) = ((share f t m).1.toNode, view (share f t m).2.own) ∧
      (made f t m).map (·.1.toNode) = visited visit t.toNode (view m.own) := by
  obtain ⟨hnode, hstate⟩ := share_simulates hf h.matches t m ht
  have hseen : m.calls.map (·.1.toNode) ++ visited visit t.toNode (view m.own) =
      (share f t m).2.calls.map (·.1.toNode) := by
    have hrecorded := (share_simulates hf h.matches_recorded t m ht).2
    rw [sweep_recorded] at hrecorded
    exact congrArg Prod.snd hrecorded
  rw [(calls_made hf ht).1.calls, map_append, append_cancel_left_eq] at hseen
  rw [rewrite_run]
  exact ⟨Prod.ext hnode hstate, hseen.symm⟩

theorem sweep_of_rebuilt {t : Placed} {m m₁ : Memory τ} {ps : List Placed} {r : Placed × Memory τ}
    (heach : Each (Sweeps f) t.parts m ps m₁) (hrebuilt : Rebuilt m.heap t ps m₁ r) :
    sweep visit t.toNode (view m.own) =
      finish visit r.1.toNode ((sweepAll visit t.toNode.subnodes (view m.own)).1.all (·.kept))
        (bodyFlags t.toNode (sweepAll visit t.toNode.subnodes (view m.own)).1) (view r.2.own) := by
  obtain ⟨hnodes, hstate⟩ :=
    Each.simulates h.matches (heach.of_sweeps fun p _ => share_simulates hf h.matches p)
  rw [← subnodes_toNode] at hnodes hstate
  rw [sweep_eq, hnodes, hstate, ← hrebuilt.toNode, hrebuilt.grows.own]

/-- That a sweep tells whether a tree in memory stays the same, and what becomes
of it is new or was in it before. -/
structure Tells (visit : Visit σ) (view : τ → σ) (t : Placed) (m : Memory τ)
    (r : Placed) : Prop where
  kept : (sweep visit t.toNode (view m.own)).1.kept = true ↔ r = t
  nodes : ∀ q ∈ r.nodes, q.IsNew m.heap ∨ q ∈ t.nodes

theorem Each.tells {ts rs : List Placed} {m m' : Memory τ}
    (heach : Each (fun t m r m' => Sweeps f t m r m' ∧ Tells visit view t m r) ts m rs m') :
    ((sweepAll visit (ts.map Placed.toNode) (view m.own)).1.all (·.kept) = true ↔ rs = ts) ∧
      (sweepAll visit (ts.map Placed.toNode) (view m.own)).1.map (·.kept) =
        List.zipWith isSame rs ts ∧
      ∀ q ∈ nodesAll rs, q.IsNew m.heap ∨ q ∈ nodesAll ts := by
  induction heach with
  | nil m => simp [sweepAll_nil, nodesAll]
  | @cons t r ts rs m m₁ m' hr hrest ih =>
    obtain ⟨⟨hlies, hshare⟩, htells⟩ := hr
    obtain ⟨hall, hflags, hnodes⟩ := ih
    have hsound := share_sound hf t m hlies
    have hstate := (share_simulates hf h.matches t m hlies).2
    have hsame := isSame_share hsound hlies
    rw [hshare] at hsound hstate hsame
    rw [map_cons, sweepAll_cons, hstate]
    refine ⟨?_, ?_, ?_⟩
    · rw [all_cons, Bool.and_eq_true, htells.kept, hall, List.cons.injEq]
    · rw [map_cons, hflags, zipWith_cons_cons, Bool.eq_iff_iff.mpr (htells.kept.trans hsame.symm)]
    · intro q hq
      rw [nodesAll, mem_append] at hq ⊢
      obtain hq | hq := hq
      · exact (htells.nodes q hq).imp_right .inl
      · exact (hnodes q hq).imp (·.mono hsound.grows) .inr
  | more hgrows _ ih =>
    rw [← hgrows.own]
    exact ⟨ih.1, ih.2.1, fun q hq => (ih.2.2 q hq).imp_left (·.mono hgrows.heap)⟩

/-- The flags of a sweep tell which trees stay the same. -/
theorem share_tells (hrenews : Renews f visit view) (t : Placed) :
    ∀ m : Memory τ, t.LiesIn m.heap → Tells visit view t m (share f t m).1 := by
  refine share_induction hf (R := fun t m r _ => Tells visit view t m r) ?_ t
  intro t m ps m₁ r ht heach hrebuilt
  obtain ⟨hall, -, hnodes⟩ := heach.tells hf h
  have hsweeps := heach.imp fun _ _ _ _ _ h => h.1
  have hheap : m.heap <+: r.2.heap :=
    (Each.sound (hsweeps.of_sweeps fun p _ => share_sound hf p)).1.trans hrebuilt.grows.heap
  have hsame := hrenews.same r.2.own hrebuilt.lies
  refine ⟨?_, ?_⟩
  · rw [sweep_of_rebuilt hf h hsweeps hrebuilt, kept_finish, Bool.and_eq_true,
      Option.isNone_iff_eq_none, ← hsame, subnodes_toNode, hall]
    constructor
    · rintro ⟨hgiven, hps⟩
      exact hgiven.trans (hrebuilt.kept hps)
    · intro heq
      have hgiven : r.1 = t := hrenews.eq_of_rebuilt ht hheap hrebuilt heach.length hnodes heq
      exact ⟨heq.trans hgiven.symm, hrebuilt.parts.symm.trans (congrArg Placed.parts hgiven)⟩
  · intro q hq
    obtain hnew | hgiven := hrenews.nodes r.2.own hrebuilt.lies q hq
    · exact .inl (hnew.mono hheap)
    · obtain rfl | hnew | hchild := hrebuilt.nodes_of_parts hnodes q hgiven
      · by_cases hps : ps = t.parts
        · rw [hrebuilt.kept hps] at hgiven ⊢
          exact .inr hgiven
        · exact .inl (hrebuilt.new hps)
      · exact .inl hnew
      · exact .inr (mem_nodes_iff.mpr (.inr (mem_nodesAll.mp hchild)))

/-- Where the function gives back the node that it is given, the flags of a body
tell which of its trees stay the same. -/
theorem bodyKept_of_made (hrenews : Renews f visit view) {t r : Placed} {m : Memory τ}
    (ht : t.LiesIn m.heap) (hbody : t.toNode.isBody = true)
    (hlast : (made f t m).getLast? = some (r, r)) :
    (sweep visit t.toNode (view m.own)).1.bodyKept = List.zipWith isSame r.parts t.parts := by
  obtain ⟨ps, m₁, r', hsweeps, hrebuilt, hshare⟩ := share_step (fun p _ => share_sound hf p) ht
  rw [made_of_step hf hsweeps hrebuilt hshare, getLast?_concat, Option.some.injEq, Prod.mk.injEq]
    at hlast
  obtain ⟨rfl, hgiven⟩ := hlast
  have hnone : (visit r'.1.toNode (view r'.2.own)).1 = none := by
    rw [← hrenews.same r'.2.own hrebuilt.lies]
    rwa [hshare] at hgiven
  have htells : Each (fun t m r m' => Sweeps f t m r m' ∧ Tells visit view t m r) t.parts m ps m₁ :=
    hsweeps.of_sweeps fun p _ m hlies => ⟨⟨hlies, rfl⟩, share_tells hf h hrenews p m hlies⟩
  rw [sweep_of_rebuilt hf h hsweeps hrebuilt, finish_of_none hnone, bodyFlags, hbody, if_pos rfl,
    subnodes_toNode, (htells.tells hf h).2.1, hrebuilt.parts]

end Following

section Placing

variable {visit : Visit σ} {t : Placed}

/-- The function that does what a visit does and puts every replacement into
memory. -/
def placing (visit : Visit σ) : Rewriter σ := fun t s =>
  match visit t.toNode s.2 with
  | (none, own) => (t, s.1, own)
  | (some n, own) => ((place n s.1).1, (place n s.1).2, own)

theorem placing_cases (visit : Visit σ) (t : Placed) (heap : Heap) (own : σ) :
    ((visit t.toNode own).1 = none ∧
      placing visit t (heap, own) = (t, heap, (visit t.toNode own).2)) ∨
      ∃ n, (visit t.toNode own).1 = some n ∧
        placing visit t (heap, own) =
          ((place n heap).1, (place n heap).2, (visit t.toNode own).2) := by
  rw [placing]
  rcases visit t.toNode own with ⟨_ | n, own'⟩
  · exact .inl ⟨rfl, rfl⟩
  · exact .inr ⟨n, rfl, rfl⟩

theorem placing_isSafe (visit : Visit σ) : IsSafe (placing visit) where
  grows {t heap} own _ := by
    obtain ⟨-, h⟩ | ⟨n, -, h⟩ := placing_cases visit t heap own <;> rw [h]
    exact (place_lands n heap).grows
  lies {t heap} own ht := by
    obtain ⟨-, h⟩ | ⟨n, -, h⟩ := placing_cases visit t heap own <;> rw [h]
    · exact ht
    · exact (place_lands n heap).lies

theorem placing_follows (visit : Visit σ) : Follows (placing visit) visit id where
  node {t heap} own _ := by
    obtain ⟨hvisit, h⟩ | ⟨n, hvisit, h⟩ := placing_cases visit t heap own <;> rw [h, id_eq, hvisit]
    · rfl
    · exact (place_lands n heap).toNode
  state {t heap} own _ := by
    obtain ⟨-, h⟩ | ⟨n, -, h⟩ := placing_cases visit t heap own <;> rw [h] <;> rfl

/-- What is put in the place of a node is another one, unless there is no node
in either place. -/
theorem placing_renews (hvisit : ∀ n s, (visit n s).1 ≠ some .missing) :
    Renews (placing visit) visit id where
  same {t heap} own ht := by
    obtain ⟨hnone, h⟩ | ⟨n, hsome, h⟩ := placing_cases visit t heap own <;> rw [h, id_eq]
    · simp [hnone]
    · have hlands := place_lands n heap
      refine iff_of_false ?_ (by simp [hsome])
      intro heq
      change (place n heap).1 = t at heq
      have hn : t.toNode = n := heq ▸ hlands.toNode
      have hnew : ∀ q ∈ t.nodes, q.IsNew heap := heq ▸ hlands.new
      by_cases hmissing : t.address? = none
      · rw [eq_missing_of_address? hmissing, Placed.toNode] at hn
        exact hvisit _ _ (hn ▸ hsome)
      · exact ht.not_isNew (hnew t (mem_nodes_iff.mpr (.inl ⟨rfl, hmissing⟩)))
  nodes {t heap} own ht q hq := by
    obtain ⟨-, h⟩ | ⟨n, -, h⟩ := placing_cases visit t heap own <;> rw [h] at hq
    · exact .inr hq
    · exact .inl ((place_lands n heap).new q hq)

end Placing

/-- That a sweep in memory does what a visit says, as a sweep that puts every
node together anew does. -/
structure Rewrites (f : Rewriter τ) (visit : Visit σ) (view : τ → σ) (t : Placed)
    (m : Memory τ) : Prop where
  result : rewrite visit t.toNode (view m.own) = ((share f t m).1.toNode, view (share f t m).2.own)
  calls : (made f t m).map (·.1.toNode) = visited visit t.toNode (view m.own)
  node : (sweep visit t.toNode (view m.own)).1.node = (share f t m).1.toNode
  /-- If the function gives back another node exactly when the visit does, the
  flags of the sweep tell which nodes are the same. -/
  kept : Renews f visit view → (sweep visit t.toNode (view m.own)).1.kept = (share f t m).1.isSame t
  bodyKept : Renews f visit view → t.toNode.isBody = true →
    ∀ r, (made f t m).getLast? = some (r, r) →
    (sweep visit t.toNode (view m.own)).1.bodyKept = List.zipWith isSame r.parts t.parts

/-- A sweep in memory shares every tree that the function leaves alone, and is
otherwise a sweep that puts every node together anew: the function is called on
the same nodes in the same order, and the same tree comes out. -/
theorem share_refines_rewrite {f : Rewriter τ} (hf : IsSafe f) {t : Placed} {m : Memory τ}
    (ht : t.LiesIn m.heap) :
    Shares f t m ∧ ∀ {σ : Type} (visit : Visit σ) (view : τ → σ), Follows f visit view →
      Rewrites f visit view t m := by
  refine ⟨share_shares hf ht, ?_⟩
  intro σ visit view hfollows
  obtain ⟨hresult, hcalls⟩ := share_eq_rewrite hf hfollows ht
  refine ⟨hresult, hcalls, (share_simulates hf hfollows.matches t m ht).1, ?_, ?_⟩
  · intro hrenews
    exact Bool.eq_iff_iff.mpr ((share_tells hf hfollows hrenews t m ht).kept.trans
      (isSame_share (share_sound hf t m ht) ht).symm)
  · intro hrenews hbody r hlast
    exact bodyKept_of_made hf hfollows hrenews ht hbody hlast

section Copies

/-- A script of three statements, of which a propagation changes the second:
`x = 0; y = x; z = w`. -/
def copies : Node :=
  .script [.assign .set (.ident ⟨utf8 "x", .none⟩) (.number .zero .none) .none,
    .assign .set (.ident ⟨utf8 "y", .none⟩) (.ident ⟨utf8 "x", .none⟩) .none,
    .assign .set (.ident ⟨utf8 "z", .none⟩) (.ident ⟨utf8 "w", .none⟩) .none] .none

/-- The script in memory, and memory before it is swept. -/
def copiesPlaced : Placed × Memory Known := ((place copies []).1, ⟨(place copies []).2, [], []⟩)

/-- Its third statement. -/
def thirdCopy : Placed :=
  .assign 8 .set (.ident 6 ⟨utf8 "z", .none⟩) (.ident 7 ⟨utf8 "w", .none⟩) .none

theorem share_refines_rewrite_copies :
    IsSafe (placing visitKnown) ∧ copiesPlaced.1.LiesIn copiesPlaced.2.heap ∧
    Follows (placing visitKnown) visitKnown id ∧ Renews (placing visitKnown) visitKnown id ∧
    (∀ c ∈ callsAt (placing visitKnown) copiesPlaced.1 copiesPlaced.2 4 thirdCopy, c.2 = c.1) ∧
    ∃ r, (made (placing visitKnown) copiesPlaced.1 copiesPlaced.2).getLast? = some (r, r) ∧
      r.parts[2]? = some thirdCopy ∧
      List.zipWith isSame r.parts copiesPlaced.1.parts = [true, false, true] ∧
      (share (placing visitKnown) copiesPlaced.1 copiesPlaced.2).1.isSame copiesPlaced.1 =
        false := by
  have hsafe := placing_isSafe visitKnown
  have hlies : copiesPlaced.1.LiesIn copiesPlaced.2.heap := (place_lands copies []).lies
  have hfollows := placing_follows visitKnown
  have hrenews : Renews (placing visitKnown) visitKnown id := by
    refine placing_renews fun n s h => ?_
    obtain ⟨-, -, value, span, hnumber⟩ := visitKnown_sparesEffects h
    cases hnumber
  have hsame :
      ∀ c ∈ callsAt (placing visitKnown) copiesPlaced.1 copiesPlaced.2 4 thirdCopy, c.2 = c.1 := by
    have hcalls : callsAt (placing visitKnown) copiesPlaced.1 copiesPlaced.2 4 thirdCopy =
        [(.ident 7 ⟨utf8 "w", .none⟩, .ident 7 ⟨utf8 "w", .none⟩), (thirdCopy, thirdCopy)] := rfl
    simp [hcalls]
  obtain ⟨hshares, hrewrites⟩ := share_refines_rewrite hsafe hlies
  have hrewrites := hrewrites visitKnown id hfollows
  have hparts : copiesPlaced.1.parts = copiesPlaced.1.parts.take 2 ++ [thirdCopy] := rfl
  obtain ⟨c, hlast, hthird⟩ := hshares.part .self hparts hsame
  obtain ⟨r, hgiven⟩ :
      ∃ r, (made (placing visitKnown) copiesPlaced.1 copiesPlaced.2).getLast? = some (r, r) :=
    ⟨_, rfl⟩
  have hall : callsAt (placing visitKnown) copiesPlaced.1 copiesPlaced.2 0 copiesPlaced.1 =
      made (placing visitKnown) copiesPlaced.1 copiesPlaced.2 := rfl
  obtain rfl : (r, r) = c :=
    Option.some.inj ((hgiven.symm.trans (congrArg List.getLast? hall).symm).trans hlast)
  have hflags : (sweep visitKnown copiesPlaced.1.toNode []).1.bodyKept = [true, false, true] := by
    decide +kernel
  have hkept : (sweep visitKnown copiesPlaced.1.toNode []).1.kept = false := by decide +kernel
  exact ⟨hsafe, hlies, hfollows, hrenews, hsame, r, hgiven, hthird,
    (hrewrites.bodyKept hrenews rfl r hgiven).symm.trans hflags,
    (hrewrites.kept hrenews).symm.trans hkept⟩

end Copies

end Eel.Simplify
