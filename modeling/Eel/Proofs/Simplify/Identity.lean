import Eel.Proofs.Simplify.Sharing

/-!
What a sweep in memory leaves alone.

Whatever the function does, it is called on the nodes of a tree in the order in
which they are left. The calls for a tree in another one are those of a sweep of
that tree. So a tree on which the function gives back all that it is given is
that tree itself, also as a part of a larger one that changes.
-/

namespace Eel

open Node List

variable {new : List (Placed × Placed)} {trees : List Node} {k : Nat}

namespace Simplify

open Placed

variable {σ τ : Type}

/-- The calls that a sweep of a tree makes. -/
def made (f : Rewriter τ) (t : Placed) (m : Memory τ) : List (Placed × Placed) :=
  (share f t m).2.calls.drop m.calls.length

/-- That a tree is in another one, behind so many nodes that are left before its
own. -/
inductive Occurs (u : Placed) : Nat → Placed → Prop
  | self : Occurs u 0 u
  | part {t p : Placed} {k : Nat} {before rest : List Placed}
      (hparts : t.parts = before ++ p :: rest)
      (h : Occurs u k p) : Occurs u ((postorderAll (before.map Placed.toNode)).length + k) t

/-- Of the calls that a sweep of a tree makes, those for a tree in it. -/
def callsAt (f : Rewriter τ) (t : Placed) (m : Memory τ) (k : Nat) (u : Placed) :
    List (Placed × Placed) :=
  ((made f t m).drop k).take u.toNode.postorder.length

/-- Where the calls for a tree in another one are those of a sweep of it, so are
the calls for whatever is in it. -/
theorem callsAt_eq {f : Rewriter τ} {t u p : Placed} {m m' : Memory τ} {j : Nat}
    (h : callsAt f t m k u = made f u m')
    (hle : j + p.toNode.postorder.length ≤ u.toNode.postorder.length) :
    callsAt f t m (k + j) p = callsAt f u m' j p := by
  rw [callsAt] at h
  rw [callsAt, callsAt, ← h, drop_take, take_take, drop_drop]
  congr 1
  omega

theorem Occurs.length_le {t u : Placed} (h : Occurs u k t) :
    k + u.toNode.postorder.length ≤ t.toNode.postorder.length := by
  induction h with
  | self => rw [Nat.zero_add]
  | @part t p k before rest hparts _ ih =>
    have htree :
        t.toNode.subnodes = before.map Placed.toNode ++ p.toNode :: rest.map Placed.toNode := by
      rw [subnodes_toNode, hparts, map_append, map_cons]
    rw [postorder_eq t.toNode, htree, postorderAll_append, postorderAll]
    simp only [length_append]
    omega

section Each

variable {R : Placed → Memory τ → Placed → Memory τ → Prop} {ts us rs : List Placed} {t : Placed}
  {m m' : Memory τ}

theorem Each.length (h : Each R ts m rs m') : rs.length = ts.length := by
  induction h with
  | nil m => rfl
  | cons _ _ ih => rw [length_cons, ih, length_cons]
  | more _ _ ih => exact ih

theorem Each.of_append (h : Each R (ts ++ us) m rs m') :
    ∃ rs₁ rs₂ m₁, rs = rs₁ ++ rs₂ ∧ Each R ts m rs₁ m₁ ∧ Each R us m₁ rs₂ m' := by
  generalize hts : ts ++ us = all at h
  induction h generalizing ts with
  | nil m =>
    obtain ⟨rfl, rfl⟩ := append_eq_nil_iff.mp hts
    exact ⟨[], [], m, rfl, .nil m, .nil m⟩
  | cons hr hrest ih =>
    cases ts with
    | nil =>
      obtain rfl : us = _ := hts
      exact ⟨[], _, _, rfl, .nil _, .cons hr hrest⟩
    | cons t ts =>
      obtain ⟨rfl, htail⟩ := List.cons.inj hts
      obtain ⟨rs₁, rs₂, m₁, rfl, h₁, h₂⟩ := ih htail
      exact ⟨_ :: rs₁, rs₂, m₁, rfl, .cons hr h₁, h₂⟩
  | more hgrows _ ih =>
    obtain ⟨rs₁, rs₂, m₁, rfl, h₁, h₂⟩ := ih hts
    exact ⟨rs₁, rs₂, m₁, rfl, .more hgrows h₁, h₂⟩

theorem Each.of_cons (h : Each R (t :: ts) m rs m') :
    ∃ m₁ r m₂ rest, rs = r :: rest ∧ m.Grows m₁ ∧ R t m₁ r m₂ ∧ Each R ts m₂ rest m' := by
  generalize hts : t :: ts = all at h
  induction h with
  | nil m => cases hts
  | cons hr hrest ih =>
    obtain ⟨rfl, rfl⟩ := List.cons.inj hts
    exact ⟨_, _, _, _, rfl, .refl _, hr, hrest⟩
  | more hgrows _ ih =>
    obtain ⟨m₁, r, m₂, rest, rfl, hmore, hr, hrest⟩ := ih hts
    exact ⟨m₁, r, m₂, rest, rfl, hgrows.trans hmore, hr, hrest⟩

end Each

/-- The calls that a sweep makes on trees are one for each node, in the order in
which they are left. -/
structure Calls (trees : List Node) (m m' : Memory τ) (new : List (Placed × Placed)) : Prop where
  calls : m'.calls = m.calls ++ new
  order : new.map (·.1.toNode.frame) = (postorderAll trees).map frame

theorem Calls.length {m m' : Memory τ} (h : Calls trees m m' new) :
    new.length = (postorderAll trees).length := by
  simpa using congrArg List.length h.order

theorem Calls.append {xs ys : List Node} {m m₁ m' : Memory τ} {new' : List (Placed × Placed)}
    (h : Calls xs m m₁ new) (h' : Calls ys m₁ m' new') : Calls (xs ++ ys) m m' (new ++ new') where
  calls := by rw [h'.calls, h.calls, append_assoc]
  order := by rw [map_append, h.order, h'.order, postorderAll_append, map_append]

theorem Calls.of_grows {m m₁ m' : Memory τ} (hgrows : m.Grows m₁) (h : Calls trees m₁ m' new) :
    Calls trees m m' new :=
  ⟨by rw [h.calls, hgrows.calls], h.order⟩

/-- That a tree becomes another by such calls, and stays itself if all of them
give back what they were given. -/
def Traced (t : Placed) (m : Memory τ) (r : Placed) (m' : Memory τ) : Prop :=
  ∃ new, Calls [t.toNode] m m' new ∧ ((∀ c ∈ new, c.2 = c.1) → r = t)

theorem Each.calls {ts rs : List Placed} {m m' : Memory τ} (h : Each Traced ts m rs m') :
    ∃ new, Calls (ts.map Placed.toNode) m m' new ∧ ((∀ c ∈ new, c.2 = c.1) → rs = ts) := by
  induction h with
  | nil m => exact ⟨[], ⟨(append_nil _).symm, rfl⟩, fun _ => rfl⟩
  | cons hr _ ih =>
    obtain ⟨new, hnew, heq⟩ := hr
    obtain ⟨rest, hrest, hrests⟩ := ih
    refine ⟨new ++ rest, hnew.append hrest, ?_⟩
    intro hall
    simp only [mem_append, or_imp, forall_and] at hall
    rw [heq hall.1, hrests hall.2]
  | more hgrows _ ih =>
    obtain ⟨new, hnew, heq⟩ := ih
    exact ⟨new, hnew.of_grows hgrows, heq⟩

section Safe

variable {f : Rewriter τ} (hf : IsSafe f) {t : Placed} {m : Memory τ}

include hf

/-- A sweep calls the function on every node, each behind its parts. If the
function always gives back what it was given, the tree comes back as it is. -/
theorem share_traced (t : Placed) :
    ∀ m : Memory τ, t.LiesIn m.heap → Traced t m (share f t m).1 (share f t m).2 := by
  refine share_induction hf ?_ t
  intro t m ps m₁ r ht heach hrebuilt
  obtain ⟨new, hnew, heq⟩ := Each.calls (heach.imp fun _ _ _ _ _ h => h.2)
  have hframe : r.1.toNode.frame = t.toNode.frame := by
    rw [hrebuilt.toNode, frame_withParts]
    rw [length_map, heach.length, subnodes_toNode, length_map]
  refine ⟨new ++ [(r.1, (invoke f r.1 r.2).1)], ⟨?_, ?_⟩, ?_⟩
  · change r.2.calls ++ _ = _
    rw [hrebuilt.grows.calls, hnew.calls, append_assoc]
    rfl
  · rw [map_append, hnew.order, ← subnodes_toNode]
    simp [postorderAll, postorder_eq t.toNode, hframe]
  · intro hall
    simp only [mem_append, mem_singleton, or_imp, forall_and, forall_eq] at hall
    exact hall.2.trans (hrebuilt.kept (heq hall.1))

theorem calls_made (ht : t.LiesIn m.heap) :
    Calls [t.toNode] m (share f t m).2 (made f t m) ∧
    ((∀ c ∈ made f t m, c.2 = c.1) → (share f t m).1 = t) := by
  obtain ⟨new, hnew, heq⟩ := share_traced hf t m ht
  have hmade : made f t m = new := by rw [made, hnew.calls, drop_left]
  exact hmade ▸ ⟨hnew, heq⟩

theorem calls_each {ts rs : List Placed} {m' : Memory τ} (h : Each (Sweeps f) ts m rs m') :
    ∃ new, Calls (ts.map Placed.toNode) m m' new := by
  obtain ⟨new, hnew, -⟩ := Each.calls (h.of_sweeps fun t _ => share_traced hf t)
  exact ⟨new, hnew⟩

/-- The last call that a sweep makes is for the tree itself. -/
theorem made_of_step {ps : List Placed} {m₁ : Memory τ} {r : Placed × Memory τ}
    (heach : Each (Sweeps f) t.parts m ps m₁) (hrebuilt : Rebuilt m.heap t ps m₁ r)
    (hshare : share f t m = invoke f r.1 r.2) :
    made f t m = m₁.calls.drop m.calls.length ++ [(r.1, (share f t m).1)] := by
  obtain ⟨new, hnew⟩ := calls_each hf heach
  have hcalls : (share f t m).2.calls = r.2.calls ++ [(r.1, (share f t m).1)] := by
    rw [hshare]
    rfl
  rw [made, hcalls, hrebuilt.grows.calls, hnew.calls, append_assoc, drop_left, drop_left]

theorem getLast?_made (ht : t.LiesIn m.heap) :
    ∃ r, (made f t m).getLast? = some (r, (share f t m).1) := by
  obtain ⟨ps, m₁, r, heach, hrebuilt, hshare⟩ := share_step (fun p _ => share_sound hf p) ht
  exact ⟨r.1, by rw [made_of_step hf heach hrebuilt hshare, getLast?_concat]⟩

/-- Among the calls for a node, those for one of its parts are the calls of a
sweep of this part, and the last one is given the node with what this sweep made
of the part. -/
theorem exists_sweep_of_part {p : Placed} (ht : t.LiesIn m.heap) {before rest : List Placed}
    (hparts : t.parts = before ++ p :: rest) :
    ∃ m', p.LiesIn m'.heap ∧
      callsAt f t m (postorderAll (before.map Placed.toNode)).length p = made f p m' ∧
      ∃ r, (made f t m).getLast? = some (r, (share f t m).1) ∧
        r.parts[before.length]? = some (share f p m').1 := by
  obtain ⟨ps, m₁, r, hsweeps, hrebuilt, hshare⟩ := share_step (fun p _ => share_sound hf p) ht
  have heach := hsweeps
  rw [hparts] at heach
  obtain ⟨done, left, m₂, rfl, hbefore, hleft⟩ := heach.of_append
  obtain ⟨m₃, q, m₄, left, rfl, hgrows, ⟨hlies, hp⟩, hrest⟩ := hleft.of_cons
  obtain ⟨newBefore, hnewBefore⟩ := calls_each hf hbefore
  obtain ⟨newRest, hnewRest⟩ := calls_each hf hrest
  have hmadePart := (calls_made hf hlies).1
  have hlength : (made f p m₃).length = p.toNode.postorder.length := by
    simpa [postorderAll] using hmadePart.length
  have hmade :
      made f t m = newBefore ++ (made f p m₃ ++ (newRest ++ [(r.1, (share f t m).1)])) := by
    rw [hp] at hmadePart
    rw [made_of_step hf hsweeps hrebuilt hshare, hnewRest.calls, hmadePart.calls, hgrows.calls,
      hnewBefore.calls]
    simp only [append_assoc, drop_left]
  refine ⟨m₃, hlies, ?_, r.1, ?_, ?_⟩
  · rw [callsAt, hmade, ← hnewBefore.length, drop_left, ← hlength, take_left]
  · rw [hmade, ← append_assoc, ← append_assoc, getLast?_concat]
  · rw [hrebuilt.parts, ← hbefore.length, hp]
    simp

theorem exists_sweep_of_occurs {u : Placed} (h : Occurs u k t) :
    ∀ m : Memory τ, t.LiesIn m.heap → ∃ m', u.LiesIn m'.heap ∧ callsAt f t m k u = made f u m' := by
  induction h with
  | self =>
    intro m ht
    refine ⟨m, ht, ?_⟩
    have hlength := (calls_made hf ht).1.length
    rw [postorderAll, postorderAll, append_nil] at hlength
    rw [callsAt, drop_zero, ← hlength, take_length]
  | part hparts hu ih =>
    intro m ht
    obtain ⟨m', hp, hcalls, -⟩ := exists_sweep_of_part hf ht hparts
    obtain ⟨m'', hlies, hmade⟩ := ih m' hp
    exact ⟨m'', hlies, (callsAt_eq hcalls hu.length_le).trans hmade⟩

end Safe

/-- That a sweep in memory calls the function on the nodes of a tree in the
order in which they are left, and shares what the function leaves alone. -/
structure Shares (f : Rewriter τ) (t : Placed) (m : Memory τ) : Prop where
  order : (made f t m).map (·.1.toNode.frame) = t.toNode.postorder.map frame
  result : (made f t m).getLast?.map Prod.snd = some (share f t m).1
  /-- A tree all of whose nodes are left alone is given to the function as it
  is, and comes back. -/
  untouched : ∀ {u : Placed} {k : Nat}, Occurs u k t → (∀ c ∈ callsAt f t m k u, c.2 = c.1) →
    (callsAt f t m k u).getLast? = some (u, u)
  /-- Where it is a part of another tree, it still is when the function is
  called on that one. -/
  part : ∀ {u p : Placed} {k : Nat} {before rest : List Placed}, Occurs u k t →
    u.parts = before ++ p :: rest →
    (∀ c ∈ callsAt f t m (k + (postorderAll (before.map Placed.toNode)).length) p, c.2 = c.1) →
      ∃ c, (callsAt f t m k u).getLast? = some c ∧ c.1.parts[before.length]? = some p
  whole : (∀ c ∈ made f t m, c.2 = c.1) → (share f t m).1 = t

theorem share_shares {f : Rewriter τ} (hf : IsSafe f) {t : Placed} {m : Memory τ}
    (ht : t.LiesIn m.heap) : Shares f t m where
  order := by
    have horder := (calls_made hf ht).1.order
    rwa [postorderAll, postorderAll, append_nil] at horder
  result := by
    obtain ⟨r, hlast⟩ := getLast?_made hf ht
    rw [hlast]
    rfl
  untouched {u k} hu hsame := by
    obtain ⟨m', hlies, hcalls⟩ := exists_sweep_of_occurs hf hu m ht
    obtain ⟨r, hlast⟩ := getLast?_made hf hlies
    rw [hcalls] at hsame ⊢
    have hwhole : (share f u m').1 = u := (calls_made hf hlies).2 hsame
    rw [hwhole] at hlast
    have hgiven : u = r := hsame _ (mem_of_getLast? hlast)
    rw [hlast, ← hgiven]
  part {u p k before rest} hu hparts hsame := by
    obtain ⟨m', hlies, hcalls⟩ := exists_sweep_of_occurs hf hu m ht
    obtain ⟨m'', hp, hcallsPart, r, hlast, hpart⟩ := exists_sweep_of_part hf hlies hparts
    have hle := (Occurs.part hparts .self).length_le
    rw [Nat.add_zero] at hle
    rw [callsAt_eq hcalls hle, hcallsPart] at hsame
    rw [(calls_made hf hp).2 hsame] at hpart
    exact ⟨_, hcalls ▸ hlast, hpart⟩
  whole := (calls_made hf ht).2

end Simplify

end Eel
