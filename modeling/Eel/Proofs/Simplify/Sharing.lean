import Eel.Proofs.Simplify.Placement

/-!
Sweeps that share what they do not change.

In memory a sweep does not build a tree anew. It compares the parts that it gets
with those that it had, by their addresses, and makes a new node only where one
of them is another; a list of statements or arguments is copied from the first
one on that is. The function that visits the nodes may have a state of its own,
may look at memory and may give back any node that lies there.
-/

namespace Eel.Simplify

open Placed List

variable {σ τ : Type} {rs ts : List Placed}

/-- A function that is called on nodes in memory: it has a state, and may put
new nodes into memory. -/
abbrev Rewriter (τ : Type) := Placed → StateM (Heap × τ) Placed

/-- What a sweep works on: memory, the state of the function, and the calls of
the function so far, with what they were given and what they gave back. -/
structure Memory (τ : Type) where
  heap : Heap
  own : τ
  calls : List (Placed × Placed) := []

/-- Calls the function on a node. -/
def invoke (f : Rewriter τ) (t : Placed) : StateM (Memory τ) Placed := fun m =>
  let r := f t (m.heap, m.own)
  (r.1, ⟨r.2.1, r.2.2, m.calls ++ [(t, r.1)]⟩)

/-- A node as it is, or a new one in its place where something changed. -/
def rebuild (t : Placed) (changed : Bool) (make : Address → Placed) :
    StateM (Memory τ) Placed := fun m =>
  if changed then ((put make m.heap).1, { m with heap := (put make m.heap).2 }) else (t, m)

mutual

/-- Sweeps a tree in memory. -/
def share (f : Rewriter τ) : Placed → StateM (Memory τ) Placed
  | .script a body span => do
    let copy ← shareAll f [] none body
    invoke f (← rebuild (.script a body span) copy.isSome (.script · (copy.getD body) span))
  | .block a body span => do
    let copy ← shareAll f [] none body
    invoke f (← rebuild (.block a body span) copy.isSome (.block · (copy.getD body) span))
  | .binary a op left right span => do
    let l ← share f left
    let r ← share f right
    invoke f (← rebuild (.binary a op left right span) (!l.isSame left || !r.isSame right)
      (.binary · op l r span))
  | .logical a op left right span => do
    let l ← share f left
    let r ← share f right
    invoke f (← rebuild (.logical a op left right span) (!l.isSame left || !r.isSame right)
      (.logical · op l r span))
  | .unary a op operand span => do
    let x ← share f operand
    invoke f (← rebuild (.unary a op operand span) (!x.isSame operand) (.unary · op x span))
  | .assign a op (.call c callee args callSpan) value span => do
    let copy ← shareAll f [] none args
    let target ← rebuild (.call c callee args callSpan) copy.isSome
        (.call · callee (copy.getD args) callSpan)
    let v ← share f value
    invoke f (← rebuild (.assign a op (.call c callee args callSpan) value span)
      (!target.isSame (.call c callee args callSpan) || !v.isSame value)
      (.assign · op target v span))
  | .assign a op target value span => do
    let v ← share f value
    invoke f
      (← rebuild (.assign a op target value span) (!v.isSame value) (.assign · op target v span))
  | .call a callee args span => do
    let copy ← shareAll f [] none args
    invoke f
      (← rebuild (.call a callee args span) copy.isSome (.call · callee (copy.getD args) span))
  | t@(.ident ..) | t@(.number ..) | t@.missing => invoke f t

/-- Sweeps what is left of a list, behind the elements that are done. There is a
copy of the list once an element has changed; up to there, it has the elements
that were there. -/
def shareAll (f : Rewriter τ) (done : List Placed) (copy : Option (List Placed)) :
    List Placed → StateM (Memory τ) (Option (List Placed))
  | [] => return copy
  | t :: rest => do
    let r ← share f t
    let copy := if copy.isNone && !r.isSame t then some done else copy
    shareAll f (done ++ [t]) (copy.map (· ++ [r])) rest

end

/-- Sweeps the trees of a list, one after the other. -/
def shareEach (f : Rewriter τ) : List Placed → StateM (Memory τ) (List Placed)
  | [] => return []
  | t :: rest => return (← share f t) :: (← shareEach f rest)

/-- That a function leaves all that lies in memory where it is, and gives back
what lies there. -/
structure IsSafe (f : Rewriter τ) : Prop where
  grows : ∀ {t : Placed} {heap : Heap} (own : τ), t.LiesIn heap → heap <+: (f t (heap, own)).2.1
  lies : ∀ {t : Placed} {heap : Heap} (own : τ), t.LiesIn heap →
    (f t (heap, own)).1.LiesIn (f t (heap, own)).2.1

/-- That memory has grown, and nothing else has happened. -/
structure Memory.Grows (m m' : Memory τ) : Prop where
  heap : m.heap <+: m'.heap
  own : m'.own = m.own
  calls : m'.calls = m.calls

theorem Memory.Grows.refl (m : Memory τ) : m.Grows m := ⟨prefix_rfl, rfl, rfl⟩

theorem Memory.Grows.trans {m m₁ m' : Memory τ} (h : m.Grows m₁) (h' : m₁.Grows m') : m.Grows m' :=
  ⟨h.heap.trans h'.heap, h'.own.trans h.own, h'.calls.trans h.calls⟩

/-- That the trees of a list become others, one after the other, while memory
may grow in between. -/
inductive Each (R : Placed → Memory τ → Placed → Memory τ → Prop) :
    List Placed → Memory τ → List Placed → Memory τ → Prop
  | nil (m : Memory τ) : Each R [] m [] m
  | cons {t r : Placed} {ts rs : List Placed} {m m₁ m' : Memory τ} (h : R t m r m₁)
      (hrest : Each R ts m₁ rs m') :
      Each R (t :: ts) m (r :: rs) m'
  | more {ts rs : List Placed} {m m₁ m' : Memory τ} (hgrows : m.Grows m₁) (h : Each R ts m₁ rs m') :
      Each R ts m rs m'

/-- What a function is given for a node whose parts have become others, and
memory behind it: the node itself if they are the parts it had, otherwise a new
one. -/
structure Rebuilt (start : Heap) (t : Placed) (ps : List Placed) (m : Memory τ)
    (r : Placed × Memory τ) : Prop where
  grows : m.Grows r.2
  lies : r.1.LiesIn r.2.heap
  toNode : r.1.toNode = t.toNode.withParts (ps.map Placed.toNode)
  parts : r.1.parts = ps
  kept : ps = t.parts → r.1 = t
  new : ps ≠ t.parts → r.1.IsNew start
  nodes : ∀ q ∈ r.1.nodes, q = r.1 ∨ q.IsNew start ∨ q ∈ nodesAll ps ∨ q ∈ nodesAll t.children

variable {R : Placed → Memory τ → Placed → Memory τ → Prop} {make : Address → Placed}
  {ps : List Placed}
  {changed : Bool} {start : Heap}

theorem Rebuilt.same {t : Placed} {m : Memory τ} (ht : t.LiesIn m.heap) (hps : ps = t.parts) :
    Rebuilt start t ps m (t, m) where
  grows := .refl m
  lies := ht
  toNode := by rw [hps, ← subnodes_toNode, Node.withParts_subnodes]
  parts := hps.symm
  kept _ := rfl
  new h := absurd hps h
  nodes := by
    intro q hq
    obtain ⟨rfl, -⟩ | hq := mem_nodes_iff.mp hq
    · exact .inl rfl
    · exact .inr (.inr (.inr (mem_nodesAll.mpr hq)))

theorem rebuild_rebuilt {t : Placed} {m : Memory τ} (hstart : start <+: m.heap)
    (ht : t.LiesIn m.heap) (hchanged : changed = true ↔ ps ≠ t.parts)
    (hmake : ∀ a, (make a).address? = some a)
    (hnode : ∀ a, (make a).toNode = t.toNode.withParts (ps.map Placed.toNode))
    (hparts : ∀ a, (make a).parts = ps) (hlies : ∀ a, ∀ c ∈ (make a).children, c.LiesIn m.heap)
    (hnodes : ∀ a, ∀ q ∈ nodesAll (make a).children, q.IsNew start ∨ q ∈ nodesAll ps ∨
      q ∈ nodesAll t.children) :
    Rebuilt start t ps m (rebuild t changed make m) := by
  cases changed with
  | false => exact .same ht (by simpa using hchanged)
  | true =>
    have hps : ps ≠ t.parts := hchanged.mp rfl
    change Rebuilt start t ps m ((put make m.heap).1, { m with heap := (put make m.heap).2 })
    refine ⟨⟨put_grows make m.heap, rfl, rfl⟩, put_liesIn hmake (hlies _), hnode _, hparts _,
      fun h => absurd h hps,
      fun _ => (put_isNew hmake).mono hstart, ?_⟩
    intro q hq
    obtain ⟨rfl, -⟩ | hq := mem_nodes_iff.mp hq
    · exact .inl rfl
    · exact .inr (hnodes _ q (mem_nodesAll.mpr hq))

section Lists

variable {f : Rewriter τ} {body : List Placed}

/-- That a sweep of a tree keeps memory in order. -/
structure Sound (m : Memory τ) (r : Placed × Memory τ) : Prop where
  grows : m.heap <+: r.2.heap
  lies : r.1.LiesIn r.2.heap

theorem shareEach_nil (f : Rewriter τ) (m : Memory τ) : shareEach f [] m = ([], m) := rfl

theorem shareEach_cons (f : Rewriter τ) (t : Placed) (rest : List Placed) (m : Memory τ) :
    shareEach f (t :: rest) m =
      ((share f t m).1 :: (shareEach f rest (share f t m).2).1,
        (shareEach f rest (share f t m).2).2) := rfl

theorem shareAll_cons (f : Rewriter τ) (done : List Placed) (copy : Option (List Placed))
    (t : Placed) (rest : List Placed) (m : Memory τ) :
    shareAll f done copy (t :: rest) m =
      shareAll f (done ++ [t])
        ((if copy.isNone && !(share f t m).1.isSame t then some done else copy).map
          (· ++ [(share f t m).1])) rest
        (share f t m).2 := rfl

theorem shareAll_some (done copy body : List Placed) (m : Memory τ) :
    shareAll f done (some copy) body m =
      (some (copy ++ (shareEach f body m).1), (shareEach f body m).2) := by
  induction body generalizing done copy m with
  | nil =>
    change (some copy, m) = (some (copy ++ []), m)
    rw [append_nil]
  | cons t rest ih =>
    change shareAll f (done ++ [t]) (some (copy ++ [(share f t m).1])) rest (share f t m).2 = _
    rw [ih, shareEach_cons, append_assoc, singleton_append]

/-- That a sweep of a tree that lies in memory makes another of it. -/
def Sweeps (f : Rewriter τ) (t : Placed) (m : Memory τ) (r : Placed) (m' : Memory τ) : Prop :=
  t.LiesIn m.heap ∧ share f t m = (r, m')

theorem Each.imp {S : Placed → Memory τ → Placed → Memory τ → Prop} {m m' : Memory τ}
    (h : Each R ts m rs m') (himp : ∀ t ∈ ts, ∀ m r m', R t m r m' → S t m r m') :
    Each S ts m rs m' := by
  induction h with
  | nil m => exact .nil m
  | cons hr _ ih =>
    simp only [mem_cons, forall_eq_or_imp] at himp
    exact .cons (himp.1 _ _ _ hr) (ih himp.2)
  | more hgrows _ ih => exact .more hgrows (ih himp)

/-- What a sweep does to trees that lie in memory, it does to those of a
list. -/
theorem Each.of_sweeps {f : Rewriter τ} {m m' : Memory τ} (h : Each (Sweeps f) ts m rs m')
    (hR : ∀ t ∈ ts, ∀ m, t.LiesIn m.heap → R t m (share f t m).1 (share f t m).2) :
    Each R ts m rs m' := by
  refine h.imp ?_
  rintro t ht m r m' ⟨hlies, hshare⟩
  have hr := hR t ht m hlies
  rwa [hshare] at hr

theorem Each.sound {m m' : Memory τ} (h : Each (fun _ m r m' => Sound m (r, m')) ts m rs m') :
    m.heap <+: m'.heap ∧ ∀ r ∈ rs, r.LiesIn m'.heap := by
  induction h with
  | nil m => exact ⟨prefix_rfl, by simp⟩
  | cons hr _ ih =>
    refine ⟨hr.grows.trans ih.1, ?_⟩
    simp only [mem_cons, forall_eq_or_imp]
    exact ⟨hr.lies.mono ih.1, ih.2⟩
  | more hgrows _ ih => exact ⟨hgrows.heap.trans ih.1, ih.2⟩

variable (hsound : ∀ t ∈ body, ∀ m : Memory τ, t.LiesIn m.heap → Sound m (share f t m))
  (m : Memory τ) (hbody : ∀ t ∈ body, t.LiesIn m.heap)

include hsound hbody

/-- As long as no element of a list is another, there is no copy; as soon as one
is, the copy has all elements as they have become. -/
theorem shareAll_none (done : List Placed) :
    (shareEach f body m).1 = body ∧ shareAll f done none body m = (none, (shareEach f body m).2) ∨
      (shareEach f body m).1 ≠ body ∧
        shareAll f done none body m =
          (some (done ++ (shareEach f body m).1), (shareEach f body m).2) := by
  induction body generalizing done m with
  | nil => exact .inl ⟨rfl, rfl⟩
  | cons t rest ih =>
    simp only [mem_cons, forall_eq_or_imp] at hsound hbody
    have ht := hsound.1 m hbody.1
    have hrest : ∀ u ∈ rest, u.LiesIn (share f t m).2.heap :=
      fun u hu => (hbody.2 u hu).mono ht.grows
    have hiff := isSame_iff ht.lies (hbody.1.mono ht.grows)
    rw [shareEach_cons]
    cases hsame : (share f t m).1.isSame t with
    | true =>
      have hstep : shareAll f done none (t :: rest) m =
          shareAll f (done ++ [t]) none rest (share f t m).2 := by
        rw [shareAll_cons, hsame]
        rfl
      rw [hstep, hiff.mp hsame]
      obtain ⟨heach, hall⟩ | ⟨heach, hall⟩ := ih hsound.2 _ hrest (done ++ [t])
      · exact .inl ⟨congrArg (t :: ·) heach, hall⟩
      · rw [append_assoc, singleton_append] at hall
        exact .inr ⟨fun h => heach (List.cons.inj h).2, hall⟩
    | false =>
      have hne : (share f t m).1 ≠ t := fun h => by simp [hiff.mpr h] at hsame
      refine .inr ⟨fun h => hne (List.cons.inj h).1, ?_⟩
      rw [shareAll_cons, hsame]
      change shareAll f (done ++ [t]) (some (done ++ [(share f t m).1])) rest (share f t m).2 = _
      rw [shareAll_some, append_assoc, singleton_append]

/-- The copy of a list, or the list itself where there is none, has the elements
as they have become. -/
theorem shareAll_eq :
    ((shareAll f [] none body m).1.isSome = true ↔ (shareEach f body m).1 ≠ body) ∧
      (shareAll f [] none body m).1.getD body = (shareEach f body m).1 ∧
      (shareAll f [] none body m).2 = (shareEach f body m).2 := by
  obtain ⟨heach, hall⟩ | ⟨heach, hall⟩ := shareAll_none hsound m hbody []
  · rw [hall]
    exact ⟨by simp [heach], heach.symm, rfl⟩
  · rw [hall]
    exact ⟨by simp [heach], rfl, rfl⟩

theorem each_shareEach : Each (Sweeps f) body m (shareEach f body m).1 (shareEach f body m).2 := by
  induction body generalizing m with
  | nil => exact .nil m
  | cons t rest ih =>
    simp only [mem_cons, forall_eq_or_imp] at hsound hbody
    exact .cons ⟨hbody.1, rfl⟩
      (ih hsound.2 _ fun u hu => (hbody.2 u hu).mono (hsound.1 m hbody.1).grows)

theorem shareEach_sound :
    m.heap <+: (shareEach f body m).2.heap ∧
    ∀ r ∈ (shareEach f body m).1, r.LiesIn (shareEach f body m).2.heap :=
  Each.sound ((each_shareEach hsound m hbody).of_sweeps hsound)

end Lists

/-- The call that is assigned, put together around what its arguments have
become. -/
def shareSlot (f : Rewriter τ) (c : Address) (callee : Ident) (args : List Placed)
    (callSpan : Span) : StateM (Memory τ) Placed := do
  let copy ← shareAll f [] none args
  rebuild (.call c callee args callSpan) copy.isSome (.call · callee (copy.getD args) callSpan)

theorem isSame_share {f : Rewriter τ} {p : Placed} {m : Memory τ} (h : Sound m (share f p m))
    (hp : p.LiesIn m.heap) : (share f p m).1.isSame p = true ↔ (share f p m).1 = p :=
  isSame_iff h.lies (hp.mono h.grows)

theorem not_or_not_iff {b c : Bool} {P Q : Prop} (hb : b = true ↔ P) (hc : c = true ↔ Q) :
    (!b || !c) = true ↔ ¬ (P ∧ Q) := by
  rw [← hb, ← hc]
  cases b <;> cases c <;> simp

theorem Each.append {us vs : List Placed} {m m₁ m' : Memory τ} (h : Each R ts m rs m₁)
    (h' : Each R us m₁ vs m') : Each R (ts ++ us) m (rs ++ vs) m' := by
  induction h with
  | nil m => exact h'
  | cons hr _ ih => exact .cons hr (ih h')
  | more hgrows _ ih => exact .more hgrows (ih h')

section Step

variable {f : Rewriter τ} {t : Placed}
  (hsound : ∀ p ∈ t.parts, ∀ m : Memory τ, p.LiesIn m.heap → Sound m (share f p m)) {m : Memory τ}
  (ht : t.LiesIn m.heap)

include hsound ht

/-- A node that refers to nothing but its parts and what it referred to
before. -/
theorem rebuilt_of_shareEach (hchanged : changed = true ↔ (shareEach f t.parts m).1 ≠ t.parts)
    (hmake : ∀ a, (make a).address? = some a)
    (hnode : ∀ a,
      (make a).toNode = t.toNode.withParts ((shareEach f t.parts m).1.map Placed.toNode))
    (hparts : ∀ a, (make a).parts = (shareEach f t.parts m).1)
    (hchildren : ∀ a, ∀ c ∈ (make a).children, c ∈ (shareEach f t.parts m).1 ∨ c ∈ t.children) :
    Rebuilt m.heap t (shareEach f t.parts m).1 (shareEach f t.parts m).2
      (rebuild t changed make (shareEach f t.parts m).2) := by
  obtain ⟨hgrows, hlies⟩ := shareEach_sound hsound m fun p hp => ht.of_mem_parts hp
  refine rebuild_rebuilt hgrows (ht.mono hgrows) hchanged hmake hnode hparts ?_ ?_
  · intro a c hc
    obtain hc | hc := hchildren a c hc
    · exact hlies c hc
    · exact (ht.of_mem_children hc).mono hgrows
  · intro a q hq
    obtain ⟨c, hc, hq⟩ := mem_nodesAll.mp hq
    obtain hc | hc := hchildren a c hc
    · exact .inr (.inl (mem_nodesAll.mpr ⟨c, hc, hq⟩))
    · exact .inr (.inr (mem_nodesAll.mpr ⟨c, hc, hq⟩))

theorem rebuilt_of_shareAll (make : Address → List Placed → Placed)
    (hmake : ∀ a ps, (make a ps).address? = some a)
    (hnode : ∀ a ps, (make a ps).toNode = t.toNode.withParts (ps.map Placed.toNode))
    (hparts : ∀ a ps, (make a ps).parts = ps) (hchildren : ∀ a ps, (make a ps).children = ps) :
    Rebuilt m.heap t (shareEach f t.parts m).1 (shareEach f t.parts m).2
      (rebuild t (shareAll f [] none t.parts m).1.isSome
        (make · ((shareAll f [] none t.parts m).1.getD t.parts))
        (shareAll f [] none t.parts m).2) := by
  obtain ⟨hsome, hcopy, hmemory⟩ := shareAll_eq hsound m fun p hp => ht.of_mem_parts hp
  rw [hcopy, hmemory]
  refine rebuilt_of_shareEach hsound ht hsome (fun a => hmake a _) (fun a => hnode a _)
    (fun a => hparts a _) ?_
  intro a c hc
  rw [hchildren] at hc
  exact .inl hc

/-- Comparing two parts, one after the other. -/
theorem changed_pair {left right : Placed} (hparts : t.parts = [left, right]) :
    (!(share f left m).1.isSame left || !(share f right (share f left m).2).1.isSame right) = true ↔
      (shareEach f t.parts m).1 ≠ t.parts := by
  rw [hparts] at hsound ⊢
  have hleft : left.LiesIn m.heap := ht.of_mem_parts (by simp [hparts])
  have hright : right.LiesIn m.heap := ht.of_mem_parts (by simp [hparts])
  have hsoundLeft := hsound left (by simp) m hleft
  have hsoundRight := hsound right (by simp) _ (hright.mono hsoundLeft.grows)
  rw [not_or_not_iff (isSame_share hsoundLeft hleft)
    (isSame_share hsoundRight (hright.mono hsoundLeft.grows))]
  simp [shareEach_cons, shareEach_nil]

theorem changed_single {part : Placed} (hparts : t.parts = [part]) :
    (!(share f part m).1.isSame part) = true ↔ (shareEach f t.parts m).1 ≠ t.parts := by
  rw [hparts] at hsound ⊢
  have hpart : part.LiesIn m.heap := ht.of_mem_parts (by simp [hparts])
  rw [Bool.not_eq_true', ← Bool.not_eq_true, isSame_share (hsound part (by simp) m hpart) hpart]
  simp [shareEach_cons, shareEach_nil]

omit hsound ht in
/-- An assignment to a slot: the call that is assigned is put together before
the value is swept. -/
theorem share_step_slot {a c : Address} {op : AssignOp} {callee : Ident} {args : List Placed}
    {value : Placed} {callSpan span : Span}
    (hargs : ∀ p ∈ args, ∀ m : Memory τ, p.LiesIn m.heap → Sound m (share f p m))
    (hvalue : ∀ m : Memory τ, value.LiesIn m.heap → Sound m (share f value m))
    (ht : (assign a op (.call c callee args callSpan) value span).LiesIn m.heap) :
    ∃ ps m₁ r, Each (Sweeps f) (args ++ [value]) m ps m₁ ∧
      Rebuilt m.heap (.assign a op (.call c callee args callSpan) value span) ps m₁ r ∧
      share f (.assign a op (.call c callee args callSpan) value span) m = invoke f r.1 r.2 := by
  have htarget : (call c callee args callSpan).LiesIn m.heap := ht.of_mem_children mem_cons_self
  have heach := each_shareEach hargs m fun p hp => htarget.of_mem_parts hp
  have hslot :
      Rebuilt m.heap (.call c callee args callSpan) (shareEach f args m).1 (shareEach f args m).2
      (shareSlot f c callee args callSpan m) :=
    rebuilt_of_shareAll (t := .call c callee args callSpan) hargs htarget
      (.call · callee · callSpan)
      (fun _ _ => rfl) (fun _ _ => by simp only [Placed.toNode, toNodes_eq_map]; rfl)
      (fun _ _ => rfl)
      (fun _ _ => rfl)
  have hgrows : m.heap <+: (shareSlot f c callee args callSpan m).2.heap :=
    (shareEach_sound hargs m fun p hp => htarget.of_mem_parts hp).1.trans hslot.grows.heap
  have hshare : share f (.assign a op (.call c callee args callSpan) value span) m =
      invoke f
        (rebuild (.assign a op (.call c callee args callSpan) value span)
          (!(shareSlot f c callee args callSpan m).1.isSame (.call c callee args callSpan) ||
            !(share f value (shareSlot f c callee args callSpan m).2).1.isSame value)
          (.assign · op (shareSlot f c callee args callSpan m).1
            (share f value (shareSlot f c callee args callSpan m).2).1 span)
          (share f value (shareSlot f c callee args callSpan m).2).2).1
        (rebuild (.assign a op (.call c callee args callSpan) value span)
          (!(shareSlot f c callee args callSpan m).1.isSame (.call c callee args callSpan) ||
            !(share f value (shareSlot f c callee args callSpan m).2).1.isSame value)
          (.assign · op (shareSlot f c callee args callSpan m).1
            (share f value (shareSlot f c callee args callSpan m).2).1 span)
          (share f value (shareSlot f c callee args callSpan m).2).2).2 := rfl
  generalize shareSlot f c callee args callSpan m = slot at hslot hgrows hshare
  have hlies : value.LiesIn slot.2.heap := (ht.of_mem_children (by simp [children])).mono hgrows
  have hv := hvalue slot.2 hlies
  have hkept :
      slot.1.isSame (.call c callee args callSpan) = true ↔ (shareEach f args m).1 = args := by
    rw [isSame_iff hslot.lies (htarget.mono hgrows)]
    refine ⟨fun h => ?_, hslot.kept⟩
    by_contra hne
    have hnew := hslot.new hne
    rw [h] at hnew
    exact htarget.not_isNew hnew
  refine ⟨(shareEach f args m).1 ++ [(share f value slot.2).1], _, _,
    heach.append (.more hslot.grows (.cons ⟨hlies, rfl⟩ (.nil _))),
    rebuild_rebuilt (hgrows.trans hv.grows) (ht.mono (hgrows.trans hv.grows)) ?_
      (fun _ => rfl) ?_ ?_ ?_ ?_, hshare⟩
  · rw [not_or_not_iff hkept (isSame_share hv hlies)]
    simp [parts]
  · intro a
    simp [Placed.toNode, hslot.toNode, Node.withParts]
  · intro a
    obtain ⟨d, ps, hcall⟩ := exists_call_of_toNode hslot.toNode
    have hps : ps = (shareEach f args m).1 := by simpa [hcall, parts] using hslot.parts
    rw [hcall, parts, hps]
  · intro a d hd
    simp only [children, mem_cons, not_mem_nil, or_false] at hd
    obtain rfl | rfl := hd
    · exact hslot.lies.mono hv.grows
    · exact hv.lies
  · intro a q hq
    have hcall {q : Placed} (hq : q ∈ (call c callee args callSpan).nodes) :
        q ∈ nodesAll (assign a op (.call c callee args callSpan) value span).children :=
      mem_nodesAll.mpr ⟨_, mem_cons_self, hq⟩
    simp only [children, nodesAll, append_nil, mem_append] at hq
    obtain hq | hq := hq
    · obtain rfl | hnew | hpart | hold := hslot.nodes q hq
      · by_cases hargs : (shareEach f args m).1 = args
        · rw [hslot.kept hargs] at hq ⊢
          exact .inr (.inr (hcall hq))
        · exact .inl (hslot.new hargs)
      · exact .inl hnew
      · obtain ⟨p, hp, hq⟩ := mem_nodesAll.mp hpart
        exact .inr (.inl (mem_nodesAll.mpr ⟨p, mem_append_left _ hp, hq⟩))
      · exact .inr (.inr (hcall (mem_nodes_iff.mpr (.inr (mem_nodesAll.mp hold)))))
    · exact .inr (.inl (mem_nodesAll.mpr ⟨_, mem_append_right _ (mem_singleton_self _), hq⟩))

/-- What a sweep does at one node: it sweeps the parts, puts the node together
again, and calls the function. -/
theorem share_step : ∃ ps m₁ r, Each (Sweeps f) t.parts m ps m₁ ∧ Rebuilt m.heap t ps m₁ r ∧
    share f t m = invoke f r.1 r.2 := by
  have heach : Each (Sweeps f) t.parts m (shareEach f t.parts m).1 (shareEach f t.parts m).2 :=
    each_shareEach hsound m fun p hp => ht.of_mem_parts hp
  cases t with
  | missing | ident | number => exact ⟨[], m, _, heach, .same ht rfl, rfl⟩
  | script a body span =>
    exact ⟨_, _, _, heach, rebuilt_of_shareAll hsound ht (.script · · span) (fun _ _ => rfl)
      (fun _ _ => by simp only [Placed.toNode, toNodes_eq_map]; rfl) (fun _ _ => rfl)
      (fun _ _ => rfl), rfl⟩
  | block a body span =>
    exact ⟨_, _, _, heach, rebuilt_of_shareAll hsound ht (.block · · span) (fun _ _ => rfl)
      (fun _ _ => by simp only [Placed.toNode, toNodes_eq_map]; rfl) (fun _ _ => rfl)
      (fun _ _ => rfl), rfl⟩
  | call a callee args span =>
    exact ⟨_, _, _, heach, rebuilt_of_shareAll hsound ht (.call · callee · span) (fun _ _ => rfl)
      (fun _ _ => by simp only [Placed.toNode, toNodes_eq_map]; rfl) (fun _ _ => rfl)
      (fun _ _ => rfl), rfl⟩
  | binary a op left right span | logical a op left right span =>
    refine ⟨_, _, _, heach,
      rebuilt_of_shareEach hsound ht (changed_pair hsound ht rfl) (fun _ => rfl) (fun _ => rfl)
      (fun _ => rfl) ?_, rfl⟩
    exact fun _ c hc => .inl hc
  | unary a op operand span =>
    refine ⟨_, _, _, heach,
      rebuilt_of_shareEach hsound ht (changed_single hsound ht rfl) (fun _ => rfl)
      (fun _ => rfl) (fun _ => rfl) ?_, rfl⟩
    exact fun _ c hc => .inl hc
  | assign a op target value span =>
    cases target with
    | call c callee args callSpan =>
      exact share_step_slot (fun p hp => hsound p (mem_append_left _ hp))
        (hsound value (by simp [parts])) ht
    | _ =>
      refine ⟨_, _, _, heach,
        rebuilt_of_shareEach hsound ht (changed_single hsound ht rfl) (fun _ => rfl)
        (fun _ => rfl) (fun _ => rfl) ?_, rfl⟩
      simp [children, shareEach_cons, shareEach_nil, parts]

end Step

section Sweep

variable {f : Rewriter τ} (hf : IsSafe f)

include hf

/-- A sweep leaves all that lies in memory where it is, and gives back what lies
there. -/
theorem share_sound (t : Placed) : ∀ m : Memory τ, t.LiesIn m.heap → Sound m (share f t m) := by
  induction t using partsInduction with
  | step t ih =>
    intro m ht
    obtain ⟨ps, m₁, r, heach, hrebuilt, hshare⟩ := share_step ih ht
    have hparts : m.heap <+: m₁.heap := (Each.sound (heach.of_sweeps ih)).1
    rw [hshare]
    exact ⟨(hparts.trans hrebuilt.grows.heap).trans (hf.grows _ hrebuilt.lies),
      hf.lies _ hrebuilt.lies⟩

/-- What holds of a node whenever it holds of its parts, holds of every tree
that lies in memory. -/
theorem share_induction
    (step : ∀ (t : Placed) (m : Memory τ) (ps : List Placed) (m₁ : Memory τ)
      (r : Placed × Memory τ), t.LiesIn m.heap →
      Each (fun p m q m' => Sweeps f p m q m' ∧ R p m q m') t.parts m ps m₁ →
        Rebuilt m.heap t ps m₁ r → R t m (invoke f r.1 r.2).1 (invoke f r.1 r.2).2)
    (t : Placed) : ∀ m : Memory τ, t.LiesIn m.heap → R t m (share f t m).1 (share f t m).2 := by
  induction t using partsInduction with
  | step t ih =>
    intro m ht
    obtain ⟨ps, m₁, r, heach, hrebuilt, hshare⟩ := share_step (fun p _ => share_sound hf p) ht
    rw [hshare]
    exact step t m ps m₁ r ht
      (heach.of_sweeps fun p hp m hlies => ⟨⟨hlies, rfl⟩, ih p hp m hlies⟩) hrebuilt

end Sweep

end Eel.Simplify
