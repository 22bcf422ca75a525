import Eel.Proofs.Simplify.Parts

/-!
Trees in memory.

The nodes of a tree lie in memory, each at an address of its own, and refer to
their parts. Two references lead to the same node when the addresses are equal.
Memory only grows: a new node takes the next free address, and no node is ever
changed. So whatever lies in memory at one address is one tree, parts and all.
-/

namespace Eel.Simplify

open List

abbrev Address := Nat

/-- A tree whose nodes lie in memory. -/
inductive Placed where
  | missing
  | script (address : Address) (body : List Placed) (span : Span)
  | block (address : Address) (body : List Placed) (span : Span)
  | binary (address : Address) (op : BinaryOp) (left right : Placed) (span : Span)
  | logical (address : Address) (op : LogicalOp) (left right : Placed) (span : Span)
  | unary (address : Address) (op : UnaryOp) (operand : Placed) (span : Span)
  | assign (address : Address) (op : AssignOp) (target value : Placed) (span : Span)
  | call (address : Address) (callee : Ident) (args : List Placed) (span : Span)
  | ident (address : Address) (id : Ident)
  | number (address : Address) (value : Double) (span : Span)

/-- What lies at each address. -/
abbrev Heap := List Placed

variable {p q c : Placed} {P : Placed → Prop} {body : List Node} {a : Address}

namespace Placed

variable {t : Placed}

/-- Where a node lies; a missing one lies nowhere. -/
def address? : Placed → Option Address
  | missing => none
  | script a _ _ | block a _ _ | binary a _ _ _ _ | logical a _ _ _ _ | unary a _ _ _
  | assign a _ _ _ _ | call a _ _ _
  | ident a _ | number a _ _ => some a

/-- Whether two references lead to the same node. -/
def isSame (t u : Placed) : Bool := t.address? == u.address?

mutual

/-- The tree itself, wherever its nodes lie. -/
def toNode : Placed → Node
  | missing => .missing
  | script _ body span => .script (toNodes body) span
  | block _ body span => .block (toNodes body) span
  | binary _ op left right span => .binary op left.toNode right.toNode span
  | logical _ op left right span => .logical op left.toNode right.toNode span
  | unary _ op operand span => .unary op operand.toNode span
  | assign _ op target value span => .assign op target.toNode value.toNode span
  | call _ callee args span => .call callee (toNodes args) span
  | ident _ id => .ident id
  | number _ value span => .number value span

def toNodes : List Placed → List Node
  | [] => []
  | t :: rest => t.toNode :: toNodes rest

end

/-- The parts of a node, as those of the tree. -/
def parts : Placed → List Placed
  | script _ body _ | block _ body _ => body
  | binary _ _ left right _ | logical _ _ left right _ => [left, right]
  | unary _ _ operand _ => [operand]
  | assign _ _ (call _ _ args _) value _ => args ++ [value]
  | assign _ _ _ value _ => [value]
  | call _ _ args _ => args
  | missing | ident .. | number .. => []

/-- All nodes that a node refers to; other than the parts, they include what is
assigned. -/
def children : Placed → List Placed
  | assign _ _ target value _ => [target, value]
  | t => t.parts

mutual

/-- The nodes of a tree, the first of them its own. -/
def nodes : Placed → List Placed
  | missing => []
  | t@(script _ body _) | t@(block _ body _) | t@(call _ _ body _) => t :: nodesAll body
  | t@(binary _ _ left right _) | t@(logical _ _ left right _) => t :: (left.nodes ++ right.nodes)
  | t@(unary _ _ operand _) => t :: operand.nodes
  | t@(assign _ _ target value _) => t :: (target.nodes ++ value.nodes)
  | t@(ident ..) | t@(number ..) => [t]

def nodesAll : List Placed → List Placed
  | [] => []
  | t :: rest => t.nodes ++ nodesAll rest

end

/-- That every node of a tree lies in memory where it says. -/
def LiesIn (heap : Heap) (t : Placed) : Prop := ∀ q ∈ t.nodes, q.address?.bind (heap[·]?) = some q

/-- That a node lies beyond what was in use. -/
def IsNew (heap : Heap) (t : Placed) : Prop := ∃ a, t.address? = some a ∧ heap.length ≤ a

theorem toNodes_eq_map (body : List Placed) : toNodes body = body.map toNode := by
  induction body with
  | nil => rfl
  | cons t rest ih => rw [toNodes, ih, map_cons]

theorem mem_nodesAll {body : List Placed} : q ∈ nodesAll body ↔ ∃ t ∈ body, q ∈ t.nodes := by
  induction body with
  | nil => simp [nodesAll]
  | cons t rest ih => simp [nodesAll, ih]

theorem subnodes_toNode (t : Placed) : t.toNode.subnodes = t.parts.map toNode := by
  cases t with
  | assign a op target value span =>
    cases target <;> simp [toNode, Node.subnodes, parts, toNodes_eq_map]
  | _ => simp [toNode, Node.subnodes, parts, toNodes_eq_map]

theorem exists_call_of_toNode {callee : Ident} {args : List Node} {span : Span}
    (h : t.toNode = .call callee args span) : ∃ a ps, t = .call a callee ps span := by
  cases t with
  | call a callee ps span =>
    simp only [toNode, Node.call.injEq] at h
    exact ⟨a, ps, by rw [h.1, h.2.2]⟩
  | _ => simp [toNode] at h

theorem nodes_eq (t : Placed) : t.nodes = if t.address?.isNone then []
  else t :: nodesAll t.children := by
  cases t <;> simp [nodes, address?, children, parts, nodesAll]

theorem sizeOf_lt_of_mem_children (h : c ∈ t.children) : sizeOf c < sizeOf t := by
  cases t with
  | script a body span | block a body span | call a callee body span =>
    have hbody : sizeOf c < sizeOf body := sizeOf_lt_of_mem h
    simp only [script.sizeOf_spec, block.sizeOf_spec, call.sizeOf_spec]
    omega
  | binary a op left right span | logical a op left right span | assign a op left right span =>
    simp only [children, parts, mem_cons, not_mem_nil, or_false] at h
    simp only [binary.sizeOf_spec, logical.sizeOf_spec, assign.sizeOf_spec]
    obtain rfl | rfl := h <;> omega
  | unary a op operand span =>
    simp only [children, parts, mem_cons, not_mem_nil, or_false] at h
    simp only [unary.sizeOf_spec]
    subst h
    omega
  | missing | ident | number => cases h

/-- A part is referred to by the node, or by a call that the node assigns to. -/
theorem mem_parts (h : p ∈ t.parts) : p ∈ t.children ∨ ∃ c ∈ t.children, p ∈ c.children := by
  cases t with
  | assign a op target value span =>
    cases target with
    | call c callee args callSpan =>
      obtain h | h := mem_append.mp h
      · exact .inr ⟨_, mem_cons_self, h⟩
      · exact .inl (mem_cons_of_mem _ h)
    | _ => exact .inl (mem_cons_of_mem _ h)
  | _ => exact .inl h

theorem sizeOf_lt_of_mem_parts (h : p ∈ t.parts) : sizeOf p < sizeOf t := by
  obtain h | ⟨c, hc, h⟩ := mem_parts h
  · exact sizeOf_lt_of_mem_children h
  · exact Nat.lt_trans (sizeOf_lt_of_mem_children h) (sizeOf_lt_of_mem_children hc)

theorem partsInduction (step : ∀ t : Placed, (∀ p ∈ t.parts, P p) → P t) (t : Placed) : P t :=
  step t fun p _ => partsInduction step p
termination_by sizeOf t
decreasing_by exact sizeOf_lt_of_mem_parts ‹_›

theorem childrenInduction (step : ∀ t : Placed, (∀ c ∈ t.children, P c) → P t) (t : Placed) : P t :=
  step t fun c _ => childrenInduction step c
termination_by sizeOf t
decreasing_by exact sizeOf_lt_of_mem_children ‹_›

theorem mem_nodes_iff :
    q ∈ t.nodes ↔ (q = t ∧ t.address? ≠ none) ∨ ∃ c ∈ t.children, q ∈ c.nodes := by
  rw [nodes_eq]
  cases t <;> simp [address?, mem_nodesAll, children, parts]

theorem nodes_subset_of_mem_children (h : c ∈ t.children) : c.nodes ⊆ t.nodes :=
  fun _ hq => mem_nodes_iff.mpr (.inr ⟨c, h, hq⟩)

theorem nodes_subset_of_mem_parts (h : p ∈ t.parts) : p.nodes ⊆ nodesAll t.children := by
  intro q hq
  obtain h | ⟨c, hc, h⟩ := mem_parts h
  · exact mem_nodesAll.mpr ⟨p, h, hq⟩
  · exact mem_nodesAll.mpr ⟨c, hc, nodes_subset_of_mem_children h hq⟩

theorem sizeOf_le_of_mem_nodes (h : q ∈ t.nodes) : sizeOf q ≤ sizeOf t := by
  induction t using childrenInduction with
  | step t ih =>
    obtain ⟨rfl, -⟩ | ⟨c, hc, h⟩ := mem_nodes_iff.mp h
    · exact Nat.le_refl _
    · exact Nat.le_trans (ih c hc h) (Nat.le_of_lt (sizeOf_lt_of_mem_children hc))

/-- A node is none of those that it refers to. -/
theorem not_mem_nodesAll_children (t : Placed) : t ∉ nodesAll t.children := by
  intro h
  obtain ⟨c, hc, h⟩ := mem_nodesAll.mp h
  exact absurd (sizeOf_le_of_mem_nodes h) (Nat.not_le_of_lt (sizeOf_lt_of_mem_children hc))

section Heap

variable {heap heap' : Heap} {t u : Placed}

theorem LiesIn.at_address (h : t.LiesIn heap) (ha : t.address? = some a) : heap[a]? = some t := by
  have hself : t.address?.bind (heap[·]?) = some t :=
    h t (mem_nodes_iff.mpr (.inl ⟨rfl, by simp [ha]⟩))
  rwa [ha] at hself

theorem LiesIn.of_mem_children (h : t.LiesIn heap) (hc : c ∈ t.children) : c.LiesIn heap :=
  fun q hq => h q (nodes_subset_of_mem_children hc hq)

theorem LiesIn.of_mem_parts (h : t.LiesIn heap) (hp : p ∈ t.parts) : p.LiesIn heap := by
  intro q hq
  obtain ⟨c, hc, hq⟩ := mem_nodesAll.mp (nodes_subset_of_mem_parts hp hq)
  exact h.of_mem_children hc q hq

theorem liesIn_of_children (ha : t.address? = some a) (hself : heap[a]? = some t)
    (hchildren : ∀ c ∈ t.children, c.LiesIn heap) : t.LiesIn heap := by
  intro q hq
  obtain ⟨rfl, -⟩ | ⟨c, hc, hq⟩ := mem_nodes_iff.mp hq
  · rw [ha]
    exact hself
  · exact hchildren c hc q hq

theorem LiesIn.mono (h : t.LiesIn heap) (hheap : heap <+: heap') : t.LiesIn heap' := by
  intro q hq
  obtain ⟨a, ha, hself⟩ := Option.bind_eq_some_iff.mp (h q hq)
  obtain ⟨hlt, -⟩ := List.getElem?_eq_some_iff.mp hself
  obtain ⟨rest, rfl⟩ := hheap
  rw [ha, Option.bind_some, getElem?_append_left hlt, hself]

theorem eq_missing_of_address? (h : t.address? = none) : t = .missing := by
  cases t with
  | missing => rfl
  | _ => cases h

/-- What lies at one address is one tree. -/
theorem eq_of_isSame (ht : t.LiesIn heap) (hu : u.LiesIn heap) (h : t.isSame u = true) : t = u := by
  have haddress : t.address? = u.address? := by simpa [isSame] using h
  cases ha : t.address? with
  | none => exact (eq_missing_of_address? ha).trans (eq_missing_of_address? (haddress ▸ ha)).symm
  | some a =>
    have hself := ht.at_address ha
    rw [hu.at_address (haddress ▸ ha)] at hself
    exact (Option.some.inj hself).symm

theorem isSame_iff (ht : t.LiesIn heap) (hu : u.LiesIn heap) : t.isSame u = true ↔ t = u := by
  refine ⟨eq_of_isSame ht hu, ?_⟩
  rintro rfl
  simp [isSame]

theorem IsNew.mono (h : t.IsNew heap') (hheap : heap <+: heap') : t.IsNew heap := by
  obtain ⟨a, ha, hle⟩ := h
  exact ⟨a, ha, Nat.le_trans hheap.length_le hle⟩

theorem LiesIn.not_isNew (h : t.LiesIn heap) : ¬ t.IsNew heap := by
  rintro ⟨a, ha, hle⟩
  obtain ⟨hlt, -⟩ := List.getElem?_eq_some_iff.mp (h.at_address ha)
  exact absurd hlt (Nat.not_lt_of_le hle)

end Heap

end Placed

open Placed

/-- Puts a new node at the next address. -/
def put (make : Address → Placed) (heap : Heap) : Placed × Heap :=
  (make heap.length, heap ++ [make heap.length])

section Put

variable {make : Address → Placed} {heap : Heap}

theorem put_grows (make : Address → Placed) (heap : Heap) : heap <+: (put make heap).2 :=
  prefix_append _ _

theorem put_isNew (hmake : ∀ a, (make a).address? = some a) : (put make heap).1.IsNew heap :=
  ⟨heap.length, hmake _, Nat.le_refl _⟩

/-- A new node lies in memory if all that it refers to does. -/
theorem put_liesIn (hmake : ∀ a, (make a).address? = some a)
    (hchildren : ∀ c ∈ (make heap.length).children, c.LiesIn heap) :
    (put make heap).1.LiesIn (put make heap).2 := by
  refine liesIn_of_children (hmake _) ?_ fun c hc => (hchildren c hc).mono (put_grows make heap)
  simp [put]

end Put

mutual

/-- Puts a whole tree into memory, all of it new. -/
def place : Node → Heap → Placed × Heap
  | .missing, heap => (.missing, heap)
  | .script body span, heap => put (.script · (placeAll body heap).1 span) (placeAll body heap).2
  | .block body span, heap => put (.block · (placeAll body heap).1 span) (placeAll body heap).2
  | .binary op left right span, heap =>
    put (.binary · op (place left heap).1 (place right (place left heap).2).1 span)
      (place right (place left heap).2).2
  | .logical op left right span, heap =>
    put (.logical · op (place left heap).1 (place right (place left heap).2).1 span)
      (place right (place left heap).2).2
  | .unary op operand span, heap =>
    put (.unary · op (place operand heap).1 span) (place operand heap).2
  | .assign op target value span, heap =>
    put (.assign · op (place target heap).1 (place value (place target heap).2).1 span)
      (place value (place target heap).2).2
  | .call callee args span, heap =>
    put (.call · callee (placeAll args heap).1 span) (placeAll args heap).2
  | .ident id, heap => put (.ident · id) heap
  | .number value span, heap => put (.number · value span) heap

def placeAll : List Node → Heap → List Placed × Heap
  | [], heap => ([], heap)
  | n :: rest, heap =>
    ((place n heap).1 :: (placeAll rest (place n heap).2).1, (placeAll rest (place n heap).2).2)

end

/-- That a tree was put into memory, where all of its nodes are new. -/
structure Lands (heap : Heap) (n : Node) (r : Placed × Heap) : Prop where
  toNode : r.1.toNode = n
  grows : heap <+: r.2
  lies : r.1.LiesIn r.2
  new : ∀ q ∈ r.1.nodes, q.IsNew heap

structure LandsAll (heap : Heap) (body : List Node) (r : List Placed × Heap) : Prop where
  toNode : toNodes r.1 = body
  grows : heap <+: r.2
  lies : ∀ t ∈ r.1, t.LiesIn r.2
  new : ∀ q ∈ nodesAll r.1, q.IsNew heap

theorem LandsAll.put {heap : Heap} {r : List Placed × Heap} (h : LandsAll heap body r) {n : Node}
    {make : Address → Placed} (hmake : ∀ a, (make a).address? = some a)
    (hnode : (make r.2.length).toNode = n) (hchildren : (make r.2.length).children = r.1) :
    Lands heap n (put make r.2) where
  toNode := hnode
  grows := h.grows.trans (put_grows make r.2)
  lies := put_liesIn hmake (by rw [hchildren]; exact h.lies)
  new := by
    intro q hq
    obtain ⟨rfl, -⟩ | hq := mem_nodes_iff.mp hq
    · exact (put_isNew hmake).mono h.grows
    · have hq : q ∈ nodesAll (make r.2.length).children := mem_nodesAll.mpr hq
      rw [hchildren] at hq
      exact h.new q hq

theorem placeAll_lands (h : ∀ n ∈ body, ∀ heap, Lands heap n (place n heap)) (heap : Heap) :
    LandsAll heap body (placeAll body heap) := by
  induction body generalizing heap with
  | nil => exact ⟨rfl, prefix_rfl, by simp [placeAll], by simp [placeAll, nodesAll]⟩
  | cons n rest ih =>
    simp only [mem_cons, forall_eq_or_imp] at h
    have hn := h.1 heap
    have hrest := ih h.2 (place n heap).2
    refine ⟨?_, hn.grows.trans hrest.grows, ?_, ?_⟩
    · exact congrArg₂ List.cons hn.toNode hrest.toNode
    · intro t ht
      obtain rfl | ht := mem_cons.mp ht
      · exact hn.lies.mono hrest.grows
      · exact hrest.lies t ht
    · intro q hq
      obtain hq | hq := mem_append.mp hq
      · exact hn.new q hq
      · exact (hrest.new q hq).mono hn.grows

/-- Every tree can be put into memory. -/
theorem place_lands (n : Node) : ∀ heap : Heap, Lands heap n (place n heap) := by
  induction n using Node.inductionOn with
  | missing =>
    exact fun heap => ⟨rfl, prefix_rfl, by simp [place, LiesIn, nodes], by simp [place, nodes]⟩
  | ident | number =>
    intro heap
    have hnone : LandsAll heap [] (placeAll [] heap) := placeAll_lands (by simp) heap
    exact hnone.put (fun _ => rfl) rfl rfl
  | script body span ih | block body span ih | call callee body span ih =>
    intro heap
    have hbody := placeAll_lands ih heap
    exact hbody.put (fun _ => rfl) (by simp only [toNode, hbody.toNode]) rfl
  | unary op operand span ih =>
    intro heap
    have hoperand : LandsAll heap [operand] (placeAll [operand] heap) :=
      placeAll_lands (by simpa using ih) heap
    exact hoperand.put (fun _ => rfl) (by simp only [toNode, (ih heap).toNode]) rfl
  | binary op left right span ihl ihr | logical op left right span ihl ihr
  | assign op left right span ihl _ ihr =>
    intro heap
    have hboth : LandsAll heap [left, right] (placeAll [left, right] heap) :=
      placeAll_lands (by simpa using ⟨ihl, ihr⟩) heap
    exact hboth.put (fun _ => rfl) (by simp only [toNode, (ihl heap).toNode, (ihr _).toNode]) rfl

end Eel.Simplify
