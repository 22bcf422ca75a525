import Eel.Engine.Load
import Eel.Proofs.Program.Declarations
import Eel.Proofs.Steps

/-!
The pools of an engine.

An engine is made by adding pools one after another, and the cells of each pool
lie behind those of the pools before it. So a cell is that of one variable of
one pool, and names that differ in nothing but case mean the same cell.
-/

namespace Eel

open List

/-- That an engine can have a pool, whatever other pools it has. -/
structure Pool.CanServe (pool : Pool) : Prop where
  unreserved : pool.name ≠ HostFunction.moduleName
  distinct : (pool.vars.map Text.lower).Nodup
  text : ∀ x ∈ pool.vars, Text.isValid x = true

variable {laid : List EnginePool}

namespace Engine

variable {e e' : Engine} {pool : Pool} {pools : List Pool} {settings : Settings}

/-- Cells behind all others start at zero, which is also what a cell that is not
there is taken for. -/
theorem value_eq_of_cells_append {n : Nat}
    (h : e'.cells = e.cells ++ Array.replicate n Double.zero) : e'.value = e.value := by
  funext cell
  simp only [value, h, Array.getD_eq_getD_getElem?, Array.getElem?_append, Array.getElem?_replicate]
  split
  · rfl
  · next hcell =>
      rw [Array.getElem?_eq_none (Nat.le_of_not_lt hcell)]
      split <;> rfl

/-- That pools have cells of their own, one pool behind the other, and all below
a limit. -/
structure Laid (pools : List EnginePool) (limit : Nat) : Prop where
  names : (pools.map (·.declared.name)).Nodup
  distinct : ∀ p ∈ pools, (p.declared.vars.map Text.lower).Nodup
  within : ∀ p ∈ pools, p.base + p.declared.vars.length ≤ limit
  apart : pools.Pairwise fun p q => p.base + p.declared.vars.length ≤ q.base

theorem Laid.mono {limit limit' : Nat} (h : Laid laid limit) (hle : limit ≤ limit') :
    Laid laid limit' :=
  { h with within := fun p hp => Nat.le_trans (h.within p hp) hle }

/-- A pool is laid behind all others. -/
theorem Laid.append {limit : Nat} (h : Laid laid limit)
    (hname : pool.name ∉ laid.map (·.declared.name))
    (hdistinct : (pool.vars.map Text.lower).Nodup) :
    Laid (laid ++ [⟨pool, limit⟩]) (limit + pool.vars.length) where
  names := by
    rw [map_append, map_singleton, nodup_append_comm]
    exact nodup_cons.mpr ⟨hname, h.names⟩
  distinct := by
    rw [forall_mem_append, forall_mem_singleton]
    exact ⟨h.distinct, hdistinct⟩
  within := by
    rw [forall_mem_append, forall_mem_singleton]
    exact ⟨(h.mono (Nat.le_add_right _ _)).within, Nat.le_refl _⟩
  apart := by
    rw [pairwise_append]
    exact ⟨h.apart, pairwise_singleton _ _, fun p hp q hq => by
      rw [mem_singleton.mp hq]
      exact h.within p hp⟩

section Creation

/-- The engine with one pool more, all variables of which are zero. -/
def withPool (e : Engine) (pool : Pool) : Engine := { e with
  pools := e.pools ++ [⟨pool, e.cells.size⟩]
  cells := e.cells ++ Array.replicate pool.vars.length Double.zero }

theorem poolNames_withPool (e : Engine) (pool : Pool) :
    (e.withPool pool).poolNames = e.poolNames ++ [pool.name] := by
  simp [poolNames, withPool]

theorem addPool_eq_ok_iff :
    e.addPool pool = .ok e' ↔ (pool.CanServe ∧ pool.name ∉ e.poolNames) ∧ e.withPool pool = e' := by
  have hany : e.pools.any (·.declared.name == pool.name) = true ↔ pool.name ∈ e.poolNames := by
    simp [poolNames]
  unfold addPool
  split
  · next hreserved =>
      exact iff_of_false (by simp) fun h => h.1.1.unreserved (by simpa using hreserved)
  next hreserved =>
  split
  · next hrepeated => exact iff_of_false (by simp) fun h => h.1.2 (hany.mp hrepeated)
  next hrepeated =>
  split
  · next x hx =>
      refine iff_of_false (by simp) fun h => ?_
      simp [Options.repeatedVariable?_eq_none_iff.mpr
        ⟨h.1.1.distinct, fun _ _ => not_mem_nil⟩] at hx
  next hdistinct =>
  split
  · next htext =>
      refine iff_of_false (by simp) fun h => ?_
      simp [all_eq_true.mpr h.1.1.text] at htext
  · next htext =>
      have hserve : pool.CanServe :=
        ⟨by simpa using hreserved, (Options.repeatedVariable?_eq_none_iff.mp hdistinct).1,
        by simpa using htext⟩
      simp only [Except.ok.injEq, hserve, hany.not.mp hrepeated, not_false_iff, true_and]
      rfl

theorem foldlM_addPool_eq_ok_iff : pools.foldlM addPool e = .ok e' ↔
    ((∀ pool ∈ pools, pool.CanServe ∧ pool.name ∉ e.poolNames) ∧ (pools.map (·.name)).Nodup) ∧
      pools.foldl withPool e = e' := by
  induction pools generalizing e with
  | nil => simp [pure, Except.pure]
  | cons pool rest ih =>
    simp only [foldlM_cons, Except.bind_eq_ok, addPool_eq_ok_iff, and_assoc, exists_and_left,
      exists_eq_left', ih, poolNames_withPool, forall_mem_cons, map_cons, nodup_cons, mem_append,
      mem_singleton, not_or, mem_map, not_exists, foldl_cons]
    grind

/-- The pools are added to an engine that has none. -/
theorem create_eq (pools : List Pool) (settings : Settings) :
    create pools settings = create [] settings >>= fun e => pools.foldlM addPool e := by
  unfold create
  rw [bind_assoc]
  rfl

/-- That an engine has some pools and no modules, with all variables at zero. -/
structure Starts (e : Engine) (pools : List Pool) : Prop where
  declared : e.pools.map (·.declared) = pools
  laid : Laid e.pools e.cells.size
  zero : ∀ cell, e.value cell = .zero
  taken : e.taken = 0
  instances : e.instances = []

theorem starts_of_create_nil (h : create [] settings = .ok e) : e.Starts [] := by
  unfold create at h
  obtain ⟨replacements, -, h⟩ := Except.bind_eq_ok.mp h
  cases h
  exact ⟨rfl, ⟨by simp, by simp, by simp, by simp⟩, fun _ => rfl, rfl, rfl⟩

theorem Starts.withPool (h : e.Starts pools) (hpool : pool.CanServe)
    (hname : pool.name ∉ e.poolNames) : (e.withPool pool).Starts (pools ++ [pool]) where
  declared := by simp [Engine.withPool, h.declared]
  laid := by
    have hlaid := h.laid.append hname hpool.distinct
    simpa [Engine.withPool] using hlaid
  zero cell := by rw [value_eq_of_cells_append rfl, h.zero]
  taken := h.taken
  instances := h.instances

theorem Starts.foldl_withPool {before : List Pool} (h : e.Starts before)
    (hpools : ∀ pool ∈ pools, pool.CanServe ∧ pool.name ∉ e.poolNames)
    (hnames : (pools.map (·.name)).Nodup) :
    (pools.foldl Engine.withPool e).Starts (before ++ pools) := by
  induction pools generalizing e before with
  | nil => simpa using h
  | cons pool rest ih =>
    rw [forall_mem_cons] at hpools
    rw [map_cons, nodup_cons] at hnames
    have hrest : ∀ p ∈ rest, p.CanServe ∧ p.name ∉ (e.withPool pool).poolNames := by
      intro p hp
      rw [poolNames_withPool, mem_append, mem_singleton, not_or]
      exact ⟨(hpools.2 p hp).1, (hpools.2 p hp).2, fun heq => hnames.1 (heq ▸ mem_map_of_mem hp)⟩
    have hstarts := ih (h.withPool hpools.1.1 hpools.1.2) hrest hnames.2
    rwa [append_assoc, singleton_append] at hstarts

/-- An engine is made of pools with names of their own. What else can fail are
the replacements. -/
theorem create_eq_ok_iff : create pools settings = .ok e ↔ ∃ e₀, create [] settings = .ok e₀ ∧
    ((∀ pool ∈ pools, pool.CanServe) ∧ (pools.map (·.name)).Nodup) ∧
    pools.foldl withPool e₀ = e := by
  rw [create_eq, Except.bind_eq_ok]
  refine exists_congr fun e₀ => and_congr_right fun h => ?_
  have hnone : e₀.poolNames = [] := by
    rw [poolNames, map_eq_nil_iff]
    exact map_eq_nil_iff.mp (starts_of_create_nil h).declared
  simp [foldlM_addPool_eq_ok_iff, hnone]

theorem starts_of_create (h : create pools settings = .ok e) : e.Starts pools := by
  obtain ⟨e₀, hstart, ⟨hserve, hnames⟩, rfl⟩ := create_eq_ok_iff.mp h
  have hstarts := starts_of_create_nil hstart
  have hnone : e₀.poolNames = [] := by
    rw [poolNames, map_eq_nil_iff]
    exact map_eq_nil_iff.mp hstarts.declared
  exact hstarts.foldl_withPool (fun pool hpool => ⟨hserve pool hpool, by simp [hnone]⟩) hnames

/-- Pools with names of their own make an engine. -/
theorem exists_create (hserve : ∀ pool ∈ pools, pool.CanServe)
    (hnames : (pools.map (·.name)).Nodup) : ∃ e, create pools = .ok e ∧ e.Starts pools := by
  have hcreate : create pools = .ok _ := create_eq_ok_iff.mpr ⟨_, rfl, ⟨hserve, hnames⟩, rfl⟩
  exact ⟨_, hcreate, starts_of_create hcreate⟩

end Creation

section Cells

variable {q q' x x' y : Bytes} {c c' : Nat}

/-- That a cell is that of a variable, named as it is declared. -/
def Declares (e : Engine) (q x : Bytes) (c : Nat) : Prop :=
  ∃ p ∈ e.pools, p.declared.name = q ∧ ∃ i, p.declared.vars[i]? = some x ∧ p.base + i = c

/-- No two pools share a cell. -/
theorem Laid.eq_of_cell {limit : Nat} (h : Laid laid limit) {p p' : EnginePool} (hp : p ∈ laid)
    (hp' : p' ∈ laid) {i j : Nat} (hi : i < p.declared.vars.length)
    (hj : j < p'.declared.vars.length) (heq : p.base + i = p'.base + j) : p = p' := by
  by_contra hne
  have hapart : laid.Pairwise fun p q =>
      p.base + p.declared.vars.length ≤ q.base ∨ q.base + q.declared.vars.length ≤ p.base :=
        h.apart.imp Or.inl
  have hsymm : Std.Symm fun p q : EnginePool =>
      p.base + p.declared.vars.length ≤ q.base ∨ q.base + q.declared.vars.length ≤ p.base :=
        ⟨fun _ _ => Or.symm⟩
  have hsides := hapart.forall hp hp' hne
  omega

variable {limit : Nat} (h : Laid e.pools limit)

include h

/-- Every cell is that of one variable of one pool. -/
theorem Declares.inj (hx : e.Declares q x c) (hx' : e.Declares q' x' c) : q = q' ∧ x = x' := by
  obtain ⟨p, hp, rfl, i, hi, rfl⟩ := hx
  obtain ⟨p', hp', rfl, j, hj, heq⟩ := hx'
  have hilt := (List.getElem?_eq_some_iff.mp hi).1
  have hjlt := (List.getElem?_eq_some_iff.mp hj).1
  obtain rfl := h.eq_of_cell hp hp' hilt hjlt heq.symm
  obtain rfl : j = i := Nat.add_left_cancel heq
  exact ⟨rfl, Option.some.inj (hi.symm.trans hj)⟩

theorem Declares.lt (hx : e.Declares q x c) : c < limit := by
  obtain ⟨p, hp, rfl, i, hi, rfl⟩ := hx
  have hilt := (List.getElem?_eq_some_iff.mp hi).1
  have hwithin := h.within p hp
  omega

theorem pool?_eq_ok_iff {p : EnginePool} :
    e.pool? q = .ok p ↔ p ∈ e.pools ∧ p.declared.name = q := by
  rw [← find?_key_eq_some_iff h.names, pool?]
  split
  · next p' hp' => simp [hp']
  · next hnone => simp [hnone]

theorem cell?_eq_ok_iff :
    e.cell? q y = .ok c ↔ ∃ x, e.Declares q x c ∧ Text.lower x = Text.lower y := by
  unfold cell?
  simp only [Except.bind_eq_ok, pool?_eq_ok_iff h]
  constructor
  · rintro ⟨p, ⟨hp, hname⟩, hc⟩
    split at hc
    · next i hi =>
        obtain ⟨x, hx, hlower⟩ := (findIdx?_key_eq_some_iff (h.distinct p hp)).mp hi
        exact ⟨x, ⟨p, hp, hname, i, hx, Except.ok.inj hc⟩, hlower⟩
    · cases hc
  · rintro ⟨x, ⟨p, hp, hname, i, hx, rfl⟩, hlower⟩
    refine ⟨p, ⟨hp, hname⟩, ?_⟩
    rw [(findIdx?_key_eq_some_iff (h.distinct p hp)).mpr ⟨x, hx, hlower⟩]
    rfl

theorem importedCell?_eq_some_iff :
    e.importedCell? ⟨q, x, .global Program.externalType⟩ Program.externalType = some c ↔ q ≠ [] ∧
    e.Declares q x c := by
  have hvars {p : EnginePool} (hp : p ∈ e.pools) {i : Nat} :
      p.declared.vars.idxOf? x = some i ↔ p.declared.vars[i]? = some x := by
    have hnodup : (p.declared.vars.map id).Nodup := by simpa using (h.distinct p hp).of_map
    simpa [List.idxOf?] using findIdx?_key_eq_some_iff hnodup (b := x) (i := i)
  have hnamed {u : Unit} :
      (guard ((!q.isEmpty && decide True) = true) : Option Unit) = some u ↔ q ≠ [] := by
    cases q <;> simp [guard]
  simp only [importedCell?, bind, Option.bind_eq_some_iff, find?_key_eq_some_iff h.names, pure,
    Option.some.injEq, hnamed]
  constructor
  · rintro ⟨-, hq, p, ⟨hp, hname⟩, i, hi, rfl⟩
    exact ⟨hq, p, hp, hname, i, (hvars hp).mp hi, rfl⟩
  · rintro ⟨hq, p, hp, hname, i, hi, rfl⟩
    exact ⟨(), hq, p, ⟨hp, hname⟩, i, (hvars hp).mpr hi, rfl⟩

end Cells

section Values

variable {q y : Bytes} {v : Double} {c : Nat}

/-- Where a name leads depends on the pools alone. -/
theorem cell?_congr (h : e'.pools = e.pools) : e'.cell? = e.cell? := by
  funext q y
  rw [cell?, cell?, pool?, pool?, h]

theorem set_eq_ok_iff : e.set q y v = .ok e' ↔
    ∃ c, e.cell? q y = .ok c ∧ { e with cells := e.cells.setIfInBounds c v } = e' := by
  simp [set, Except.bind_eq_ok, pure, Except.pure]

theorem get_of_cell? (h : e.cell? q y = .ok c) : e.get q y = .ok (e.value c) := by
  rw [get, h]
  rfl

/-- What a name leads to is the same in engines with the same pools, if the cell
has the same value. -/
theorem get_eq_of_value (hpools : e'.pools = e.pools)
    (h : ∀ {c : Nat}, e.cell? q y = .ok c → e'.value c = e.value c) : e'.get q y = e.get q y := by
  rw [get, get, cell?_congr hpools]
  cases hc : e.cell? q y with
  | error error => rfl
  | ok c => exact congrArg Except.ok (h hc)

theorem set_of_cell? (h : e.cell? q y = .ok c) (v : Double) :
    e.set q y v = .ok { e with cells := e.cells.setIfInBounds c v } := set_eq_ok_iff.mpr ⟨c, h, rfl⟩

theorem set_eq_ok (h : e.set q y v = .ok e') :
    ∃ c, e.cell? q y = .ok c ∧ e'.cells = e.cells.setIfInBounds c v ∧
    e'.pools = e.pools := by
  obtain ⟨c, hc, rfl⟩ := set_eq_ok_iff.mp h
  exact ⟨c, hc, rfl, rfl⟩

/-- A value is set for all names of a variable, and for no other variable. -/
theorem get_of_set (hlaid : Laid e.pools e.cells.size) (h : e.set q y v = .ok e') (q' y' : Bytes) :
    e'.get q' y' = if q' = q ∧ Text.lower y' = Text.lower y then .ok v else e.get q' y' := by
  obtain ⟨c, hc, hcells, hpools⟩ := set_eq_ok h
  obtain ⟨x, hx, hlower⟩ := (cell?_eq_ok_iff hlaid).mp hc
  split
  · next hsame =>
      have hc' : e.cell? q' y' = .ok c :=
        (cell?_eq_ok_iff hlaid).mpr ⟨x, hsame.1 ▸ hx, hlower.trans hsame.2.symm⟩
      rw [get_of_cell? (cell?_congr hpools ▸ hc'), value, hcells]
      simp [hx.lt hlaid]
  · next hother =>
      refine get_eq_of_value hpools fun {c'} hc' => ?_
      obtain ⟨x', hx', hlower'⟩ := (cell?_eq_ok_iff hlaid).mp hc'
      have hne : c ≠ c' := by
        rintro rfl
        obtain ⟨rfl, rfl⟩ := hx.inj hlaid hx'
        exact hother ⟨rfl, hlower'.symm.trans hlower⟩
      simp [value, hcells, Array.getElem?_setIfInBounds_ne hne]

end Values

end Engine

end Eel
