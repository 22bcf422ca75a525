import Eel.Proofs.Engine.Loading
import Eel.Proofs.Engine.Pools
import Eel.Proofs.Program.Imports

/-!
Which compiled programs can be loaded.

An engine with the pools that a program was compiled for loads it, again and
again, if its sections have 32-bit lengths, if the variables that it imports are
declared, and if no pool has the name that the module gets. All of this is
needed.
-/

namespace Eel

open Wasm Machine Program List

/-- That a pool is declared with a variable, in just this spelling. -/
def Options.Declares (o : Options) (v : Bytes × Bytes) : Prop :=
  ∃ pool ∈ o.pools, pool.name = v.1 ∧ v.2 ∈ pool.vars

namespace Engine

variable {e e' : Engine} {p : Program} {o : Options} {bin : Bytes} {v : Bytes × Bytes}

theorem externalCell?_eq_some_iff {limit c : Nat} (h : Laid e.pools limit) :
    e.externalCell? v = some c ↔ v.1 ≠ [] ∧ e.Declares v.1 v.2 c := importedCell?_eq_some_iff h

theorem externalCell?_congr (h : e'.pools = e.pools) : e'.externalCell? = e.externalCell? := by
  funext v
  rw [externalCell?, importedCell?, h]
  rfl

/-- An engine has a cell for what its pools declare. -/
theorem exists_externalCell?_iff (h : Laid e.pools e.cells.size)
    (hpools : e.pools.map (·.declared) = o.pools) (horder : o.InOrder) :
    (∃ c, e.externalCell? v = some c) ↔ o.Declares v := by
  simp only [externalCell?_eq_some_iff h]
  constructor
  · rintro ⟨c, -, p, hp, hname, i, hi, -⟩
    exact ⟨p.declared, hpools ▸ mem_map_of_mem hp, hname, mem_of_getElem? hi⟩
  · rintro ⟨pool, hpool, hname, hx⟩
    obtain ⟨p, hp, rfl⟩ := mem_map.mp (hpools ▸ hpool : pool ∈ e.pools.map (·.declared))
    obtain ⟨i, hi⟩ := getElem?_of_mem hx
    exact ⟨p.base + i, hname ▸ (horder.pools _ hpool).named, p, hp, hname, i, hi, rfl⟩

/-- The engine behind some loads of the same module. -/
def afterLoads (e : Engine) (bin : Bytes) : Nat → Engine
  | 0 => e
  | n + 1 => ((e.afterLoads bin n).load bin).2

/-- What is read is counted, whether it can be bound or not. -/
theorem load_counts (h : p.Readable) : (e.load p.assembled.encode).2.taken = e.taken + 1 ∧
    (e.load p.assembled.encode).2.pools = e.pools := by
  rw [load_of_readable h]
  split
  · exact ⟨rfl, rfl⟩
  · cases p.externals.mapM e.externalCell? <;> exact ⟨rfl, rfl⟩

theorem afterLoads_counts (h : p.Readable) (n : Nat) :
    (e.afterLoads p.assembled.encode n).taken = e.taken + n ∧
    (e.afterLoads p.assembled.encode n).pools = e.pools := by
  induction n with
  | zero => exact ⟨rfl, rfl⟩
  | succ n ih =>
    obtain ⟨htaken, hpools⟩ := load_counts (e := e.afterLoads p.assembled.encode n) h
    exact ⟨by rw [afterLoads, htaken, ih.1, Nat.add_assoc], hpools.trans ih.2⟩

/-- What is read is loaded just if it can be bound. -/
theorem load_eq_ok_iff (h : p.Readable) {names : List Bytes} :
    (e.load p.assembled.encode).1 = .ok names ↔
    names = p.functions.map (·.name) ∧ e.nextName ∉ e.poolNames ∧
      ∀ v ∈ p.externals, ∃ c, e.externalCell? v = some c := by
  rw [load_of_readable h, ← Option.exists_mapM_iff]
  by_cases hname : e.nextName ∈ e.poolNames
  · simp [hname]
  · cases hcells : p.externals.mapM e.externalCell? with
    | none => simp [hname]
    | some cells => simp [hname, eq_comm]

end Engine

theorem Program.Readable.sections {p : Program} (h : p.Readable) :
    ∀ s ∈ p.assembled.writtenSections, s.body.length < 2 ^ 32 := by
  by_contra hsections
  have hnone := Module.decode?_encode_eq_none (m := p.assembled) (by simpa using hsections)
  rw [h.decode] at hnone
  cases hnone

namespace Program.Built

variable {p : Program} {o : Options} (h : p.Built o)

include h

theorem nodup_names : (p.functions.map (·.name)).Nodup := by
  rw [h.names]
  exact h.order.functionNames.sublist (filter_sublist.map _)

/-- A program with names that are text can be read, if its sections have 32-bit
lengths. -/
theorem readable (hsections : ∀ s ∈ p.assembled.writtenSections, s.body.length < 2 ^ 32)
    (hexternals : ∀ x ∈ p.externals, Text.isValid x.1 = true ∧ Text.isValid x.2 = true)
    (hfunctions : ∀ f ∈ o.functions, Text.isValid f.name = true) : p.Readable := by
  refine h.measured.readable hsections hexternals (fun g hg => ?_) h.nodup_names
  obtain ⟨f, hf, hname⟩ :=
    mem_map.mp (h.names ▸ mem_map_of_mem hg : g.name ∈ o.liveFunctions.map (·.name))
  exact hname ▸ hfunctions f (mem_of_mem_filter hf)

/-- A program that cannot be read in all its parts is not read at all. -/
theorem unread (hread : ¬p.Readable) : Module.decode? p.assembled.encode = none :=
  decode?_eq_none fun hparts =>
    hread (h.measured.readable hparts.1 hparts.2.1 hparts.2.2 h.nodup_names)

/-- What is mentioned is declared. -/
theorem declares_of_mentions {q x : Bytes} (hx : o.Mentions q x) : o.Declares (q, x) := by
  obtain ⟨decl, hdecl, rfl, hx, -⟩ := hx
  obtain ⟨pool, hpool, hname⟩ := mem_map.mp (h.order.functions decl (mem_of_mem_filter hdecl)).2
  have hfind := (find?_key_eq_some_iff h.order.poolNames).mpr ⟨hpool, hname⟩
  rw [Options.pool, hfind] at hx
  exact ⟨pool, hpool, hname, hx⟩

theorem forall_externals_iff {P : Bytes × Bytes → Prop} :
    (∀ v ∈ p.externals, P v) ↔ ∀ q x, o.Mentions q x → P (splitKey (variableKey q x)) := by
  simp only [h.externals_eq, forall_mem_map, mem_eraseDups, Prod.forall, h.mem_mentioned_iff]

variable {e : Engine} (he : e.Starts o.pools)
  (hpools : ∀ pool ∈ o.pools, Text.isValid pool.name = true ∧
    ∀ x ∈ pool.vars, Text.isValid x = true)
  (hfunctions : ∀ f ∈ o.functions, Text.isValid f.name = true)

include he hpools hfunctions

/-- A program is loaded after any number of loads just if it can be read, what
it imports is declared, and its name is not that of a pool. -/
theorem load_afterLoads_eq_ok_iff (n : Nat) :
    ((e.afterLoads p.assembled.encode n).load p.assembled.encode).1 =
      .ok (o.liveFunctions.map (·.name)) ↔
      (∀ s ∈ p.assembled.writtenSections, s.body.length < 2 ^ 32) ∧
      (∀ v ∈ p.externals, o.Declares v) ∧
      utf8 "eel." ++ Bytes.decimal (n + 1) ∉ o.pools.map (·.name) := by
  by_cases hread : p.Readable
  · obtain ⟨htaken, hkept⟩ := Engine.afterLoads_counts (e := e) hread n
    have hname :
        (e.afterLoads p.assembled.encode n).nextName = utf8 "eel." ++ Bytes.decimal (n + 1) := by
      rw [Engine.nextName, htaken, he.taken, Nat.zero_add]
    have hnames : (e.afterLoads p.assembled.encode n).poolNames = o.pools.map (·.name) := by
      rw [Engine.poolNames, hkept, ← he.declared, map_map]
      rfl
    rw [Engine.load_eq_ok_iff hread, hname, hnames, Engine.externalCell?_congr hkept]
    simp only [Engine.exists_externalCell?_iff he.laid he.declared h.order, h.names, true_and]
    exact ⟨fun hbound => ⟨hread.sections, hbound.2, hbound.1⟩, fun hload => ⟨hload.2.2, hload.2.1⟩⟩
  · obtain ⟨error, hload⟩ :=
      Engine.load_of_unread (e := e.afterLoads p.assembled.encode n) (h.unread hread)
    rw [hload]
    refine iff_of_false (by simp) fun hparts =>
      hread (h.readable hparts.1 (fun v hv => ?_) hfunctions)
    obtain ⟨pool, hpool, hname, hx⟩ := hparts.2.1 v hv
    exact ⟨hname ▸ (hpools pool hpool).1, (hpools pool hpool).2 v.2 hx⟩

end Program.Built

/-- When a compiled module is loaded into an engine with its pools, for the
first time or after any number of loads. Names are text. Then there is such an
engine. The module is loaded just if its sections have 32-bit lengths, if all
that it imports is declared, and if no pool has the name under which it is
loaded. It imports what is declared if no pool has a zero byte in its name. -/
theorem compile_loads {o : Options} {bin : Bytes} (h : compile o = .ok bin)
    (hpools : ∀ pool ∈ o.pools, Text.isValid pool.name = true ∧
      ∀ x ∈ pool.vars, Text.isValid x = true)
    (hfunctions : ∀ f ∈ o.functions, Text.isValid f.name = true) :
    ∃ (e : Engine) (m : Module), Engine.create o.pools = .ok e ∧ m.encode = bin ∧
      (∀ n, ((e.afterLoads bin n).load bin).1 = .ok (o.liveFunctions.map (·.name)) ↔
        (∀ s ∈ m.writtenSections, s.body.length < 2 ^ 32) ∧
        (∀ q x, o.Mentions q x → o.Declares (splitKey (variableKey q x))) ∧
        utf8 "eel." ++ Bytes.decimal (n + 1) ∉ o.pools.map (·.name)) ∧
      ((∀ pool ∈ o.pools, 0 ∉ pool.name) → ∀ q x, o.Mentions q x →
        o.Declares (splitKey (variableKey q x))) := by
  obtain ⟨p, hp, rfl⟩ := compile_eq_ok h
  have hbuilt := Program.built_of_ofOptions hp
  have hserve : ∀ pool ∈ o.pools, pool.CanServe := fun pool hpool =>
    ⟨(hbuilt.order.pools pool hpool).unreserved, (hbuilt.order.pools pool hpool).distinct,
      (hpools pool hpool).2⟩
  obtain ⟨e, hcreate, hstarts⟩ := Engine.exists_create hserve hbuilt.order.poolNames
  refine ⟨e, p.assembled, hcreate, rfl, fun n => ?_, fun hzero q x hx => ?_⟩
  · rw [hbuilt.load_afterLoads_eq_ok_iff hstarts hpools hfunctions n, hbuilt.forall_externals_iff]
  · obtain ⟨pool, hpool, rfl, hmem⟩ := hbuilt.declares_of_mentions hx
    rw [splitKey_variableKey x (hzero pool hpool)]
    exact ⟨pool, hpool, rfl, hmem⟩

/-- Pools whose names are close to those that modules get, or are no ASCII
text. -/
def closeNames : Options where
  pools := [⟨utf8 "eel", [utf8 "x"]⟩, ⟨utf8 "ä", [utf8 "Ö"]⟩]
  functions := [⟨utf8 "step", utf8 "eel", utf8 "x = y"⟩, ⟨utf8 "rest", utf8 "ä", utf8 "y = x"⟩]

theorem closeNames_load : ∃ (bin : Bytes) (e : Engine), compile closeNames = .ok bin ∧
    Engine.create closeNames.pools = .ok e ∧
    ∀ n, ((e.afterLoads bin n).load bin).1 = .ok [utf8 "step", utf8 "rest"] := by
  have hpools : ∀ pool ∈ closeNames.pools, Text.isValid pool.name = true ∧
      ∀ x ∈ pool.vars, Text.isValid x = true := by decide +kernel
  have hfunctions : ∀ f ∈ closeNames.functions, Text.isValid f.name = true := by decide +kernel
  have hzero : ∀ pool ∈ closeNames.pools, 0 ∉ pool.name := by decide +kernel
  have hnames : closeNames.liveFunctions.map (·.name) = [utf8 "step", utf8 "rest"] := by
    decide +kernel
  have hlength : (compile closeNames).map (·.length) = .ok 290 := by decide +kernel
  obtain ⟨bin, hbin⟩ := Except.exists_ok_of_isOk (x := compile closeNames) (by decide +kernel)
  obtain ⟨e, m, hcreate, hencode, hloads, hdeclared⟩ := compile_loads hbin hpools hfunctions
  rw [hbin] at hlength
  have hsmall : bin.length = 290 := Except.ok.inj hlength
  refine ⟨bin, e, hbin, hcreate,
    fun n => hnames ▸ (hloads n).mpr ⟨fun s hs => ?_, hdeclared hzero, fun hmem => ?_⟩⟩
  · have hbody := Module.length_body_le hs
    rw [hencode] at hbody
    omega
  · have hlong : 4 ≤ (utf8 "eel." ++ Bytes.decimal (n + 1)).length := by
      rw [length_append]
      exact Nat.le_add_right 4 _
    have hshort : ∀ name ∈ closeNames.pools.map (·.name), name.length < 4 := by decide +kernel
    exact absurd hlong (Nat.not_le.mpr (hshort _ hmem))

/-- A pool with the name that the first module gets. -/
def takenName : Options where
  pools := [⟨utf8 "eel.1", [utf8 "x"]⟩]
  functions := [⟨utf8 "f", utf8 "eel.1", utf8 "x = 1"⟩]

/-- A program for such a pool is compiled, and it is not loaded. -/
theorem takenName_refused :
    (∀ pool ∈ takenName.pools, Text.isValid pool.name = true ∧
      ∀ x ∈ pool.vars, Text.isValid x = true) ∧
    (∀ f ∈ takenName.functions, Text.isValid f.name = true) ∧
    ∃ (bin : Bytes) (e : Engine), compile takenName = .ok bin ∧
      Engine.create takenName.pools = .ok e ∧ (e.load bin).1 = .error .instantiation := by
  have hload :
      ((compile takenName).toOption.bind fun bin =>
        (Engine.create takenName.pools).toOption.map fun e =>
      (e.load bin).1) = some (.error .instantiation) := by decide +kernel
  simp only [Option.bind_eq_some_iff, Option.map_eq_some_iff, Except.toOption_eq_some_iff] at hload
  obtain ⟨bin, hbin, e, hcreate, hload⟩ := hload
  exact ⟨by decide +kernel, by decide +kernel, bin, e, hbin, hcreate, hload⟩

end Eel
