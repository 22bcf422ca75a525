import Eel.Manifest.Basic
import Eel.Proofs.Program.Declarations

/-!
When nothing is wrong with a manifest.

A manifest is checked in order, and what is wrong with one part does not end the
check. Told without the order: each pool, each function and each key of a value
is in order by itself, and no name is there twice.
-/

namespace Eel

open List

/-- That nothing is wrong with a pool of a manifest by itself. -/
structure Pool.IsPlain (pool : Pool) : Prop extends pool.IsProper where
  undotted : '.'.toUInt8 ∉ pool.name
  names : ∀ x ∈ pool.vars, Token.isName x = true ∧ isBufferName (Text.lower x) = false

/-- That nothing is wrong with a function of a manifest by itself. -/
structure ManifestFunction.IsPlain (f : ManifestFunction) : Prop where
  named : f.name ≠ []
  oneBody : f.source = [] ↔ f.file ≠ []

namespace Manifest

variable {m : Manifest} {pools : List Pool} {pool : Pool} {seen declared : List Bytes}
  {number : Nat}
  {name key : Bytes}

theorem variableProblems_eq_nil_iff {vars : List Bytes} : variableProblems name seen vars = [] ↔
    (∀ x ∈ vars, Token.isName x = true ∧ isBufferName (Text.lower x) = false) ∧
      (vars.map Text.lower).Nodup ∧ ∀ x ∈ vars, Text.lower x ∉ seen := by
  induction vars generalizing seen with
  | nil => simp [variableProblems]
  | cons x rest ih =>
    simp only [variableProblems, append_eq_nil_iff, ih, map_cons, nodup_cons, mem_cons, not_or,
      mem_map, not_exists]
    split_ifs <;> grind

theorem poolNameProblems_eq_nil_iff :
    poolNameProblems name = [] ↔ name ≠ HostFunction.moduleName ∧ '.'.toUInt8 ∉ name := by
  unfold poolNameProblems
  split_ifs <;> simp_all

/-- A pool is judged by itself, apart from whether its name was declared
before. -/
theorem poolProblems_cons_eq_nil_iff : poolProblems declared number (pool :: pools) = [] ↔
    (pool.IsPlain ∧ pool.name ∉ declared) ∧
    poolProblems (pool.name :: declared) (number + 1) pools = [] := by
  rw [poolProblems]
  split
  · next hempty => exact iff_of_false (by simp) fun h => h.1.1.named (by simpa using hempty)
  next hnamed =>
  split
  · next hdeclared => exact iff_of_false (by simp) fun h => h.1.2 (by simpa using hdeclared)
  next hnew =>
  have hname : pool.name ≠ [] := by simpa using hnamed
  simp only [append_eq_nil_iff, poolNameProblems_eq_nil_iff, variableProblems_eq_nil_iff]
  constructor
  · rintro ⟨⟨⟨hfree, hdot⟩, hvars, hdistinct, -⟩, hrest⟩
    exact ⟨⟨⟨⟨hname, hfree, hdistinct⟩, hdot, hvars⟩, by simpa using hnew⟩, hrest⟩
  · rintro ⟨⟨hplain, -⟩, hrest⟩
    exact ⟨⟨⟨hplain.unreserved, hplain.undotted⟩, hplain.names, hplain.distinct,
      fun _ _ => not_mem_nil⟩, hrest⟩

theorem poolProblems_eq_nil_iff : poolProblems declared number pools = [] ↔
    (∀ pool ∈ pools, pool.IsPlain ∧ pool.name ∉ declared) ∧ (pools.map (·.name)).Nodup := by
  induction pools generalizing declared number with
  | nil => simp [poolProblems]
  | cons pool rest ih =>
    rw [poolProblems_cons_eq_nil_iff, ih, forall_mem_cons, map_cons, nodup_cons]
    simp only [mem_cons, not_or, mem_map, not_exists]
    grind

theorem functionProblems_cons_eq_nil_iff {f : ManifestFunction} {rest : List ManifestFunction} :
    functionProblems m seen number (f :: rest) = [] ↔
      (f.IsPlain ∧ (m.pool? f.pool).isSome ∧ f.name ∉ seen) ∧
        functionProblems m (f.name :: seen) (number + 1) rest = [] := by
  by_cases hname : f.name = []
  · exact iff_of_false (by simp [functionProblems, hname]) fun h => h.1.1.named hname
  have hbody : f.IsPlain ↔ (f.source = [] ↔ f.file ≠ []) :=
    ⟨fun h => h.oneBody, fun h => ⟨hname, h⟩⟩
  have hempty : f.name.isEmpty = false := by simpa using hname
  rw [functionProblems, hbody, Option.isSome_iff_ne_none]
  simp only [hempty, Bool.false_eq_true, if_false, append_eq_nil_iff]
  cases f.source <;> cases f.file <;> split_ifs <;> simp_all

theorem functionProblems_eq_nil_iff {functions : List ManifestFunction} :
    functionProblems m seen number functions = [] ↔
    (∀ f ∈ functions, f.IsPlain ∧ (m.pool? f.pool).isSome ∧ f.name ∉ seen) ∧
    (functions.map (·.name)).Nodup := by
  induction functions generalizing seen number with
  | nil => simp [functionProblems]
  | cons f rest ih =>
    rw [functionProblems_cons_eq_nil_iff, ih, forall_mem_cons, map_cons, nodup_cons]
    simp only [mem_cons, not_or, mem_map, not_exists]
    grind

/-- That a key names a variable of a pool. -/
def Knows (m : Manifest) (key : Bytes) : Prop :=
  ∃ pool name p, splitDot? key = some (pool, name) ∧ m.pool? pool = some p ∧ (p.find? name).isSome

theorem keyProblem?_eq_none_iff : m.keyProblem? key = none ↔ m.Knows key := by
  unfold keyProblem? Knows
  split
  · next hkey => simp [hkey]
  next pool name hkey =>
  split
  · next hpool => simp [hkey, hpool]
  · next p hp => simp [hkey, hp, Option.isSome_iff_ne_none]

/-- That nothing is wrong with a manifest. -/
structure InOrder (m : Manifest) : Prop where
  pools : ∀ pool ∈ m.pools, pool.IsPlain
  poolNames : (m.pools.map (·.name)).Nodup
  functions : ∀ f ∈ m.functions, f.IsPlain ∧ (m.pool? f.pool).isSome
  functionNames : (m.functions.map (·.name)).Nodup
  keys : ∀ v ∈ m.values, m.Knows v.1

theorem problems_eq_nil_iff : m.problems = [] ↔ m.InOrder := by
  have hkeys : (Bytes.sort (m.values.map (·.1))).filterMap m.keyProblem? = [] ↔
      ∀ v ∈ m.values, m.Knows v.1 := by
    have hmem {key : Bytes} :
        key ∈ Bytes.sort (m.values.map (·.1)) ↔ ∃ v ∈ m.values, v.1 = key := by
      rw [Bytes.sort, mem_mergeSort, mem_map]
    simp [filterMap_eq_nil_iff, keyProblem?_eq_none_iff, hmem]
  rw [problems, append_eq_nil_iff, append_eq_nil_iff, poolProblems_eq_nil_iff,
    functionProblems_eq_nil_iff,
    hkeys]
  constructor
  · rintro ⟨⟨⟨hpools, hpoolNames⟩, hfunctions, hfunctionNames⟩, hvalues⟩
    exact ⟨fun p hp => (hpools p hp).1, hpoolNames,
      fun f hf => ⟨(hfunctions f hf).1, (hfunctions f hf).2.1⟩,
      hfunctionNames, hvalues⟩
  · rintro ⟨hpools, hpoolNames, hfunctions, hfunctionNames, hvalues⟩
    exact ⟨⟨⟨fun p hp => ⟨hpools p hp, not_mem_nil⟩, hpoolNames⟩,
      fun f hf => ⟨(hfunctions f hf).1, (hfunctions f hf).2, not_mem_nil⟩, hfunctionNames⟩, hvalues⟩

theorem pool?_eq_some (h : m.pool? name = some pool) : pool ∈ m.pools ∧ pool.name = name := by
  have hfind := (Option.ite_none_left_eq_some.mp h).2
  exact ⟨mem_of_find?_eq_some hfind, by simpa using find?_some hfind⟩

end Manifest

end Eel
