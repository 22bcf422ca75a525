import Eel.Program.Compile
import Mathlib.Data.List.Nodup

/-!
When declarations are in order.

A program is compiled only if nothing is wrong with its pools and functions.
Told without the order in which they are looked at: every pool has a name of its
own that is not reserved and variables that differ by more than case, and every
function has a name of its own and a pool that is declared.
-/

namespace Eel

open List

/-- That a pool can be declared, whatever else is. -/
structure Pool.IsProper (pool : Pool) : Prop where
  named : pool.name ≠ []
  unreserved : pool.name ≠ HostFunction.moduleName
  distinct : (pool.vars.map Text.lower).Nodup

theorem Pool.isProper_iff {pool : Pool} : pool.IsProper ↔
    pool.name ≠ [] ∧ pool.name ≠ HostFunction.moduleName ∧ (pool.vars.map Text.lower).Nodup :=
  ⟨fun h => ⟨h.named, h.unreserved, h.distinct⟩, fun h => ⟨h.1, h.2.1, h.2.2⟩⟩

namespace Options

variable {seen names : List Bytes}

theorem repeatedVariable?_eq_none_iff {vars : List Bytes} : repeatedVariable? seen vars = none ↔
    (vars.map Text.lower).Nodup ∧ ∀ x ∈ vars, Text.lower x ∉ seen := by
  induction vars generalizing seen with
  | nil => simp [repeatedVariable?]
  | cons x rest ih =>
    rw [repeatedVariable?]
    by_cases hx : Text.lower x ∈ seen
    · simp [hx]
    · simp only [contains_eq_mem, hx, decide_false, Bool.false_eq_true, if_false, ih, map_cons,
        nodup_cons, mem_map, forall_mem_cons, mem_append, mem_singleton, not_or, not_exists]
      grind

/-- A pool is judged by itself, apart from whether its name was seen before. -/
theorem poolFault?_cons_eq_none_iff {pool : Pool} {rest : List Pool} :
    poolFault? seen (pool :: rest) = none ↔
    (pool.IsProper ∧ pool.name ∉ seen) ∧ poolFault? (seen ++ [pool.name]) rest = none := by
  rw [Pool.isProper_iff, poolFault?]
  cases hvars : repeatedVariable? [] pool.vars with
  | none =>
    have hdistinct := (repeatedVariable?_eq_none_iff.mp hvars).1
    split_ifs <;> simp_all
  | some x =>
    have hdistinct : ¬(pool.vars.map Text.lower).Nodup := fun h => by
      simp [repeatedVariable?_eq_none_iff.mpr ⟨h, fun _ _ => not_mem_nil⟩] at hvars
    split_ifs <;> simp [hdistinct]

theorem poolFault?_eq_none_iff {pools : List Pool} : poolFault? seen pools = none ↔
    (∀ pool ∈ pools, pool.IsProper ∧ pool.name ∉ seen) ∧ (pools.map (·.name)).Nodup := by
  induction pools generalizing seen with
  | nil => simp [poolFault?]
  | cons pool rest ih =>
    rw [poolFault?_cons_eq_none_iff, ih, forall_mem_cons, map_cons, nodup_cons]
    simp only [mem_append, mem_singleton, not_or, mem_map, not_exists]
    grind

theorem functionFault?_cons_eq_none_iff {f : FunctionDecl} {rest : List FunctionDecl} :
    functionFault? names seen (f :: rest) = none ↔
      (f.name ≠ [] ∧ f.pool ∈ names ∧ f.name ∉ seen) ∧
      functionFault? names (seen ++ [f.name]) rest = none := by
  rw [functionFault?]
  split_ifs <;> simp_all

theorem functionFault?_eq_none_iff {functions : List FunctionDecl} :
    functionFault? names seen functions = none ↔
    (∀ f ∈ functions, f.name ≠ [] ∧ f.pool ∈ names ∧ f.name ∉ seen) ∧
    (functions.map (·.name)).Nodup := by
  induction functions generalizing seen with
  | nil => simp [functionFault?]
  | cons f rest ih =>
    rw [functionFault?_cons_eq_none_iff, ih, forall_mem_cons, map_cons, nodup_cons]
    simp only [mem_append, mem_singleton, not_or, mem_map, not_exists]
    grind

/-- That nothing is wrong with the declarations. -/
structure InOrder (o : Options) : Prop where
  pools : ∀ pool ∈ o.pools, pool.IsProper
  poolNames : (o.pools.map (·.name)).Nodup
  functions : ∀ f ∈ o.functions, f.name ≠ [] ∧ f.pool ∈ o.pools.map (·.name)
  functionNames : (o.functions.map (·.name)).Nodup

theorem fault?_eq_none_iff {o : Options} : o.fault? = none ↔ o.InOrder := by
  have hsplit : o.fault? = none ↔
      poolFault? [] o.pools = none ∧
        functionFault? (o.pools.map (·.name)) [] o.functions = none := by
    rw [fault?]
    cases poolFault? [] o.pools <;> simp
  rw [hsplit, poolFault?_eq_none_iff, functionFault?_eq_none_iff]
  constructor
  · rintro ⟨⟨hpools, hpoolNames⟩, hfunctions, hfunctionNames⟩
    exact ⟨fun p hp => (hpools p hp).1, hpoolNames,
      fun f hf => ⟨(hfunctions f hf).1, (hfunctions f hf).2.1⟩,
      hfunctionNames⟩
  · rintro ⟨hpools, hpoolNames, hfunctions, hfunctionNames⟩
    exact ⟨⟨fun p hp => ⟨hpools p hp, not_mem_nil⟩, hpoolNames⟩,
      fun f hf => ⟨(hfunctions f hf).1, (hfunctions f hf).2, not_mem_nil⟩, hfunctionNames⟩

end Options

end Eel
