import Eel.Proofs.Engine.Pools
import Eel.Proofs.Manifest.Checking
import Eel.Proofs.Program.Globals

/-!
What is in order in a manifest is in order everywhere.

Pools and functions are checked three times: in a manifest, before they are
compiled, and when an engine is made of the pools. A manifest that passes has
declarations that can be compiled and pools that an engine can have, and every
value of it can be set. Which value is set when does not depend on the order in
which the values are listed.
-/

namespace Eel

open List

theorem Token.isValid_of_isName {x : Bytes} (h : Token.isName x = true) :
    Text.isValid x = true := by
  refine isValid_of_continuesName fun c hc => ?_
  cases x with
  | nil => cases hc
  | cons d rest =>
    simp only [isName, Bool.and_eq_true, all_eq_true] at h
    rcases mem_cons.mp hc with rfl | hc
    · exact continuesName_of_startsName h.1.1
    · exact h.2 c hc

namespace Manifest

variable {m : Manifest} {key : Bytes}

/-- What can be declared in a manifest can be compiled. -/
theorem InOrder.options (h : m.InOrder) : m.options.InOrder where
  pools pool hpool := (h.pools pool hpool).toIsProper
  poolNames := h.poolNames
  functions f hf := by
    obtain ⟨g, hg, rfl⟩ := mem_map.mp hf
    obtain ⟨hplain, hpool⟩ := h.functions g hg
    obtain ⟨pool, hpool⟩ := Option.isSome_iff_exists.mp hpool
    obtain ⟨hmem, hname⟩ := pool?_eq_some hpool
    exact ⟨hplain.named, hname ▸ mem_map_of_mem hmem⟩
  functionNames := by
    rw [Manifest.options, map_map]
    exact h.functionNames

theorem InOrder.canServe (h : m.InOrder) : ∀ pool ∈ m.pools, pool.CanServe := by
  intro pool hpool
  have hplain := h.pools pool hpool
  exact ⟨hplain.unreserved, hplain.distinct,
    fun x hx => Token.isValid_of_isName (hplain.names x hx).1⟩

/-- The entry that a key and its value give. -/
def entry (v : Bytes × Double) : InitialValue :=
  let (pool, name) := (splitDot? v.1).getD (v.1, [])
  ⟨pool, name, v.2⟩

theorem initialValues_eq (m : Manifest) :
    m.initialValues = (m.values.map entry).mergeSort InitialValue.le := rfl

/-- Keys are told apart by what they name. -/
theorem entry_inj {v w : Bytes × Double} (hv : m.Knows v.1) (hw : m.Knows w.1)
    (hpool : (entry v).pool = (entry w).pool) (hname : (entry v).name = (entry w).name) :
    v.1 = w.1 := by
  obtain ⟨pool, name, -, hv, -⟩ := hv
  obtain ⟨pool', name', -, hw, -⟩ := hw
  simp only [entry, hv, hw, Option.getD_some] at hpool hname
  rw [(Bytes.cut?_eq_some_iff.mp hv).1, (Bytes.cut?_eq_some_iff.mp hw).1, hpool, hname]

end Manifest

namespace InitialValue

variable {a b c : InitialValue}

theorem le_iff : le a b = true ↔
    Bytes.le a.pool b.pool = true ∧ (a.pool = b.pool → Bytes.le a.name b.name = true) := by
  by_cases hpool : a.pool = b.pool
  · have hself : Bytes.le b.pool b.pool = true := (Bytes.le_total b.pool b.pool).elim id id
    simp [le, hpool, hself]
  · simp [le, hpool]

theorem le_total (a b : InitialValue) : (le a b || le b a) = true := by
  rw [Bool.or_eq_true]
  by_cases hpool : a.pool = b.pool
  · simpa [le, hpool] using Bytes.le_total a.name b.name
  · simpa [le, hpool, Ne.symm hpool] using Bytes.le_total a.pool b.pool

theorem le_trans (a b c : InitialValue) (hab : le a b = true) (hbc : le b c = true) :
    le a c = true := by
  rw [le_iff] at hab hbc ⊢
  refine ⟨Bytes.le_trans hab.1 hbc.1, fun hac => ?_⟩
  have hpool : a.pool = b.pool := Bytes.le_antisymm hab.1 (hac ▸ hbc.1)
  exact Bytes.le_trans (hab.2 hpool) (hbc.2 (hpool ▸ hac))

theorem le_antisymm (hab : le a b = true) (hba : le b a = true) :
    a.pool = b.pool ∧ a.name = b.name := by
  rw [le_iff] at hab hba
  have hpool := Bytes.le_antisymm hab.1 hba.1
  exact ⟨hpool, Bytes.le_antisymm (hab.2 hpool) (hba.2 hpool.symm)⟩

end InitialValue

variable {v : InitialValue} {e : Engine}

namespace Manifest

variable {m : Manifest}

/-- The order in which values are listed does not matter. -/
theorem initialValues_of_perm (hkeys : ∀ v ∈ m.values, m.Knows v.1)
    (hnodup : (m.values.map (·.1)).Nodup) {values : List (Bytes × Double)}
    (hperm : values.Perm m.values) : { m with values }.initialValues = m.initialValues := by
  rw [initialValues_eq, initialValues_eq]
  have hentries :=
    ((mergeSort_perm (values.map entry) InitialValue.le).trans (hperm.map entry)).trans
      (mergeSort_perm (m.values.map entry) InitialValue.le).symm
  have hsorted (entries : List InitialValue) :
      (entries.mergeSort InitialValue.le).Pairwise fun a b => InitialValue.le a b = true :=
    pairwise_mergeSort InitialValue.le_trans InitialValue.le_total entries
  refine List.Perm.eq_of_pairwise ?_ (hsorted _) (hsorted _) hentries
  intro a b ha hb hab hba
  rw [mem_mergeSort, mem_map] at ha hb
  obtain ⟨v, hv, rfl⟩ := ha
  obtain ⟨w, hw, rfl⟩ := hb
  have hv : v ∈ m.values := hperm.mem_iff.mp hv
  obtain ⟨hpool, hname⟩ := InitialValue.le_antisymm hab hba
  rw [inj_on_of_nodup_map hnodup hv hw (entry_inj (hkeys v hv) (hkeys w hw) hpool hname)]

/-- Every value is that of a variable which the pools have, whatever its
case. -/
theorem InOrder.exists_cell (h : m.InOrder) (he : e.Starts m.pools) (hv : v ∈ m.initialValues) :
    ∃ c, e.cell? v.pool v.name = .ok c := by
  rw [initialValues_eq, mem_mergeSort, mem_map] at hv
  obtain ⟨w, hw, rfl⟩ := hv
  obtain ⟨pool, name, p, hkey, hpool, hname⟩ := h.keys w hw
  obtain ⟨hp, rfl⟩ := pool?_eq_some hpool
  obtain ⟨x, hx, hlower⟩ := Pool.isSome_find?_iff.mp hname
  obtain ⟨i, hi⟩ := getElem?_of_mem hx
  obtain ⟨ep, hep, rfl⟩ := mem_map.mp (he.declared ▸ hp : p ∈ e.pools.map (·.declared))
  simp only [entry, hkey, Option.getD_some]
  exact ⟨ep.base + i, (Engine.cell?_eq_ok_iff he.laid).mpr ⟨x, ⟨ep, hep, rfl, i, hi, rfl⟩, hlower⟩⟩

end Manifest

/-- Whether a value is for the variable that a name means. Case does not
matter. -/
def InitialValue.isFor (v : InitialValue) (pool name : Bytes) : Bool :=
  v.pool == pool && Text.lower v.name == Text.lower name

theorem InitialValue.isFor_iff {pool name : Bytes} :
    v.isFor pool name = true ↔ pool = v.pool ∧ Text.lower name = Text.lower v.name := by
  rw [isFor, Bool.and_eq_true, beq_iff_eq, beq_iff_eq, eq_comm, eq_comm (a := Text.lower v.name)]

namespace Engine

/-- An engine with values set, one after another. -/
def setAll (e : Engine) (values : List InitialValue) : Except EngineError Engine :=
  values.foldlM (fun e v => e.set v.pool v.name v.value) e

/-- Values are set if all of them are for variables. Of several for one variable
the last one stays. -/
theorem exists_setAll {values : List InitialValue} (hlaid : Laid e.pools e.cells.size)
    (h : ∀ v ∈ values, ∃ c, e.cell? v.pool v.name = .ok c) : ∃ e', e.setAll values = .ok e' ∧ ∀ q y,
      e'.get q y = (values.reverse.find? (·.isFor q y)).elim (e.get q y) (.ok ·.value) := by
  induction values generalizing e with
  | nil => exact ⟨e, rfl, fun _ _ => rfl⟩
  | cons v rest ih =>
    rw [forall_mem_cons] at h
    obtain ⟨c, hc⟩ := h.1
    have hset := set_of_cell? hc v.value
    have hkept : Laid e.pools (e.cells.setIfInBounds c v.value).size := by
      rwa [Array.size_setIfInBounds]
    obtain ⟨e', he', hget⟩ :=
      ih (e := { e with cells := e.cells.setIfInBounds c v.value }) hkept h.2
    refine ⟨e', ?_, fun q y => ?_⟩
    · rw [setAll, foldlM_cons, Except.bind_eq_ok]
      exact ⟨_, hset, he'⟩
    · rw [hget, get_of_set hlaid hset, reverse_cons, find?_append]
      cases rest.reverse.find? (·.isFor q y) with
      | some w => rfl
      | none =>
        simp only [← InitialValue.isFor_iff, find?_singleton, Option.none_or, Option.elim_none]
        split <;> rfl

end Engine

/-- A manifest in which nothing is wrong has declarations that are compiled, its
pools make an engine, and all of its values are set there, one by one and in
order. In what order they are listed does not matter. -/
theorem Manifest.declarations_agree {m : Manifest} (h : m.problems = [])
    (hkeys : (m.values.map (·.1)).Nodup) :
    m.options.fault? = none ∧
      (∀ (settings : Engine.Settings) (e₀ : Engine), Engine.create [] settings = .ok e₀ →
        ∃ e e', Engine.create m.pools settings = .ok e ∧ e.Starts m.pools ∧
          (∀ v ∈ m.initialValues, ∃ e₁, e.set v.pool v.name v.value = .ok e₁) ∧
          e.setAll m.initialValues = .ok e' ∧
          (∀ q y, e'.get q y = (m.initialValues.reverse.find? (·.isFor q y)).elim (e.get q y)
            (.ok ·.value)) ∧
          ∀ values, values.Perm m.values → e.setAll { m with values }.initialValues = .ok e') ∧
      ∀ values, values.Perm m.values → { m with values }.initialValues = m.initialValues := by
  have horder := problems_eq_nil_iff.mp h
  have hperm {values : List (Bytes × Double)} (hvalues : values.Perm m.values) :=
    initialValues_of_perm horder.keys hkeys hvalues
  refine ⟨Options.fault?_eq_none_iff.mpr horder.options, fun settings e₀ hsettings => ?_,
    fun _ => hperm⟩
  have hcreate :=
    Engine.create_eq_ok_iff.mpr ⟨e₀, hsettings, ⟨horder.canServe, horder.poolNames⟩, rfl⟩
  have hstarts := Engine.starts_of_create hcreate
  have hcells {v : InitialValue} (hv : v ∈ m.initialValues) := horder.exists_cell hstarts hv
  obtain ⟨e', he', hget⟩ := Engine.exists_setAll hstarts.laid fun v hv => hcells hv
  refine ⟨_, e', hcreate, hstarts, fun v hv => ?_, he', hget,
    fun values hvalues => hperm hvalues ▸ he'⟩
  obtain ⟨c, hc⟩ := hcells hv
  exact ⟨_, Engine.set_of_cell? hc v.value⟩

/-- Two keys for one variable, which differ in nothing but case. -/
def twoSpellings : Manifest where
  pools := [⟨utf8 "frame", [utf8 "X", utf8 "y.z"]⟩]
  functions := [⟨utf8 "step", utf8 "frame", utf8 "x = y.z", [], []⟩]
  values := [(utf8 "frame.X", .zero), (utf8 "frame.x", .one), (utf8 "frame.y.Z", .one)]

theorem twoSpellings_agree : twoSpellings.problems = [] ∧ (twoSpellings.values.map (·.1)).Nodup ∧
    twoSpellings.options.fault? = none ∧ ∃ e e', Engine.create twoSpellings.pools = .ok e ∧
      e.setAll { twoSpellings with values := twoSpellings.values.reverse }.initialValues = .ok e' ∧
      e'.get (utf8 "frame") (utf8 "X") = .ok .one := by
  have hproblems : twoSpellings.problems = [] := by
    rw [Manifest.problems, Bytes.sort, mergeSort_of_pairwise (by decide +kernel)]
    decide +kernel
  have hkeys : (twoSpellings.values.map (·.1)).Nodup := by decide +kernel
  have hlast : twoSpellings.initialValues.reverse.find? (·.isFor (utf8 "frame") (utf8 "X")) =
      some ⟨utf8 "frame", utf8 "x", .one⟩ := by
    rw [Manifest.initialValues_eq, mergeSort_of_pairwise (by decide +kernel)]
    decide +kernel
  obtain ⟨hfault, hengine, -⟩ := Manifest.declarations_agree hproblems hkeys
  obtain ⟨e, e', hcreate, -, -, -, hget, hset⟩ := hengine {} _ rfl
  refine ⟨hproblems, hkeys, hfault, e, e', hcreate, hset _ twoSpellings.values.reverse_perm, ?_⟩
  rw [hget, hlast]
  rfl

end Eel
