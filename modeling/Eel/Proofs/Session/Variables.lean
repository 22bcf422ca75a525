import Eel.Proofs.Engine.Pools
import Eel.Proofs.Program.Globals
import Eel.Session.Basic

/-!
The variables of a session.

All variables of a session belong to one pool, which has an engine of its own.
When the pool grows, another engine takes its place: every variable that was
there before has the value that it had, and the new ones are zero.
-/

namespace Eel.Session

open Engine List

/-- That names can be those of a session's variables: none is repeated, and all
are in lower case. -/
structure AreNames (vars : List Bytes) : Prop where
  nodup : vars.Nodup
  lower : ∀ x ∈ vars, Token.isLowerName x = true

/-- That an engine has the variables of a session, and nothing else. -/
structure Serves (e : Engine) (vars : List Bytes) : Prop where
  host : e.host = mathHost []
  pools : e.pools = [⟨⟨poolName, vars⟩, 0⟩]
  size : e.cells.size = vars.length

/-- The value that a name has in an engine; zero if it is no variable. -/
def valueIn (e : Engine) (vars : List Bytes) (x : Bytes) : Double :=
  if x ∈ vars then e.value (vars.idxOf x) else .zero

section Engine

variable {e : Engine} {vars : List Bytes} {x : Bytes}

namespace AreNames

variable (hnames : AreNames vars)

include hnames

/-- Names in lower case are told apart as they are. -/
theorem nodup_lower : (vars.map Text.lower).Nodup := by
  have hlower : vars.map Text.lower = vars.map id :=
    map_congr_left fun x hx => Token.lower_of_isLowerName (hnames.lower x hx)
  rw [hlower, map_id]
  exact hnames.nodup

theorem findIdx?_lower (hx : x ∈ vars) :
    vars.findIdx? (Text.lower · == Text.lower x) = some (vars.idxOf x) :=
  (findIdx?_key_eq_some_iff hnames.nodup_lower).mpr ⟨x, getElem?_idxOf hx, rfl⟩

end AreNames

namespace Serves

variable (h : Serves e vars)

include h

theorem pool? : e.pool? poolName = .ok ⟨⟨poolName, vars⟩, 0⟩ := by
  simp [Engine.pool?, h.pools]

/-- All variables are told with their values. -/
theorem vars_eq (hnodup : vars.Nodup) :
    e.vars poolName = .ok (vars.map fun x => (x, valueIn e vars x)) := by
  have hzip : vars.zipIdx.map (fun y => (y.1, e.value (0 + y.2))) = vars.map fun x =>
      (x, valueIn e vars x) := by
    refine ext_getElem (by simp) fun i hi _ => ?_
    have hlt : i < vars.length := by simpa using hi
    simp [valueIn, hnodup.idxOf_getElem i hlt]
  rw [Engine.vars, h.pool?]
  exact congrArg Except.ok hzip

variable (hnames : AreNames vars) (hx : x ∈ vars)

include hnames hx

theorem cell? : e.cell? poolName x = .ok (vars.idxOf x) := by
  unfold Engine.cell?
  rw [h.pool?]
  have hfind := hnames.findIdx?_lower hx
  simp only [bind, Except.bind, hfind, Nat.zero_add]
  rfl

theorem get : e.get poolName x = .ok (valueIn e vars x) := by
  rw [get_of_cell? (h.cell? hnames hx), valueIn, if_pos hx]

/-- Setting a variable changes no other. -/
theorem set (v : Double) :
    ∃ e', e.set poolName x v = .ok e' ∧ Serves e' vars ∧ e'.random = e.random ∧
    valueIn e' vars = Function.update (valueIn e vars) x v := by
  refine ⟨_, set_of_cell? (h.cell? hnames hx) v, ⟨h.host, h.pools, ?_⟩, rfl, ?_⟩
  · rw [Array.size_setIfInBounds, h.size]
  · funext y
    have hlt : vars.idxOf x < e.cells.size := h.size ▸ idxOf_lt_length_of_mem hx
    by_cases hyx : y = x
    · subst hyx
      simp [valueIn, hx, value, hlt]
    · rw [Function.update_of_ne hyx, valueIn, valueIn]
      split
      · rename_i hy
        have hne : vars.idxOf x ≠ vars.idxOf y := fun heq => hyx ((idxOf_inj hx).mp heq).symm
        simp [value, Array.getElem?_setIfInBounds_ne hne]
      · rfl

end Serves

/-- A new engine has all variables at zero. -/
theorem exists_create (hnames : AreNames vars) (seed : UInt64) :
    ∃ e, create [⟨poolName, vars⟩] { seed } = .ok e ∧ Serves e vars ∧ e.random = .ofSeed seed ∧
      valueIn e vars = fun _ => .zero := by
  have hname : poolName ≠ HostFunction.moduleName := by decide
  have hserve : Pool.CanServe ⟨poolName, vars⟩ :=
    ⟨hname, hnames.nodup_lower, fun x hx => Token.isValid_of_isLowerName (hnames.lower x hx)⟩
  have hcreate : create [⟨poolName, vars⟩] { seed } = .ok _ :=
    create_eq_ok_iff.mpr ⟨_, rfl, ⟨by simpa using hserve, by simp⟩, rfl⟩
  refine ⟨_, hcreate, ⟨rfl, rfl, by simp [withPool]⟩, rfl, ?_⟩
  funext x
  rw [valueIn, (starts_of_create hcreate).zero, ite_self]

/-- Setting some variables to the values that they have elsewhere. -/
theorem Serves.setAll (h : Serves e vars) (hnames : AreNames vars) {known : List Bytes}
    (hknown : known ⊆ vars) (value : Bytes → Double) :
    ∃ e', (known.map fun x => (x, value x)).foldlM
      (fun e (y : Bytes × Double) => e.set poolName y.1 y.2) e = .ok e' ∧
      Serves e' vars ∧ e'.random = e.random ∧ ∀ x, valueIn e' vars x = if x ∈ known then value x
        else valueIn e vars x := by
  induction known generalizing e with
  | nil => exact ⟨e, rfl, h, rfl, by simp⟩
  | cons x rest ih =>
    rw [cons_subset] at hknown
    obtain ⟨e₁, hset, hserves, hrandom, hvalue⟩ := h.set hnames hknown.1 (value x)
    obtain ⟨e', hfold, hserves', hrandom', hvalue'⟩ := ih hserves hknown.2
    refine ⟨e', ?_, hserves', hrandom'.trans hrandom, fun y => ?_⟩
    · rw [map_cons, foldlM_cons, hset]
      exact hfold
    · rw [hvalue', hvalue]
      by_cases hy : y = x
      · simp [hy]
      · simp [hy]

end Engine

/-- The value of a variable; zero if there is no such variable. -/
def value (s : Session) (x : Bytes) : Double :=
  match s.values with
  | .ok values => (values.lookup x).getD .zero
  | .error _ => .zero

/-- The state of the random numbers; before the first input that of the seed. -/
def random (s : Session) : Random :=
  match s.engine with
  | some e => e.random
  | none => .ofSeed s.seed

/-- That a session holds its variables. -/
structure Sound (s : Session) : Prop where
  names : AreNames s.vars
  idle : s.engine = none → s.vars = []
  serves : ∀ e, s.engine = some e → Serves e s.vars

variable {s : Session}

theorem lookup_map {vars : List Bytes} (value : Bytes → Double) (x : Bytes) :
    (vars.map fun x => (x, value x)).lookup x = if x ∈ vars then some (value x) else none := by
  induction vars with
  | nil => rfl
  | cons y rest ih =>
    rw [map_cons, lookup_cons, ih]
    by_cases hx : x = y
    · simp [hx]
    · simp [hx, show (x == y) = false by simpa using hx]

theorem Sound.value_of_engine (h : s.Sound) {e : Engine} (he : s.engine = some e) :
    s.value = valueIn e s.vars := by
  funext x
  have hserves := h.serves e he
  rw [value, values, he]
  simp only [hserves.vars_eq h.names.nodup, lookup_map]
  by_cases hx : x ∈ s.vars
  · simp [hx]
  · simp [hx, valueIn]

theorem value_of_idle (h : s.engine = none) : s.value = fun _ => .zero := by
  funext x
  simp [value, values, h]

theorem Sound.value_of_notMem (h : s.Sound) {x : Bytes} (hx : x ∉ s.vars) : s.value x = .zero := by
  cases he : s.engine with
  | none => rw [value_of_idle he]
  | some e => rw [h.value_of_engine he, valueIn, if_neg hx]

/-- All variables of a session are told with their values. -/
theorem Sound.values_eq (h : s.Sound) : s.values = .ok (s.vars.map fun x => (x, s.value x)) := by
  cases he : s.engine with
  | none => simp [values, he, h.idle he]
  | some e =>
    rw [h.value_of_engine he, values, he]
    exact (h.serves e he).vars_eq h.names.nodup

theorem Sound.withEngine (h : s.Sound) {e : Engine} (he : Serves e s.vars) :
    ({ s with engine := some e } : Session).Sound where
  names := h.names
  idle := by simp
  serves := by
    intro e' heq
    cases heq
    exact he

/-- An engine for more variables has the values of those that were there before,
and zero for the new ones. -/
theorem Sound.exists_engineFor (h : s.Sound) {vars : List Bytes} (hnames : AreNames vars)
    (hold : s.vars ⊆ vars) :
    ∃ e, engineFor s.seed ⟨poolName, vars⟩ (s.vars.map fun x => (x, s.value x)) = .ok e ∧
      Serves e vars ∧ e.random = .ofSeed s.seed ∧ valueIn e vars = s.value := by
  obtain ⟨e₀, hcreate, hserves₀, hrandom₀, hvalue₀⟩ := exists_create hnames s.seed
  obtain ⟨e, hset, hserves, hrandom, hvalue⟩ := hserves₀.setAll hnames hold s.value
  refine ⟨e, ?_, hserves, hrandom.trans hrandom₀, ?_⟩
  · rw [engineFor, hcreate]
    exact hset
  · funext x
    rw [hvalue, hvalue₀]
    split
    · rfl
    · rename_i hx
      rw [h.value_of_notMem hx]

/-- The names of a session behind some that an input mentions. -/
def grownVars (s : Session) (names : List Bytes) : List Bytes :=
  s.vars ++ names.filter fun x => !s.vars.contains x

theorem mem_grownVars {names : List Bytes} {x : Bytes} :
    x ∈ s.grownVars names ↔ x ∈ s.vars ∨ x ∈ names := by
  simp only [grownVars, mem_append, mem_filter, Bool.not_eq_true', contains_eq_mem,
    decide_eq_false_iff_not]
  tauto

theorem AreNames.grownVars {names : List Bytes} (h : AreNames s.vars) (hnames : AreNames names) :
    AreNames (s.grownVars names) where
  nodup := by
    refine nodup_append'.mpr ⟨h.nodup, hnames.nodup.filter _, fun x hx hnew => ?_⟩
    simp [hx] at hnew
  lower := by
    intro x hx
    exact (mem_grownVars.mp hx).elim (h.lower x) (hnames.lower x)

/-- The random numbers behind names that an input mentions. A new name makes
them start afresh. -/
def randomFor (s : Session) (names : List Bytes) : Random :=
  if names ⊆ s.vars then s.random else .ofSeed s.seed

/-- That names were added, and all values kept. A name that is new has the value
zero. -/
structure Grows (s : Session) (names : List Bytes) (s' : Session) : Prop where
  vars : s'.vars = s.grownVars names
  value : s'.value = s.value

/-- That a session has grown, and with it its engine. -/
structure GrowsIn (s : Session) (names : List Bytes) (s' : Session) (e : Engine) :
    Prop extends s.Grows names s' where
  sound : s'.Sound
  engine : s'.engine = some e
  random : s'.random = s.randomFor names

/-- All names can be added. -/
theorem Sound.exists_grow (h : s.Sound) {names : List Bytes} (hnames : AreNames names) :
    ∃ s' e, s.grow names = .ok (s', e) ∧ s.GrowsIn names s' e := by
  have hgrown := h.names.grownVars hnames
  -- A new engine, for all cases but one.
  obtain ⟨e', hengine, hserves, hrandom, hvalue⟩ :=
    h.exists_engineFor hgrown (subset_append_left _ _)
  have hsound : ({ s with vars := s.grownVars names, engine := some e' } : Session).Sound :=
    ⟨hgrown, by simp, fun e he => Option.some.inj he ▸ hserves⟩
  have hvalue' := (hsound.value_of_engine rfl).trans hvalue
  have hrebuild : (do
      let e ← engineFor s.seed ⟨poolName, s.grownVars names⟩ (← s.values)
      return (({ s with vars := s.grownVars names, engine := some e } : Session), e)) =
        Except.ok (({ s with vars := s.grownVars names, engine := some e' } : Session), e') := by
    rw [h.values_eq]
    change (engineFor s.seed ⟨poolName, s.grownVars names⟩ _ >>= _) = _
    rw [hengine]
    rfl
  cases he : s.engine with
  | none =>
    refine ⟨_, e', ?_, ⟨rfl, hvalue'⟩, hsound, rfl, ?_⟩
    · rw [grow, he]
      exact hrebuild
    · have hfresh : s.random = .ofSeed s.seed := by rw [Session.random, he]
      rw [randomFor, hfresh, ite_self]
      exact hrandom
  | some e =>
    by_cases hsub : names ⊆ s.vars
    · have hadded : names.filter (fun x => !s.vars.contains x) = [] :=
        filter_eq_nil_iff.mpr fun x hx => by simpa using hsub hx
      refine ⟨s, e, ?_, ⟨?_, rfl⟩, h, he, ?_⟩
      · rw [grow, hadded, he]
        rfl
      · rw [Session.grownVars, hadded, append_nil]
      · rw [randomFor, if_pos hsub]
    · refine ⟨_, e', ?_, ⟨rfl, hvalue'⟩, hsound, rfl, ?_⟩
      · rw [grow, he]
        cases hadded : names.filter (fun x => !s.vars.contains x) with
        | nil =>
          refine absurd (fun x hx => ?_) hsub
          simpa using filter_eq_nil_iff.mp hadded x hx
        | cons x rest =>
          rw [Session.grownVars, hadded] at hrebuild
          rw [Session.grownVars, hadded]
          exact hrebuild
      · rw [randomFor, if_neg hsub]
        exact hrandom

namespace GrowsIn

variable {names : List Bytes} {s' : Session} {e : Engine} (h : s.GrowsIn names s' e)

include h

theorem serves : Serves e s'.vars := h.sound.serves e h.engine

theorem names_subset : names ⊆ s'.vars := by
  intro x hx
  rw [h.vars, mem_grownVars]
  exact .inr hx

/-- What is run next starts with the values that were there before. -/
theorem valueIn_eq : valueIn e s'.vars = s.value := by
  rw [← h.sound.value_of_engine h.engine, h.value]

theorem random_eq : e.random = s.randomFor names := by
  rw [← h.random, Session.random, h.engine]

end GrowsIn

end Eel.Session
