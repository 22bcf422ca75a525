import Eel.Proofs.Engine.Deployment

/-!
What calls leave alone.

However modules are loaded and called on an engine, all of them see the same
variables of its pools. A call changes the variables that the function assigns
and the buffers of its instance, and nothing else: not the variables of other
pools, nor those of other instances. Only where the name of a pool has a zero
byte, its variables are taken for those of another pool.
-/

namespace Eel

open Wasm Machine Program Engine Node Prepared List

variable {e e' : Engine} {limit index : Nat} {o : Options} {i i' : Instance}

/-- A variable is seen as before if its cell has the same value. -/
theorem Engine.sees_vars_congr {q x : Bytes} (hglobals : i'.globals = i.globals)
    (hvalue : ∀ k c, (o.layout q).place x = some k → i.globals[k]? = some c →
      e'.value c = e.value c) :
    (e'.sees o i' q).vars x = (e.sees o i q).vars x := by
  simp only [sees, Layout.view, store, hglobals]
  cases hplace : (o.layout q).place x with
  | none => rfl
  | some k =>
    simp only [Option.bind_some, getElem?_toArray, getElem?_map]
    cases hc : i.globals[k]? with
    | none => rfl
    | some c => simp [hvalue k c hplace hc]

namespace Leaves

variable {decl : FunctionDecl} {f : Prepared} {store : Store Random}
  (h : Leaves e index o i decl f store) {x : Bytes}

include h

theorem isLowerName_target (hx : x ∈ targetsAll f.body) : Token.isLowerName x = true := by
  obtain ⟨id, hid, rfl⟩ := mem_map.mp (targetsAll_subset _ hx)
  exact isLowerName_mentions_of_ofDecl h.read id hid

theorem lower_target (hx : x ∈ targetsAll f.body) : Text.lower x = x :=
  Token.lower_of_isLowerName (h.isLowerName_target hx)

end Leaves

namespace Installed

variable {p : Program} {cells : List Nat} {own : Nat} (h : Installed e limit o i p cells own)
  {q x : Bytes}

include h

/-- Every variable that a function mentions has a place. -/
theorem exists_place {decl : FunctionDecl} {f : Prepared} (hdecl : decl ∈ o.liveFunctions)
    (hread : ofDecl o decl = .ok f) {id : Ident} (hid : id ∈ mentionsAll f.body) :
    ∃ k, (o.layout decl.pool).place id.name = some k := by
  have hlower := lower_mentions_of_ofDecl hread id hid
  have hplaced := h.built.measured.placed (h.built.mem_live hdecl hread) hid hlower
  rw [pool_of_ofDecl hread] at hplaced
  exact Option.isSome_iff_exists.mp hplaced

/-- A variable that its pool does not declare has a cell behind those of the
pools. -/
theorem limit_le_of_undeclared {k c : Nat} (hx : (o.pool q).find? x = none)
    (hk : (o.layout q).place x = some k) (hc : i.globals[k]? = some c) : limit ≤ c :=
  h.limit_le_of_behind hc ((h.places q).undeclared hk hx)

variable (hlaid : Laid e.pools limit)

include hlaid

/-- A declared variable has the cell that it has in its pool, unless the name of
the pool has a zero byte. -/
theorem declares_of_place {declared : Bytes} {k c : Nat} (hzero : 0 ∉ q)
    (hx : (o.pool q).find? x = some declared) (hk : (o.layout q).place x = some k)
    (hc : i.globals[k]? = some c) : e.Declares q declared c := by
  have hexternal := (h.places q).declared hk hx (by rwa [o.pool_name])
  rw [o.pool_name] at hexternal
  obtain ⟨c', hc', hdeclares⟩ := h.exists_declares hlaid hexternal
  obtain rfl : c = c' := Option.some.inj (hc.symm.trans hc')
  exact hdeclares

/-- An instance sees the variables of pools as they are. -/
theorem get_eq_sees (hx : o.Mentions q x) (hzero : 0 ∉ q) :
    e.get q x = .ok ((e.sees o i q).vars (Text.lower x)) := by
  obtain ⟨decl, hdecl, rfl, hmem, f, hread, id, hid, hlower⟩ := hx
  have hname : Text.lower x = id.name := by rw [← hlower, lower_mentions_of_ofDecl hread id hid]
  have hfind : (o.pool decl.pool).find? id.name = some x :=
    (Pool.find?_eq_some_iff (h.built.order.distinct decl.pool)).mpr ⟨hmem, hlower.symm⟩
  obtain ⟨k, hk⟩ := h.exists_place hdecl hread hid
  obtain ⟨c, hc, hsees⟩ := h.exists_sees hk
  have hcell := (cell?_eq_ok_iff hlaid).mpr ⟨x, h.declares_of_place hlaid hzero hfind hk hc, rfl⟩
  rw [get_of_cell? hcell, hname, hsees]

variable {decl : FunctionDecl} {f : Prepared} {store : Store Random}
  (hleaves : Leaves e index o i decl f store)
  (hlimit : limit ≤ e.cells.size)

include hleaves hlimit

/-- What a call leaves is what its instance works on next. -/
theorem store_of_leaves :
    (e.leaving index i store).store { i with memory := store.memory } = store := by
  refine store_leaving (h.nodup_globals hlaid) (fun c hc => h.globals_lt hlaid hlimit hc) ?_
  rw [hleaves.spares.size]
  simp [Engine.store]

/-- A call changes no cell but those of variables that the function assigns. -/
theorem value_of_leaves {k c : Nat} (hc : i.globals[k]? = some c)
    (hk : ∀ x ∈ targetsAll f.body, (o.layout decl.pool).place x ≠ some k) :
    (e.leaving index i store).value c = e.value c := by
  have hafter := congrArg (·.globals[k]?) (h.store_of_leaves hlaid hleaves hlimit)
  have hbefore : (e.store i).globals[k]? = some (e.value c) := by simp [Engine.store, hc]
  simp only [Engine.store, getElem?_toArray, getElem?_map, hc, Option.map_some] at hafter
  rw [h.getElem?_of_leaves hleaves hk, hbefore] at hafter
  exact Option.some.inj hafter

/-- A call changes no variable of a pool but those of the function's pool that
it assigns, unless the name of this pool has a zero byte and one that it
declares is assigned. -/
theorem get_of_leaves
    (hzero : 0 ∈ decl.pool → ∀ x ∈ targetsAll f.body, (o.pool decl.pool).find? x = none) {y : Bytes}
    (hy : ¬(q = decl.pool ∧ Text.lower y ∈ targetsAll f.body)) :
    (e.leaving index i store).get q y = e.get q y := by
  refine get_eq_of_value rfl fun {c} hcell => ?_
  obtain ⟨x, hx, hlower⟩ := (cell?_eq_ok_iff hlaid).mp hcell
  by_cases hmem : c ∈ i.globals
  · -- The cell of a pool that an assigned variable has is that of a variable which the function's
    -- pool declares.
    obtain ⟨k, hc⟩ := getElem?_of_mem hmem
    refine h.value_of_leaves hlaid hleaves hlimit hc fun t ht hk => hy ?_
    cases hfind : (o.pool decl.pool).find? t with
    | none => exact absurd (hx.lt hlaid) (Nat.not_lt.mpr (h.limit_le_of_undeclared hfind hk hc))
    | some declared =>
      have hnone : 0 ∉ decl.pool := fun hmem => by simp [hzero hmem t ht] at hfind
      obtain ⟨hpool, rfl⟩ := hx.inj hlaid (h.declares_of_place hlaid hnone hfind hk hc)
      refine ⟨hpool, ?_⟩
      rw [← hlower, Pool.lower_of_find? hfind, hleaves.lower_target ht]
      exact ht
  · exact value_leaving hmem

/-- A call changes no variable that the instance sees but those of the
function's pool that it assigns. -/
theorem sees_of_leaves (hx : Token.isLowerName x = true)
    (hother : ¬(q = decl.pool ∧ x ∈ targetsAll f.body)) :
    ((e.leaving index i store).sees o { i with memory := store.memory } q).vars x =
      (e.sees o i q).vars x := by
  refine sees_vars_congr rfl fun k c hk hc => ?_
  refine h.value_of_leaves hlaid hleaves hlimit hc fun t ht htk => hother ?_
  obtain ⟨hpool, rfl⟩ :=
    Pool.slot?_inj_pools hx (hleaves.isLowerName_target ht) (slot?_of_place hk) (slot?_of_place htk)
  rw [o.pool_name, o.pool_name] at hpool
  exact ⟨hpool, ht⟩

end Installed

namespace Deployment

/-- What a call of a function changes, and what not. It does what the statements
of the function do, also if the instance is closed. Of instances nothing changes
but the buffers of this one, and other instances see the same values of the
variables that are theirs alone. Neither in the pools nor in the instance
another variable changes than those of the function's pool that it assigns; but
of the pools this is not said if the name of the function's pool has a zero byte
and the function assigns a variable that this pool declares. -/
structure Confined (d : Deployment) (index : Nat) (o : Options) (i : Instance) (decl : FunctionDecl)
    (f : Prepared) (i' : Instance) (e' : Engine) : Prop where
  answer : d.engine.call index decl.name =
    (if i.isClosed then .error (.call decl.name) else .ok (), e')
  instances : e'.instances = d.engine.instances.set index i'
  buffers : i' = { i with memory := i'.memory }
  placed : ∀ id ∈ mentionsAll f.body, ∃ k, (o.layout decl.pool).place id.name = some k
  effect : (o.layout decl.pool).Holds (e'.store i')
    (Run.all (evalEach d.engine.host f.body) (d.engine.sees o i decl.pool)).2
  assigned : targetsAll f.body ⊆ targetsAll f.source.script.body
  pools : (0 ∈ decl.pool → ∀ x ∈ targetsAll f.body, (o.pool decl.pool).find? x = none) →
    ∀ q y, ¬(q = decl.pool ∧ Text.lower y ∈ targetsAll f.body) → e'.get q y = d.engine.get q y
  globals : ∀ q x, Token.isLowerName x = true → ¬(q = decl.pool ∧ x ∈ targetsAll f.body) →
    (e'.sees o i' q).vars x = (d.engine.sees o i q).vars x
  others : ∀ {index₁ : Nat} {o₁ : Options} {i₁ : Instance}, d.Has index₁ o₁ i₁ → index₁ ≠ index →
    ∀ q x, (o₁.pool q).find? x = none → (e'.sees o₁ i₁ q).vars x = (d.engine.sees o₁ i₁ q).vars x

/-- What setting a variable changes, and what not. -/
structure SetAlone (d : Deployment) (q y : Bytes) (v : Double) (e' : Engine) : Prop where
  get : ∀ q' y', e'.get q' y' = if q' = q ∧ Text.lower y' = Text.lower y then .ok v
    else d.engine.get q' y'
  instances : e'.instances = d.engine.instances
  others : ∀ {index : Nat} {o : Options} {i : Instance}, d.Has index o i →
    ∀ q x, (o.pool q).find? x = none → (e'.sees o i q).vars x = (d.engine.sees o i q).vars x

/-- That all variables and all buffers are as before. -/
structure Keeps (d d' : Deployment) : Prop where
  get : ∀ q y, d'.engine.get q y = d.engine.get q y
  sees : ∀ {index : Nat} {o : Options} {i : Instance}, d.Has index o i →
    ∃ i', d'.Has index o i' ∧ ∀ q, d'.engine.sees o i' q = d.engine.sees o i q

namespace Sound

variable {d : Deployment} (h : d.Sound limit)

include h

theorem confined (hhas : d.Has index o i) {decl : FunctionDecl} (hdecl : decl ∈ o.liveFunctions)
    {f : Prepared} {store : Store Random} (hleaves : Leaves d.engine index o i decl f store) :
    d.Confined index o i decl f { i with memory := store.memory }
      (d.engine.leaving index i store) := by
  obtain ⟨p, cells, own, hinstalled⟩ := h.installed hhas
  refine ⟨hleaves.call, rfl, rfl, fun id hid => hinstalled.exists_place hdecl hleaves.read hid, ?_,
    targetsAll_of_ofDecl hleaves.read,
    fun hzero q y => hinstalled.get_of_leaves h.laid hleaves h.limit_le hzero,
    fun q x => hinstalled.sees_of_leaves h.laid hleaves h.limit_le, ?_⟩
  · rw [hinstalled.store_of_leaves h.laid hleaves h.limit_le]
    exact hleaves.holds
  · intro index₁ o₁ i₁ hhas₁ hne q x hx
    obtain ⟨p₁, cells₁, own₁, hinstalled₁⟩ := h.installed hhas₁
    refine sees_vars_congr rfl fun k c hk hc => value_leaving ?_
    exact h.notMem_globals hhas.2 hhas₁.2 hne (mem_of_getElem? hc)
      (hinstalled₁.limit_le_of_undeclared hx hk hc)

theorem setAlone {q y : Bytes} {v : Double} (hset : d.engine.set q y v = .ok e') :
    d.SetAlone q y v e' := by
  obtain ⟨c, hcell, rfl⟩ := set_eq_ok_iff.mp hset
  obtain ⟨x, hx, -⟩ := (cell?_eq_ok_iff h.laid).mp hcell
  refine ⟨get_of_set (h.laid.mono h.limit_le) hset, rfl, fun {index o i} hhas q' z hz => ?_⟩
  obtain ⟨p, cells, own, hinstalled⟩ := h.installed hhas
  refine sees_vars_congr rfl fun k c' hk hc' => ?_
  have hne : c ≠ c' :=
    Nat.ne_of_lt (Nat.lt_of_lt_of_le (hx.lt h.laid) (hinstalled.limit_le_of_undeclared hz hk hc'))
  simp [value, Array.getElem?_setIfInBounds_ne hne]

end Sound

theorem keeps_load (d : Deployment) (o : Options) : d.Keeps (d.load o) := by
  rcases d.load_cases o with ⟨taken, hload⟩ | ⟨p, cells, -, -, hload⟩
  · rw [hload]
    exact ⟨fun _ _ => rfl, fun {_ _ i} hhas => ⟨i, hhas, fun _ => rfl⟩⟩
  · have hcells : (d.engine.withProgram p cells).cells = d.engine.cells ++
        Array.replicate p.globals Double.zero := by
      simp [withProgram]
    have hvalue := value_eq_of_cells_append hcells
    rw [hload]
    refine ⟨fun q y => get_eq_of_value rfl fun _ => congrFun hvalue _, fun {index o' i} hhas => ?_⟩
    refine ⟨i, ⟨?_, ?_⟩, fun q => ?_⟩
    · rw [getElem?_append_left (List.getElem?_eq_some_iff.mp hhas.1).1, hhas.1]
    · rw [withProgram, getElem?_append_left (List.getElem?_eq_some_iff.mp hhas.2).1, hhas.2]
    · rw [Engine.sees, Engine.store, hvalue]
      rfl

theorem keeps_close (d : Deployment) (index : Nat) : d.Keeps (d.act (.close index)) := by
  refine ⟨fun _ _ => rfl, fun {k o i} hhas => ?_⟩
  have hclosed : (d.engine.close index).instances[k]? =
      some (if index = k then { i with isClosed := true } else i) := by
    rw [close, getElem?_modify, hhas.2]
    rfl
  refine ⟨_, ⟨hhas.1, hclosed⟩, fun q => ?_⟩
  split <;> rfl

/-- What holds of an engine and its instances, whatever was done before. Every
instance has its options. All of them, and whoever asks the engine, see the same
values of the variables of pools; those of a pool with a zero byte in its name
are left out. Calls and settings change what they are meant to change, and what
fails changes nothing. -/
structure Isolated (d : Deployment) : Prop where
  matched : d.modules.length = d.engine.instances.length
  shared : ∀ {index : Nat} {o : Options} {i : Instance}, d.Has index o i →
    ∀ q x, o.Mentions q x → 0 ∉ q →
    d.engine.get q x = .ok ((d.engine.sees o i q).vars (Text.lower x))
  call : ∀ {index : Nat} {o : Options} {i : Instance}, d.Has index o i → ∀ decl ∈ o.liveFunctions,
    ∃ f i' e', ofDecl o decl = .ok f ∧ d.Confined index o i decl f i' e'
  noCall : ∀ index name, (∀ o i, d.Has index o i → name ∉ o.liveFunctions.map (·.name)) →
    d.engine.call index name = (.error (.noFunction name), d.engine)
  set : ∀ {q y : Bytes} {v : Double} {e' : Engine}, d.engine.set q y v = .ok e' →
    d.SetAlone q y v e'
  noSet : ∀ {q y : Bytes} {v : Double} {error : EngineError}, d.engine.set q y v = .error error →
    d.act (.set q y v) = d
  load : ∀ functions simplify maxRounds, d.Keeps (d.act (.load functions simplify maxRounds))
  close : ∀ index, d.Keeps (d.act (.close index))

/-- However variables are set and modules are loaded, called and closed on an
engine, calls touch nothing but the variables that their functions assign, and
the buffers of their instance. -/
theorem after_isolated {pools : List Pool} {settings : Engine.Settings} {e : Engine}
    (h : Engine.create pools settings = .ok e) (actions : List Engine.Action) :
    (after ⟨e, []⟩ actions).Isolated := by
  have hsound := (sound_of_create h).after actions
  refine ⟨hsound.matched, fun hhas q x hx hzero => ?_, fun hhas decl hdecl => ?_,
    fun index name hname => ?_,
    hsound.setAlone, fun {q y v error} hset => ?_, fun _ _ _ => keeps_load _ _, keeps_close _⟩
  · obtain ⟨p, cells, own, hinstalled⟩ := hsound.installed hhas
    exact hinstalled.get_eq_sees hsound.laid hx hzero
  · obtain ⟨p, cells, own, hinstalled⟩ := hsound.installed hhas
    obtain ⟨f, store, hleaves⟩ := hinstalled.exists_leaves hhas.2 hdecl
    exact ⟨f, _, _, hleaves.read, hsound.confined hhas hdecl hleaves⟩
  · rcases hsound.call_cases index name with ⟨o, i, decl, f, store, hhas, hdecl, rfl, -⟩
        | ⟨-, hcall⟩
    · exact absurd (mem_map_of_mem hdecl) (hname o i hhas)
    · exact hcall
  · rw [act, hset]
    rfl

/-- Pools with variables of one name, in different case. -/
def counters : List Pool := [⟨utf8 "p1", [utf8 "X"]⟩, ⟨utf8 "p2", [utf8 "x", utf8 "y"]⟩]

/-- Two modules that count in variables of the same names, in turn, the first of
them also when it is closed. -/
def counting : List Action := [
  .load [⟨utf8 "f1", utf8 "p1", utf8 "t = t + 1; x = t"⟩,
    ⟨utf8 "f2", utf8 "p2", utf8 "t = t + 2; y = x + t"⟩] true 0,
  .load [⟨utf8 "g", utf8 "p1", utf8 "x = x * 4 + t; t = 1"⟩] false 0,
  .set (utf8 "p2") (utf8 "X") (.ofNat 5),
  .call 0 (utf8 "f1"), .call 0 (utf8 "f2"), .call 1 (utf8 "g"), .close 0, .call 0 (utf8 "f1"),
  .call 1 (utf8 "g")]

theorem counting_isolated :
    ∃ e, Engine.create counters = .ok e ∧ (after ⟨e, []⟩ counting).modules.length = 2 ∧
    (after ⟨e, []⟩ counting).engine.get (utf8 "p1") (utf8 "x") = .ok (.ofNat 9) ∧
    (after ⟨e, []⟩ counting).engine.get (utf8 "p2") (utf8 "y") = .ok (.ofNat 7) ∧
    (after ⟨e, []⟩ counting).Isolated := by
  have hrun :
      ((Engine.create counters).toOption.map fun e => ((after ⟨e, []⟩ counting).modules.length,
      (after ⟨e, []⟩ counting).engine.get (utf8 "p1") (utf8 "x"),
      (after ⟨e, []⟩ counting).engine.get (utf8 "p2")
      (utf8 "y"))) = some (2, .ok (.ofNat 9), .ok (.ofNat 7)) := by
    decide +kernel
  simp only [Option.map_eq_some_iff, Except.toOption_eq_some_iff, Prod.mk.injEq] at hrun
  obtain ⟨e, he, hmodules, hx, hy⟩ := hrun
  exact ⟨e, he, hmodules, hx, hy, after_isolated he counting⟩

/-- Two pools. With zero bytes, the names of the second and its variable read
like those of the first. -/
def crossedPools : List Pool := [⟨utf8 "a", [[98, 0, 120]]⟩, ⟨[97, 0, 98], [utf8 "x"]⟩]

/-- A function of the second pool changes the variable of the first, and not the
one that it assigns. -/
theorem crossedPools_touched : ∃ (e : Engine) (d : Deployment), Engine.create crossedPools = .ok e ∧
    after ⟨e, []⟩ [.load [⟨utf8 "f", [97, 0, 98], utf8 "x = 1"⟩] true 0] = d ∧
    d.engine.get (utf8 "a") [98, 0, 120] = .ok .zero ∧ (d.engine.call 0 (utf8 "f")).1 = .ok () ∧
    (d.engine.call 0 (utf8 "f")).2.get (utf8 "a") [98, 0, 120] = .ok .one ∧
    (d.engine.call 0 (utf8 "f")).2.get [97, 0, 98] (utf8 "x") = .ok .zero := by
  have hrun : ((Engine.create crossedPools).toOption.map fun e =>
      (after ⟨e, []⟩ [.load [⟨utf8 "f", [97, 0, 98], utf8 "x = 1"⟩] true 0])).map (fun d =>
        (d.engine.get (utf8 "a") [98, 0, 120], (d.engine.call 0 (utf8 "f")).1,
          (d.engine.call 0 (utf8 "f")).2.get (utf8 "a") [98, 0, 120],
          (d.engine.call 0 (utf8 "f")).2.get [97, 0, 98] (utf8 "x"))) =
      some (.ok .zero, .ok (), .ok .one, .ok .zero) := by
    decide +kernel
  simp only [Option.map_eq_some_iff, Except.toOption_eq_some_iff, Prod.mk.injEq] at hrun
  obtain ⟨d, ⟨e, he, hd⟩, hbefore, hcall, hother, hown⟩ := hrun
  exact ⟨e, d, he, hd, hbefore, hcall, hother, hown⟩

end Deployment

end Eel
