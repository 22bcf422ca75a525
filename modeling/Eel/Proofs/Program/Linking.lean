import Eel.Proofs.Program.Acceptance
import Eel.Proofs.Program.Globals
import Eel.Proofs.Program.Realization
import Eel.Proofs.Program.Validity
import Eel.Proofs.Wasm.Indices

/-!
Indices in compiled modules link to what they mean.

Functions of a module are those of the host, then the exported ones, then
routines, and every call names the one that it was emitted for. Every variable
of a pool has one global in all functions of the pool, and no other variable has
it.
-/

namespace Eel

open Wasm Lowering Reference Prepared HostFunction
open List hiding all

/-- Whether a source holds a statement. -/
def FunctionDecl.hasStatement (f : FunctionDecl) : Bool :=
  match Source.parse f.source with
  | .ok source => !source.script.isEmpty
  | .error _ => false

namespace Options

variable {o : Options}

/-- The functions that are not left out. -/
def liveFunctions (o : Options) : List FunctionDecl := o.functions.filter (·.hasStatement)

theorem pool_name (o : Options) (name : Bytes) : (o.pool name).name = name := by
  unfold pool
  cases h : o.pools.find? (·.name == name) with
  | none => rfl
  | some pool => simpa using find?_some h

/-- That a function of a pool refers to something. -/
def Refers (o : Options) (pool : Bytes) (name : Named) : Prop :=
  ∃ decl ∈ o.liveFunctions, decl.pool = pool ∧
    ∃ f, ofDecl o decl = .ok f ∧ name ∈ Node.referencesAll f.body

instance {ε α : Type} (x : Except ε α) (P : α → Prop) [DecidablePred P] :
    Decidable (∃ a, x = .ok a ∧ P a) :=
  match x with
  | .ok a => decidable_of_iff (P a) (by simp)
  | .error _ => isFalse (by simp)

instance (pool : Bytes) (name : Named) : Decidable (o.Refers pool name) :=
  inferInstanceAs (Decidable (∃ decl ∈ o.liveFunctions, decl.pool = pool ∧
    ∃ f, ofDecl o decl = .ok f ∧ name ∈ Node.referencesAll f.body))

end Options

namespace Program

variable {o : Options}

/-- What a call of a tree means in a module. -/
def target : Callable → Entity
  | .host f => .imported (hostImport f)
  | .routine r => .function (routineFunction r)

/-- The index that a function of the host or a routine has in a program. -/
def callIndex (p : Program) : Callable → Nat
  | .host f => f.index
  | .routine r => all.length + p.functions.length + p.routines.idxOf r

variable {p : Program} {f : Prepared} {name : Named} {r : Routine} {pool x : Bytes}

section Lowered

variable {externals : Numbering Bytes} {routineBase : Nat} {d d' : Draft}

theorem name_of_lower {g : ProgramFunction} (h : f.lower externals routineBase d = .ok (g, d')) :
    g.name = f.name := by
  simp only [Prepared.lower, bind_eq_ok] at h
  obtain ⟨_, _, -, _, _, -, _, _, -, hpure⟩ := h
  obtain ⟨rfl, -⟩ := pure_eq_ok.mp hpure
  rfl

/-- That a function has the name and the references of the one that it was
lowered from. -/
structure LoweredFrom (externals : Numbering Bytes) (routineBase : Nat) (final : Draft)
    (f : Prepared) (g : ProgramFunction) : Prop where
  name : g.name = f.name
  resolves : (Node.referencesAll f.body).map ((f.scope externals routineBase).resolve final) =
    (Instr.referencesAll g.code).map some

/-- Functions that are lowered one after another refer to what the draft at the
end knows, and routines are numbered when they first come up. -/
theorem loweredFrom_of_mapM {fs : List Prepared} {gs : List ProgramFunction}
    (h : fs.mapM (lower externals routineBase) d = .ok (gs, d')) :
    d.Within d' ∧
      d'.routines =
        d.routines.addAll (fs.flatMap fun f => (Node.referencesAll f.body).filterMap routine?) ∧
      ∀ {final : Draft}, d'.Within final →
        List.Forall₂ (LoweredFrom externals routineBase final) fs gs := by
  induction fs generalizing d gs with
  | nil =>
    simp only [mapM_nil, pure_eq_ok] at h
    obtain ⟨rfl, rfl⟩ := h
    exact ⟨.refl d, rfl, fun _ => .nil⟩
  | cons f rest ih =>
    simp only [mapM_cons, bind_eq_ok, pure_eq_ok] at h
    obtain ⟨g, d₁, hf, gs, _, hrest, rfl, rfl⟩ := h
    obtain ⟨hwithin, hroutines, hall⟩ := ih hrest
    obtain ⟨hcode, -⟩ := lowerPrepared_eq_ok hf
    have hrefers := (emits_of_lowerStatements _ f.body hcode).builds.refers
    have hwithin₁ : d.Within d₁ :=
      ⟨hrefers.within.globals, hrefers.within.routines, hrefers.within.memory⟩
    refine ⟨hwithin₁.trans hwithin, ?_, fun hfinal => .cons ⟨name_of_lower hf, ?_⟩ (hall hfinal)⟩
    · rw [hroutines, hrefers.routines, flatMap_cons, Numbering.addAll_append]
      rfl
    · exact hrefers.resolves (hwithin.trans hfinal)

end Lowered

/-- That a program was made of the functions of options, with all that came up
in a draft. -/
structure Finished (p : Program) (o : Options) (fs : List Prepared) (final : Draft) : Prop where
  fault : o.fault? = none
  read : List.Forall₂ (fun decl f => ofDecl o decl = .ok f) o.liveFunctions (live fs)
  lowered : List.Forall₂
    (LoweredFrom (externalsOf fs) (all.length + (live fs).length) final) (live fs)
    p.functions
  externals : p.externals.length = (externalsOf fs).size
  globals : p.globals = final.globals.size
  routines : p.routines = final.routines.names
  nodup : p.routines.Nodup

/-- The functions with a statement are those that are left in. -/
theorem forall₂_liveFunctions {fs : List Prepared} (h : o.functions.mapM (ofDecl o) = .ok fs) :
    List.Forall₂ (fun decl f => ofDecl o decl = .ok f) o.liveFunctions (live fs) := by
  refine rel_filter ?_ (Except.forall₂_of_mapM h)
  intro decl f hf
  simp [FunctionDecl.hasStatement, (reads_of_ofDecl hf).parse, isLive]

theorem finished_of_ofOptions (h : ofOptions o = .ok p) : ∃ fs final, p.Finished o fs final := by
  obtain ⟨hfault, fs, hread, hprepared⟩ := ofOptions_eq_ok h
  obtain ⟨final, hmap, hexternals, hglobals, -, hroutines⟩ := ofPrepared_eq_ok hprepared
  obtain ⟨-, hnumbers, hlowered⟩ := loweredFrom_of_mapM hmap
  refine ⟨fs, final, hfault, forall₂_liveFunctions hread, hlowered (.refl final), ?_, hglobals,
    hroutines, ?_⟩
  · rw [hexternals, length_map, Numbering.size]
  · rw [hroutines, hnumbers]
    exact Numbering.nodup_addAll nodup_nil _

/-- Where every name has an index, indices that are given for all names agree
with it. -/
theorem references_eq_map {names : List Named} {code : List (Reference Nat Nat)}
    {resolve : Named → Option (Reference Nat Nat)} {total : Named → Reference Nat Nat}
    (h : names.map resolve = code.map some)
    (htotal : ∀ name t, resolve name = some t → total name = t) : code = names.map total := by
  have hnames : ∀ name ∈ names, some (total name) = resolve name := by
    intro name hname
    obtain ⟨t, -, ht⟩ := mem_map.mp (h ▸ mem_map_of_mem hname : resolve name ∈ code.map some)
    rw [← ht, htotal name t ht.symm]
  apply map_injective_iff.mpr (Option.some_injective _)
  rw [← h, map_map]
  exact (map_congr_left hnames).symm

/-- The global of a variable of a pool, once all variables have theirs. -/
def globalOf (o : Options) (fs : List Prepared) (final : Draft) (pool x : Bytes) : Nat :=
  ((o.pool pool).slot? (externalsOf fs) final.globals x).getD 0

theorem globalOf_of_slot? {fs : List Prepared} {final : Draft} {i : Nat}
    (h : (o.pool pool).slot? (externalsOf fs) final.globals x = some i) :
    globalOf o fs final pool x = i := by
  rw [globalOf, h]
  rfl

namespace Finished

variable {o : Options} {fs : List Prepared} {final : Draft} (h : p.Finished o fs final)

include h

theorem routine_of_find? {k : Nat} (hk : final.routines.find? r = some k) :
    r ∈ p.routines ∧ p.routines.idxOf r = k := by
  rw [h.routines]
  exact ⟨mem_of_getElem? (Numbering.getElem?_of_find? hk), Numbering.idxOf_of_find? hk⟩

/-- What a name means when a function is lowered is what it means in the
program. -/
theorem map_of_resolve {decl : FunctionDecl} (hf : ofDecl o decl = .ok f) {t : Reference Nat Nat}
    (ht : (scopeOf fs f).resolve final name = some t) :
    Reference.map (globalOf o fs final decl.pool) p.callIndex name = t := by
  have hglobal {x : Bytes} {i : Nat} (hi : (scopeOf fs f).slot? final.globals x = some i) :
      globalOf o fs final decl.pool x = i :=
    globalOf_of_slot? (pool_of_ofDecl hf ▸ hi)
  match name with
  | .read x =>
    obtain ⟨i, hi, rfl⟩ := Option.map_eq_some_iff.mp ht
    rw [Reference.map, hglobal hi]
  | .write x =>
    obtain ⟨i, hi, rfl⟩ := Option.map_eq_some_iff.mp ht
    rw [Reference.map, hglobal hi]
  | .call (.host f) => exact Option.some.inj ht
  | .call (.routine r) =>
    obtain ⟨k, hk, rfl⟩ := Option.map_eq_some_iff.mp ht
    rw [Reference.map, callIndex, (h.routine_of_find? hk).2, ← h.lowered.length_eq]
    rfl

theorem functions_linked :
    List.Forall₂ (fun decl g => g.name = decl.name ∧ ∃ f, ofDecl o decl = .ok f ∧
    Instr.referencesAll g.code =
      (Node.referencesAll f.body).map (Reference.map (globalOf o fs final decl.pool) p.callIndex))
    o.liveFunctions p.functions := by
  refine forall₂_trans (fun decl f g hf hg => ?_) h.read h.lowered
  refine ⟨hg.name.trans (reads_of_ofDecl hf).name, f, hf, ?_⟩
  exact references_eq_map hg.resolves fun name t ht => h.map_of_resolve hf ht

theorem names_eq : o.liveFunctions.map (·.name) = p.functions.map (·.name) :=
  map_eq_of_forall₂ (h.functions_linked.imp fun _ _ hg => hg.1.symm)

end Finished

theorem index_lt_of_mem_exports {e : Export} (he : e ∈ p.assembled.exports) :
    e.index < all.length + p.assembled.exports.length := by
  obtain ⟨f, hf, rfl⟩ := mem_map.mp he
  have hlt := snd_lt_of_mem_zipIdx hf
  have hlength : p.assembled.exports.length = p.functions.length := by simp [assembled]
  dsimp only
  omega

/-- The exports of a program are found in the bytes of its module, if it is of
less than four gibibytes. -/
theorem exports_assembled (hsize : p.assembled.encode.length < 2 ^ 32) :
    Wasm.exports p.assembled.encode = .ok p.assembled.exports := by
  apply Module.exports_encode _ hsize
  intro e he
  have hindex := index_lt_of_mem_exports he
  have hcount := p.assembled.two_mul_length_exports_le
  have hhosts : all.length = 13 := rfl
  omega

end Program

end Eel
