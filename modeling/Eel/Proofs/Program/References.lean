import Eel.Proofs.Program.Operators

/-!
What code refers to, against what its tree refers to.

Variables and functions have names in a tree and indices in code. The indices
are given while code is lowered, by drafts that grow. Read against the draft at
the end, the indices in the code are those of the names in the tree, one by one
and in the same order.
-/

namespace Eel

open Reference List

namespace Node

mutual

/-- What a tree refers to, in the order in which it is evaluated. The value that
a slot is assigned stands in both branches, whether the slot exists or not. -/
def references : Node → List Named
  | .ident id => [.read id.name]
  | .block body _ => referencesAll body
  | .unary op operand _ => operand.references ++ op.references
  | .binary op left right _ => left.references ++ (right.references ++ op.references)
  | .logical _ left right _ =>
    left.references ++ toRoutine .isNotZeroish :: (right.references ++ [toRoutine .isNotZeroish])
  | .assign op (.ident id) value _ =>
    op.oldReferences id.name ++
      (value.references ++ (op.references ++ [.write id.name, .read id.name]))
  | .assign op (.call _ [index] _) value _ =>
    index.references ++ toRoutine .bufferStoreIndex ::
      (value.references ++ op.references ++ value.references)
  | .call callee args _ =>
    match Builtin.ofName? callee.name with
    | none =>
      referencesAll args ++ ((HostFunction.ofName? callee.name).map fun f => .call (.host f)).toList
    | some .choose => referencesChosen args
    | some b => referencesAll args ++ b.references
  | _ => []

/-- What a condition and its branches refer to. -/
def referencesChosen : List Node → List Named
  | [] => []
  | condition :: branches =>
    condition.references ++ toRoutine .isNotZeroish :: referencesAll branches

def referencesAll : List Node → List Named
  | [] => []
  | n :: rest => n.references ++ referencesAll rest

end

end Node

namespace Lowering

open Wasm Instr

variable {s : Scope} {d d₁ d' final : Draft} {xs : List Ident} {names : List Named}
  {code : List Instr}
  {piece : Piece}

theorem bufferBase_le {name : Bytes} {base : Nat} (h : bufferBase? name = some base) :
    base ≤ bufferBytes := by
  unfold bufferBase? at h
  split at h
  · cases h
    exact Nat.zero_le _
  · obtain ⟨-, hbase⟩ := Option.ite_none_right_eq_some.mp h
    cases hbase
    exact Nat.le_refl _

/-- What a piece refers to. -/
def Piece.references : Piece → List Named
  | expr n => n.references
  | all args => Node.referencesAll args
  | sequence body => Node.referencesAll body
  | statements body => Node.referencesAll body

attribute [local simp] Piece.mentions Piece.references Node.mentions Node.mentionsAll
  Node.references
  Node.referencesAll in
/-- Whatever is lowered, its code comes about by these steps. -/
theorem Emits.builds (h : Emits s piece d code d') :
    Builds s piece.mentions piece.references d code d' := by
  have hsmall : bufferBytes < 2 ^ 32 := by decide
  have hnew (d : Draft) (type : ValType) : d.locals.length < (d.addLocal type).locals.length := by
    simp [Draft.addLocal]
  induction h with
  | number | allNil | statementsNil => exact .fixed _ rfl rfl
  | ident hi => exact (Builds.index hi).append (.read (globalIndex_eq_ok hi).2.1)
  | block _ ihbody => exact ihbody
  | unary _ hop ihx => simpa using ihx.append (unaryCode_operates hop).builds
  | binary _ _ hop ihx ihy => simpa using ihx.append (ihy.append (binaryCode_operates hop).builds)
  | and _ htest hy ihx ihy =>
    have hagain := Builds.again htest ihy.grows
    have htruth := (ihy.append (hagain.append (.fixed [asDouble] rfl rfl))).choice .f64
      (.fixed [.f64Const .zero] rfl rfl)
    simpa using ihx.append ((Builds.routine htest).append htruth)
  | or _ htest hy ihx ihy =>
    have hagain := Builds.again htest ihy.grows
    have htruth := (Builds.fixed [.f64Const .one] rfl rfl).choice .f64
      (ihy.append (hagain.append (.fixed [asDouble] rfl rfl)))
    simpa using ihx.append ((Builds.routine htest).append htruth)
  | @assignVar op id _ _ _ d₁ _ _ i _ _ hi hv hop ihv =>
    have hcombine := (combineCode_operates hop).builds
    have hknown := (globalIndex_eq_ok hi).2.1
    have hbehind := Scope.slot?_of_prefix (ihv.grows.trans hcombine.grows).globals hknown
    have hold : Builds s [] (op.oldReferences id.name) d₁ (oldCode op [.globalGet i]) d₁ := by
      unfold AssignOp.oldReferences oldCode
      cases op.combining? with
      | none => exact .fixed _ rfl rfl
      | some _ => exact .read hknown
    simpa using (Builds.index hi).append (hold.append (ihv.append (hcombine.append
      ((Builds.write hbehind).append (.read hbehind)))))
  | @assignSlot op _ index v _ _ _ _ d₂ _ d₄ _ base _ _ _ _ _ hbase _ hfind _ hop
    _ ihindex ihv ihs =>
    have hbound := bufferBase_le hbase
    have hcombine := (combineCode_operates hop).builds
    have hlocals : d₂.locals.length + 1 < ((d₂.addLocal .i32).addLocal .f64).locals.length := by
      simp [Draft.addLocal]
    have hbehind := Nat.lt_of_lt_of_le hlocals (ihv.grows.trans hcombine.grows).length_le
    have hoffset :
        Builds s [] [] d₂ [.localTee d₂.locals.length, .i32Const (-1)] (d₂.addLocal .i32) :=
      .addLocal ValType.isKnown_i32 (cons_ne_nil _ _) rfl fun hlt => by simpa [isLegible] using hlt
    have hexists :
        Builds s [] [] (d₂.addLocal .i32) [.num .i32Ne] ((d₂.addLocal .i32).addLocal .f64) :=
      .addLocal ValType.isKnown_f64 (cons_ne_nil _ _) rfl fun _ => rfl
    have hold : Builds s [] [] ((d₂.addLocal .i32).addLocal .f64)
        (oldCode op [.localGet d₂.locals.length, .f64Load base])
        ((d₂.addLocal .i32).addLocal .f64) := by
      unfold oldCode
      cases op.combining? with
      | none => exact .fixed _ rfl rfl
      | some _ =>
        refine .plain rfl fun hfits => ?_
        simp [isLegible]
        omega
    have hstore :
        Builds s [] [] d₄ (storeCode base d₂.locals.length (d₂.locals.length + 1)) d₄ := by
      refine .plain rfl fun hfits => ?_
      simp [storeCode, isLegible]
      omega
    have hslot :=
      Builds.addMemory.append
        (ihindex.append ((Builds.routine hfind).append ((hoffset.append hexists).append
      ((hold.append (ihv.append (hcombine.append hstore))).choice .f64 ihs))))
    -- The value is lowered for both branches, so that its variables come up twice.
    refine (?_ : Builds s (index.mentions ++ (v.mentions ++ v.mentions)) _ _ _ _).same fun x => by
      simp
    simpa [slotCode, slotExists] using hslot
  | host hbuiltin hname _ _ ihargs => simpa [hbuiltin, hname] using ihargs.append (.host _)
  | choose hname _ htest _ _ ihx ihy ihz =>
    simpa [Node.referencesChosen, hname]
      using ihx.append ((Builds.routine htest).append (ihy.choice .f64 ihz))
  | exec hname hb _ _ ihargs =>
    rcases hb with rfl | rfl
    · simpa [hname, Builtin.references] using ihargs
    · simpa [hname, Builtin.references] using ihargs
  | @whileLoop _ _ _ d _ d' _ _ hname _ hcode ihbody =>
    obtain ⟨test, htest, rfl⟩ := whileCode_eq_ok hcode
    have hcount :=
      Nat.lt_of_lt_of_le (hnew d .i32) (ihbody.grows.trans (callRoutine_eq_ok htest).1).length_le
    have hnext : Builds s [] [] d' (nextRound d.locals.length) d' := by
      refine .plain rfl fun hfits => ?_
      simp [nextRound, isLegible]
      omega
    have hbegin : Builds s [] [] d [.i32Const 0, .localSet d.locals.length] (d.addLocal .i32) :=
      .addLocal ValType.isKnown_i32 (cons_ne_nil _ _) rfl fun hlt => by simpa [isLegible] using hlt
    have hround := ihbody.append ((Builds.routine htest).append hnext)
    simpa [hname, Builtin.references] using
      hbegin.append ((hround.loop .void).append (.fixed [.f64Const .zero] rfl rfl))
  | @countedLoop _ _ _ _ _ d₁ _ _ _ hname _ _ ihcount ihbody =>
    have hfirst := hnew d₁ .i32
    have hcount := Nat.lt_of_lt_of_le hfirst ihbody.grows.length_le
    have hbegin :
        Builds s [] [] d₁ [.num .i32TruncSatF64S, .localSet d₁.locals.length] (d₁.addLocal .i32) :=
      .addLocal ValType.isKnown_i32 (cons_ne_nil _ _) rfl fun hlt => by simpa [isLegible] using hlt
    have hround : Builds s _ _ (d₁.addLocal .i32) (countedRound d₁.locals.length _) _ :=
      ((Builds.plain rfl fun hfits => by simp [isLegible]; omega).append ihbody).append
        (.plain rfl fun hfits => by simp [isLegible]; omega)
    simpa [hname, Builtin.references, countedCode_eq] using
      ihcount.append (hbegin.append
        (((hround.loop .void).block .void).append (.fixed [.f64Const .zero] rfl rfl)))
  | @slot _ _ _ _ base _ _ _ _ _ hname hb _ hload ihindex =>
    obtain ⟨find, d₁, hfind, rfl, rfl⟩ := bufferLoad_eq_ok hload
    have hread (hbase : base < 2 ^ 32) : Builds s [] [] d₁ (slotExists d₁.locals.length ++
        [.choice .f64 [.localGet d₁.locals.length, .f64Load base] [.f64Const .zero]])
        (d₁.addLocal .i32) := by
      refine .addLocal ValType.isKnown_i32 (cons_ne_nil _ _) rfl fun hlt => ?_
      simp [slotExists, isLegible]
      omega
    have hslot (hbase : base < 2 ^ 32) :=
      Builds.addMemory.append (ihindex.append ((Builds.routine hfind).append (hread hbase)))
    rcases hb with ⟨rfl, rfl⟩ | ⟨rfl, rfl⟩
    · simpa [hname, Builtin.references] using hslot (by decide)
    · simpa [hname, Builtin.references] using hslot hsmall
  | @builtin _ _ _ b _ _ _ _ _ hname _ _ hb ihargs =>
    have hne : b ≠ .choose := by
      rintro rfl
      exact fault_ne_ok hb
    simpa [hname] using ihargs.append (builtinCode_operates hb).builds
  | allCons _ _ ihn ihr => exact ihn.append ihr
  | sequenceLast _ ihn => simpa using ihn
  | sequenceCons _ _ ihn ihr | statementsCons _ _ ihn ihr =>
    exact ihn.append ((Builds.fixed [.drop] rfl rfl).append ihr)

/-- Whatever is lowered, the draft behind it knows what the draft before it
knew. -/
theorem Emits.grows (h : Emits s piece d code d') : d.Grows d' := h.builds.grows

/-- Every variable that comes up has a global behind. -/
theorem Builds.knows (h : Builds s xs names d code d') : ∀ x ∈ xs, d'.Knows s x := by
  induction h with
  | plain | addLocal | addMemory | host | routine | again | read | write => simp
  | index h => exact forall_mem_singleton.mpr ⟨_, (globalIndex_eq_ok h).2.1⟩
  | append _ h' ih ih' | choice _ _ h' ih ih' =>
    exact forall_mem_append.mpr ⟨fun x hx => (ih x hx).within h'.grows.toWithin, ih'⟩
  | block _ _ ih | loop _ _ ih => exact ih
  | same _ hxs ih => exact fun x hx => ih x ((hxs x).mpr hx)

/-- The index of what a tree refers to, once all indices are given. -/
def Scope.resolve (s : Scope) (final : Draft) : Named → Option (Reference Nat Nat)
  | .read x => (s.slot? final.globals x).map .read
  | .write x => (s.slot? final.globals x).map .write
  | .call (.host f) => some (.call f.index)
  | .call (.routine r) => (final.routines.find? r).map fun k => .call (s.routineBase + k)

/-- That code which leads from one draft to another refers to what the names
mean, and that its routines are numbered when they first come up. -/
structure Refers (s : Scope) (d : Draft) (names : List Named) (code : List Instr)
    (d' : Draft) : Prop where
  within : d.Within d'
  routines : d'.routines = d.routines.addAll (names.filterMap routine?)
  resolves : ∀ {final : Draft}, d'.Within final →
    names.map (s.resolve final) = (referencesAll code).map some

theorem Refers.append {names' : List Named} {code' : List Instr} (h : Refers s d names code d₁)
    (h' : Refers s d₁ names' code' d') : Refers s d (names ++ names') (code ++ code') d' := by
  refine ⟨h.within.trans h'.within, ?_, fun hfinal => ?_⟩
  · rw [h'.routines, h.routines, filterMap_append, Numbering.addAll_append]
  · rw [map_append, h.resolves (h'.within.trans hfinal), h'.resolves hfinal, referencesAll_append,
      map_append]

attribute [local simp] references referencesAll Scope.resolve in
/-- The indices in the code are those of the names. -/
theorem Builds.refers (h : Builds s xs names d code d') : Refers s d names code d' := by
  have hwithin := h.grows.toWithin
  induction h with
  | plain hnames | addLocal _ _ hnames => exact ⟨hwithin, rfl, fun _ => by simp [hnames]⟩
  | addMemory | host => exact ⟨hwithin, rfl, fun _ => rfl⟩
  | index h => exact ⟨hwithin, (globalIndex_eq_ok h).2.2.2.1, fun _ => rfl⟩
  | read h | write h =>
    exact ⟨hwithin, rfl, fun hfinal => by simp [Scope.slot?_of_prefix hfinal.globals h]⟩
  | routine h =>
    obtain ⟨-, k, hk, rfl⟩ := callRoutine_eq_ok h
    refine ⟨hwithin, ?_, fun hfinal => by simp [Numbering.find?_mono hfinal.routines hk]⟩
    obtain ⟨-, rfl⟩ : _ ∧ _ = _ := by simpa using Except.ok.inj h
    rfl
  | again h hd =>
    obtain ⟨-, k, hk, rfl⟩ := callRoutine_eq_ok h
    have hk' := Numbering.find?_mono hd.routines hk
    refine ⟨hwithin, ?_, fun hfinal => by simp [Numbering.find?_mono hfinal.routines hk']⟩
    simp [routine?, Numbering.addAll, Numbering.resolve, hk']
  | append h h' ih ih' => exact (ih h.grows.toWithin).append (ih' h'.grows.toWithin)
  | choice _ h h' ih ih' =>
    have happend := (ih h.grows.toWithin).append (ih' h'.grows.toWithin)
    exact ⟨hwithin, happend.routines,
      fun hfinal => by simp [happend.resolves hfinal, referencesAll_append]⟩
  | block _ h ih | loop _ h ih =>
    have hbody := ih hwithin
    exact ⟨hwithin, hbody.routines, fun hfinal => by simp [hbody.resolves hfinal]⟩
  | same _ _ ih => exact ih hwithin

end Lowering

end Eel
