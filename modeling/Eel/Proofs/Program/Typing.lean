import Eel.Proofs.Program.References

/-!
Emitted code is well typed.

Code is checked in a context that has the functions, globals and locals which
the draft has numbered. There the code of an expression leaves one double,
whatever lies below, and the code of statements leaves nothing.
-/

namespace Eel

open Wasm Instr

/-- The code of a routine gives what its signature says. -/
theorem Routine.code_types (r : Routine) {c : TypeContext}
    (h : c.locals = r.type.params ++ r.locals) : Types c r.code [] r.type.results := by
  obtain ⟨functions, globals, hasMemory, locals, labels⟩ := c
  obtain rfl : locals = r.type.params ++ r.locals := h
  intro o
  cases r <;> rfl

variable {offset remaining : Nat} {r : Routine} {op : AssignOp}

namespace Lowering

variable {s : Scope} {c : TypeContext} {d d' : Draft}

section Operations

variable {code : List Instr} {span : Span}

theorem globalIndex_type {x : Ident} {i : Nat} (h : globalIndex s x d = .ok (i, d'))
    (hc : Supports c s d') : c.globals[i]? = some Program.externalType := by
  obtain ⟨-, hslot, -⟩ := globalIndex_eq_ok h
  exact hc.global (Pool.slot?_lt hslot).1

theorem oldCode_types {read : List Instr} (h : Types c read [] [.f64]) :
    Types c (oldCode op read) [] (oldTypes op) := by
  unfold oldCode oldTypes
  cases op.combining? with
  | none => exact fun o => rfl
  | some op => exact h

end Operations

section Branches

variable {test : Instr} {consequent alternate body : List Instr}

/-- A routine that tests a number or looks for a slot. -/
theorem test_types (hr : r.signature = ([.f64], [.i32]))
    (htest : callRoutine s r d = .ok (test, d')) (hc : Supports c s d') :
    Types c [test] [.f64] [.i32] := by
  have hcheck := callRoutine_check htest hc
  rw [hr] at hcheck
  exact .of_check hcheck

theorem choice_types (hconsequent : Types (c.inside [.f64]) consequent [] [.f64])
    (halternate : Types (c.inside [.f64]) alternate [] [.f64]) :
    Types c [.choice .f64 consequent alternate] [.i32] [.f64] :=
  .of_check fun o => check_choice o .f64 hconsequent.leaves halternate.leaves

theorem const_types (x : Double) : Types c [.f64Const x] [] [.f64] := fun _ => rfl

theorem drop_types (t : ValType) : Types c [.drop] [t] [] := fun _ => rfl

theorem asDouble_types : Types c [asDouble] [.i32] [.f64] := by
  intro o
  simp [asDouble, NumOp.signature]

theorem slotExists_types (h : c.locals[offset]? = some .i32) :
    Types c (slotExists offset) [.i32] [.i32] := by
  intro o
  simp [slotExists, check_localTee _ h, NumOp.signature, Value.type]

theorem load_types (base : Nat) (h : c.locals[offset]? = some .i32) (hm : c.hasMemory = true) :
    Types c [.localGet offset, .f64Load base] [] [.f64] := by
  intro o
  simp [check_localGet _ h, check_f64Load _ _ hm]

theorem storeCode_types {stored : Nat} (base : Nat) (h : c.locals[offset]? = some .i32)
    (h' : c.locals[stored]? = some .f64) (hm : c.hasMemory = true) :
    Types c (storeCode base offset stored) [.f64] [.f64] := by
  intro o
  simp [storeCode, check_localGet _ h, check_localGet _ h', check_localSet _ h',
    check_f64Store _ _ hm]

theorem nextRound_types {counter : Nat} (h : c.locals[counter]? = some .i32)
    (hlabel : c.labels[0]? = some []) : Types c (nextRound counter) [.i32] [] := by
  intro o
  simp [nextRound, check_localGet _ h, check_localTee _ h, check_brIf _ hlabel,
    NumOp.signature, Value.type]

theorem loop_types (h : Types (c.inside []) body [] []) :
    Types c [.loop .void body] [] [] :=
  .of_check fun o => check_loop o .void h.leaves

/-- A round of a counted loop ends in a branch, behind which nothing is known of
the stack. -/
theorem countedRound_leaves (h : c.locals[remaining]? = some .i32) (hout : c.labels[1]? = some [])
    (hback : c.labels[0]? = some []) (hbody : Types c body [] [.f64]) :
    Leaves c (countedRound remaining body) [] := by
  refine ⟨⟨[], true⟩, ?_, rfl⟩
  have hleave :
      checkAll c [.localGet remaining, .i32Const 0, .num .i32LeS, .brIf 1] {} = some {} := by
    simp [check_localGet _ h, check_brIf _ hout, NumOp.signature, Value.type]
  have hbranch (o : Operands) : check c (.br 0) o = some ⟨[], true⟩ := by
    change (do
      let _ ← o.popAll? (← c.labels[0]?)
      return ⟨[], true⟩ : Option Operands) = _
    rw [hback]
    rfl
  have hgoOn : checkAll c
      [.drop, .localGet remaining, .i32Const 1, .num .i32Sub, .localSet remaining, .br 0]
      (({} : Operands).push .f64) = some ⟨[], true⟩ := by
    simp [check_localGet _ h, check_localSet _ h, hbranch, NumOp.signature, Value.type]
  have hbody' : checkAll c body {} = some (({} : Operands).push .f64) := hbody {}
  rw [countedRound, checkAll_append, checkAll_append, hleave, Option.bind_some, hbody']
  exact hgoOn

theorem countedCode_types (h : c.locals[remaining]? = some .i32)
    (hbody : Types ((c.inside []).inside []) body [] [.f64]) :
    Types c (countedCode remaining body) [] [.f64] := by
  have hloop : Types (c.inside []) [.loop .void (countedRound remaining body)] [] [] :=
    .of_check fun o => check_loop o .void (countedRound_leaves h rfl rfl hbody)
  have hblock : Types c [.block .void [.loop .void (countedRound remaining body)]] [] [] :=
    .of_check fun o => check_block o .void hloop.leaves
  rw [countedCode_eq]
  exact hblock.append (const_types .zero)

end Branches

/-- Access to a slot, by one branch if it exists and another if not. -/
theorem slotCode_types {find : Instr} {index stored skipped : List Instr}
    (hr : r.signature = ([.f64], [.i32])) (hfind : callRoutine s r d = .ok (find, d'))
    (hc : Supports c s d') (hoffset : c.locals[offset]? = some .i32)
    (hindex : Types c index [] [.f64]) (hstored : Types (c.inside [.f64]) stored [] [.f64])
    (hskipped : Types (c.inside [.f64]) skipped [] [.f64]) :
    Types c (slotCode index find offset stored skipped) [] [.f64] := by
  have hexists := (slotExists_types hoffset).append (choice_types hstored hskipped)
  exact hindex.append ((test_types hr hfind hc).append hexists)

/-- What the code of a piece leaves on the stack. -/
def Piece.types : Piece → List ValType
  | expr _ | sequence _ => [.f64]
  | all args => List.replicate args.length .f64
  | statements _ => []

/-- Emitted code is well typed wherever everything has a place that was numbered
so far. -/
theorem Emits.types {piece : Piece} {code : List Instr} (h : Emits s piece d code d') :
    ∀ {c : TypeContext}, Supports c s d' → Types c code [] piece.types := by
  induction h with
  | number => exact fun _ => const_types _
  | ident hi =>
    intro c hc
    exact .of_check fun o => check_globalGet o (globalIndex_type hi hc)
  | block _ ihbody => exact ihbody
  | unary _ hop ihx =>
    intro c hc
    exact (ihx (hc.of_grows (unaryCode_operates hop).builds.grows)).append
      ((unaryCode_operates hop).types hc)
  | binary _ hy hop ihx ihy =>
    intro c hc
    have hc₂ := hc.of_grows (binaryCode_operates hop).builds.grows
    have hys := (ihy hc₂).above [.f64]
    exact (ihx (hc₂.of_grows hy.grows)).append (hys.append ((binaryCode_operates hop).types hc))
  | and _ htest hy ihx ihy =>
    intro c hc
    have hc₂ := hc.of_grows hy.grows
    have hys := ihy (hc.inside [.f64])
    have htruth := hys.append ((test_types rfl htest (hc₂.inside [.f64])).append asDouble_types)
    have hxs := ihx (hc₂.of_grows (callRoutine_eq_ok htest).1)
    exact hxs.append ((test_types rfl htest hc₂).append (choice_types htruth (const_types _)))
  | or _ htest hy ihx ihy =>
    intro c hc
    have hc₂ := hc.of_grows hy.grows
    have hys := ihy (hc.inside [.f64])
    have htruth := hys.append ((test_types rfl htest (hc₂.inside [.f64])).append asDouble_types)
    have hxs := ihx (hc₂.of_grows (callRoutine_eq_ok htest).1)
    exact hxs.append ((test_types rfl htest hc₂).append (choice_types (const_types _) htruth))
  | @assignVar op _ _ _ _ _ _ _ i _ _ hi hv hop ihv =>
    intro c hc
    have hc₂ := hc.of_grows (combineCode_operates hop).builds.grows
    have hglobal := globalIndex_type hi (hc₂.of_grows hv.grows)
    have hget : Types c [.globalGet i] [] [.f64] :=
      .of_check fun o => check_globalGet o hglobal
    have hset : Types c [.globalSet i] [.f64] [] :=
      .of_check fun o => check_globalSet o hglobal
    have hvs := (ihv hc₂).onTop (oldTypes op)
    exact (oldCode_types hget).append
      (hvs.append (((combineCode_operates hop).types hc).append (hset.append hget)))
  | @assignSlot op _ _ _ _ _ _ _ d₂ _ _ _ base _ _ _ _ _ _ hindex hfind hv hop hs ihindex ihv ihs =>
    intro c hc
    have hc₄ := hc.of_grows hs.grows
    have hc₃ := hc₄.of_grows (combineCode_operates hop).builds.grows
    have hc₂' := hc₃.of_grows hv.grows
    have hc₂ := hc₂'.of_grows (Draft.grows_addLocal _ .f64)
    have hfound := hc₂.of_grows (Draft.grows_addLocal _ .i32)
    have hc₁ := hfound.of_grows (callRoutine_eq_ok hfind).1
    have hoffset := hc₂.newLocal
    have hstored : c.locals[d₂.locals.length + 1]? = some .f64 := by
      simpa [Draft.addLocal] using hc₂'.newLocal
    have hm := (hc₁.of_grows hindex.grows).memory rfl
    have hload : Types (c.inside [.f64]) [.localGet d₂.locals.length, .f64Load base] [] [.f64] :=
      load_types base hoffset hm
    have hstore : Types (c.inside [.f64])
        (storeCode base d₂.locals.length (d₂.locals.length + 1)) [.f64] [.f64] :=
      storeCode_types base hoffset hstored hm
    have hvs := (ihv (hc₃.inside [.f64])).onTop (oldTypes op)
    have hnew := ((combineCode_operates hop).types (hc₄.inside [.f64])).append hstore
    exact slotCode_types rfl hfind hfound hoffset (ihindex hc₁)
      ((oldCode_types hload).append (hvs.append hnew)) (ihs (hc.inside [.f64]))
  | @host _ _ _ f _ _ _ _ _ harity _ ihargs =>
    intro c hc
    have hcall : Types c [callHost f] (List.replicate f.arity .f64) [.f64] :=
      .of_check fun o => check_call o (hc.host f)
    rw [← harity] at hcall
    exact (ihargs hc).append hcall
  | choose _ _ htest hy hz ihx ihy ihz =>
    intro c hc
    have hc₃ := hc.of_grows hz.grows
    have hc₂ := hc₃.of_grows hy.grows
    have hxs := ihx (hc₂.of_grows (callRoutine_eq_ok htest).1)
    have hchoice := choice_types (ihy (hc₃.inside [.f64])) (ihz (hc.inside [.f64]))
    exact hxs.append ((test_types rfl htest hc₂).append hchoice)
  | exec _ _ _ _ ihargs => exact ihargs
  | @whileLoop _ _ _ d _ _ _ _ _ hbody hcode ihbody =>
    intro c hc
    obtain ⟨test, htest, rfl⟩ := whileCode_eq_ok hcode
    have hc₁ := hc.of_grows (callRoutine_eq_ok htest).1
    have hcounter := (hc₁.of_grows hbody.grows).newLocal
    have hstart : Types c [.i32Const 0, .localSet d.locals.length] [] [] := by
      intro o
      simp [check_localSet _ hcounter, Value.type]
    have hround := (ihbody (hc₁.inside [])).append ((test_types rfl htest (hc.inside [])).append
      (nextRound_types hcounter rfl))
    exact hstart.append ((loop_types hround).append (const_types .zero))
  | @countedLoop _ _ _ _ _ d₁ _ _ _ _ _ hbody ihcount ihbody =>
    intro c hc
    have hc₁ := hc.of_grows hbody.grows
    have hremaining := hc₁.newLocal
    have hstart : Types c [.num .i32TruncSatF64S, .localSet d₁.locals.length] [.f64] [] := by
      intro o
      simp [check_localSet _ hremaining, NumOp.signature]
    have hloop := countedCode_types hremaining (ihbody ((hc.inside []).inside []))
    exact (ihcount (hc₁.of_grows (Draft.grows_addLocal _ .i32))).append (hstart.append hloop)
  | slot _ _ hindex hload ihindex =>
    intro c hc
    obtain ⟨find, d₂, hfind, rfl, rfl⟩ := bufferLoad_eq_ok hload
    have hfound := hc.of_grows (d₂.grows_addLocal .i32)
    have hc₁ := hfound.of_grows (callRoutine_eq_ok hfind).1
    have hm := (hc₁.of_grows hindex.grows).memory rfl
    exact slotCode_types rfl hfind hfound hc.newLocal (ihindex hc₁)
      (load_types _ hc.newLocal hm) (const_types _)
  | builtin _ harity _ hb ihargs =>
    intro c hc
    have hbs := (builtinCode_operates hb).types hc
    rw [← harity] at hbs
    exact (ihargs (hc.of_grows (builtinCode_operates hb).builds.grows)).append hbs
  | allNil => exact fun _ _ => rfl
  | allCons _ hr ihn ihr =>
    intro c hc
    exact (ihn (hc.of_grows hr.grows)).append ((ihr hc).onTop [.f64])
  | sequenceLast _ ihn => exact ihn
  | sequenceCons _ hr ihn ihr | statementsCons _ hr ihn ihr =>
    intro c hc
    exact (ihn (hc.of_grows hr.grows)).append ((drop_types .f64).append (ihr hc))
  | statementsNil => exact fun _ _ => rfl

end Lowering

end Eel
