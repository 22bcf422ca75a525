import Eel.Proofs.Program.Operation

/-!
Variables and slots: reading and writing them in a store is reading and writing
them in the state that the store holds.
-/

namespace Eel

open List

theorem Double.slot?_lt {x : Double} {k : Nat} (h : x.slot? = some k) : k < bufferSlots := by
  unfold slot? at h
  dsimp only at h
  split at h
  · rename_i hbounds
    obtain rfl := Option.some.inj h
    omega
  · simp at h

theorem Double.storeSlot?_lt {x : Double} {k : Nat} (h : x.storeSlot? = some k) :
    k < bufferSlots := by
  unfold storeSlot? at h
  split at h
  · simp at h
  · exact slot?_lt h

namespace Lowering

open Wasm Machine

section Code

variable {σ : Type} [Arithmetic] {calls : Calls σ} {frame : Frame σ} {stack : List Value}
  {offset base : Nat}
  {n : Int32}
  {x : Double}

/-- What reads and writes of a slot have in common: the offset goes to a local,
and it is told whether it is one. -/
theorem execAll_slotExists (rest : List Instr) (hlocal : offset < frame.locals.length) :
    execAll calls (slotExists offset ++ rest) frame (.i32 n :: stack) =
      execAll calls rest { frame with locals := frame.locals.set offset (.i32 n) }
        (.ofBool (n != -1) :: stack) := by
  simp [slotExists, execAll_cons, exec_localTee, hlocal]

/-- The value before a write, where the assignment combines it. -/
theorem execAll_oldCode (op : AssignOp) (hoffset : frame.locals[offset]? = some (.i32 n))
    (hload : frame.store.memory.load? (address n base) = some x) :
    execAll calls (oldCode op [.localGet offset, .f64Load base]) frame [] =
      .next frame (oldTop op x) := by
  unfold oldCode oldTop
  cases op.combining? with
  | none => exact execAll_nil ..
  | some _ =>
    simp only
    rw [execAll_cons, exec_localGet _ _ _ hoffset, Flow.next_andThen, execAll_cons,
      exec_f64Load _ _ _ hload, Flow.next_andThen, execAll_nil, top]

/-- The end of a write to a slot that exists: the value is stored and stays on
the stack. -/
theorem execAll_storeCode {memory : Memory} (hoffset : frame.locals[offset]? = some (.i32 n))
    (hlength : offset + 1 < frame.locals.length)
    (hstore : frame.store.memory.store? (address n base) x = some memory) :
    execAll calls (storeCode base offset (offset + 1)) frame [.f64 x] =
      .next ⟨{ frame.store with memory }, frame.locals.set (offset + 1) (.f64 x)⟩ [.f64 x] := by
  have hoffset' : (frame.locals.set (offset + 1) (.f64 x))[offset]? = some (.i32 n) := by
    rw [getElem?_set_ne (by omega), hoffset]
  have hstored : (frame.locals.set (offset + 1) (.f64 x))[offset + 1]? = some (.f64 x) := by
    simp [hlength]
  have hexec := exec_f64Store calls ⟨frame.store, frame.locals.set (offset + 1) (.f64 x)⟩ [] hstore
  rw [storeCode, execAll_cons, exec_localSet _ _ _ _ hlength, Flow.next_andThen,
    execAll_cons, exec_localGet _ _ _ hoffset', Flow.next_andThen,
    execAll_cons, exec_localGet _ _ _ hstored, Flow.next_andThen,
    execAll_cons, hexec, Flow.next_andThen,
    execAll_cons, exec_localGet _ _ _ hstored, Flow.next_andThen, execAll_nil]

end Code

attribute [local instance] Arithmetic.binary64

variable {σ : Type} {s : Scope} {final d d' : Draft} {link : Linkage σ s final} {low high : Nat}

section Variable

variable {x : Bytes} {i : Nat} (hi : (s.layout final).place x = some i)

include hi

theorem globalGet_runs :
    Runs link low high [.globalGet i] [] get fun state => top (state.vars x) := by
  intro frame state stack hholds hlength
  refine ⟨frame, ?_, hholds, .refl frame⟩
  rw [execAll_cons, exec_globalGet _ _ _ (hholds.var hi)]
  rfl

theorem globalSet_runs (v : Double) :
    Runs link low high [.globalSet i, .globalGet i] (top v)
      (do modify (·.setVar x v); return v) top := by
  intro frame state stack hholds hlength
  have hsize : i < frame.store.globals.size := (Array.getElem?_eq_some_iff.mp (hholds.var hi)).1
  have hset := hholds.setVar hi v
  have hread : (state.setVar x v).vars x = v := by simp [State.setVar]
  refine ⟨{ frame with store.globals := frame.store.globals.setIfInBounds i v }, ?_, hset, ?_⟩
  · rw [execAll_cons, top, singleton_append, exec_globalSet _ _ _ _ hsize, Flow.next_andThen,
      execAll_cons, exec_globalGet _ _ _ (hset.var hi), hread]
    rfl
  · refine ⟨⟨Array.size_setIfInBounds .., ?_, fun _ => rfl⟩, rfl, fun _ _ => rfl⟩
    intro j hj
    have hij : i ≠ j := fun hij => hj x (hij ▸ hi)
    exact Array.getElem?_setIfInBounds_ne hij

end Variable

section Slot

variable {b : Buffer} {x : Double} {find : Instr} {stack : List Value} {frame : Frame σ}

theorem exec_bufferIndex (hr : callRoutine s .bufferIndex d = .ok (find, d'))
    (hfinal : d'.Within final) :
    exec link.calls find frame (.f64 x :: stack) =
      .next frame (.i32 (offsetOf x.slot?) :: stack) := by
  refine exec_routine link.calls_routine hr hfinal fun calls => ?_
  rw [callCode_bufferIndex, ← slotBytes_eq]
  rfl

theorem exec_bufferStoreIndex (hr : callRoutine s .bufferStoreIndex d = .ok (find, d'))
    (hfinal : d'.Within final) :
    exec link.calls find frame (.f64 x :: stack) =
      .next frame (.i32 (offsetOf x.storeSlot?) :: stack) := by
  refine exec_routine link.calls_routine hr hfinal fun calls => ?_
  rw [callCode_bufferStoreIndex, Double.storeSlot?, binary64_eq.2.2.2.2.2.2.2.2.2.2.2.2.1]
  cases x.lt .zero with
  | true => rfl
  | false =>
    simp only [Bool.false_eq_true, if_false, ← slotBytes_eq]
    rfl

/-- The code behind the index of a read. -/
theorem readSlot_runs (hr : callRoutine s .bufferIndex d = .ok (find, d'))
    (hfinal : (d'.addLocal .i32).Within final) (hm : final.usesMemory = true) :
    Runs link d'.locals.length (d'.addLocal .i32).locals.length
      (find :: (slotExists d'.locals.length ++
        [.choice .f64 [.localGet d'.locals.length, .f64Load b.base] [.f64Const .zero]]))
      (top x) (Run.readSlot b x) top := by
  intro frame state stack hholds hlength
  have hlocal : d'.locals.length < frame.locals.length := by simpa [Draft.addLocal] using hlength
  have hfind : exec link.calls find frame (.f64 x :: stack) =
      .next frame (.i32 (offsetOf x.slot?) :: stack) :=
    exec_bufferIndex hr ((d'.grows_addLocal .i32).toWithin.trans hfinal)
  have hslot : ∀ k ∈ x.slot?, k < bufferSlots := fun k hk => Double.slot?_lt hk
  refine ⟨{ frame with locals := frame.locals.set d'.locals.length (.i32 (offsetOf x.slot?)) }, ?_⟩
  rw [top, singleton_append, execAll_cons, hfind, Flow.next_andThen, execAll_slotExists _ hlocal,
    offsetOf_ne hslot]
  unfold Run.readSlot
  cases hk : x.slot? with
  | none =>
    refine ⟨?_, hholds, .setLocal frame le_rfl _⟩
    simp [execAll_cons, BlockType.arity, moveTop, top]
    rfl
  | some k =>
    refine ⟨?_, hholds, .setLocal frame le_rfl _⟩
    have hload (locals : List Value) :
        exec link.calls (.f64Load b.base) ⟨frame.store, locals⟩ [.i32 (offsetOf (some k))] =
          .next ⟨frame.store, locals⟩ [.f64 (state.slots b k)] :=
      exec_f64Load _ _ _ (hholds.load hm b (hslot k hk))
    simp [execAll_cons, BlockType.arity, moveTop, exec_localGet, hlocal, hload, top]
    rfl

/-- The code behind the index of a write. -/
theorem runAt_runs {op : AssignOp} {span : Span} {value : Run σ Double} {d₁ d₂ : Draft}
    {cv cop cs : List Instr} (hr : callRoutine s .bufferStoreIndex d = .ok (find, d'))
    (hfinal : d'.Within final) (hm : final.usesMemory = true)
    (hv : Runs link (d'.locals.length + 2) high cv [] value top)
    (hop : combineCode s span op d₁ = .ok (cop, d₂)) (hfinal' : d₂.Within final)
    (hs : Runs link (d'.locals.length + 2) high cs [] value top)
    (hhigh : d'.locals.length + 2 ≤ high) :
    Runs link d'.locals.length high
      (slotCode [] find d'.locals.length
        (oldCode op [.localGet d'.locals.length, .f64Load b.base] ++
          (cv ++ (cop ++ storeCode b.base d'.locals.length (d'.locals.length + 1)))) cs)
      (top x) (op.runAt link.host b value x.storeSlot?) top := by
  intro frame state stack hholds hlength
  have hslot : ∀ k ∈ x.storeSlot?, k < bufferSlots := fun k hk => Double.storeSlot?_lt hk
  have hlocal : d'.locals.length < frame.locals.length := by omega
  set frame₁ : Frame σ :=
    { frame with locals := frame.locals.set d'.locals.length (.i32 (offsetOf x.storeSlot?)) }
      with hframe₁
  have hkeeps₁ : Keeps (s.layout final) d'.locals.length frame frame₁ := .setLocal frame le_rfl _
  have hlength₁ : high ≤ frame₁.locals.length := by rw [hkeeps₁.length]; exact hlength
  rw [slotCode, nil_append, top, singleton_append, execAll_cons, exec_bufferStoreIndex hr hfinal,
    Flow.next_andThen, execAll_slotExists _ hlocal, offsetOf_ne hslot, ← hframe₁]
  cases hk : x.storeSlot? with
  | none =>
    obtain ⟨frame₂, hexec, hholds₂, hkeeps₂⟩ := hs frame₁ state [] hholds hlength₁
    refine ⟨frame₂, ?_, hholds₂, hkeeps₁.trans (hkeeps₂.mono (by omega))⟩
    rw [append_nil, append_nil] at hexec
    simp [execAll_cons, hexec, top, BlockType.arity, moveTop, AssignOp.runAt]
  | some k =>
    have hbound := hslot k hk
    have hoffset₁ : frame₁.locals[d'.locals.length]? = some (.i32 (offsetOf (some k))) := by
      simp [hframe₁, hlocal, hk]
    have hholds₁ : (s.layout final).Holds frame₁.store state := hholds
    have hold : execAll link.calls _ frame₁ [] = _ :=
      execAll_oldCode op hoffset₁ (hholds₁.load hm b hbound)
    have hnew := (hv.above (oldTop op (state.slots b k))).append fun st =>
      combineCode_runs hop hfinal' (state.slots b k) (value st).1
    obtain ⟨frame₂, hexec₂, hholds₂, hkeeps₂⟩ := hnew frame₁ state [] hholds₁ hlength₁
    -- The local that holds the offset lies below those that the value may use.
    have hoffset₂ : frame₂.locals[d'.locals.length]? = some (.i32 (offsetOf (some k))) := by
      rw [hkeeps₂.local_ _ (by omega), hoffset₁]
    have hlength₂ : d'.locals.length + 1 < frame₂.locals.length := by
      rw [hkeeps₂.length]
      omega
    set new := ((value >>= op.apply link.host (state.slots b k)) state).1
    obtain ⟨memory, hstore, hholds₃⟩ := hholds₂.setSlot hm b hbound new
    have hexec₃ : execAll link.calls _ frame₂ _ = _ := execAll_storeCode hoffset₂ hlength₂ hstore
    set frame₃ : Frame σ :=
      ⟨{ frame₂.store with memory }, frame₂.locals.set (d'.locals.length + 1) (.f64 new)⟩
    have hkeeps₃ : Keeps (s.layout final) d'.locals.length frame₂ frame₃ :=
      ⟨⟨rfl, fun _ _ => rfl, fun hno => absurd (hm.symm.trans hno) (by decide)⟩, length_set,
        fun i hi => getElem?_set_ne (by omega)⟩
    refine ⟨frame₃, ?_, hholds₃, (hkeeps₁.trans (hkeeps₂.mono (by omega))).trans hkeeps₃⟩
    rw [append_nil, nil_append, append_nil] at hexec₂
    have hbranch : execAll link.calls (oldCode op [.localGet d'.locals.length, .f64Load b.base] ++
        (cv ++ (cop ++ storeCode b.base d'.locals.length (d'.locals.length + 1)))) frame₁ [] =
        .next frame₃ (top new) := by
      rw [execAll_append_of_next _ hold, ← append_assoc, execAll_append_of_next _ hexec₂]
      exact hexec₃
    simp [execAll_cons, hbranch, top, BlockType.arity, moveTop, AssignOp.runAt]
    rfl

end Slot

end Lowering

end Eel
