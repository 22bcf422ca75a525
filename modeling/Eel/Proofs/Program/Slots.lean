import Eel.Proofs.Program.Refusal
import Eel.Proofs.Program.Safety

/-!
The two buffers are two arrays.

This holds whatever the arithmetic is. A number that is accepted for a write
finds the slot that it finds for a read, and different slots, of one buffer or
of both, share no byte. So a write is seen by reads of the same slot and by no
others. A number that is not accepted leaves the buffers alone.
-/

namespace Eel

open Wasm Machine Lowering

section Offset

variable [a : Arithmetic]

/-- The offset at which a number reads, or -1 if there is no such slot. -/
def loadOffset (x : Double) : Int32 := slotBytes (a.toInt32 (a.add x epsilon))

/-- The offset at which a number writes, or -1 if it is not accepted. -/
def storeOffset (x : Double) : Int32 := if a.lt x .zero then -1 else loadOffset x

theorem loadOffset_cases (x : Double) :
    loadOffset x = -1 ∨ ∃ k < bufferSlots, loadOffset x = offsetOf (some k) := by
  rw [loadOffset, slotBytes_eq_offsetOf]
  split
  · exact .inr ⟨_, by omega, rfl⟩
  · exact .inl rfl

/-- A number that is accepted writes where it reads. -/
theorem loadOffset_eq_of_storeOffset {x : Double} (h : storeOffset x ≠ -1) :
    loadOffset x = storeOffset x := by
  unfold storeOffset at h ⊢
  split
  · next hlt => simp [hlt] at h
  · rfl

theorem storeOffset_cases (x : Double) : storeOffset x = -1 ∨
    loadOffset x = storeOffset x ∧ ∃ k < bufferSlots, (storeOffset x).toInt = 8 * k := by
  by_cases h : storeOffset x = -1
  · exact .inl h
  · have hsame := loadOffset_eq_of_storeOffset h
    rcases loadOffset_cases x with hnone | ⟨k, hk, hoffset⟩
    · exact absurd (hsame.symm.trans hnone) h
    · exact .inr ⟨hsame, k, hk, by rw [← hsame, hoffset, offsetOf, toInt_offset hk]⟩

end Offset

theorem Buffer.ofName?_eq_some {name : Bytes} {b : Buffer} (h : ofName? name = some b) :
    name = Builtin.name .megabuf ∧ b = mega ∨ name = Builtin.name .gmegabuf ∧ b = gmega := by
  unfold ofName? at h
  split at h
  · next hname => exact .inl ⟨beq_iff_eq.mp hname, (Option.some.inj h).symm⟩
  · split at h
    · next hname => exact .inr ⟨beq_iff_eq.mp hname, (Option.some.inj h).symm⟩
    · cases h

variable {callee : Ident} {span : Span} {index : Node} {op : AssignOp} {n : Int32}

theorem eq_offsetOf_of_toInt {k : Nat} (hk : k < bufferSlots) (h : n.toInt = 8 * k) :
    n = offsetOf (some k) :=
  Int32.toInt_inj.mp (h.trans (toInt_offset hk).symm)

theorem offsetOf_some_ne {k : Nat} (hk : k < bufferSlots) : (offsetOf (some k) != -1) = true :=
  offsetOf_ne fun _ hj => Option.some.inj hj ▸ hk

namespace Machine

/-- The frame with a local set. -/
def Frame.withLocal {σ : Type} (frame : Frame σ) (index : Nat) (v : Value) : Frame σ :=
  { frame with locals := frame.locals.set index v }

end Machine

namespace Lowering

/-- The parts of a read of a slot, in the order in which they are lowered. -/
theorem lower_readSlot_eq_ok {s : Scope} {d d' : Draft} {b : Buffer} {code : List Instr}
    (hb : Buffer.ofName? callee.name = some b)
    (h : lower s (.call callee [index] span) d = .ok (code, d')) :
    ∃ ci d₁ find d₂, lower s index d.addMemory = .ok (ci, d₁) ∧
      callRoutine s .bufferIndex d₁ = .ok (find, d₂) ∧
      d' = d₂.addLocal .i32 ∧ code = slotCode ci find d₂.locals.length
        [.localGet d₂.locals.length, .f64Load b.base] [.f64Const .zero] := by
  have hload : ∃ ci d₁, lower s index d.addMemory = .ok (ci, d₁) ∧
      bufferLoad s b.base ci d₁ = .ok (code, d') := by
    rw [lower] at h
    rcases Buffer.ofName?_eq_some hb with ⟨hname, rfl⟩ | ⟨hname, rfl⟩
    all_goals
      rw [hname] at h
      simp only [Builtin.ofName?_name] at h
      split at h
      · exact absurd h refuse_ne_ok
      · simp only [bind_eq_ok, needMemory_eq_ok] at h
        obtain ⟨-, _, rfl, ci, d₁, hi, hload⟩ := h
        exact ⟨ci, d₁, hi, hload⟩
  obtain ⟨ci, d₁, hi, hload⟩ := hload
  obtain ⟨find, d₂, hfind, hd', hcode⟩ := bufferLoad_eq_ok hload
  exact ⟨ci, d₁, find, d₂, hi, hfind, hd', hcode⟩

variable {σ : Type} [a : Arithmetic]

/-- That code ends behind itself and leaves a number on top of the stack,
whatever is on the stack before. -/
def Gives (calls : Calls σ) (code : List Instr) (frame : Frame σ) (x : Double)
    (frame' : Frame σ) : Prop :=
  ∀ stack, execAll calls code frame stack = .next frame' (.f64 x :: stack)

/-- That calls reach the routines of a finished program, and leave the size of
the memory. -/
structure Linked (calls : Calls σ) (s : Scope) (final : Draft) : Prop where
  routine : ∀ {r : Routine} {k : Nat}, final.routines.find? r = some k →
    ∃ inner, calls (s.routineBase + k) = callCode inner r.toCode
  keepSize : calls.KeepSize

/-- That a frame has the memory of a program with buffers, and so many
locals. -/
structure Ready (high : Nat) (frame : Frame σ) : Prop where
  size : frame.store.memory.size = 2 * bufferBytes
  locals : high ≤ frame.locals.length

section Code

variable {calls : Calls σ} {s : Scope} {final d d' : Draft} {frame frame₁ frame₂ : Frame σ}
  {x : Double}
  {stack : List Value} {code : List Instr}

/-- Confined code that gives a number leaves the first locals, their number and
the size of the memory. -/
theorem Gives.follows (h : Gives calls code frame x frame₁) (hlink : Linked calls s final)
    {low : Nat} (hconfined : Instr.areConfined 0 low code = true) : frame.Follows low frame₁ := by
  have hflow := execAll_confined hlink.keepSize code hconfined frame []
  rwa [h []] at hflow

/-- What reads and writes of a slot start with: the offset that is found for the
index goes to a local, and one of two branches gives the value, depending on
whether there is a slot. -/
theorem Gives.slotCode {index stored skipped : List Instr} {find : Instr} {offset : Nat}
    {y : Double} (h : Gives calls index frame x frame₁)
    (hfind : ∀ stack, exec calls find frame₁ (.f64 x :: stack) = .next frame₁ (.i32 n :: stack))
    (hlocal : offset < frame₁.locals.length)
    (hbranch : execAll calls (if n != -1 then stored else skipped)
      (frame₁.withLocal offset (.i32 n)) [] = .next frame₂ [.f64 y]) :
    Gives calls (slotCode index find offset stored skipped) frame y frame₂ := by
  intro stack
  change execAll calls _ { frame₁ with locals := frame₁.locals.set offset (.i32 n) } [] =
    _ at hbranch
  rw [Lowering.slotCode, execAll_append_of_next _ (h stack), execAll_cons, hfind, Flow.next_andThen,
    execAll_slotExists _ hlocal, execAll_cons, exec_choice, hbranch]
  rfl

end Code

section Read

variable {calls : Calls σ} {s : Scope} {final d d' : Draft} {frame frame₁ : Frame σ} {x : Double}
  {b : Buffer}

/-- That code reads a slot of a buffer by the number that its index gives.
Nothing else happens. -/
structure ReadsSlot (calls : Calls σ) (b : Buffer) (index code : List Instr)
    (high : Nat) : Prop where
  missing : ∀ {frame frame₁ : Frame σ} {x : Double}, Ready high frame →
    Gives calls index frame x frame₁ →
    loadOffset x = -1 → ∃ frame', Gives calls code frame .zero frame' ∧ frame'.store = frame₁.store
  present : ∀ {frame frame₁ : Frame σ} {x : Double} {k : Nat}, Ready high frame →
    Gives calls index frame x frame₁ → k < bufferSlots → (loadOffset x).toInt = 8 * k →
    ∃ frame', Gives calls code frame (frame₁.store.memory.slot b k) frame' ∧
      frame'.store = frame₁.store

theorem readsSlot_of_lower (hlink : Linked calls s final) {code : List Instr}
    (hb : Buffer.ofName? callee.name = some b)
    (h : lower s (.call callee [index] span) d = .ok (code, d')) (hfinal : d'.Within final) :
    ∃ ci, (∃ d d', lower s index d = .ok (ci, d')) ∧
      ReadsSlot calls b ci code d'.locals.length := by
  obtain ⟨ci, d₁, find, d₂, hi, hfind, rfl, rfl⟩ := lower_readSlot_eq_ok hb h
  have hconfined := (emits_of_lower s index hi).confined
  have hcall {frame : Frame σ} {x : Double} (stack : List Value) :
      exec calls find frame (.f64 x :: stack) = .next frame (.i32 (loadOffset x) :: stack) :=
    exec_routine hlink.routine hfind ((d₂.grows_addLocal .i32).toWithin.trans hfinal) fun _ =>
      callCode_bufferIndex ..
  have hlocal {frame frame₁ : Frame σ} {x : Double}
      (hready : Ready (d₂.addLocal .i32).locals.length frame)
      (hgives : Gives calls ci frame x frame₁) : d₂.locals.length < frame₁.locals.length := by
    rw [(hgives.follows hlink hconfined).length]
    simpa [Draft.addLocal] using hready.locals
  refine ⟨ci, ⟨_, _, hi⟩, ?_, ?_⟩
  · intro frame frame₁ x hready hgives hnone
    refine ⟨frame₁.withLocal d₂.locals.length (.i32 (-1)),
      hgives.slotCode hcall (hlocal hready hgives) ?_, rfl⟩
    rw [hnone]
    rfl
  · intro frame frame₁ x k hready hgives hk hoffset
    have hoffset := eq_offsetOf_of_toInt hk hoffset
    have hsize : frame₁.store.memory.size = 2 * bufferBytes :=
      (hgives.follows hlink hconfined).memory.trans hready.size
    refine ⟨frame₁.withLocal d₂.locals.length (.i32 (offsetOf (some k))),
      hgives.slotCode hcall (hlocal hready hgives) ?_, rfl⟩
    rw [hoffset, if_pos (offsetOf_some_ne hk), execAll_cons, exec_localGet, Flow.next_andThen,
      execAll_cons, exec_f64Load _ _ _ (Memory.load?_address (by exact hsize) hk)]
    · rfl
    · simp [Frame.withLocal, hlocal hready hgives]

end Read

section Write

variable {calls : Calls σ} {s : Scope} {final d d' : Draft} {b : Buffer}

/-- The parts of the code of an assignment to a slot: its index, its right side,
what combines that with the value before, and once more its right side, for a
number that is not accepted. The offset of the slot goes to a local. -/
structure SlotParts where
  index : List Instr
  right : List Instr
  combine : List Instr
  skipped : List Instr
  offset : Nat

/-- That these are the parts that lowering makes. -/
structure SlotParts.Lowered (p : SlotParts) (s : Scope) (op : AssignOp) (index value : Node)
    (span : Span) : Prop where
  index : ∃ d d', lower s index d = .ok (p.index, d')
  right : ∃ d d', lower s value d = .ok (p.right, d')
  combine : ∃ d d', combineCode s span op d = .ok (p.combine, d')
  skipped : ∃ d d', lower s value d = .ok (p.skipped, d')

/-- That code makes a new value of the one before and the right-hand value. A
plain assignment does not look at the one before. -/
def Combines (calls : Calls σ) (op : AssignOp) (code : List Instr) (frame : Frame σ)
    (old v new : Double) (frame' : Frame σ) : Prop :=
  ∀ stack, execAll calls code frame (.f64 v :: (oldTop op old ++ stack)) =
    .next frame' (.f64 new :: stack)

/-- That a frame comes from another by a write to one slot, apart from the
locals. -/
structure Stores (b : Buffer) (k : Nat) (v : Double) (frame frame' : Frame σ) : Prop where
  globals : frame'.store.globals = frame.store.globals
  host : frame'.store.host = frame.store.host
  memory : frame.store.memory.SetsSlot frame'.store.memory b k v

/-- That reads of a buffer by a number give a value, if the index leaves the
store alone. -/
def ReadsBack (calls : Calls σ) (b : Buffer) (frame : Frame σ) (x y : Double) : Prop :=
  ∀ {index read : List Instr} {high : Nat} {frame₁ : Frame σ}, ReadsSlot calls b index read high →
    high ≤ frame.locals.length → Gives calls index frame x frame₁ → frame₁.store = frame.store →
    ∃ frame', Gives calls read frame y frame' ∧ frame'.store = frame.store

/-- That code assigns to a slot of a buffer by the number that its index gives.
If that is not accepted, all that happens is that the right side runs, whose
value is the one of the assignment. Otherwise the new value goes to the slot,
and is the value of the assignment. -/
structure AssignsSlot (calls : Calls σ) (b : Buffer) (op : AssignOp) (p : SlotParts)
    (code : List Instr) (high : Nat) : Prop where
  rejected : ∀ {frame frame₁ frame' : Frame σ} {x v : Double}, Ready high frame →
    Gives calls p.index frame x frame₁ → storeOffset x = -1 →
      Gives calls p.skipped (frame₁.withLocal p.offset (.i32 (storeOffset x))) v frame' →
    Gives calls code frame v frame'
  accepted : ∀ {frame frame₁ frame₂ frame₃ : Frame σ} {x v new : Double} {k : Nat},
    Ready high frame →
    Gives calls p.index frame x frame₁ → k < bufferSlots → (storeOffset x).toInt = 8 * k →
    Gives calls p.right (frame₁.withLocal p.offset (.i32 (storeOffset x))) v frame₂ →
    Combines calls op p.combine frame₂ (frame₁.store.memory.slot b k) v new frame₃ →
    ∃ frame', Gives calls code frame new frame' ∧ Stores b k new frame₃ frame' ∧
      ReadsBack calls b frame' x new

section Store

variable {frame : Frame σ} {offset k : Nat}

/-- The branch for a number that is accepted. The offset is in a local that
neither the right side nor what combines it can reach. -/
theorem execAll_stored (hlink : Linked calls s final) {cv cop : List Instr}
    {frame₂ frame₃ : Frame σ} {v new : Double} (hsize : frame.store.memory.size = 2 * bufferBytes)
    (hk : k < bufferSlots) (hoffset : frame.locals[offset]? = some (.i32 (offsetOf (some k))))
    (hlength : offset + 1 < frame.locals.length)
    (hconfined : Instr.areConfined 0 (offset + 2) cv = true)
    (hright : Gives calls cv frame v frame₂) (hcop : combineCode s span op d = .ok (cop, d'))
    (hlow : offset + 2 ≤ d.locals.length)
    (hcombine : Combines calls op cop frame₂ (frame.store.memory.slot b k) v new frame₃) :
    ∃ frame', execAll calls (oldCode op [.localGet offset, .f64Load b.base] ++
        (cv ++ (cop ++ storeCode b.base offset (offset + 1)))) frame [] = .next frame' [.f64 new] ∧
      Stores b k new frame₃ frame' ∧ frame'.store.memory.size = 2 * bufferBytes := by
  have hold : execAll calls (oldCode op [.localGet offset, .f64Load b.base]) frame [] = _ :=
    execAll_oldCode op hoffset (Memory.load?_address hsize hk)
  have hcombine := hcombine []
  rw [List.append_nil] at hcombine
  have hfollows : frame.Follows (offset + 2) frame₃ := by
    have hflow :=
      execAll_confined hlink.keepSize cop
        (((combineCode_operates hcop).simple _ hlow).confined 0) frame₂
      (.f64 v :: oldTop op (frame.store.memory.slot b k))
    rw [hcombine] at hflow
    exact (hright.follows hlink hconfined).trans hflow
  have hoffset₃ : frame₃.locals[offset]? = some (.i32 (offsetOf (some k))) := by
    rw [hfollows.local_ _ (by omega), hoffset]
  obtain ⟨memory, hstore, hsize', hsets⟩ :=
    Memory.exists_store?_slot (b := b) (hfollows.memory.trans hsize) hk new
  rw [← address_offset hk] at hstore
  refine ⟨⟨{ frame₃.store with memory }, frame₃.locals.set (offset + 1) (.f64 new)⟩, ?_,
    ⟨rfl, rfl, hsets⟩, hsize'⟩
  rw [execAll_append_of_next _ hold, execAll_append_of_next _ (hright _),
    execAll_append_of_next _ hcombine]
  exact execAll_storeCode hoffset₃ (hfollows.length ▸ hlength) hstore

end Store

/-- What was written is read back by the same number. -/
theorem readsBack_of_slot {frame : Frame σ} {x y : Double} {k : Nat}
    (hsize : frame.store.memory.size = 2 * bufferBytes) (hk : k < bufferSlots)
    (hoffset : (loadOffset x).toInt = 8 * k) (hslot : frame.store.memory.slot b k = y) :
    ReadsBack calls b frame x y := by
  intro index read high frame₁ hreads hlength hgives hstore
  obtain ⟨frame', hread, hstore'⟩ := hreads.present ⟨hsize, hlength⟩ hgives hk hoffset
  rw [hstore, hslot] at hread
  exact ⟨frame', hread, hstore'.trans hstore⟩

theorem assignsSlot_of_lower (hlink : Linked calls s final) {value : Node} {callSpan : Span}
    {code : List Instr} (hb : Buffer.ofName? callee.name = some b)
    (h : lower s (.assign op (.call callee [index] callSpan) value span) d = .ok (code, d'))
    (hfinal : d'.Within final) :
    ∃ p : SlotParts, p.Lowered s op index value span ∧
      AssignsSlot calls b op p code d'.locals.length := by
  obtain ⟨base, ci, d₁, find, d₂, cv, d₃, cop, d₄, cs, hbase, hi, hfind, hv, hcop, hs, rfl⟩ :=
    lower_assignSlot_eq_ok h
  obtain ⟨b', hb', rfl⟩ := bufferBase?_eq_some hbase
  obtain rfl : b = b' := Option.some.inj (hb.symm.trans hb')
  have hlocals := (d₂.grows_addLocal .i32).trans ((d₂.addLocal .i32).grows_addLocal .f64)
  have hbranches := (emits_of_lower s value hv).grows.trans (combineCode_operates hcop).builds.grows
  have hrest := hbranches.trans (emits_of_lower s value hs).grows
  have hlow : d₂.locals.length + 2 ≤ d₃.locals.length := by
    simpa [Draft.addLocal] using (emits_of_lower s value hv).grows.length_le
  have hconfined : Instr.areConfined 0 (d₂.locals.length + 2) cv = true := by
    simpa [Draft.addLocal] using (emits_of_lower s value hv).confined
  have hcall {frame : Frame σ} {x : Double} (stack : List Value) :
      exec calls find frame (.f64 x :: stack) = .next frame (.i32 (storeOffset x) :: stack) :=
    exec_routine hlink.routine hfind ((hlocals.trans hrest).toWithin.trans hfinal) fun _ =>
      callCode_bufferStoreIndex ..
  have hlength {frame frame₁ : Frame σ} {x : Double} (hready : Ready d'.locals.length frame)
      (hgives : Gives calls ci frame x frame₁) : d₂.locals.length + 2 ≤ frame₁.locals.length := by
    have hhigh : d₂.locals.length + 2 ≤ d'.locals.length := by
      simpa [Draft.addLocal] using hrest.length_le
    rw [(hgives.follows hlink (emits_of_lower s index hi).confined).length]
    exact hhigh.trans hready.locals
  refine ⟨⟨ci, cv, cop, cs, d₂.locals.length⟩,
    ⟨⟨_, _, hi⟩, ⟨_, _, hv⟩, ⟨_, _, hcop⟩, ⟨_, _, hs⟩⟩, ?_, ?_⟩
  · intro frame frame₁ frame' x v hready hgives hnone hright
    have hlength := hlength hready hgives
    refine hgives.slotCode hcall (by omega) ?_
    rw [hnone] at hright ⊢
    exact hright []
  · intro frame frame₁ frame₂ frame₃ x v new k hready hgives hk hoffset hright hcombine
    have hlength := hlength hready hgives
    have heq := eq_offsetOf_of_toInt hk hoffset
    have haccepted : (storeOffset x != -1) = true := heq ▸ offsetOf_some_ne hk
    have hsize : frame₁.store.memory.size = 2 * bufferBytes :=
      (hgives.follows hlink (emits_of_lower s index hi).confined).memory.trans hready.size
    have hlocal :
        (frame₁.withLocal d₂.locals.length (.i32 (storeOffset x))).locals[d₂.locals.length]? =
          some (.i32 (offsetOf (some k))) := by
      simp [Frame.withLocal, show d₂.locals.length < frame₁.locals.length by omega, heq]
    have hlength' :
        d₂.locals.length + 1 <
          (frame₁.withLocal d₂.locals.length (.i32 (storeOffset x))).locals.length := by
      rw [Frame.withLocal, List.length_set]
      omega
    obtain ⟨frame', hexec, hstores, hsize'⟩ :=
      execAll_stored (b := b) hlink (by exact hsize) hk hlocal hlength' hconfined hright hcop
        hlow hcombine
    refine ⟨frame', hgives.slotCode hcall (by omega) ?_, hstores, ?_⟩
    · rw [if_pos haccepted]
      exact hexec
    · refine readsBack_of_slot hsize' hk ?_ hstores.memory.written
      rw [loadOffset_eq_of_storeOffset (by simpa using haccepted), hoffset]

end Write

/-- The calls of a compiled function reach the routines. -/
theorem linked_of_drafted {p : Program} {fs : List Prepared} {final : Draft}
    (h : p.Drafted fs final) (f : Prepared) (host : Host σ) (depth : Nat) :
    Linked (invoke host p.table (depth + 1)) (Program.scopeOf fs f) final where
  routine := by
    intro r k hk
    have hr : p.routines[k]? = some r := by
      rw [h.routines]
      exact Numbering.getElem?_of_find? hk
    have hbase :
        (Program.scopeOf fs f).routineBase = HostFunction.all.length + p.functions.length := by
      rw [h.length]
      rfl
    rw [hbase]
    exact ⟨invoke host p.table depth, invoke_code (p.table_routine hr)⟩
  keepSize := invoke_keepSize h.tableConfined host (depth + 1)

end Lowering

/-- The two buffers behave as two arrays that share nothing, whatever the
arithmetic. The routine that finds the offset for a write gives -1, or an offset
of a slot that the one for a read gives as well. In the code of any function of
a program, a read gives the value of the slot that its index stands for. An
assignment whose index is accepted puts its value into one slot of one buffer,
where reads by the same number find it, and leaves all other slots. One whose
index is not accepted gives the right-hand value and leaves all slots as the
right side left them. -/
theorem buffers_behave_as_arrays [a : Arithmetic] :
    (∀ {σ : Type} (calls : Calls σ) (store : Store σ) (stack : List Value) (x : Double),
      callCode calls Routine.bufferStoreIndex.toCode store (.f64 x :: stack) =
        .done store (.i32 (storeOffset x) :: stack) ∧
      callCode calls Routine.bufferIndex.toCode store (.f64 x :: stack) =
        .done store (.i32 (loadOffset x) :: stack) ∧
      (storeOffset x = -1 ∨ loadOffset x = storeOffset x ∧
        ∃ k < bufferSlots, (storeOffset x).toInt = 8 * k)) ∧
    (∀ {σ : Type} {p : Program} {fs : List Prepared} {final : Draft}, p.Drafted fs final →
      ∀ (f : Prepared) (host : Host σ) (depth : Nat),
        Linked (invoke host p.table (depth + 1)) (Program.scopeOf fs f) final) ∧
    ∀ {σ : Type} {calls : Calls σ} {s : Scope} {final d d' : Draft} {callee : Ident} {b : Buffer}
      {code : List Instr},
      Linked calls s final → Buffer.ofName? callee.name = some b → d'.Within final →
      (∀ {index : Node} {span : Span}, lower s (.call callee [index] span) d = .ok (code, d') →
        ∃ ci, (∃ d d', lower s index d = .ok (ci, d')) ∧
          ReadsSlot calls b ci code d'.locals.length) ∧
      ∀ {op : AssignOp} {index value : Node} {callSpan span : Span},
        lower s (.assign op (.call callee [index] callSpan) value span) d = .ok (code, d') →
        ∃ p : SlotParts, p.Lowered s op index value span ∧
          AssignsSlot calls b op p code d'.locals.length := by
  refine ⟨fun calls store stack x => ⟨?_, ?_, storeOffset_cases x⟩, linked_of_drafted,
    fun hlink hb hfinal => ⟨?_, ?_⟩⟩
  · exact callCode_bufferStoreIndex calls store stack x
  · exact callCode_bufferIndex calls store stack x
  · exact fun h => readsSlot_of_lower hlink hb h hfinal
  · exact fun h => assignsSlot_of_lower hlink hb h hfinal

section Witness

attribute [local instance] Arithmetic.binary64

/-- A scope without variables, for code that reaches the routines from the index
0 on. -/
def bareScope : Scope := ⟨[], default, ⟨[], .ofSource [], default⟩, {}, 0⟩

def twoAndAHalf : Double := ⟨0x4004000000000000⟩

def seven : Double := ⟨0x401c000000000000⟩

/-- The assignment `gmegabuf(2.5) += 7`. -/
def addSeven : Node :=
  .assign .add (.call ⟨utf8 "gmegabuf", .none⟩ [.number twoAndAHalf .none] .none)
    (.number seven .none) .none

/-- What is known behind it. -/
def addSevenDraft : Draft := ⟨{}, ⟨[.bufferStoreIndex]⟩, true, [.i32, .f64]⟩

/-- Calls that reach the routine that it needs. -/
def addSevenCalls : Calls Unit :=
  invoke ⟨fun _ _ state => (.zero, state)⟩ #[.code Routine.bufferStoreIndex.toCode] 1

theorem linked_addSeven : Linked addSevenCalls bareScope addSevenDraft where
  routine := by
    intro r k hk
    have hr : [Routine.bufferStoreIndex][k]? = some r := Numbering.getElem?_of_find? hk
    obtain ⟨rfl, rfl⟩ : k = 0 ∧ r = .bufferStoreIndex := by
      cases k with
      | zero => exact ⟨rfl, (Option.some.inj hr).symm⟩
      | succ k => simp at hr
    exact ⟨_, invoke_code rfl⟩
  keepSize := by
    refine invoke_keepSize (fun index c hc => ⟨0, 0, ?_⟩) _ 1
    cases index with
    | zero =>
      obtain rfl : Routine.bufferStoreIndex.toCode = c := by simpa using hc
      rfl
    | succ index => simp at hc

theorem addSeven_stores : ∃ code d', lower bareScope addSeven {} = .ok (code, d') ∧
    ∀ frame : Frame Unit, Ready d'.locals.length frame →
      ∃ frame', Gives addSevenCalls code frame
        ((frame.store.memory.slot .gmega 2).add seven) frame' ∧
        Stores .gmega 2 ((frame.store.memory.slot .gmega 2).add seven) frame frame' := by
  obtain ⟨code, hlower⟩ :
      ∃ code, lower bareScope addSeven {} = .ok (code, addSevenDraft) := ⟨_, rfl⟩
  obtain ⟨p, hp, hassigns⟩ :=
    (buffers_behave_as_arrays.2.2 linked_addSeven rfl (.refl addSevenDraft)).2 hlower
  refine ⟨code, addSevenDraft, hlower, fun frame hready => ?_⟩
  have hoffset : (storeOffset twoAndAHalf).toInt = 8 * (2 : Nat) := by decide +kernel
  have hindex : Gives addSevenCalls p.index frame twoAndAHalf frame := by
    obtain ⟨d, d', hi⟩ := hp.index
    rw [← (pure_eq_ok.mp hi).1]
    exact fun stack => rfl
  have hright (frame : Frame Unit) : Gives addSevenCalls p.right frame seven frame := by
    obtain ⟨d, d', hv⟩ := hp.right
    rw [← (pure_eq_ok.mp hv).1]
    exact fun stack => rfl
  have hcombine (frame : Frame Unit) (old : Double) :
      Combines addSevenCalls .add p.combine frame old seven (old.add seven) frame := by
    obtain ⟨d, d', hop⟩ := hp.combine
    rw [← (pure_eq_ok.mp hop).1]
    exact fun stack => rfl
  obtain ⟨frame', hgives, hstores, -⟩ :=
    hassigns.accepted hready hindex (by decide) hoffset (hright _) (hcombine _ _)
  exact ⟨frame', hgives, hstores.globals, hstores.host, hstores.memory⟩

end Witness

end Eel
