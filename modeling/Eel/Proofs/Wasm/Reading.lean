import Eel.Proofs.Wasm.Delimiting
import Eel.Proofs.Wasm.TwosComplement
import Eel.Wasm.Decoder

/-!
Decoders give back what was written.

A decoder reads a piece if it takes just the bytes of the piece from the front
of any input. This is closed under doing one thing after another, so every
decoder of the format is shown to read by following its own definition. A module
is read from its bytes if each of its sections has a length of 32 bits and its
names are text, and only then.
-/

namespace Eel.Wasm

open Text List

variable {i : Import} {e : Export} {locals : List ValType} {text : Bytes} {c : UInt8}

namespace Decoder

variable {α β : Type}

/-- That a decoder takes just these bytes from the front, whatever follows them,
and gives a value for them. -/
def Reads (d : Decoder α) (bytes : Bytes) (x : α) : Prop :=
  ∀ rest, d.run (bytes ++ rest) = some (x, rest)

namespace Reads

variable {d : Decoder α} {f : α → Decoder β} {bytes bytes' : Bytes} {x : α} {y : β}

theorem pure (x : α) : Reads (Pure.pure x) [] x := fun _ => rfl

theorem bind (h : d.Reads bytes x) (h' : (f x).Reads bytes' y) :
    Reads (d >>= f) (bytes ++ bytes') y := by
  intro rest
  rw [StateT.run_bind, append_assoc, h]
  exact h' rest

/-- What is done last may only give a value. -/
theorem map (h : d.Reads bytes x) (g : α → β) :
    Reads (d >>= fun a => Pure.pure (g a)) bytes (g x) := by
  have hbind := h.bind (f := fun a => Pure.pure (g a)) (.pure (g x))
  rwa [append_nil] at hbind

/-- A check that is passed takes nothing. -/
theorem behind_guard {p : Prop} [Decidable p] (hp : p) {d : Decoder β} (h : d.Reads bytes y) :
    Reads (guard p >>= fun _ => d) bytes y := by
  have hguard : (guard p : Decoder Unit) = Pure.pure () := if_pos hp
  rw [hguard, pure_bind]
  exact h

theorem whole (h : d.Reads bytes x) : d.whole bytes = some x := by
  have hrun := h []
  rw [append_nil] at hrun
  rw [Decoder.whole, hrun]

end Reads

/-- That a decoder fails on these bytes, whatever follows them. -/
def Refuses (d : Decoder α) (bytes : Bytes) : Prop := ∀ rest, d.run (bytes ++ rest) = none

namespace Refuses

variable {d : Decoder α} {f : α → Decoder β} {bytes bytes' : Bytes} {x : α}

theorem bind (h : d.Refuses bytes) (bytes' : Bytes) : Refuses (d >>= f) (bytes ++ bytes') := by
  intro rest
  rw [StateT.run_bind, append_assoc, h]
  rfl

theorem behind (hd : d.Reads bytes x) (h : (f x).Refuses bytes') :
    Refuses (d >>= f) (bytes ++ bytes') := by
  intro rest
  rw [StateT.run_bind, append_assoc, hd]
  exact h rest

theorem whole (h : d.Refuses bytes) : d.whole bytes = none := by
  have hrun := h []
  rw [append_nil] at hrun
  rw [Decoder.whole, hrun]

end Refuses

section Item

theorem reads_byte {f : UInt8 → Decoder α} {bytes : Bytes} {x : α} (h : (f c).Reads bytes x) :
    Reads (byte >>= f) (c :: bytes) x := h

theorem reads_expect {d : Decoder α} {bytes : Bytes} {x : α} (h : d.Reads bytes x) :
    Reads (expect c >>= fun _ => d) (c :: bytes) x := by
  rw [expect, bind_assoc]
  exact reads_byte (.behind_guard rfl h)

/-- A number is read if it has 32 bits, and only then. -/
theorem u32_append (n : Nat) (rest : Bytes) :
    u32.run (unsigned n ++ rest) = if n < 2 ^ 32 then some (n, rest) else none := by
  unfold u32 StateT.run
  dsimp only
  cases hread : readUnsigned (unsigned n ++ rest) with
  | error fault =>
    rw [if_neg]
    intro hn
    rw [readUnsigned_unsigned rest (by omega)] at hread
    cases hread
  | ok r =>
    obtain ⟨m, rest'⟩ := r
    obtain ⟨rfl, rfl⟩ := eq_of_readUnsigned hread
    dsimp only
    by_cases hn : m < 2 ^ 32
    · have hlength : (unsigned m).length ≤ 5 := length_unsigned_le (by omega)
      rw [if_pos hn, if_pos]
      simp only [length_append, Bool.and_eq_true, decide_eq_true_eq]
      exact ⟨hn, by omega⟩
    · rw [if_neg hn, if_neg]
      simp only [Bool.and_eq_true, decide_eq_true_eq, not_and]
      exact fun hm => absurd hm hn

theorem reads_u32 {n : Nat} (h : n < 2 ^ 32) : u32.Reads (unsigned n) n := by
  intro rest
  rw [u32_append, if_pos h]

theorem reads_s32 (n : Int32) : s32.Reads (signed n.toInt) n := by
  intro rest
  have hlow := n.le_toInt
  have hhigh := n.toInt_lt
  have hlength : (signed n.toInt).length ≤ 5 := length_signed_le (k := 4) (by omega) (by omega)
  have hmin : Int32.minValue.toInt = -2 ^ 31 := rfl
  have hmax : Int32.maxValue.toInt = 2 ^ 31 - 1 := rfl
  unfold s32 StateT.run
  dsimp only
  rw [readSigned_signed rest (by omega) (by omega)]
  dsimp only
  rw [if_pos, Int32.ofInt_toInt]
  simp only [hmin, hmax, length_append, Bool.and_eq_true, decide_eq_true_eq]
  omega

theorem reads_double (x : Double) : double.Reads (doubleBytes x) x := by
  intro rest
  unfold double StateT.run
  dsimp only
  rw [readDouble_doubleBytes]

theorem reads_take (bytes : Bytes) : (take bytes.length).Reads bytes bytes := by
  intro rest
  unfold take StateT.run
  dsimp only
  rw [if_neg (by simp), take_left, drop_left]

/-- Bytes behind their length. -/
theorem reads_sized {bytes : Bytes} (h : bytes.length < 2 ^ 32) :
    Reads (u32 >>= fun count => take count) (unsigned bytes.length ++ bytes) bytes :=
  (reads_u32 h).bind (reads_take bytes)

section Vector

variable {γ : Type} {item : Decoder α} {bytes : γ → Bytes} {view : γ → α} {items : List γ}

theorem reads_times (h : ∀ x ∈ items, item.Reads (bytes x) (view x)) :
    (item.times items.length).Reads (items.flatMap bytes) (items.map view) := by
  induction items with
  | nil => exact .pure []
  | cons x rest ih =>
    rw [forall_mem_cons] at h
    exact h.1.bind ((ih h.2).map (view x :: ·))

/-- Items behind their count, as far as a view of each goes. -/
theorem reads_views (h : ∀ x ∈ items, item.Reads (bytes x) (view x))
    (hcount : items.length < 2 ^ 32) :
    item.vector.Reads (vectorBytes items.length (items.flatMap bytes)) (items.map view) :=
  (reads_u32 hcount).bind (reads_times h)

/-- Items of which one is refused are all refused. -/
theorem refuses_times (h : ∀ x ∈ items, item.Reads (bytes x) (view x) ∨ item.Refuses (bytes x))
    (hrefused : ∃ x ∈ items, item.Refuses (bytes x)) :
    (item.times items.length).Refuses (items.flatMap bytes) := by
  induction items with
  | nil => simp at hrefused
  | cons x rest ih =>
    rw [forall_mem_cons] at h
    rw [exists_mem_cons_iff] at hrefused
    by_cases hx : item.Refuses (bytes x)
    · exact hx.bind _
    · have hrest :=
        (ih h.2 (hrefused.resolve_left hx)).bind (f := fun xs => Pure.pure (view x :: xs)) []
      rw [append_nil] at hrest
      exact .behind (h.1.resolve_right hx) hrest

theorem refuses_vector (h : ∀ x ∈ items, item.Reads (bytes x) (view x) ∨ item.Refuses (bytes x))
    (hrefused : ∃ x ∈ items, item.Refuses (bytes x)) :
    item.vector.Refuses (vectorBytes items.length (items.flatMap bytes)) := by
  by_cases hcount : items.length < 2 ^ 32
  · exact .behind (reads_u32 hcount) (refuses_times h hrefused)
  · refine Refuses.bind (fun rest => ?_) _
    rw [u32_append, if_neg hcount]

end Vector

theorem reads_vector {item : Decoder α} {bytes : α → Bytes} {items : List α}
    (h : ∀ x ∈ items, item.Reads (bytes x) x) (hcount : items.length < 2 ^ 32) :
    item.vector.Reads (vectorBytes items.length (items.flatMap bytes)) items := by
  have hviews := reads_views h hcount
  rwa [map_id'] at hviews

theorem reads_name (hlength : text.length < 2 ^ 32) (hvalid : isValid text = true) :
    name.Reads (nameBytes text) text := by
  have hguard : Reads (guard (isValid text = true) >>= fun _ => Pure.pure text) [] text :=
    .behind_guard hvalid (.pure text)
  have htake :=
    (reads_take text).bind
      (f := fun text => guard (isValid text = true) >>= fun _ => Pure.pure text) hguard
  rw [append_nil] at htake
  exact (reads_u32 hlength).bind htake

/-- A name that is no text is refused. -/
theorem refuses_name (h : ¬isValid text = true) : name.Refuses (nameBytes text) := by
  by_cases hlength : text.length < 2 ^ 32
  · refine .behind (reads_u32 hlength) fun rest => ?_
    rw [StateT.run_bind, reads_take text]
    simp [guard, h]
  · refine Refuses.bind (fun rest => ?_) _
    rw [u32_append, if_neg hlength]

end Item

end Decoder

/-- That the format knows a type. -/
def ValType.IsKnown (t : ValType) : Prop := t ∈ [ValType.i32, .i64, .f32, .f64]

/-- That a type can be told from its bytes. -/
structure FuncType.Legible (t : FuncType) : Prop where
  params : ∀ v ∈ t.params, v.IsKnown
  results : ∀ v ∈ t.results, v.IsKnown

def ImportKind.Legible : ImportKind → Prop
  | .func type => type < 2 ^ 32
  | .global type => type.type.IsKnown

structure Import.Legible (i : Import) : Prop where
  moduleName : isValid i.moduleName = true
  name : isValid i.name = true
  kind : i.kind.Legible

structure Limits.Legible (l : Limits) : Prop where
  min : l.min < 2 ^ 32
  max : ∀ n ∈ l.max, n < 2 ^ 32

structure Export.Legible (e : Export) : Prop where
  name : isValid e.name = true
  index : e.index < 2 ^ 32

structure Function.Legible (f : Function) : Prop where
  type : f.type < 2 ^ 32
  locals : ∀ v ∈ f.locals, v.IsKnown
  count : f.locals.length < 2 ^ 32

namespace Decoder

theorem reads_valType {t : ValType} (h : t.IsKnown) : valType.Reads [t.byte] t :=
  reads_byte (.behind_guard (p := t ∈ _) h (.pure t))

theorem reads_valTypes {types : List ValType} (h : ∀ t ∈ types, t.IsKnown)
    (hcount : types.length < 2 ^ 32) : valType.vector.Reads (valTypesBytes types) types := by
  have hbytes : types.map (·.byte) = types.flatMap fun t => [t.byte] := map_eq_flatMap
  rw [valTypesBytes, hbytes]
  exact reads_vector (fun t ht => reads_valType (h t ht)) hcount

theorem reads_funcType {t : FuncType} (h : t.Legible) (hlength : t.bytes.length < 2 ^ 32) :
    funcType.Reads t.bytes t := by
  have hcount : t.params.length < 2 ^ 32 ∧ t.results.length < 2 ^ 32 := by
    simp only [FuncType.bytes, valTypesBytes, cons_append, length_cons, length_append,
      length_map] at hlength
    omega
  refine reads_expect ?_
  refine (reads_valTypes h.params hcount.1).bind ?_
  exact (reads_valTypes h.results hcount.2).map _

theorem reads_flag {f : Bool → Decoder α} (b : Bool) {bytes : Bytes} {x : α}
    (h : (f b).Reads bytes x) : Reads (flag >>= f) ((if b then 0x01 else 0x00) :: bytes) x := by
  cases b <;> exact h

theorem reads_globalType {t : GlobalType} (h : t.type.IsKnown) : globalType.Reads t.bytes t :=
  (reads_valType h).bind (reads_flag t.isMutable (.pure t))

theorem reads_importKind {kind : ImportKind} (h : kind.Legible) :
    importKind.Reads kind.bytes kind := by
  cases kind with
  | func type => exact reads_byte ((reads_u32 h).map ImportKind.func)
  | global type => exact reads_byte ((reads_globalType h).map ImportKind.global)

theorem reads_import (h : i.Legible) (hlength : i.bytes.length < 2 ^ 32) :
    import_.Reads i.bytes i := by
  have hnames : i.moduleName.length < 2 ^ 32 ∧ i.name.length < 2 ^ 32 := by
    simp only [Import.bytes, nameBytes, length_append] at hlength
    omega
  rw [Import.bytes, append_assoc]
  refine (reads_name hnames.1 h.moduleName).bind ?_
  refine (reads_name hnames.2 h.name).bind ?_
  exact (reads_importKind h.kind).map _

theorem refuses_import (hlength : i.bytes.length < 2 ^ 32)
    (h : ¬(isValid i.moduleName = true ∧ isValid i.name = true)) : import_.Refuses i.bytes := by
  have hname : i.moduleName.length < 2 ^ 32 := by
    simp only [Import.bytes, nameBytes, length_append] at hlength
    omega
  rw [Import.bytes, append_assoc]
  by_cases hmodule : isValid i.moduleName = true
  · exact .behind (reads_name hname hmodule)
      ((refuses_name fun hvalid => h ⟨hmodule, hvalid⟩).bind _)
  · exact (refuses_name hmodule).bind _

theorem reads_limits {l : Limits} (h : l.Legible) : limits.Reads l.bytes l := by
  obtain ⟨min, max⟩ := l
  cases max with
  | none => exact reads_flag false ((reads_u32 h.min).map (Limits.mk · none))
  | some max =>
    refine reads_flag true ((reads_u32 h.min).bind ?_)
    exact (reads_u32 (h.max max rfl)).map (Limits.mk min <| some ·)

theorem reads_global (g : Global) : global.Reads g.bytes g := by
  have htype : ValType.f64.IsKnown := by simp [ValType.IsKnown]
  rw [Global.bytes, append_assoc, cons_append]
  refine (reads_globalType htype).bind (.behind_guard rfl (reads_expect ?_))
  refine (reads_double g.init).bind (reads_expect (.pure g))

theorem reads_export (h : e.Legible) (hlength : e.bytes.length < 2 ^ 32) :
    export_.Reads e.bytes e := by
  have hname : e.name.length < 2 ^ 32 := by
    simp only [Export.bytes, nameBytes, length_append] at hlength
    omega
  refine (reads_name hname h.name).bind (reads_byte ?_)
  exact (reads_u32 h.index).map _

theorem refuses_export (h : ¬isValid e.name = true) : export_.Refuses e.bytes := by
  rw [Export.bytes]
  exact (refuses_name h).bind _

end Decoder

/-- A run is no longer than the list that it is part of. -/
theorem localRuns_within : ∀ run ∈ localRuns locals, run.1 ≤ locals.length ∧ run.2 ∈ locals := by
  fun_induction localRuns locals with
  | case1 => simp
  | case2 t rest count runs hrest ih =>
    simp only [hrest, forall_mem_cons, length_cons] at ih ⊢
    refine ⟨⟨by omega, mem_cons_self⟩, fun run hrun => ?_⟩
    exact ⟨(ih.2 run hrun).1.trans (Nat.le_succ _), mem_cons_of_mem _ (ih.2 run hrun).2⟩
  | case3 t rest count u runs hrest hne ih =>
    simp only [hrest, forall_mem_cons, length_cons] at ih ⊢
    refine ⟨⟨by omega, mem_cons_self⟩, ⟨by omega, mem_cons_of_mem _ ih.1.2⟩, fun run hrun => ?_⟩
    exact ⟨(ih.2 run hrun).1.trans (Nat.le_succ _), mem_cons_of_mem _ (ih.2 run hrun).2⟩
  | case4 t rest hrest ih => simp

namespace Decoder

theorem reads_localRun {run : Nat × ValType} (hcount : run.1 < 2 ^ 32) (htype : run.2.IsKnown) :
    localRun.Reads (unsigned run.1 ++ [run.2.byte]) (List.replicate run.1 run.2) :=
  (reads_u32 hcount).bind ((reads_valType htype).map (List.replicate run.1))

/-- The runs of locals in front of a body. -/
def runsBytes (locals : List ValType) : Bytes :=
  vectorBytes (localRuns locals).length
    ((localRuns locals).flatMap fun run => unsigned run.1 ++ [run.2.byte])

theorem reads_runs (hknown : ∀ v ∈ locals, v.IsKnown) (hcount : locals.length < 2 ^ 32)
    (hlength : (runsBytes locals).length < 2 ^ 32) :
    localRun.vector.Reads (runsBytes locals)
      ((localRuns locals).map fun run => List.replicate run.1 run.2) := by
  have hruns : (localRuns locals).length ≤
      ((localRuns locals).flatMap fun run => unsigned run.1 ++ [run.2.byte]).length :=
    Module.length_le_flatMap (fun run => by simp) _
  rw [runsBytes, vectorBytes, length_append] at hlength
  refine reads_views (fun run hrun => ?_) (by omega)
  obtain ⟨hwithin, hmem⟩ := localRuns_within run hrun
  exact reads_localRun (by omega) (hknown _ hmem)

theorem whole_body {f : Function} (h : f.Legible)
    (hlength : (bodyBytes f.locals f.body).length < 2 ^ 32) :
    body.whole (bodyBytes f.locals f.body) = some (f.locals, f.body) := by
  have hbytes : bodyBytes f.locals f.body = runsBytes f.locals ++ (f.body ++ [Opcode.finish]) := by
    simp only [bodyBytes, runsBytes, vectorBytes, append_assoc]
    rfl
  have hlocals :
      ((localRuns f.locals).map fun run => List.replicate run.1 run.2).flatten = f.locals :=
    expandRuns_localRuns f.locals
  rw [hbytes, length_append] at hlength
  rw [whole, body, StateT.run_bind, hbytes, reads_runs h.locals h.count (by omega)]
  simp [hlocals, guard]

theorem reads_sizedBody {f : Function} (h : f.Legible) (hlength : f.bytes.length < 2 ^ 32) :
    sizedBody.Reads f.bytes (f.locals, f.body) := by
  have hbody : (bodyBytes f.locals f.body).length < 2 ^ 32 := by
    rw [Function.bytes, length_append] at hlength
    omega
  have hwhole :
      Reads (body.whole (bodyBytes f.locals f.body) : Option _) [] (f.locals, f.body) := by
    intro rest
    rw [whole_body h hbody]
    rfl
  have hread :=
    (reads_take (bodyBytes f.locals f.body)).bind
      (f := fun bytes => (body.whole bytes : Option _)) hwhole
  rw [append_nil] at hread
  exact (reads_u32 hbody).bind hread

end Decoder

namespace Module

/-- That a module can be told from its bytes by a decoder, which takes numbers
of 32 bits, names that are text, and types that the format knows. -/
structure Legible (m : Module) : Prop where
  sections : ∀ s ∈ m.writtenSections, s.body.length < 2 ^ 32
  types : ∀ t ∈ m.types, t.Legible
  imports : ∀ i ∈ m.imports, i.Legible
  functions : ∀ f ∈ m.functions, f.Legible
  memories : ∀ l ∈ m.memories, l.Legible
  exports : ∀ e ∈ m.exports, e.Legible

variable {m : Module}

/-- The lengths of the sections whose items count what instructions can refer
to. -/
theorem length_items_lt (h : ∀ s ∈ m.writtenSections, s.body.length < 2 ^ 32) :
    (m.imports.flatMap Import.bytes).length < 2 ^ 32 ∧
      (m.globals.flatMap Global.bytes).length < 2 ^ 32 ∧
      (m.exports.flatMap Export.bytes).length < 2 ^ 32 ∧
      (m.functions.flatMap Function.bytes).length < 2 ^ 32 := by
  have himports : ⟨.imports, m.imports.length, m.imports.flatMap (·.bytes)⟩ ∈ m.allSections := by
    simp [allSections]
  have hglobals : ⟨.global, m.globals.length, m.globals.flatMap (·.bytes)⟩ ∈ m.allSections := by
    simp [allSections]
  have hexports : ⟨.exports, m.exports.length, m.exports.flatMap (·.bytes)⟩ ∈ m.allSections := by
    simp [allSections]
  have hcode : ⟨.code, m.functions.length, m.functions.flatMap (·.bytes)⟩ ∈ m.allSections := by
    simp [allSections]
  exact ⟨length_flatMap_lt himports h, length_flatMap_lt hglobals h, length_flatMap_lt hexports h,
    length_flatMap_lt hcode h⟩

theorem length_encode_lt (h : ∀ s ∈ m.writtenSections, s.body.length < 2 ^ 32) :
    m.encode.length < 2 ^ 63 := by
  have hcount : m.writtenSections.length ≤ 7 := length_filter_le _ m.allSections
  have hsection : ∀ n ∈ m.writtenSections.map (fun s => s.bytes.length), n ≤ 2 ^ 33 := by
    refine forall_mem_map.mpr fun s hs => ?_
    have hbody := h s hs
    have hunsigned : (unsigned s.body.length).length ≤ 5 := length_unsigned_le (by omega)
    rw [Section.length_bytes]
    omega
  have hsum := sum_le_card_nsmul _ _ hsection
  rw [encode_eq, length_append, length_flatMap]
  rw [length_map, smul_eq_mul] at hsum
  have hheader : header.length = 8 := rfl
  omega

end Module

namespace ModuleParts

theorem addSections_succ (fuel : Nat) (parts : ModuleParts) (c : UInt8) (rest : Bytes) :
    addSections (fuel + 1) parts (c :: rest) =
      (Decoder.u32 >>= fun count => Decoder.take count).run rest >>= fun r =>
        parts.addSection ⟨c⟩ r.1 >>= fun parts => addSections fuel parts r.2 := rfl

variable {α : Type} {id : SectionId} {items : List α} {bytes : α → Bytes}
  {parts parts' : ModuleParts}

theorem addSections_section {body rest : Bytes} {fuel : Nat} (hbody : body.length < 2 ^ 32)
    (hadd : parts.addSection id body = some parts') :
    addSections (fuel + 1) parts (sectionBytes id body ++ rest) = addSections fuel parts' rest := by
  have hread := Decoder.reads_sized hbody rest
  rw [sectionBytes, cons_append, cons_append, addSections_succ, hread]
  change (parts.addSection id body >>= fun parts' => addSections fuel parts' rest) = _
  rw [hadd]
  rfl

/-- That bytes in front of others lead from some parts of a module to more of
them. -/
def Takes (parts : ModuleParts) (bytes : Bytes) (parts' : ModuleParts) : Prop :=
  ∀ (rest : Bytes) (fuel : Nat), (bytes ++ rest).length ≤ fuel →
    ∃ fuel', rest.length ≤ fuel' ∧
      addSections fuel parts (bytes ++ rest) = addSections fuel' parts' rest

theorem Takes.trans {parts'' : ModuleParts} {front back : Bytes} (h : Takes parts front parts')
    (h' : Takes parts' back parts'') : Takes parts (front ++ back) parts'' := by
  intro rest fuel hfuel
  rw [append_assoc] at hfuel ⊢
  obtain ⟨fuel₁, hfuel₁, heq₁⟩ := h _ fuel hfuel
  obtain ⟨fuel₂, hfuel₂, heq₂⟩ := h' rest fuel₁ hfuel₁
  exact ⟨fuel₂, hfuel₂, heq₁.trans heq₂⟩

/-- A section of items is read, or left out as it was written. -/
theorem takes_items
    (hsize : items ≠ [] → (vectorBytes items.length (items.flatMap bytes)).length < 2 ^ 32)
    (hadd : parts.addSection id (vectorBytes items.length (items.flatMap bytes)) = some parts')
    (hempty : items = [] → parts' = parts) : Takes parts (itemsSection id items bytes) parts' := by
  intro rest fuel hfuel
  cases items with
  | nil => exact ⟨fuel, hfuel, by rw [hempty rfl]; rfl⟩
  | cons x items =>
    obtain ⟨fuel, rfl⟩ : ∃ k, fuel = k + 1 := by
      refine Nat.exists_eq_succ_of_ne_zero ?_
      rintro rfl
      simp [itemsSection, sectionBytes] at hfuel
    refine ⟨fuel, ?_, addSections_section (hsize (by simp)) hadd⟩
    simp only [itemsSection, isEmpty_cons, Bool.false_eq_true, if_false, sectionBytes, cons_append,
      length_cons, length_append] at hfuel
    omega

/-- A section is never read if its length does not have 32 bits, or if its
contents are refused. -/
theorem addSections_eq_none {ss : List Section}
    (h : ∃ s ∈ ss, 2 ^ 32 ≤ s.body.length ∨
      ∀ parts : ModuleParts, parts.addSection s.id s.body = none) (fuel : Nat)
    (parts : ModuleParts) : addSections fuel parts (ss.flatMap Section.bytes) = none := by
  induction ss generalizing fuel parts with
  | nil => simp at h
  | cons s ss ih =>
    rw [flatMap_cons, Section.bytes, sectionBytes, cons_append, cons_append]
    cases fuel with
    | zero => rfl
    | succ fuel =>
      rw [addSections_succ, StateT.run_bind, append_assoc, Decoder.u32_append]
      by_cases hbig : 2 ^ 32 ≤ s.body.length
      · rw [if_neg (by omega)]
        rfl
      · rw [if_pos (by omega)]
        change ((Decoder.take s.body.length).run (s.body ++ ss.flatMap Section.bytes) >>= _) = _
        rw [Decoder.reads_take s.body]
        change (parts.addSection _ s.body >>= fun parts => addSections fuel parts _) = none
        cases hadd : parts.addSection s.id s.body with
        | none => rfl
        | some parts' =>
          rw [exists_mem_cons_iff] at h
          refine ih (h.resolve_left ?_) fuel parts'
          rintro (hlength | hrefused)
          · exact hbig hlength
          · simp [hrefused parts] at hadd

end ModuleParts

namespace Module.Legible

open ModuleParts

variable {m : Module} (h : m.Legible)

include h

section Items

variable {α β : Type} {id : SectionId} {items : List α} {bytes : α → Bytes} {view : α → β}

/-- The items of a section of 32 bits: each has such a length, and so has their
list. -/
theorem sizes (hmem : ⟨id, items.length, items.flatMap bytes⟩ ∈ m.allSections) :
    (∀ x ∈ items, (bytes x).length < 2 ^ 32) ∧ items.length < 2 ^ 32 ∧
      (items ≠ [] → (vectorBytes items.length (items.flatMap bytes)).length < 2 ^ 32) := by
  by_cases hitems : items = []
  · simp [hitems]
  · have hwritten := mem_writtenSections_of_ne_nil hmem hitems
    have hsize := h.sections _ hwritten
    have hcount : items.length ≤ (items.flatMap bytes).length :=
      (m.proper_writtenSections _ hwritten).count
    have hitems := length_flatMap_lt hmem h.sections
    refine ⟨fun x hx => ?_, Nat.lt_of_le_of_lt hcount hitems, fun _ => hsize⟩
    exact Nat.lt_of_le_of_lt (length_le_flatMap_of_mem hx bytes) hitems

/-- A section whose items are read becomes part of the module; without items,
there is nothing to add. -/
theorem takes_section {parts : ModuleParts} {item : Decoder β} {views : List β}
    (add : List β → ModuleParts) (hmem : ⟨id, items.length, items.flatMap bytes⟩ ∈ m.allSections)
    (hread : ∀ x ∈ items, (bytes x).length < 2 ^ 32 → item.Reads (bytes x) (view x))
    (hviews : items.map view = views)
    (hadd : ∀ contents, parts.addSection id contents = (item.vector.whole contents).bind fun xs =>
      some (add xs))
    (hempty : add [] = parts) : Takes parts (itemsSection id items bytes) (add views) := by
  obtain ⟨hsizes, hcount, hsize⟩ := h.sizes hmem
  subst hviews
  refine takes_items hsize ?_ fun hnil => by rw [hnil, map_nil, hempty]
  rw [hadd, (Decoder.reads_views (fun x hx => hread x hx (hsizes x hx)) hcount).whole,
    Option.bind_some]

end Items

variable {parts : ModuleParts}

theorem takes_types (hparts : parts.module.types = []) :
    Takes parts (itemsSection .type m.types (·.bytes)) { parts with module.types := m.types } :=
  h.takes_section ({ parts with module.types := · }) (by simp [allSections])
    (fun t ht => Decoder.reads_funcType (h.types t ht)) (map_id' _) (fun _ => rfl)
    (by rw [← hparts])

theorem takes_imports (hparts : parts.module.imports = []) :
    Takes parts (itemsSection .imports m.imports (·.bytes))
      { parts with module.imports := m.imports } :=
  h.takes_section ({ parts with module.imports := · }) (by simp [allSections])
    (fun i hi => Decoder.reads_import (h.imports i hi)) (map_id' _) (fun _ => rfl)
    (by rw [← hparts])

theorem takes_function (hparts : parts.functionTypes = []) :
    Takes parts (itemsSection .function m.functions fun f => unsigned f.type)
      { parts with functionTypes := m.functions.map (·.type) } :=
  h.takes_section ({ parts with functionTypes := · }) (by simp [allSections])
    (fun f hf _ => Decoder.reads_u32 (h.functions f hf).type) rfl (fun _ => rfl) (by rw [← hparts])

theorem takes_memory (hparts : parts.module.memories = []) :
    Takes parts (itemsSection .memory m.memories (·.bytes))
      { parts with module.memories := m.memories } :=
  h.takes_section ({ parts with module.memories := · }) (by simp [allSections])
    (fun l hl _ => Decoder.reads_limits (h.memories l hl)) (map_id' _) (fun _ => rfl)
    (by rw [← hparts])

theorem takes_global (hparts : parts.module.globals = []) :
    Takes parts (itemsSection .global m.globals (·.bytes))
      { parts with module.globals := m.globals } :=
  h.takes_section ({ parts with module.globals := · }) (by simp [allSections])
    (fun g _ _ => Decoder.reads_global g) (map_id' _) (fun _ => rfl) (by rw [← hparts])

theorem takes_exports (hparts : parts.module.exports = []) :
    Takes parts (itemsSection .exports m.exports (·.bytes))
      { parts with module.exports := m.exports } :=
  h.takes_section ({ parts with module.exports := · }) (by simp [allSections])
    (fun e he => Decoder.reads_export (h.exports e he)) (map_id' _) (fun _ => rfl)
    (by rw [← hparts])

theorem takes_code (hparts : parts.bodies = []) :
    Takes parts (itemsSection .code m.functions (·.bytes))
      { parts with bodies := m.functions.map fun f => (f.locals, f.body) } :=
  h.takes_section ({ parts with bodies := · }) (by simp [allSections])
    (fun f hf => Decoder.reads_sizedBody (h.functions f hf)) rfl (fun _ => rfl) (by rw [← hparts])

end Module.Legible

namespace Module

open ModuleParts

variable {m : Module}

/-- The sections of a module, as they are written. -/
def sectionsBytes (m : Module) : Bytes :=
  itemsSection .type m.types (·.bytes) ++ itemsSection .imports m.imports (·.bytes) ++
    itemsSection .function m.functions (fun f => unsigned f.type) ++
    itemsSection .memory m.memories (·.bytes) ++
    itemsSection .global m.globals (·.bytes) ++ itemsSection .exports m.exports (·.bytes) ++
    itemsSection .code m.functions (·.bytes)

theorem encode_eq_header_append (m : Module) : m.encode = header ++ m.sectionsBytes := by
  simp only [encode, sectionsBytes, append_assoc]

theorem decode?_header (body : Bytes) :
    decode? (header ++ body) = addSections (header ++ body).length {} body >>= finish? := rfl

/-- Types and bodies of functions come together again. -/
theorem finish?_eq (m : Module) :
    finish? ⟨{ m with functions := [] }, m.functions.map (·.type),
      m.functions.map fun f => (f.locals, f.body)⟩ = some m := by
  simp [finish?, guard, zipWith_map, zipWith_self]

/-- A module is read from its bytes. -/
theorem decode?_encode (h : m.Legible) : decode? m.encode = some m := by
  have htakes : Takes {} m.sectionsBytes
      ⟨{ m with functions := [] }, m.functions.map (·.type),
        m.functions.map fun f => (f.locals, f.body)⟩ :=
    ((((((h.takes_types rfl).trans (h.takes_imports rfl)).trans (h.takes_function rfl)).trans
      (h.takes_memory rfl)).trans (h.takes_global rfl)).trans (h.takes_exports rfl)).trans
        (h.takes_code rfl)
  obtain ⟨fuel, -, hread⟩ := htakes [] (header ++ m.sectionsBytes).length (by simp)
  rw [append_nil] at hread
  rw [encode_eq_header_append, decode?_header, hread, addSections]
  exact finish?_eq m

/-- A module is not read if one of its sections is not. -/
theorem decode?_encode_eq_none_of_section
    (h : ∃ s ∈ m.writtenSections, 2 ^ 32 ≤ s.body.length ∨
      ∀ parts : ModuleParts, parts.addSection s.id s.body = none) :
    decode? m.encode = none := by
  rw [encode_eq, decode?_header, addSections_eq_none h]
  rfl

/-- A module with a section of more than 32 bits is not read. -/
theorem decode?_encode_eq_none (h : ∃ s ∈ m.writtenSections, 2 ^ 32 ≤ s.body.length) :
    decode? m.encode = none := by
  obtain ⟨s, hs, hlength⟩ := h
  exact decode?_encode_eq_none_of_section ⟨s, hs, .inl hlength⟩

/-- Neither is one with a section of items of which one is refused. -/
theorem decode?_encode_eq_none_of_item {α : Type} {id : SectionId} {items : List α}
    {bytes : α → Bytes} {item : Decoder α} {add : ModuleParts → List α → ModuleParts}
    (hmem : ⟨id, items.length, items.flatMap bytes⟩ ∈ m.allSections)
    (hadd : ∀ parts contents,
      addSection parts id contents = (item.vector.whole contents).bind fun xs =>
        some (add parts xs))
    (hread : ∀ x ∈ items, item.Reads (bytes x) x ∨ item.Refuses (bytes x))
    {x : α} (hx : x ∈ items) (hrefused : item.Refuses (bytes x)) : decode? m.encode = none := by
  have hwritten := mem_writtenSections_of_ne_nil hmem (ne_nil_of_mem hx)
  refine decode?_encode_eq_none_of_section ⟨_, hwritten, .inr fun parts => ?_⟩
  change parts.addSection id (vectorBytes items.length (items.flatMap bytes)) = none
  rw [hadd, (Decoder.refuses_vector hread ⟨x, hx, hrefused⟩).whole, Option.bind_none]

section Names

variable (hsections : ∀ s ∈ m.writtenSections, s.body.length < 2 ^ 32)

include hsections

/-- A module that imports something with a name that is no text is not read. -/
theorem decode?_eq_none_of_imports (hkinds : ∀ i ∈ m.imports, i.kind.Legible) (hi : i ∈ m.imports)
    (h : ¬(isValid i.moduleName = true ∧ isValid i.name = true)) : decode? m.encode = none := by
  have hlength {i : Import} (hi : i ∈ m.imports) : i.bytes.length < 2 ^ 32 :=
    Nat.lt_of_le_of_lt (length_le_flatMap_of_mem hi Import.bytes) (length_items_lt hsections).1
  have hmem : ⟨.imports, m.imports.length, m.imports.flatMap Import.bytes⟩ ∈ m.allSections := by
    simp [allSections]
  refine decode?_encode_eq_none_of_item hmem (fun _ _ => rfl) (fun i hi => ?_) hi
    (Decoder.refuses_import (hlength hi) h)
  by_cases hnames : isValid i.moduleName = true ∧ isValid i.name = true
  · exact .inl (Decoder.reads_import ⟨hnames.1, hnames.2, hkinds i hi⟩ (hlength hi))
  · exact .inr (Decoder.refuses_import (hlength hi) hnames)

/-- Neither is one that exports something with such a name. -/
theorem decode?_eq_none_of_exports (hindices : ∀ e ∈ m.exports, e.index < 2 ^ 32)
    (he : e ∈ m.exports) (h : ¬isValid e.name = true) : decode? m.encode = none := by
  have hlength {e : Export} (he : e ∈ m.exports) : e.bytes.length < 2 ^ 32 :=
    Nat.lt_of_le_of_lt (length_le_flatMap_of_mem he Export.bytes) (length_items_lt hsections).2.2.1
  have hmem : ⟨.exports, m.exports.length, m.exports.flatMap Export.bytes⟩ ∈ m.allSections := by
    simp [allSections]
  refine decode?_encode_eq_none_of_item hmem (fun _ _ => rfl) (fun e he => ?_) he
    (Decoder.refuses_export h)
  by_cases hname : isValid e.name = true
  · exact .inl (Decoder.reads_export ⟨hname, hindices e he⟩ (hlength he))
  · exact .inr (Decoder.refuses_export hname)

end Names

end Module

end Eel.Wasm
