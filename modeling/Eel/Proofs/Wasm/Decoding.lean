import Eel.Proofs.Steps
import Eel.Proofs.Wasm.Tiling

/-!
What was encoded can be looked into.

Numbers, names, exports and sections are read back from their bytes, whatever
follows them. The sections of an encoded module are found one behind the other,
so its exports are found in theirs.
-/

namespace Eel.Wasm

open List

theorem u32_unsigned {n : Nat} (rest : Bytes) (h : n < 2 ^ 32) :
    ByteReader.u32 (unsigned n ++ rest) = .ok (n, rest) := by
  have hn : n % Nat.pow 2 32 = n := Nat.mod_eq_of_lt h
  rw [ByteReader.u32, readUnsigned_unsigned rest (by omega)]
  change Except.ok (n % Nat.pow 2 32, rest) = _
  rw [hn]

variable {es : List Export} {e : Export}

section Item

theorem name_nameBytes {name : Bytes} (rest : Bytes) (h : name.length < 2 ^ 32) :
    ByteReader.name (nameBytes name ++ rest) = .ok (name, rest) := by
  have hlength : ¬(name ++ rest).length < name.length := by simp
  rw [nameBytes, append_assoc, ByteReader.name, bind_eq_ok]
  refine ⟨name.length, name ++ rest, u32_unsigned _ h,
    bind_eq_ok.mpr ⟨name ++ rest, name ++ rest, rfl, ?_⟩⟩
  rw [if_neg hlength]
  change Except.ok ((name ++ rest).take name.length, (name ++ rest).drop name.length) = _
  rw [take_left, drop_left]

/-- That an export can be told from its bytes: readers keep 32 bits of a
number. -/
structure Export.Fits (e : Export) : Prop where
  name : e.name.length < 2 ^ 32
  index : e.index < 2 ^ 32

theorem readExport_bytes (rest : Bytes) (h : e.Fits) :
    readExport (e.bytes ++ rest) = .ok (e, rest) := by
  rw [Export.bytes, append_assoc, cons_append, readExport, bind_eq_ok]
  refine ⟨e.name, _, name_nameBytes _ h.name, bind_eq_ok.mpr ⟨e.kind.byte, _, rfl, ?_⟩⟩
  exact bind_eq_ok.mpr ⟨e.index, rest, u32_unsigned rest h.index, rfl⟩

theorem readExports_bytes (rest : Bytes) (h : ∀ e ∈ es, e.Fits) :
    readExports es.length (es.flatMap (·.bytes) ++ rest) = .ok (es, rest) := by
  induction es with
  | nil => rfl
  | cons e es ih =>
    rw [forall_mem_cons] at h
    rw [flatMap_cons, append_assoc, length_cons, readExports, bind_eq_ok]
    exact ⟨e, _, readExport_bytes _ h.1, bind_eq_ok.mpr ⟨es, rest, ih h.2, rfl⟩⟩

section Exports

variable {bin : Bytes} {infos : List SectionInfo}

theorem exports_of_none (hsections : sections bin = .ok infos)
    (hbody : bodyOf? bin .exports infos = none) : exports bin = .ok [] := by
  refine Except.bind_eq_ok.mpr ⟨infos, hsections, ?_⟩
  rw [hbody]
  rfl

theorem exports_of_some {body rest : Bytes} (hsections : sections bin = .ok infos)
    (hbody : bodyOf? bin .exports infos = some body)
    (hread : (do readExports (← ByteReader.u32) : ByteReader (List Export)).run body =
      .ok (es, rest)) :
    exports bin = .ok es := by
  refine Except.bind_eq_ok.mpr ⟨infos, hsections, ?_⟩
  simp only [hbody, hread]
  rfl

end Exports

end Item

/-- A section of items: how many there are, and their bytes. -/
structure Section where
  id : SectionId
  count : Nat
  contents : Bytes

namespace Section

def body (s : Section) : Bytes := vectorBytes s.count s.contents

def bytes (s : Section) : Bytes := sectionBytes s.id s.body

/-- That a section is one of the format's own, in which every item has a byte at
least. -/
structure Proper (s : Section) : Prop where
  id : s.id ≠ .custom
  count : s.count ≤ s.contents.length

/-- What is known of a section that starts at a position. -/
def info (s : Section) (position : Nat) : SectionInfo :=
  ⟨s.id, position + 1 + (unsigned s.body.length).length, s.body.length, s.count⟩

/-- What is known of sections that stand one behind the other from a position
on. -/
def infos (position : Nat) : List Section → List SectionInfo
  | [] => []
  | s :: rest => s.info position :: infos (position + s.bytes.length) rest

variable {s : Section}

theorem length_bytes : s.bytes.length = 1 + (unsigned s.body.length).length + s.body.length := by
  simp only [bytes, sectionBytes, length_append, length_cons]
  omega

theorem drop_sizeBytes (front rest : Bytes) :
    (front ++ (s.bytes ++ rest)).drop (front.length + 1) =
      unsigned s.body.length ++ (s.body ++ rest) := by
  rw [drop_length_add_append, bytes, sectionBytes]
  simp

/-- A section ends where its body does. -/
theorem offset_add_length (position : Nat) :
    (s.info position).offset + s.body.length = position + s.bytes.length := by
  have hoffset : (s.info position).offset = position + 1 + (unsigned s.body.length).length := rfl
  rw [hoffset, length_bytes]
  omega

theorem drop_offset (front rest : Bytes) :
    (front ++ (s.bytes ++ rest)).drop (s.info front.length).offset = s.body ++ rest := by
  have hoffset :
      (s.info front.length).offset = front.length + 1 + (unsigned s.body.length).length := rfl
  rw [hoffset, ← drop_drop, drop_sizeBytes, drop_left]

theorem take_body (front rest : Bytes) :
    ((front ++ (s.bytes ++ rest)).drop (s.info front.length).offset).take s.body.length =
      s.body := by
  rw [drop_offset, take_left]

/-- The id and the size of a section stand in front of its body. -/
theorem drop_front (front rest : Bytes) : (front ++ (s.bytes ++ rest)).drop front.length =
    s.id.byte :: (unsigned s.body.length ++
      (front ++ (s.bytes ++ rest)).drop (s.info front.length).offset) := by
  rw [drop_offset, drop_left, bytes, sectionBytes, append_assoc]
  rfl

/-- A section stands where it was written. -/
theorem standsAt_bytes (hs : s.Proper) (front rest : Bytes)
    (hsize : (front ++ (s.bytes ++ rest)).length < 2 ^ 63) :
    StandsAt (front ++ (s.bytes ++ rest)) front.length (s.info front.length) s.body.length := by
  have hend := s.offset_add_length front.length
  have hcontents : s.body.length = (unsigned s.count).length + s.contents.length := length_append
  have hbody : s.body ≠ [] := append_ne_nil_of_left_ne_nil (unsigned_ne_nil s.count) _
  have hcount := hs.count
  simp only [length_append] at hsize
  have hnumber : (unsigned s.body.length).length ≤ 10 := length_unsigned_le (by omega)
  have hitems : readUnsigned s.body = .ok (s.count, s.contents) :=
    readUnsigned_unsigned _ (by omega)
  refine ⟨⟨_, drop_front front rest, rfl, terminated_unsigned _, hnumber,
    magnitude_unsigned _, by omega⟩,
    rfl, ?_, ?_⟩
  · simp only [length_append]
    omega
  · have hcounted : ¬((s.info front.length).id = .custom ∨ s.body = []) := not_or.mpr ⟨hs.id, hbody⟩
    rw [take_body, Counts, if_neg hcounted]
    exact ⟨s.count, s.contents, hitems, (wrapped_of_lt (by omega)).symm⟩

/-- Sections that are written one behind the other adjoin. -/
theorem adjoin_bytes (ss : List Section) (hs : ∀ s ∈ ss, s.Proper) (front : Bytes)
    (hsize : (front ++ ss.flatMap bytes).length < 2 ^ 63) :
    Adjoin (front ++ ss.flatMap bytes) front.length (infos front.length ss)
      (front ++ ss.flatMap bytes).length := by
  induction ss generalizing front with
  | nil =>
    rw [flatMap_nil, append_nil]
    exact .nil _
  | cons s ss ih =>
    rw [forall_mem_cons] at hs
    rw [flatMap_cons] at hsize ⊢
    have hrest := ih hs.2 (front ++ s.bytes) (by rwa [append_assoc])
    rw [append_assoc, length_append] at hrest
    refine .cons (standsAt_bytes hs.1 front _ hsize) ?_
    rw [offset_add_length]
    exact hrest

/-- The body of the first section with an id is the one that was written. -/
theorem bodyOf?_infos (ss : List Section) (id : SectionId) (front : Bytes) :
    bodyOf? (front ++ ss.flatMap bytes) id (infos front.length ss) =
      (ss.find? (·.id == id)).map body := by
  induction ss generalizing front with
  | nil => rfl
  | cons s ss ih =>
    have hrest := ih (front ++ s.bytes)
    rw [append_assoc, length_append] at hrest
    rw [bodyOf?] at hrest ⊢
    rw [flatMap_cons, infos, List.find?_cons, List.find?_cons]
    cases hid : s.id == id with
    | true =>
      have hinfo : ((s.info front.length).id == id) = true := hid
      simp only [hinfo, Option.map_some]
      exact congrArg some (s.take_body front _)
    | false =>
      have hinfo : ((s.info front.length).id == id) = false := hid
      simp only [hinfo]
      exact hrest

end Section

namespace Module

variable {α : Type} {m : Module} {bytes : α → Bytes} {s : Section} {items : List α}

/-- The sections of a module, those without items included. -/
def allSections (m : Module) : List Section := [
  ⟨.type, m.types.length, m.types.flatMap (·.bytes)⟩,
  ⟨.imports, m.imports.length, m.imports.flatMap (·.bytes)⟩,
  ⟨.function, m.functions.length, m.functions.flatMap fun f => unsigned f.type⟩,
  ⟨.memory, m.memories.length, m.memories.flatMap (·.bytes)⟩,
  ⟨.global, m.globals.length, m.globals.flatMap (·.bytes)⟩,
  ⟨.exports, m.exports.length, m.exports.flatMap (·.bytes)⟩,
  ⟨.code, m.functions.length, m.functions.flatMap (·.bytes)⟩]

/-- The sections that are written. -/
def writtenSections (m : Module) : List Section := m.allSections.filter (0 < ·.count)

theorem itemsSection_eq (id : SectionId) (items : List α) (bytes : α → Bytes) :
    itemsSection id items bytes =
      ([⟨id, items.length, items.flatMap bytes⟩].filter (0 < Section.count ·)).flatMap
        Section.bytes := by
  cases items with
  | nil => rfl
  | cons item items => simp [itemsSection, Section.bytes, Section.body]

theorem encode_eq (m : Module) : m.encode = header ++ m.writtenSections.flatMap Section.bytes := by
  simp only [encode, itemsSection_eq, append_assoc, ← flatMap_append, ← filter_append]
  rfl

theorem mul_length_le_flatMap {k : Nat} (h : ∀ x, k ≤ (bytes x).length) (items : List α) :
    k * items.length ≤ (items.flatMap bytes).length := by
  induction items with
  | nil => simp
  | cons x rest ih =>
    have hx := h x
    simp only [length_cons, flatMap_cons, length_append, Nat.mul_add_one]
    omega

theorem length_le_flatMap (h : ∀ x, bytes x ≠ []) (items : List α) :
    items.length ≤ (items.flatMap bytes).length := by
  simpa using mul_length_le_flatMap (k := 1) (fun x => length_pos_iff.mpr (h x)) items

theorem length_le_flatMap_of_mem {x : α} (h : x ∈ items) (bytes : α → Bytes) :
    (bytes x).length ≤ (items.flatMap bytes).length := by
  obtain ⟨front, rest, rfl⟩ := append_of_mem h
  simp only [flatMap_append, flatMap_cons, length_append]
  omega

theorem proper_of_items {id : SectionId} (hid : id ≠ .custom) (h : ∀ x, bytes x ≠ [])
    (items : List α) : Section.Proper ⟨id, items.length, items.flatMap bytes⟩ :=
  ⟨hid, length_le_flatMap h items⟩

theorem proper_writtenSections (m : Module) : ∀ s ∈ m.writtenSections, s.Proper := by
  have hlimits (l : Limits) : l.bytes ≠ [] := by
    cases hmax : l.max <;> simp [Limits.bytes, hmax]
  intro s hs
  have hs : s ∈ m.allSections := mem_of_mem_filter hs
  simp only [allSections, mem_cons, not_mem_nil, or_false] at hs
  rcases hs with rfl | rfl | rfl | rfl | rfl | rfl | rfl
  · exact proper_of_items (by decide) (fun t => by simp [FuncType.bytes]) m.types
  · exact proper_of_items (by decide)
      (fun i => by simp [Import.bytes, nameBytes, unsigned_ne_nil]) m.imports
  · exact proper_of_items (show SectionId.function ≠ .custom by decide)
      (fun f => unsigned_ne_nil f.type) m.functions
  · exact proper_of_items (by decide) hlimits m.memories
  · exact proper_of_items (by decide) (fun g => by simp [Global.bytes]) m.globals
  · exact proper_of_items (by decide) (fun e => by simp [Export.bytes]) m.exports
  · exact proper_of_items (by decide) (fun f => by simp [Function.bytes, unsigned_ne_nil])
      m.functions

theorem tiled_encode (hsize : m.encode.length < 2 ^ 63) :
    Tiled m.encode (Section.infos header.length m.writtenSections) := by
  rw [encode_eq] at hsize ⊢
  exact ⟨rfl, Section.adjoin_bytes _ m.proper_writtenSections header hsize⟩

theorem sections_encode (hsize : m.encode.length < 2 ^ 63) :
    sections m.encode = .ok (Section.infos header.length m.writtenSections) :=
  ((tiled_encode hsize).sections_eq hsize).1

/-- Where no two sections share an id, a section is the first one with its own
id among those that are kept. -/
theorem find?_filter {ss : List Section} (hnodup : (ss.map (·.id)).Nodup) (hs : s ∈ ss)
    (keep : Section → Bool) :
    (ss.filter keep).find? (·.id == s.id) = if keep s then some s else none := by
  induction ss with
  | nil => cases hs
  | cons t ss ih =>
    obtain ⟨hnew, hdistinct⟩ : t.id ∉ ss.map (·.id) ∧ (ss.map (·.id)).Nodup := nodup_cons.mp hnodup
    rcases mem_cons.mp hs with rfl | hs
    · have hnone : (ss.filter keep).find? (·.id == s.id) = none := by
        rw [find?_eq_none]
        intro u hu hid
        exact hnew (mem_map.mpr ⟨u, mem_of_mem_filter hu, by simpa using hid⟩)
      rw [filter_cons]
      split
      · rw [find?_cons_of_pos (by simp)]
      · exact hnone
    · have hne : ¬(t.id == s.id) = true := by
        intro hid
        exact hnew (mem_map.mpr ⟨s, hs, (by simpa using hid : t.id = s.id).symm⟩)
      rw [filter_cons]
      split
      · rw [find?_cons_of_neg (p := fun u : Section => u.id == s.id) hne, ih hdistinct hs]
      · exact ih hdistinct hs

theorem nodup_ids (m : Module) : (m.allSections.map (·.id)).Nodup := by
  simp only [allSections, map_cons, map_nil]
  decide

/-- The body of a section is found in the bytes of the module if the section has
items. -/
theorem bodyOf?_encode (hs : s ∈ m.allSections) :
    bodyOf? m.encode s.id (Section.infos header.length m.writtenSections) = if 0 <
      s.count then some s.body
      else none := by
  have hfind : m.writtenSections.find? (·.id == s.id) = if 0 < s.count then some s else none := by
    simpa [writtenSections] using find?_filter m.nodup_ids hs (0 < ·.count)
  rw [encode_eq, Section.bodyOf?_infos _ _ header, hfind]
  split <;> rfl

theorem length_body_le (hs : s ∈ m.writtenSections) : s.body.length ≤ m.encode.length := by
  calc s.body.length
    _ ≤ s.bytes.length := by rw [Section.length_bytes]; omega
    _ ≤ (m.writtenSections.flatMap Section.bytes).length :=
        length_le_flatMap_of_mem hs Section.bytes
    _ ≤ m.encode.length := by simp [encode_eq]

section Items

variable {id : SectionId} (hmem : ⟨id, items.length, items.flatMap bytes⟩ ∈ m.allSections)

include hmem

theorem mem_writtenSections_of_ne_nil (hitems : items ≠ []) :
    ⟨id, items.length, items.flatMap bytes⟩ ∈ m.writtenSections :=
  mem_filter.mpr ⟨hmem, by simpa [length_pos_iff] using hitems⟩

variable (id) in
/-- The items of every section are part of the bytes. -/
theorem length_flatMap_le : (items.flatMap bytes).length ≤ m.encode.length := by
  by_cases hitems : items = []
  · simp [hitems]
  · have hbody := length_body_le (mem_writtenSections_of_ne_nil hmem hitems)
    simp only [Section.body, vectorBytes, length_append] at hbody
    omega

/-- They have a length of 32 bits, if all sections have. -/
theorem length_flatMap_lt (h : ∀ s ∈ m.writtenSections, s.body.length < 2 ^ 32) :
    (items.flatMap bytes).length < 2 ^ 32 := by
  by_cases hitems : items = []
  · rw [hitems]
    exact Nat.two_pow_pos 32
  · have hsize := h _ (mem_writtenSections_of_ne_nil hmem hitems)
    simp only [Section.body, vectorBytes, length_append] at hsize
    omega

end Items

theorem length_exports_le (m : Module) : (m.exports.flatMap (·.bytes)).length ≤ m.encode.length :=
  length_flatMap_le .exports (by simp [allSections])

theorem two_mul_length_exports_le (m : Module) : 2 * m.exports.length ≤ m.encode.length := by
  have htwo (e : Export) : 2 ≤ e.bytes.length := by
    have hindex := length_pos_iff.mpr (unsigned_ne_nil e.index)
    rw [Export.bytes, length_append, length_cons]
    omega
  exact (mul_length_le_flatMap htwo m.exports).trans m.length_exports_le

theorem length_name_lt (h : e ∈ m.exports) : e.name.length < m.encode.length := by
  have hexport := length_le_flatMap_of_mem h (·.bytes)
  have hexports := m.length_exports_le
  rw [Export.bytes, nameBytes, length_append, length_append, length_cons] at hexport
  omega

/-- Exports that can be told from their bytes are found in those of the
module. -/
theorem exports_encode_of_fits (hcount : m.exports.length < 2 ^ 32)
    (hfits : ∀ e ∈ m.exports, e.Fits) (hsize : m.encode.length < 2 ^ 63) :
    Wasm.exports m.encode = .ok m.exports := by
  have hsections := sections_encode hsize
  have hbody :=
    bodyOf?_encode (m := m) (s := ⟨.exports, m.exports.length, m.exports.flatMap (·.bytes)⟩)
    (by simp [allSections])
  split at hbody
  · have hread := readExports_bytes [] hfits
    rw [append_nil] at hread
    exact exports_of_some hsections hbody
      (bind_eq_ok.mpr ⟨m.exports.length, _, u32_unsigned _ hcount, hread⟩)
  · rename_i hnone
    have hexports : m.exports = [] := by simpa using hnone
    rw [exports_of_none hsections hbody, hexports]

/-- The exports of a module are found in its bytes. -/
theorem exports_encode (hindex : ∀ e ∈ m.exports, e.index < 2 ^ 32)
    (hsize : m.encode.length < 2 ^ 32) : Wasm.exports m.encode = .ok m.exports := by
  have hcount : m.exports.length < 2 ^ 32 := by
    have := m.two_mul_length_exports_le
    omega
  have hfits (e : Export) (he : e ∈ m.exports) : e.Fits :=
    ⟨(length_name_lt he).trans hsize, hindex e he⟩
  exact exports_encode_of_fits hcount hfits (hsize.trans (by norm_num))

end Module

end Eel.Wasm
