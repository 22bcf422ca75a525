import Eel.Proofs.Wasm.Building
import Eel.Proofs.Wasm.Delimiting

/-!
What the index of a signature stands for.

A module keeps one entry for all signatures that compare equal, and the index
that is given for a signature is that of its entry, whatever is added later.
Signatures are compared by the bytes of the parameters and of the results, with
a byte between them that is also the byte of a double. So the place where the
parameters end can be mistaken, and a signature gets the index of another one
that was asked for before. Apart from that, each index stands for the signature
that it was given for, and different signatures have different indices.
-/

namespace Eel.Wasm

open List

namespace FuncType

/-- That the place where the parameters of a signature end can be mistaken for a
double that is a parameter of another one. -/
def Clashes (t u : FuncType) : Prop :=
  ∃ middle, u.params = t.params ++ .f64 :: middle ∧ t.results = middle ++ .f64 :: u.results

/-- That one of two signatures is mistaken for the other. -/
def Mistaken (t u : FuncType) : Prop := t.Clashes u ∨ u.Clashes t

theorem Mistaken.ne {t u : FuncType} (h : t.Mistaken u) : t ≠ u := by
  rintro rfl
  rcases h with ⟨middle, hparams, -⟩ | ⟨middle, hparams, -⟩
  · simp at hparams
  · simp at hparams

theorem key_eq (t : FuncType) : t.key = (t.params ++ .f64 :: t.results).map ValType.byte := by
  rw [map_append, map_cons]
  rfl

/-- Signatures compare equal if they are equal or mistaken, and else not. -/
theorem key_eq_iff {t u : FuncType} : t.key = u.key ↔ t = u ∨ t.Mistaken u := by
  have hbyte : Function.Injective ValType.byte := by
    rintro ⟨x⟩ ⟨y⟩ rfl
    rfl
  rw [key_eq, key_eq, hbyte.list_map.eq_iff, append_eq_append_iff]
  constructor
  · -- One list of parameters starts with the other. What is between their ends starts with a
    -- double, or is empty.
    rintro (⟨between, hparams, hresults⟩ | ⟨between, hparams, hresults⟩)
    · cases between with
      | nil =>
        exact .inl (congrArg₂ FuncType.mk (by simpa using hparams.symm) (by simpa using hresults))
      | cons type middle =>
        obtain ⟨rfl, htail⟩ := List.cons.inj hresults
        exact .inr (.inl ⟨middle, hparams, htail⟩)
    · cases between with
      | nil =>
        exact .inl (congrArg₂ FuncType.mk (by simpa using hparams) (by simpa using hresults.symm))
      | cons type middle =>
        obtain ⟨rfl, htail⟩ := List.cons.inj hresults
        exact .inr (.inr ⟨middle, hparams, htail⟩)
  · rintro (rfl | ⟨middle, hparams, hresults⟩ | ⟨middle, hparams, hresults⟩)
    · exact .inl ⟨[], by simp⟩
    · exact .inl ⟨.f64 :: middle, hparams, by rw [hresults, cons_append]⟩
    · exact .inr ⟨.f64 :: middle, hparams, by rw [hresults, cons_append]⟩

end FuncType

/-- That a signature stands at a place of the type section, which is the first
one of some bytes. -/
def TypeEntry (bin : Bytes) (index : Nat) (t : FuncType) : Prop :=
  ∃ (types : List FuncType) (rest : Bytes), types[index]? = some t ∧
    bin = header ++
      (sectionBytes .type (vectorBytes types.length (types.flatMap FuncType.bytes)) ++ rest)

namespace Module

variable {m : Module} {t u t' : FuncType} {a : Addition} {history : List Addition}
  {position index : Nat}
  {s : Section}

section Entry

theorem mem_allSections_type (h : s ∈ m.allSections) (hid : s.id = .type) :
    s = ⟨.type, m.types.length, m.types.flatMap FuncType.bytes⟩ := by
  simp only [allSections, mem_cons, not_mem_nil, or_false] at h
  rcases h with rfl | rfl | rfl | rfl | rfl | rfl | rfl
  · rfl
  all_goals cases hid

/-- If sections start with one, that is the first of them. -/
theorem mem_of_flatMap_bytes {ss : List Section} {rest : Bytes}
    (h : ss.flatMap Section.bytes = s.bytes ++ rest) : s ∈ ss := by
  cases ss with
  | nil => simp [Section.bytes, sectionBytes] at h
  | cons first ss =>
    obtain ⟨rfl, -⟩ : first = s ∧ _ := delimits_section h
    exact mem_cons_self

/-- The signatures that stand in the type section are those of the module. -/
theorem typeEntry_encode_iff : TypeEntry m.encode index t ↔ m.types[index]? = some t := by
  constructor
  · rintro ⟨types, rest, hget, hencode⟩
    rw [encode_eq] at hencode
    have hmem :
        (⟨.type, types.length, types.flatMap FuncType.bytes⟩ : Section) ∈ m.writtenSections :=
      mem_of_flatMap_bytes (append_cancel_left hencode)
    obtain ⟨hlength, hcontents⟩ : types.length = m.types.length ∧ _ :=
      (Section.mk.inj (mem_allSections_type (mem_of_mem_filter hmem) rfl)).2
    obtain ⟨htypes, -⟩ := delimits_funcType.flatMap hlength (congrArg (· ++ []) hcontents)
    rw [map_id, map_id] at htypes
    rw [← htypes, hget]
  · intro hget
    have hsome : m.types.isEmpty = false := by
      cases htypes : m.types with
      | nil => simp [htypes] at hget
      | cons first types => rfl
    rw [TypeEntry, encode, itemsSection, hsome, if_neg Bool.false_ne_true]
    simp only [append_assoc]
    exact ⟨m.types, _, hget, rfl⟩

end Entry

section History

/-- The signature that an addition asks for. An import that is refused asks for
none. -/
def request? (m : Module) : Addition → Option FuncType
  | .signature t => some t
  | .importFunc _ _ t => if m.functions.isEmpty then some t else none
  | _ => none

/-- That a history asks for a signature at a position, and the index that is
given for it. -/
structure Asked (history : List Addition) (position : Nat) (t : FuncType) (index : Nat) : Prop where
  request : ∃ a, history[position]? = some a ∧
    (ofAdditions (history.take position)).request? a = some t
  given : ((ofAdditions (history.take position)).typeIndex t).1 = index

theorem Asked.lt_length (h : Asked history position t index) : position < history.length := by
  obtain ⟨a, hget, -⟩ := h.request
  exact (List.getElem?_eq_some_iff.mp hget).1

/-- What is asked for does not depend on what comes later. -/
theorem asked_take_iff {moment : Nat} :
    Asked (history.take moment) position t index ↔ position < moment ∧
    Asked history position t index := by
  constructor
  · intro h
    have hlt := h.lt_length
    rw [length_take] at hlt
    obtain ⟨⟨a, hget, hrequest⟩, hgiven⟩ := h
    rw [take_take, min_eq_left (by omega)] at hrequest hgiven
    rw [getElem?_take_of_lt (by omega)] at hget
    exact ⟨by omega, ⟨a, hget, hrequest⟩, hgiven⟩
  · rintro ⟨hlt, ⟨a, hget, hrequest⟩, hgiven⟩
    have htake : (history.take moment).take position = history.take position := by
      rw [take_take, min_eq_left (by omega)]
    exact ⟨⟨a, by rw [getElem?_take_of_lt hlt, hget], by rw [htake, hrequest]⟩, by rw [htake,
      hgiven]⟩

theorem asked_concat_iff :
    Asked (history ++ [a]) position t index ↔ Asked history position t index ∨
    position = history.length ∧ (ofAdditions history).request? a = some t ∧
      ((ofAdditions history).typeIndex t).1 = index := by
  have hearlier :
      Asked history position t index ↔ position < history.length ∧
        Asked (history ++ [a]) position t index := by
    rw [← asked_take_iff, take_left]
  rw [hearlier]
  constructor
  · intro h
    have hlt := h.lt_length
    rw [length_append, length_singleton] at hlt
    rcases Nat.lt_or_ge position history.length with hlt' | hge
    · exact .inl ⟨hlt', h⟩
    · obtain rfl : position = history.length := by omega
      obtain ⟨⟨b, hget, hrequest⟩, hgiven⟩ := h
      rw [take_left] at hrequest hgiven
      obtain rfl : a = b := by simpa using hget
      exact .inr ⟨rfl, hrequest, hgiven⟩
  · rintro (⟨-, h⟩ | ⟨rfl, hrequest, hgiven⟩)
    · exact h
    · exact ⟨⟨a, by simp, by rw [take_left, hrequest]⟩, by rw [take_left, hgiven]⟩

theorem ofAdditions_concat (history : List Addition) (a : Addition) :
    ofAdditions (history ++ [a]) = (ofAdditions history).add a := by
  rw [ofAdditions, foldl_append]
  rfl

/-- A signature that compares equal to one of the module's gets the index of
that one. Any other one is added. -/
theorem typeIndex_cases (m : Module) (t : FuncType) :
    (∃ u, m.types[(m.typeIndex t).1]? = some u ∧ u.key = t.key ∧ (m.typeIndex t).2 = m) ∨
      (∀ u ∈ m.types, u.key ≠ t.key) ∧
      m.typeIndex t = (m.types.length, { m with types := m.types ++ [t] }) := by
  unfold typeIndex
  cases hfind : m.types.findIdx? (·.key == t.key) with
  | none =>
    refine .inr ⟨fun u hmem hkey => ?_, rfl⟩
    simpa [hkey] using findIdx?_eq_none_iff.mp hfind u hmem
  | some i =>
    obtain ⟨hlt, hkey, -⟩ := findIdx?_eq_some_iff_getElem.mp hfind
    exact .inl ⟨m.types[i], getElem?_eq_getElem hlt, beq_iff_eq.mp hkey, rfl⟩

/-- What an addition does to the signatures is what asking for one does. -/
theorem types_add (m : Module) (a : Addition) :
    (m.add a).types = ((m.request? a).elim m fun t => (m.typeIndex t).2).types := by
  cases a with
  | importFunc moduleName name t =>
    unfold add perform importFunc request?
    cases m.functions.isEmpty <;> rfl
  | importGlobal moduleName name t =>
    unfold add perform importGlobal request?
    cases m.globals.isEmpty <;> rfl
  | signature t => rfl
  | function type locals body => rfl
  | global g => rfl
  | memory min max => rfl
  | exported name kind index => rfl

/-- What is known of some signatures from what was asked for, at which position
and with which index: no two compare equal, each index that was given is that of
one that compares equal, and each of them was asked for before all others that
compare equal to it. -/
structure Records (types : List FuncType) (asked : Nat → FuncType → Nat → Prop) : Prop where
  distinct : types.Pairwise (·.key ≠ ·.key)
  listed : ∀ {position t index}, asked position t index → ∃ u, types[index]? = some u ∧
    u.key = t.key
  first : ∀ {index u}, types[index]? = some u → ∃ position, asked position u index ∧
    ∀ {position' t index'}, asked position' t index' → t.key = u.key → position ≤ position'

section Step

variable {types : List FuncType} {asked : Nat → FuncType → Nat → Prop} {now : Nat}
  (h : Records types asked)
  (hnow : ∀ {position u index}, asked position u index → position < now)

include h hnow

/-- To ask for a signature that compares equal to one that is there. -/
theorem Records.found (hget : types[index]? = some u) (hkey : u.key = t.key) :
    Records types fun position v index' => asked position v index' ∨ position = now ∧ v = t ∧
    index = index' := by
  refine ⟨h.distinct, ?_, fun hget' => ?_⟩
  · rintro position v index' (hask | ⟨-, rfl, rfl⟩)
    · exact h.listed hask
    · exact ⟨u, hget, hkey⟩
  · obtain ⟨position, hask, hfirst⟩ := h.first hget'
    refine ⟨position, .inl hask, ?_⟩
    rintro position' v index' (hask' | ⟨rfl, -, -⟩) hkey'
    · exact hfirst hask' hkey'
    · exact (hnow hask).le

/-- To ask for a signature that compares equal to none. -/
theorem Records.added (hnone : ∀ u ∈ types, u.key ≠ t.key) :
    Records (types ++ [t]) fun position v index =>
      asked position v index ∨ position = now ∧ v = t ∧ types.length = index := by
  refine ⟨?_, ?_, fun {index u} hget => ?_⟩
  · rw [pairwise_append]
    exact ⟨h.distinct, pairwise_singleton _ _, fun u hu v hv => mem_singleton.mp hv ▸ hnone u hu⟩
  · rintro position v index (hask | ⟨-, rfl, rfl⟩)
    · obtain ⟨u, hget, hkey⟩ := h.listed hask
      exact ⟨u, getElem?_append_left (List.getElem?_eq_some_iff.mp hget).1 ▸ hget, hkey⟩
    · exact ⟨v, getElem?_concat_length, rfl⟩
  · rcases Nat.lt_or_ge index types.length with hlt | hge
    · rw [getElem?_append_left hlt] at hget
      obtain ⟨position, hask, hfirst⟩ := h.first hget
      refine ⟨position, .inl hask, ?_⟩
      rintro position' v index' (hask' | ⟨rfl, -, -⟩) hkey'
      · exact hfirst hask' hkey'
      · exact (hnow hask).le
    · rw [getElem?_append_right hge] at hget
      obtain ⟨hindex, hlast⟩ := List.getElem?_eq_some_iff.mp hget
      rw [length_singleton] at hindex
      rw [getElem_singleton] at hlast
      subst hlast
      refine ⟨now, .inr ⟨rfl, rfl, by omega⟩, ?_⟩
      rintro position' v index' (hask' | ⟨rfl, -, -⟩) hkey'
      · -- One that compares equal would have been listed, and there is none.
        obtain ⟨u, hget', hkey⟩ := h.listed hask'
        exact absurd (hkey.trans hkey') (hnone u (mem_of_getElem? hget'))
      · exact le_rfl

end Step

theorem records_concat (h : Records (ofAdditions history).types (Asked history)) (a : Addition) :
    Records (ofAdditions (history ++ [a])).types (Asked (history ++ [a])) := by
  have hasked : Asked (history ++ [a]) = fun position t index => Asked history position t index ∨
      position = history.length ∧ (ofAdditions history).request? a = some t ∧
        ((ofAdditions history).typeIndex t).1 = index := by
    funext position t index
    exact propext asked_concat_iff
  rw [hasked, ofAdditions_concat, types_add]
  cases (ofAdditions history).request? a with
  | none => simpa using h
  | some t =>
    have hsame {position : Nat} {u : FuncType} {index : Nat} :
        (position = history.length ∧ some t = some u ∧
          ((ofAdditions history).typeIndex u).1 = index) ↔
          position = history.length ∧ u = t ∧ ((ofAdditions history).typeIndex t).1 = index := by
      constructor
      · rintro ⟨hposition, ⟨⟩, hindex⟩
        exact ⟨hposition, rfl, hindex⟩
      · rintro ⟨hposition, rfl, hindex⟩
        exact ⟨hposition, rfl, hindex⟩
    simp only [hsame, Option.elim_some]
    rcases (ofAdditions history).typeIndex_cases t with ⟨u, hget, hkey, htypes⟩ | ⟨hnone, htypes⟩
    · rw [htypes]
      exact h.found Asked.lt_length hget hkey
    · rw [htypes]
      exact h.added Asked.lt_length hnone

/-- The signatures of a module, at any time of its history. -/
theorem records (history : List Addition) :
    Records (ofAdditions history).types (Asked history) := by
  induction history using List.reverseRecOn with
  | nil => exact ⟨.nil, fun h => absurd h.lt_length (by simp), fun h => by simp [ofAdditions] at h⟩
  | append_singleton history a ih => exact records_concat ih a

end History

section Growth

/-- Signatures and imports are never taken away. -/
theorem add_grows (m : Module) (a : Addition) :
    m.types <+: (m.add a).types ∧ m.imports <+: (m.add a).imports := by
  constructor
  · rw [types_add]
    cases m.request? a with
    | none => exact prefix_rfl
    | some t =>
      obtain ⟨added, htypes, -⟩ := m.typeIndex_eq t
      rw [Option.elim_some, htypes]
      exact prefix_append _ _
  · unfold add
    split
    · rename_i m' hperform
      cases a with
      | signature t =>
        obtain ⟨added, htypes, -⟩ := m.typeIndex_eq t
        cases hperform
        rw [htypes]
      | importFunc moduleName name t =>
        obtain ⟨index, himport⟩ := exists_of_map_eq_ok hperform
        obtain ⟨added, type, rfl, -⟩ := importFunc_eq_ok himport
        exact prefix_append _ _
      | importGlobal moduleName name t =>
        obtain ⟨index, himport⟩ := exists_of_map_eq_ok hperform
        obtain rfl := importGlobal_eq_ok himport
        exact prefix_append _ _
      | function type locals body => cases hperform; exact prefix_rfl
      | global g => cases hperform; exact prefix_rfl
      | memory min max => cases hperform; exact prefix_rfl
      | exported name kind index => cases hperform; exact prefix_rfl
    · exact prefix_rfl

theorem take_grows (history : List Addition) (moment : Nat) :
    (ofAdditions (history.take moment)).types <+: (ofAdditions history).types ∧
      (ofAdditions (history.take moment)).imports <+: (ofAdditions history).imports := by
  have hgrows (later : List Addition) : ∀ m : Module,
      m.types <+: (later.foldl add m).types ∧ m.imports <+: (later.foldl add m).imports := by
    induction later with
    | nil => exact fun m => ⟨prefix_rfl, prefix_rfl⟩
    | cons a later ih =>
      intro m
      obtain ⟨htypes, himports⟩ := m.add_grows a
      obtain ⟨htypes', himports'⟩ := ih (m.add a)
      exact ⟨htypes.trans htypes', himports.trans himports'⟩
  have happly := hgrows (history.drop moment) (ofAdditions (history.take moment))
  rwa [ofAdditions, ← foldl_append, take_append_drop] at happly

end Growth

section Meaning

/-- That each index that a history gives stands for the signature that was asked
for, in the bytes at any later time, and that two of them are the same if and
only if the signatures are. -/
def Denotes (history : List Addition) : Prop :=
  ∀ {position t index}, Asked history position t index →
    (∀ moment, position < moment → TypeEntry (ofAdditions (history.take moment)).encode index t) ∧
      ∀ {position' u index'}, Asked history position' u index' → (index = index' ↔ t = u)

/-- At any later time the entry at an index is the first signature that was
asked for among those that are equal to the one that the index was given for, or
mistaken for it. -/
theorem Asked.typeEntry (h : Asked history position t index) :
    ∃ first u, Asked history first u index ∧
    (u = t ∨ u.Mistaken t) ∧
    (∀ {position' v index'}, Asked history position' v index' → v = t ∨ v.Mistaken t →
      first ≤ position') ∧
    ∀ moment, position < moment →
      ∀ v, TypeEntry (ofAdditions (history.take moment)).encode index v ↔ v = u := by
  obtain ⟨u, hget, hkey⟩ := (records history).listed h
  obtain ⟨first, hask, hfirst⟩ := (records history).first hget
  refine ⟨first, u, hask, FuncType.key_eq_iff.mp hkey, fun hask' halike => ?_,
    fun moment hlt v => ?_⟩
  · exact hfirst hask' ((FuncType.key_eq_iff.mpr halike).trans hkey.symm)
  · obtain ⟨w, hget', -⟩ := (records (history.take moment)).listed (asked_take_iff.mpr ⟨hlt, h⟩)
    obtain ⟨later, htypes⟩ := (take_grows history moment).1
    rw [← htypes, getElem?_append_left (List.getElem?_eq_some_iff.mp hget').1, hget'] at hget
    rw [typeEntry_encode_iff, hget', hget, Option.some_inj, eq_comm]

theorem Asked.index_eq_iff {position' index' : Nat} (h : Asked history position t index)
    (h' : Asked history position' u index') : index = index' ↔ t = u ∨ t.Mistaken u := by
  obtain ⟨v, hget, hkey⟩ := (records history).listed h
  obtain ⟨v', hget', hkey'⟩ := (records history).listed h'
  rw [← FuncType.key_eq_iff]
  constructor
  · rintro rfl
    rw [hget, Option.some_inj] at hget'
    rw [← hkey, ← hkey', hget']
  · intro hsame
    obtain ⟨hlt, rfl⟩ := List.getElem?_eq_some_iff.mp hget
    obtain ⟨hlt', rfl⟩ := List.getElem?_eq_some_iff.mp hget'
    have hdistinct := pairwise_iff_getElem.mp (records history).distinct
    have hkeys := hkey.trans (hsame.trans hkey'.symm)
    rcases Nat.lt_trichotomy index index' with hless | heq | hless
    · exact absurd hkeys (hdistinct index index' hlt hlt' hless)
    · exact heq
    · exact absurd hkeys.symm (hdistinct index' index hlt' hlt hless)

theorem imports_add_importFunc {moduleName name : Bytes}
    (h : m.request? (.importFunc moduleName name t') = some t) :
    (m.add (.importFunc moduleName name t')).imports =
      m.imports ++ [⟨moduleName, name, .func (m.typeIndex t).1⟩] := by
  by_cases hnone : m.functions.isEmpty
  · obtain rfl : t' = t := by simpa [request?, hnone] using h
    obtain ⟨added, htypes, -⟩ := m.typeIndex_eq t'
    simp only [add, perform, importFunc, hnone, htypes]
    rfl
  · simp [request?, hnone] at h

/-- An import of a function refers to its signature by the index that is given
for it. -/
theorem Asked.import_eq {moduleName name : Bytes} (h : Asked history position t index)
    (hget : history[position]? = some (.importFunc moduleName name t')) :
    (ofAdditions history).imports[(ofAdditions (history.take position)).imports.length]? =
      some ⟨moduleName, name, .func index⟩ := by
  obtain ⟨⟨a, hget', hrequest⟩, rfl⟩ := h
  obtain rfl := Option.some_inj.mp (hget'.symm.trans hget)
  obtain ⟨later, himports⟩ := (take_grows history (position + 1)).2
  rw [take_add_one, hget, Option.toList_some, ofAdditions_concat, imports_add_importFunc hrequest]
    at himports
  rw [← himports, append_assoc, getElem?_append_right le_rfl, Nat.sub_self]
  rfl

theorem denotes_iff :
    Denotes history ↔ ∀ {position t index position' u index'}, Asked history position t index →
    Asked history position' u index' → ¬t.Mistaken u := by
  constructor
  · intro h position t index position' u index' hask hask' hmistaken
    have hindex := (hask.index_eq_iff hask').mpr (.inr hmistaken)
    exact hmistaken.ne (((h hask).2 hask').mp hindex)
  · intro hnone position t index hask
    refine ⟨fun moment hlt => ?_, fun hask' => ?_⟩
    · obtain ⟨first, u, hask', hsame | hmistaken, -, hentry⟩ := hask.typeEntry
      · exact (hentry moment hlt t).mpr hsame.symm
      · exact absurd hmistaken (hnone hask' hask)
    · rw [hask.index_eq_iff hask', or_iff_left (hnone hask hask')]

end Meaning

/-- In each history the indices stand for the signatures that they were given
for, and differ for different ones, if and only if no two of them are mistaken
for each other. If some are, they share an index, and its entry is the one that
was asked for first. Imports of functions use the same indices. -/
theorem typeIndex_denotes_unless_mistaken (history : List Addition) :
    (Denotes history ↔ ∀ {position t index position' u index'}, Asked history position t index →
      Asked history position' u index' → ¬t.Mistaken u) ∧
    ∀ {position t index}, Asked history position t index →
      (∃ first u, Asked history first u index ∧ (u = t ∨ u.Mistaken t) ∧
        (∀ {position' v index'}, Asked history position' v index' → v = t ∨ v.Mistaken t →
          first ≤ position') ∧
        ∀ moment, position < moment →
          ∀ v, TypeEntry (ofAdditions (history.take moment)).encode index v ↔ v = u) ∧
      (∀ {position' u index'}, Asked history position' u index' →
        (index = index' ↔ t = u ∨ t.Mistaken u)) ∧
      ∀ {moduleName name t'}, history[position]? = some (.importFunc moduleName name t') →
        (ofAdditions history).imports[(ofAdditions (history.take position)).imports.length]? =
          some ⟨moduleName, name, .func index⟩ :=
  ⟨denotes_iff, fun h => ⟨h.typeEntry, h.index_eq_iff, h.import_eq⟩⟩

/-- A signature, and an import with another one. -/
def sineImport : List Addition :=
  [.signature ⟨[.i32], []⟩, .importFunc (utf8 "shims") (utf8 "sin") ⟨[.f64], [.f64]⟩]

theorem sineImport_denotes : Asked sineImport 1 ⟨[.f64], [.f64]⟩ 1 ∧
    (ofAdditions sineImport).imports[0]? = some ⟨utf8 "shims", utf8 "sin", .func 1⟩ := by
  have hask : Asked sineImport 1 ⟨[.f64], [.f64]⟩ 1 := ⟨⟨_, rfl, rfl⟩, rfl⟩
  exact ⟨hask, ((typeIndex_denotes_unless_mistaken sineImport).2 hask).2.2 rfl⟩

/-- A function that takes a double, and then one that gives a double. -/
def doubleTwice : List Addition := [.signature ⟨[.f64], []⟩, .signature ⟨[], [.f64]⟩]

/-- Both get the index 0, at which there is only the first. -/
theorem doubleTwice_mistaken :
    Asked doubleTwice 0 ⟨[.f64], []⟩ 0 ∧ Asked doubleTwice 1 ⟨[], [.f64]⟩ 0 ∧
    (ofAdditions doubleTwice).encode = header ++ [0x01, 0x05, 0x01, 0x60, 0x01, 0x7c, 0x00] ∧
    ¬Denotes doubleTwice := by
  have hfirst : Asked doubleTwice 0 ⟨[.f64], []⟩ 0 := ⟨⟨_, rfl, rfl⟩, rfl⟩
  have hsecond : Asked doubleTwice 1 ⟨[], [.f64]⟩ 0 := ⟨⟨_, rfl, rfl⟩, rfl⟩
  refine ⟨hfirst, hsecond, by decide +kernel, fun h => ?_⟩
  exact denotes_iff.mp h hfirst hsecond (.inr ⟨[], rfl, rfl⟩)

end Module

end Eel.Wasm
