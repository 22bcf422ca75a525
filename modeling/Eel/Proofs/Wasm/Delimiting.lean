import Eel.Proofs.Wasm.Decoding

/-!
Nothing is lost when a module is written.

There are no separators in the binary format. Each piece tells by itself where
it ends: numbers by their last byte, names and bodies by the length in front of
them, lists by their count. So the bytes of a piece and of whatever follows it
can be cut in one way only, and a whole module can be told from its bytes,
however large it is.
-/

namespace Eel.Wasm

open List

/-- That the front of some bytes tells what was written there, as far as a view
of it goes, and where it ends. -/
def Delimits {α β : Type} (bytes : α → Bytes) (view : α → β) : Prop :=
  ∀ {a b : α} {r s : Bytes}, bytes a ++ r = bytes b ++ s → view a = view b ∧ r = s

namespace Delimits

variable {α β : Type} {bytes : α → Bytes} {view : α → β}

/-- Equally many items that stand one behind the other. -/
theorem flatMap (h : Delimits bytes view) {as bs : List α} (hlength : as.length = bs.length)
    {r s : Bytes} (heq : as.flatMap bytes ++ r = bs.flatMap bytes ++ s) :
    as.map view = bs.map view ∧ r = s := by
  induction as generalizing bs with
  | nil =>
    obtain rfl : bs = [] := length_eq_zero_iff.mp hlength.symm
    exact ⟨rfl, heq⟩
  | cons a as ih =>
    obtain ⟨b, bs, rfl⟩ := exists_cons_of_length_eq_add_one hlength.symm
    simp only [flatMap_cons, append_assoc] at heq
    obtain ⟨hview, htail⟩ := h heq
    obtain ⟨hviews, hrest⟩ := ih (by simpa using hlength) htail
    exact ⟨by rw [map_cons, map_cons, hview, hviews], hrest⟩

/-- Items that are never empty need no count if nothing follows them. -/
theorem flatMap_injective (h : Delimits bytes id) (hbytes : ∀ a, bytes a ≠ []) :
    ∀ {as bs : List α}, as.flatMap bytes = bs.flatMap bytes → as = bs := by
  intro as
  induction as with
  | nil =>
    intro bs heq
    cases bs with
    | nil => rfl
    | cons b bs => simp [hbytes b] at heq
  | cons a as ih =>
    intro bs heq
    cases bs with
    | nil => simp [hbytes a] at heq
    | cons b bs =>
      obtain ⟨rfl, hrest⟩ : a = b ∧ _ := h heq
      rw [ih hrest]

end Delimits

section Number

theorem delimits_unsigned : Delimits unsigned id := by
  intro a b r s h
  obtain ⟨hbytes, hrest⟩ := (terminated_unsigned a).append_inj (terminated_unsigned b) h
  have hvalue := congrArg magnitude hbytes
  rw [magnitude_unsigned, magnitude_unsigned] at hvalue
  exact ⟨hvalue, hrest⟩

theorem length_littleEndian (count n : Nat) : (littleEndian count n).length = count := by
  induction count generalizing n with
  | zero => rfl
  | succ count ih => rw [littleEndian, length_cons, ih]

theorem ofLittleEndian_littleEndian {count n : Nat} (h : n < 256 ^ count) :
    ofLittleEndian (littleEndian count n) = n := by
  induction count generalizing n with
  | zero =>
    simp only [pow_zero, Nat.lt_one_iff] at h
    rw [h]
    rfl
  | succ count ih =>
    rw [pow_succ'] at h
    rw [littleEndian, ofLittleEndian, ih (Nat.div_lt_of_lt_mul h), toNat_toUInt8 (by omega)]
    omega

theorem readDouble_doubleBytes (x : Double) (rest : Bytes) :
    readDouble (doubleBytes x ++ rest) = .ok (x, rest) := by
  have hlength : (doubleBytes x).length = 8 := length_littleEndian 8 _
  have hbits : x.bits.toNat < 256 ^ 8 := x.bits.toNat_lt
  have hvalue : ofLittleEndian (doubleBytes x) = x.bits.toNat := ofLittleEndian_littleEndian hbits
  rw [readDouble, if_neg (by simp [hlength]), ← hlength, take_left, drop_left, hvalue]
  simp

theorem delimits_doubleBytes : Delimits doubleBytes id := by
  intro x y r s h
  have hread := readDouble_doubleBytes x r
  rw [h, readDouble_doubleBytes y s] at hread
  obtain ⟨rfl, rfl⟩ := Prod.mk.inj (Except.ok.inj hread)
  exact ⟨rfl, rfl⟩

end Number

section Item

/-- What stands behind its own length. -/
theorem delimits_nameBytes : Delimits nameBytes id := by
  intro a b r s h
  simp only [nameBytes, append_assoc] at h
  obtain ⟨hlength, htail⟩ := delimits_unsigned h
  exact List.append_inj htail hlength

theorem delimits_valTypesBytes : Delimits valTypesBytes id := by
  intro a b r s h
  simp only [valTypesBytes, append_assoc] at h
  obtain ⟨hlength, htail⟩ := delimits_unsigned h
  obtain ⟨hbytes, hrest⟩ := List.append_inj htail (by simpa using hlength)
  have hinj : Function.Injective ValType.byte := by
    rintro ⟨x⟩ ⟨y⟩ rfl
    rfl
  exact ⟨hinj.list_map hbytes, hrest⟩

theorem delimits_funcType : Delimits FuncType.bytes id := by
  rintro ⟨params, results⟩ ⟨params', results'⟩ r s h
  simp only [FuncType.bytes, cons_append, append_assoc] at h
  obtain ⟨rfl, htail⟩ : params = params' ∧ _ := delimits_valTypesBytes (List.cons.inj h).2
  obtain ⟨rfl, hrest⟩ : results = results' ∧ _ := delimits_valTypesBytes htail
  exact ⟨rfl, hrest⟩

theorem delimits_globalType : Delimits GlobalType.bytes id := by
  rintro ⟨⟨type⟩, isMutable⟩ ⟨⟨type'⟩, isMutable'⟩ r s h
  obtain ⟨rfl, hflag⟩ : type = type' ∧ _ := List.cons.inj h
  obtain ⟨hflag, hrest⟩ := List.cons.inj hflag
  refine ⟨?_, hrest⟩
  cases isMutable <;> cases isMutable' <;> simp at hflag ⊢

/-- The first byte tells imports of functions from those of globals. -/
theorem delimits_importKind : Delimits ImportKind.bytes id := by
  intro a b r s h
  cases a with
  | func type =>
    cases b with
    | func type' =>
      obtain ⟨rfl, hrest⟩ : type = type' ∧ _ := delimits_unsigned (List.cons.inj h).2
      exact ⟨rfl, hrest⟩
    | global type' => cases (List.cons.inj h).1
  | global type =>
    cases b with
    | func type' => cases (List.cons.inj h).1
    | global type' =>
      obtain ⟨rfl, hrest⟩ : type = type' ∧ _ := delimits_globalType (List.cons.inj h).2
      exact ⟨rfl, hrest⟩

theorem delimits_import : Delimits Import.bytes id := by
  rintro ⟨moduleName, name, kind⟩ ⟨moduleName', name', kind'⟩ r s h
  simp only [Import.bytes, append_assoc] at h
  obtain ⟨rfl, hnames⟩ : moduleName = moduleName' ∧ _ := delimits_nameBytes h
  obtain ⟨rfl, hkinds⟩ : name = name' ∧ _ := delimits_nameBytes hnames
  obtain ⟨rfl, hrest⟩ : kind = kind' ∧ _ := delimits_importKind hkinds
  exact ⟨rfl, hrest⟩

/-- The first byte tells whether there is an upper limit. -/
theorem delimits_limits : Delimits Limits.bytes id := by
  rintro ⟨min, max⟩ ⟨min', max'⟩ r s h
  cases max with
  | none =>
    cases max' with
    | none =>
      obtain ⟨rfl, hrest⟩ : min = min' ∧ _ := delimits_unsigned (List.cons.inj h).2
      exact ⟨rfl, hrest⟩
    | some max' => cases (List.cons.inj h).1
  | some max =>
    cases max' with
    | none => cases (List.cons.inj h).1
    | some max' =>
      simp only [Limits.bytes, cons_append, append_assoc] at h
      obtain ⟨rfl, htail⟩ : min = min' ∧ _ := delimits_unsigned (List.cons.inj h).2
      obtain ⟨rfl, hrest⟩ : max = max' ∧ _ := delimits_unsigned htail
      exact ⟨rfl, hrest⟩

theorem delimits_global : Delimits Global.bytes id := by
  rintro ⟨isMutable, init⟩ ⟨isMutable', init'⟩ r s h
  simp only [Global.bytes, append_assoc, cons_append] at h
  obtain ⟨htype, hinit⟩ := delimits_globalType h
  obtain ⟨rfl, hend⟩ : init = init' ∧ _ := delimits_doubleBytes (List.cons.inj hinit).2
  obtain rfl : isMutable = isMutable' := congrArg GlobalType.isMutable htype
  exact ⟨rfl, (List.cons.inj hend).2⟩

theorem delimits_export : Delimits Export.bytes id := by
  rintro ⟨name, ⟨kind⟩, index⟩ ⟨name', ⟨kind'⟩, index'⟩ r s h
  simp only [Export.bytes, append_assoc, cons_append] at h
  obtain ⟨rfl, hkinds⟩ : name = name' ∧ _ := delimits_nameBytes h
  obtain ⟨rfl, hindices⟩ : kind = kind' ∧ _ := List.cons.inj hkinds
  obtain ⟨rfl, hrest⟩ : index = index' ∧ _ := delimits_unsigned hindices
  exact ⟨rfl, hrest⟩

theorem delimits_typeIndex : Delimits (fun f : Function => unsigned f.type) Function.type :=
  fun h => delimits_unsigned h

end Item

section Locals

/-- The types that runs stand for. -/
def expandRuns (runs : List (Nat × ValType)) : List ValType :=
  runs.flatMap fun run => List.replicate run.1 run.2

theorem expandRuns_localRuns (locals : List ValType) : expandRuns (localRuns locals) = locals := by
  fun_induction localRuns locals with
  | case1 => rfl
  | case2 t rest count runs hrest ih =>
    rw [hrest] at ih
    rw [← ih]
    rfl
  | case3 t rest count u runs hrest hne ih =>
    rw [hrest] at ih
    rw [← ih]
    rfl
  | case4 t rest hrest ih =>
    rw [hrest] at ih
    rw [← ih]
    rfl

/-- Runs are as long as they can be. -/
theorem isChain_localRuns (locals : List ValType) :
    (localRuns locals).IsChain fun run next => run.2 ≠ next.2 := by
  fun_induction localRuns locals with
  | case1 => exact .nil
  | case2 t rest count runs hrest ih =>
    rw [hrest] at ih
    cases runs with
    | nil => exact .singleton _
    | cons next runs => exact .cons_cons (isChain_cons_cons.mp ih).1 (isChain_cons_cons.mp ih).2
  | case3 t rest count u runs hrest hne ih =>
    rw [hrest] at ih
    exact .cons_cons hne ih
  | case4 t rest hrest ih => exact .singleton _

theorem delimits_run : Delimits (fun run : Nat × ValType => unsigned run.1 ++ [run.2.byte]) id := by
  rintro ⟨count, ⟨type⟩⟩ ⟨count', ⟨type'⟩⟩ r s h
  simp only [append_assoc] at h
  obtain ⟨rfl, htail⟩ : count = count' ∧ _ := delimits_unsigned h
  obtain ⟨rfl, hrest⟩ : type = type' ∧ _ := List.cons.inj htail
  exact ⟨rfl, hrest⟩

/-- Instructions end with the body, so they need no mark of their own. -/
theorem bodyBytes_inj {locals locals' : List ValType} {code code' : Bytes}
    (h : bodyBytes locals code = bodyBytes locals' code') : locals = locals' ∧ code = code' := by
  simp only [bodyBytes, append_assoc] at h
  obtain ⟨hcount, htail⟩ := delimits_unsigned h
  obtain ⟨hruns, hcode⟩ := delimits_run.flatMap hcount htail
  rw [map_id, map_id] at hruns
  constructor
  · rw [← expandRuns_localRuns locals, hruns, expandRuns_localRuns]
  · exact (append_inj' hcode rfl).1

theorem delimits_function : Delimits Function.bytes fun f => (f.locals, f.body) := by
  intro f g r s h
  obtain ⟨hbody, hrest⟩ : bodyBytes f.locals f.body = bodyBytes g.locals g.body ∧ _ :=
    delimits_nameBytes h
  obtain ⟨hlocals, hcode⟩ := bodyBytes_inj hbody
  exact ⟨Prod.ext hlocals hcode, hrest⟩

end Locals

theorem delimits_section : Delimits Section.bytes id := by
  rintro ⟨⟨id⟩, count, contents⟩ ⟨⟨id'⟩, count', contents'⟩ r s h
  obtain ⟨rfl, htail⟩ : id = id' ∧ _ := List.cons.inj h
  obtain ⟨hbody, hrest⟩ : vectorBytes count contents = vectorBytes count' contents' ∧ _ :=
    delimits_nameBytes htail
  obtain ⟨rfl, rfl⟩ : count = count' ∧ contents = contents' := delimits_unsigned hbody
  exact ⟨rfl, hrest⟩

namespace Section

/-- Sections without items can be left out: they are known from their place
among the others. -/
theorem eq_of_filter_eq {ss ss' : List Section} (hids : ss.map (·.id) = ss'.map (·.id))
    (hnodup : (ss.map (·.id)).Nodup) (hempty : ∀ s ∈ ss ++ ss', s.count = 0 → s.contents = [])
    (h : ss.filter (0 < ·.count) = ss'.filter (0 < ·.count)) : ss = ss' := by
  induction ss generalizing ss' with
  | nil => exact (map_eq_nil_iff.mp hids.symm).symm
  | cons s ss ih =>
    cases ss' with
    | nil => cases hids
    | cons s' ss' =>
      obtain ⟨hid, hothers⟩ : s.id = s'.id ∧ ss.map (·.id) = ss'.map (·.id) := List.cons.inj hids
      obtain ⟨hnew, hdistinct⟩ : s.id ∉ ss.map (·.id) ∧ (ss.map (·.id)).Nodup :=
        nodup_cons.mp hnodup
      have hnew' : s'.id ∉ ss'.map (·.id) := by rwa [← hid, ← hothers]
      have hrest (htail : ss.filter (0 < ·.count) = ss'.filter (0 < ·.count)) : ss = ss' := by
        refine ih hothers hdistinct (fun t ht => hempty t ?_) htail
        simp only [mem_append, mem_cons] at ht ⊢
        tauto
      -- A section that is kept on one side only would stand among the others on the other side.
      rw [filter_cons, filter_cons] at h
      split at h
      · split at h
        · obtain ⟨rfl, htail⟩ := List.cons.inj h
          rw [hrest htail]
        · have hmem : s ∈ ss' := mem_of_mem_filter (h ▸ mem_cons_self)
          exact absurd (mem_map.mpr ⟨s, hmem, hid⟩) hnew'
      · rename_i hcount
        split at h
        · have hmem : s' ∈ ss := mem_of_mem_filter (h ▸ mem_cons_self)
          exact absurd (mem_map.mpr ⟨s', hmem, hid.symm⟩) hnew
        · rename_i hcount'
          have hzero : s.count = 0 := by simpa using hcount
          have hzero' : s'.count = 0 := by simpa using hcount'
          have hcontents := hempty s (by simp) hzero
          have hcontents' := hempty s' (by simp) hzero'
          obtain ⟨id, count, contents⟩ := s
          obtain ⟨id', count', contents'⟩ := s'
          dsimp only at hid hzero hzero' hcontents hcontents'
          rw [hid, hzero, hzero', hcontents, hcontents', hrest h]

end Section

namespace Module

variable {m m' : Module}

theorem contents_of_count (m : Module) : ∀ s ∈ m.allSections, s.count = 0 → s.contents = [] := by
  intro s hs
  simp only [allSections, mem_cons, not_mem_nil, or_false] at hs
  rcases hs with rfl | rfl | rfl | rfl | rfl | rfl | rfl <;>
    (intro hcount; rw [length_eq_zero_iff.mp hcount]; rfl)

theorem allSections_eq (h : m.encode = m'.encode) : m.allSections = m'.allSections := by
  rw [encode_eq, encode_eq] at h
  have hwritten : m.writtenSections = m'.writtenSections :=
    delimits_section.flatMap_injective (fun s => by simp [Section.bytes, sectionBytes])
      (append_cancel_left h)
  refine Section.eq_of_filter_eq rfl m.nodup_ids ?_ hwritten
  intro s hs
  rcases mem_append.mp hs with hs | hs
  · exact m.contents_of_count s hs
  · exact m'.contents_of_count s hs

/-- Items that make up the same section have the same views. -/
theorem views_eq {α β : Type} {bytes : α → Bytes} {view : α → β} (h : Delimits bytes view)
    {id : SectionId} {as bs : List α}
    (heq : (⟨id, as.length, as.flatMap bytes⟩ : Section) = ⟨id, bs.length, bs.flatMap bytes⟩) :
    as.map view = bs.map view := by
  obtain ⟨-, hlength, hcontents⟩ := Section.mk.inj heq
  exact (h.flatMap hlength (congrArg (· ++ []) hcontents)).1

theorem functions_eq {fs gs : List Function} (htypes : fs.map Function.type = gs.map Function.type)
    (hbodies : fs.map (fun f => (f.locals, f.body)) = gs.map fun f => (f.locals, f.body)) :
    fs = gs := by
  induction fs generalizing gs with
  | nil => exact (map_eq_nil_iff.mp htypes.symm).symm
  | cons f fs ih =>
    cases gs with
    | nil => cases htypes
    | cons g gs =>
      obtain ⟨type, locals, body⟩ := f
      obtain ⟨type', locals', body'⟩ := g
      obtain ⟨rfl, hothers⟩ : type = type' ∧ _ := List.cons.inj htypes
      obtain ⟨hbody, hrest⟩ := List.cons.inj hbodies
      obtain ⟨rfl, rfl⟩ : locals = locals' ∧ body = body' := Prod.mk.inj hbody
      rw [ih hothers hrest]

/-- A module can be told from its bytes: modules with the same bytes have the
same types, imports, functions, memories, globals and exports. The locals of a
function are written in runs, which are as long as can be and expand to the list
that they were made of. -/
theorem encode_eq_encode_iff (m m' : Module) :
    (m.encode = m'.encode ↔
      m.types = m'.types ∧ m.imports = m'.imports ∧ m.functions = m'.functions ∧
      m.memories = m'.memories ∧ m.globals = m'.globals ∧ m.exports = m'.exports) ∧
    ∀ locals : List ValType, expandRuns (localRuns locals) = locals ∧
      (localRuns locals).IsChain fun run next => run.2 ≠ next.2 := by
  refine ⟨⟨fun h => ?_, ?_⟩, fun locals => ⟨expandRuns_localRuns locals, isChain_localRuns locals⟩⟩
  · have hsections := allSections_eq h
    simp only [allSections, List.cons.injEq, and_true] at hsections
    obtain ⟨htypes, himports, hfunctions, hmemories, hglobals, hexports, hcode⟩ := hsections
    refine ⟨?_, ?_, ?_, ?_, ?_, ?_⟩
    · simpa using views_eq delimits_funcType htypes
    · simpa using views_eq delimits_import himports
    · exact functions_eq (views_eq delimits_typeIndex hfunctions) (views_eq delimits_function hcode)
    · simpa using views_eq delimits_limits hmemories
    · simpa using views_eq delimits_global hglobals
    · simpa using views_eq delimits_export hexports
  · rintro ⟨htypes, himports, hfunctions, hmemories, hglobals, hexports⟩
    rw [encode, encode, htypes, himports, hfunctions, hmemories, hglobals, hexports]

end Module

end Eel.Wasm
