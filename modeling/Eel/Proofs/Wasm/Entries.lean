import Eel.Proofs.Wasm.Decoding

/-!
The entries that are decoded from any bytes.

The body of a section of imports or exports starts with a vector: a count and
that many entries, one behind the other, with numbers that need not be in their
shortest form. What is decoded is what stands there, and whatever is no vector
is refused. This holds unless there is an entry, or the count, that tells more
than is kept of it. Of a number the low 32 bits are kept, so one of 2^32 or more
is taken for another one, and every byte but 01 is taken for the flag of a
global that stays as it is.
-/

namespace Eel.Wasm

open ByteReader ImportKind List

variable {ε ε' α β : Type} {s : Bytes} {is : List Import} {c : UInt8}

section Format

/-- That bytes are those of a number of 32 bits, in its shortest form or not. -/
def IsNumber (n : Nat) (s : Bytes) : Prop :=
  Terminated s ∧ s.length ≤ 10 ∧ magnitude s = n ∧ n < 2 ^ 32

/-- That an input starts with a number that has room in 64 bits, but not in
32. -/
def Oversized (s : Bytes) : Prop :=
  ∃ number rest, s = number ++ rest ∧ Terminated number ∧ number.length ≤ 10 ∧
  2 ^ 32 ≤ magnitude number ∧ magnitude number < 2 ^ 64

/-- That bytes are those of a name, behind its length. -/
def IsName (name s : Bytes) : Prop := ∃ length, s = length ++ name ∧ IsNumber name.length length

/-- That bytes are those of some items, one behind the other. -/
inductive Row (In : α → Bytes → Prop) : List α → Bytes → Prop
  | nil : Row In [] []
  | cons {a : α} {as : List α} {s t : Bytes} (h : In a s) (hrest : Row In as t) :
      Row In (a :: as) (s ++ t)

/-- That bytes are those of some items behind their count. -/
def IsVector (In : α → Bytes → Prop) (as : List α) (s : Bytes) : Prop :=
  ∃ count contents, s = count ++ contents ∧ IsNumber as.length count ∧ Row In as contents

/-- That the count of a vector is oversized, or that the first of its entries
that is not in order is lossy. -/
def LossyVector (In : α → Bytes → Prop) (Lossy : Bytes → Prop) (s : Bytes) : Prop :=
  Oversized s ∨ ∃ n count as contents rest, s = count ++ (contents ++ rest) ∧ IsNumber n count ∧
    as.length < n ∧ Row In as contents ∧ Lossy rest

/-- That bytes are those of an export. -/
def Export.In (e : Export) (s : Bytes) : Prop :=
  ∃ name index, s = name ++ e.kind.byte :: index ∧ IsName e.name name ∧ IsNumber e.index index

/-- That an input starts with an export of which a number is oversized: the
length of the name, or the index. -/
def Export.Lossy (s : Bytes) : Prop :=
  Oversized s ∨ ∃ name text kind rest, s = text ++ kind :: rest ∧ IsName name text ∧ Oversized rest

/-- That bytes are those of what an import is bound to. -/
def ImportKind.In (s : Bytes) : ImportKind → Prop
  | .func type => ∃ index, s = ExternKind.func.byte :: index ∧ IsNumber type index
  | .global type => s = ExternKind.global.byte :: type.bytes

/-- That what an import is bound to has an oversized index, or a flag that is
neither 00 nor 01. -/
def ImportKind.Lossy (s : Bytes) : Prop :=
  (∃ rest, s = ExternKind.func.byte :: rest ∧ Oversized rest) ∨
    ∃ type flag rest, s = ExternKind.global.byte :: type :: flag :: rest ∧ flag ≠ 0x00 ∧ flag ≠ 0x01

/-- That bytes are those of an import. -/
def Import.In (i : Import) (s : Bytes) : Prop :=
  ∃ moduleName name kind, s = moduleName ++ (name ++ kind) ∧ IsName i.moduleName moduleName ∧
    IsName i.name name ∧ i.kind.In kind

/-- That an input starts with an import of which the length of a name is
oversized, or what it is bound to is lossy. -/
def Import.Lossy (s : Bytes) : Prop :=
  Oversized s ∨ ∃ moduleName text rest, s = text ++ rest ∧ IsName moduleName text ∧
    (Oversized rest ∨ ∃ name text' rest', rest = text' ++ rest' ∧ IsName name text' ∧
      ImportKind.Lossy rest')

end Format

/-- That a reader finds what stands at the front of an input. Where the input is
not lossy, it gives a value and the rest of the input if and only if bytes of
that value stand in front of the rest. -/
def Finds (r : Bytes → Except ε (α × Bytes)) (In : α → Bytes → Prop)
    (Lossy : Bytes → Prop) : Prop :=
  ∀ s a rest, (∃ front, s = front ++ rest ∧ In a front) ↔ r s = .ok (a, rest) ∧ ¬Lossy s

namespace Finds

variable {In : α → Bytes → Prop} {Lossy : Bytes → Prop} {r : Bytes → Except ε (α × Bytes)}

theorem congr (h : Finds r In Lossy) {In' : α → Bytes → Prop} {Lossy' : Bytes → Prop}
    (hin : ∀ a s, In' a s ↔ In a s) (hlossy : ∀ s, Lossy' s ↔ Lossy s) : Finds r In' Lossy' := by
  intro s a rest
  simp only [hin, hlossy]
  exact h s a rest

theorem pure (a : α) :
    Finds (fun s => (.ok (a, s) : Except ε (α × Bytes))) (fun b s => b = a ∧ s = [])
    fun _ => False := by
  intro s b rest
  constructor
  · rintro ⟨front, rfl, rfl, rfl⟩
    exact ⟨rfl, id⟩
  · rintro ⟨hok, -⟩
    obtain ⟨rfl, rfl⟩ := Prod.mk.inj (Except.ok.inj hok)
    exact ⟨[], rfl, rfl, rfl⟩

/-- Two readers, one behind the other. -/
theorem bind {x : Bytes → Except ε (α × Bytes)} {f : α → Bytes → Except ε (β × Bytes)}
    {In' : α → β → Bytes → Prop} {Lossy' : α → Bytes → Prop} (hx : Finds x In Lossy)
    (hf : ∀ a, Finds (f a) (In' a) (Lossy' a)) :
    Finds (fun s => x s >>= fun p => f p.1 p.2)
      (fun b s => ∃ a s₁ s₂, s = s₁ ++ s₂ ∧ In a s₁ ∧ In' a b s₂)
      fun s => Lossy s ∨ ∃ a s₁ s₂, s = s₁ ++ s₂ ∧ In a s₁ ∧ Lossy' a s₂ := by
  intro s b rest
  rw [Except.bind_eq_ok]
  constructor
  · rintro ⟨_, rfl, a, s₁, s₂, rfl, hs₁, hs₂⟩
    rw [append_assoc]
    obtain ⟨hfirst, hexact⟩ := (hx _ _ _).mp ⟨s₁, rfl, hs₁⟩
    obtain ⟨hsecond, hexact'⟩ := (hf a _ _ _).mp ⟨s₂, rfl, hs₂⟩
    refine ⟨⟨_, hfirst, hsecond⟩, ?_⟩
    rintro (hlossy | ⟨a', t, t', ht, hin, hlossy⟩)
    · exact hexact hlossy
    · -- The first reader finds one value only, so it is the same one that the second reader goes
      -- on from.
      obtain ⟨hfirst', -⟩ := (hx _ _ _).mp ⟨t, ht, hin⟩
      obtain ⟨rfl, rfl⟩ := Prod.mk.inj (Except.ok.inj (hfirst.symm.trans hfirst'))
      exact hexact' hlossy
  · rintro ⟨⟨⟨a, t⟩, hfirst, hsecond⟩, hexact⟩
    rw [not_or] at hexact
    obtain ⟨s₁, rfl, hs₁⟩ := (hx _ _ _).mpr ⟨hfirst, hexact.1⟩
    obtain ⟨s₂, rfl, hs₂⟩ :=
      (hf a _ _ _).mpr ⟨hsecond, fun hlossy => hexact.2 ⟨a, s₁, _, rfl, hs₁, hlossy⟩⟩
    exact ⟨s₁ ++ s₂, by rw [append_assoc], a, s₁, s₂, rfl, hs₁, hs₂⟩

theorem mapError (h : Finds r In Lossy) (g : ε → ε') :
    Finds (fun s => (r s).mapError g) In Lossy := by
  intro s a rest
  have hok : (r s).mapError g = .ok (a, rest) ↔ r s = .ok (a, rest) := by
    cases r s <;> simp [Except.mapError]
  rw [hok]
  exact h s a rest

end Finds

section Number

theorem byte_finds : Finds byte (fun c s => s = [c]) fun _ => False := by
  intro s c rest
  constructor
  · rintro ⟨_, rfl, rfl⟩
    exact ⟨rfl, id⟩
  · rintro ⟨hok, -⟩
    cases s with
    | nil => cases hok
    | cons d s =>
      obtain ⟨rfl, rfl⟩ := Prod.mk.inj (Except.ok.inj hok)
      exact ⟨[d], rfl, rfl⟩

theorem u32_eq_ok_iff {rest : Bytes} {n : Nat} :
    u32 s = .ok (n, rest) ↔ ∃ m, readUnsigned s = .ok (m, rest) ∧ m % 2 ^ 32 = n := by
  rw [u32, Except.bind_eq_ok]
  constructor
  · rintro ⟨⟨m, t⟩, hread, hn⟩
    obtain ⟨rfl, rfl⟩ := Prod.mk.inj (Except.ok.inj hn)
    exact ⟨m, hread, rfl⟩
  · rintro ⟨m, hread, rfl⟩
    exact ⟨(m, rest), hread, rfl⟩

/-- A number of 32 bits is found, and no other one is taken for it. -/
theorem u32_finds : Finds u32 IsNumber Oversized := by
  intro s n rest
  rw [u32_eq_ok_iff]
  constructor
  · rintro ⟨number, rfl, hnumber, hlength, hvalue, hsmall⟩
    have hread : readUnsigned (number ++ rest) = .ok (n, rest) :=
      readUnsigned_eq_ok_iff.mpr ⟨number, rfl, hnumber, hlength, hvalue, by omega⟩
    refine ⟨⟨n, hread, Nat.mod_eq_of_lt hsmall⟩, ?_⟩
    rintro ⟨number', rest', heq, hnumber', hlength', hlarge, hfits⟩
    have hread' := readUnsigned_terminated hnumber' rest' hlength' hfits
    rw [← heq, hread] at hread'
    obtain ⟨hsame, -⟩ := Prod.mk.inj (Except.ok.inj hread')
    omega
  · rintro ⟨⟨m, hread, hn⟩, hexact⟩
    obtain ⟨number, rfl, hnumber, hlength, rfl, hfits⟩ := readUnsigned_eq_ok_iff.mp hread
    have hsmall : magnitude number < 2 ^ 32 := by
      by_contra hlarge
      exact hexact ⟨number, rest, rfl, hnumber, hlength, Nat.le_of_not_lt hlarge, hfits⟩
    rw [Nat.mod_eq_of_lt hsmall] at hn
    exact ⟨number, rfl, hnumber, hlength, hn, hn ▸ hsmall⟩

/-- As many bytes as were asked for. -/
theorem taken_finds (n : Nat) :
    Finds (fun s => if s.length < n then .error Fault.truncated else .ok (s.take n, s.drop n))
    (fun name s => s = name ∧ name.length = n) fun _ => False := by
  intro s name rest
  constructor
  · rintro ⟨_, rfl, rfl, rfl⟩
    simp
  · rintro ⟨hok, -⟩
    dsimp only at hok
    split at hok
    · cases hok
    · rename_i hlength
      obtain ⟨rfl, rfl⟩ := Prod.mk.inj (Except.ok.inj hok)
      exact ⟨s.take n, (take_append_drop n s).symm, rfl,
        length_take_of_le (Nat.le_of_not_lt hlength)⟩

theorem name_eq (s : Bytes) : name s = u32 s >>= fun p =>
    if p.2.length < p.1 then .error Fault.truncated else .ok (p.2.take p.1, p.2.drop p.1) := by
  change (u32 s >>= _) = _
  congr 1
  funext p
  change (if p.2.length < p.1 then _ else _ : ByteReader Bytes) p.2 = _
  split <;> rfl

theorem name_finds : Finds name IsName Oversized := by
  have hfinds := u32_finds.bind taken_finds
  simp only [← name_eq] at hfinds
  refine hfinds.congr (fun name s => ?_) fun s => by simp
  constructor
  · rintro ⟨length, rfl, hlength⟩
    exact ⟨_, length, name, rfl, hlength, rfl, rfl⟩
  · rintro ⟨_, length, _, rfl, hlength, rfl, rfl⟩
    exact ⟨length, rfl, hlength⟩

end Number

section Items

/-- As many items as asked for, one behind the other. -/
def items (r : Bytes → Except ε (α × Bytes)) : Nat → Bytes → Except ε (List α × Bytes)
  | 0, s => .ok ([], s)
  | count + 1, s => r s >>= fun p => items r count p.2 >>= fun q => .ok (p.1 :: q.1, q.2)

variable {r : Bytes → Except ε (α × Bytes)} {In : α → Bytes → Prop} {Lossy : Bytes → Prop}

theorem items_finds (h : Finds r In Lossy) (count : Nat) :
    Finds (items r count) (fun as s => as.length = count ∧ Row In as s) fun s =>
      ∃ as s₁ s₂, s = s₁ ++ s₂ ∧ as.length < count ∧ Row In as s₁ ∧ Lossy s₂ := by
  induction count with
  | zero =>
    refine (Finds.pure []).congr (fun as s => ?_) fun s => by simp
    constructor
    · rintro ⟨hlength, hrow⟩
      obtain rfl := length_eq_zero_iff.mp hlength
      cases hrow
      exact ⟨rfl, rfl⟩
    · rintro ⟨rfl, rfl⟩
      exact ⟨rfl, .nil⟩
  | succ count ih =>
    refine (h.bind fun a => ih.bind fun as => Finds.pure (a :: as)).congr (fun as s => ?_)
      fun s => ?_
    · constructor
      · rintro ⟨hlength, hrow⟩
        cases hrow with
        | nil => cases hlength
        | cons ha has =>
          exact ⟨_, _, _, rfl, ha, _, _, [], by simp, ⟨by simpa using hlength, has⟩, rfl, rfl⟩
      · rintro ⟨a, s₁, _, rfl, ha, as, s₂, _, rfl, ⟨hlength, has⟩, rfl, rfl⟩
        rw [append_nil]
        exact ⟨by simpa using hlength, .cons ha has⟩
    · constructor
      · rintro ⟨as, s₁, s₂, rfl, hlength, hrow, hlossy⟩
        cases hrow with
        | nil => exact .inl hlossy
        | cons ha has =>
          refine .inr ⟨_, _, _, append_assoc _ _ _, ha, .inl ⟨_, _, _, rfl, ?_, has, hlossy⟩⟩
          simpa using hlength
      · rintro (hlossy | ⟨a, s₁, _, rfl, ha,
          ⟨as, s₂, s₃, rfl, hlength, has, hlossy⟩ | ⟨_, _, _, _, _, h⟩⟩)
        · exact ⟨[], [], s, rfl, by simp, .nil, hlossy⟩
        · exact ⟨a :: as, s₁ ++ s₂, s₃, by rw [append_assoc], by simpa using hlength,
            .cons ha has, hlossy⟩
        · exact h.elim

/-- A count, and then that many items. -/
theorem vector_finds {number : Bytes → Except ε (Nat × Bytes)}
    (hnumber : Finds number IsNumber Oversized) (h : Finds r In Lossy) :
    Finds (fun s => number s >>= fun p => items r p.1 p.2) (IsVector In)
      (LossyVector In Lossy) := by
  refine (hnumber.bind (items_finds h)).congr (fun as s => ?_) fun s => or_congr_right ?_
  · constructor
    · rintro ⟨count, contents, rfl, hcount, hrow⟩
      exact ⟨_, count, contents, rfl, hcount, rfl, hrow⟩
    · rintro ⟨_, count, contents, rfl, hcount, rfl, hrow⟩
      exact ⟨count, contents, rfl, hcount, hrow⟩
  · constructor
    · rintro ⟨n, count, as, contents, rest, rfl, hcount, hlength, hrow, hlossy⟩
      exact ⟨n, count, _, rfl, hcount, as, contents, rest, rfl, hlength, hrow, hlossy⟩
    · rintro ⟨n, count, _, rfl, hcount, as, contents, rest, rfl, hlength, hrow, hlossy⟩
      exact ⟨n, count, as, contents, rest, rfl, hcount, hlength, hrow, hlossy⟩

end Items

section Export

theorem readExport_finds : Finds readExport Export.In Export.Lossy := by
  refine (name_finds.bind fun name => byte_finds.bind fun kind => u32_finds.bind fun index =>
    Finds.pure (Export.mk name ⟨kind⟩ index)).congr (fun e s => ?_) fun s => or_congr_right ?_
  · constructor
    · rintro ⟨name, index, rfl, hname, hindex⟩
      exact ⟨_, name, _, rfl, hname, _, _, index, rfl, rfl, _, index, [], by simp, hindex, rfl, rfl⟩
    · rintro ⟨_, name, _, rfl, hname, _, _, _, rfl, rfl, _, index, _, rfl, hindex, rfl, rfl⟩
      exact ⟨name, index, by simp, hname, hindex⟩
  · constructor
    · rintro ⟨name, text, kind, rest, rfl, hname, hlossy⟩
      exact ⟨name, text, _, rfl, hname, .inr ⟨kind, [kind], rest, rfl, rfl, .inl hlossy⟩⟩
    · rintro ⟨name, text, _, rfl, hname, h | ⟨kind, _, rest, rfl, rfl, hlossy | ⟨_, _, _, _, _, h⟩⟩⟩
      · exact h.elim
      · exact ⟨name, text, kind, rest, rfl, hname, hlossy⟩
      · exact h.elim

theorem readExports_eq (count : Nat) : readExports count = items readExport count := by
  induction count with
  | zero => rfl
  | succ count ih =>
    rw [readExports, ih]
    rfl

end Export

section Import

theorem readImportHead_finds : Finds readImportHead
    (fun head s => ∃ moduleName name, s = moduleName ++ (name ++ [head.2.2.byte]) ∧
      IsName head.1 moduleName ∧ IsName head.2.1 name)
    fun s => Oversized s ∨ ∃ moduleName text rest, s = text ++ rest ∧ IsName moduleName text ∧
    Oversized rest := by
  refine (name_finds.bind fun moduleName => name_finds.bind fun name => byte_finds.bind fun kind =>
    Finds.pure (moduleName, name, (⟨kind⟩ : ExternKind))).congr (fun head s => ?_) fun s => ?_
  · constructor
    · rintro ⟨moduleName, name, rfl, hmodule, hname⟩
      exact ⟨_, moduleName, _, rfl, hmodule, _, name, _, rfl, hname, _, _, [], rfl, rfl, rfl, rfl⟩
    · rintro ⟨_, moduleName, _, rfl, hmodule, _, name, _, rfl, hname, _, _, _, rfl, rfl, rfl, rfl⟩
      exact ⟨moduleName, name, rfl, hmodule, hname⟩
  · simp

theorem readGlobalType_finds : Finds readGlobalType (fun t s => s = t.bytes)
    fun s => ∃ type flag rest, s = type :: flag :: rest ∧ flag ≠ 0x00 ∧ flag ≠ 0x01 := by
  rintro (_ | ⟨type, _ | ⟨flag, s⟩⟩) t rest
  · simp [GlobalType.bytes, readGlobalType, byte, bind, StateT.bind, Except.bind]
  · simp [GlobalType.bytes, readGlobalType, byte, bind, StateT.bind, Except.bind]
  · have hread : readGlobalType (type :: flag :: s) = .ok (⟨⟨type⟩, flag == 0x01⟩, s) := rfl
    rw [hread]
    constructor
    · rintro ⟨_, hs, rfl⟩
      obtain ⟨⟨type'⟩, isMutable⟩ := t
      obtain ⟨rfl, hs⟩ := List.cons.inj hs
      obtain ⟨rfl, rfl⟩ := List.cons.inj hs
      cases isMutable <;> simp
    · rintro ⟨hok, hexact⟩
      obtain ⟨rfl, rfl⟩ := Prod.mk.inj (Except.ok.inj hok)
      refine ⟨[type, flag], rfl, ?_⟩
      have hflag : flag = 0x00 ∨ flag = 0x01 := by
        by_contra h
        rw [not_or] at h
        exact hexact ⟨type, flag, s, rfl, h⟩
      rcases hflag with rfl | rfl <;> rfl

/-- What stands behind the head of an import, which tells what kind it has. -/
def readBound (head : Bytes × Bytes × ExternKind) (s : Bytes) : Except ReadError (Import × Bytes) :=
  if head.2.2 = .func then
    (u32 s).mapError .imports >>= fun p => .ok (⟨head.1, head.2.1, .func p.1⟩, p.2)
  else if head.2.2 = .global then
    (readGlobalType s).mapError .imports >>= fun p => .ok (⟨head.1, head.2.1, .global p.1⟩, p.2)
  else .error (.importKind head.1 head.2.1 head.2.2)

theorem readImport_eq :
    readImport = fun s => (readImportHead s).mapError .imports >>= fun p => readBound p.1 p.2 := rfl

theorem readBound_finds (moduleName name : Bytes) (kind : ExternKind) :
    Finds (readBound (moduleName, name, kind))
    (fun i s => i.moduleName = moduleName ∧ i.name = name ∧ i.kind.In (kind.byte :: s))
    fun s => Lossy (kind.byte :: s) := by
  by_cases hfunc : kind = .func
  · subst hfunc
    refine ((u32_finds.mapError ReadError.imports).bind fun type =>
      Finds.pure (Import.mk moduleName name (.func type))).congr (fun i s => ?_) fun s => ?_
    · constructor
      · rintro ⟨rfl, rfl, hkind⟩
        obtain ⟨_, _, type | type⟩ := i
        · obtain ⟨index, hs, hindex⟩ := hkind
          obtain ⟨-, rfl⟩ := List.cons.inj hs
          exact ⟨type, s, [], by simp, hindex, rfl, rfl⟩
        · cases hkind
      · rintro ⟨type, index, _, rfl, hindex, rfl, rfl⟩
        exact ⟨rfl, rfl, index, by simp, hindex⟩
    · simp [Lossy, ExternKind.func, ExternKind.global]
  · by_cases hglobal : kind = .global
    · subst hglobal
      refine ((readGlobalType_finds.mapError ReadError.imports).bind fun type =>
        Finds.pure (Import.mk moduleName name (.global type))).congr (fun i s => ?_) fun s => ?_
      · constructor
        · rintro ⟨rfl, rfl, hkind⟩
          obtain ⟨_, _, type | type⟩ := i
          · obtain ⟨index, hs, -⟩ := hkind
            cases hs
          · obtain ⟨-, rfl⟩ := List.cons.inj hkind
            exact ⟨type, _, [], by simp, rfl, rfl, rfl⟩
        · rintro ⟨type, _, _, rfl, rfl, rfl, rfl⟩
          exact ⟨rfl, rfl, by simp [In]⟩
      · simp [Lossy, ExternKind.func, ExternKind.global]
    · intro s i rest
      constructor
      · rintro ⟨front, rfl, rfl, rfl, hkind⟩
        obtain ⟨_, _, type | type⟩ := i
        · obtain ⟨index, hs, -⟩ := hkind
          exact absurd (congrArg ExternKind.mk (List.cons.inj hs).1) hfunc
        · exact absurd (congrArg ExternKind.mk (List.cons.inj hkind).1) hglobal
      · rintro ⟨hok, -⟩
        rw [readBound, if_neg hfunc, if_neg hglobal] at hok
        cases hok

theorem ImportKind.In.exists_cons {kind : ImportKind} (h : kind.In s) :
    ∃ c rest, s = c :: rest := by
  cases kind with
  | func type =>
    obtain ⟨index, rfl, -⟩ := h
    exact ⟨_, _, rfl⟩
  | global type => exact ⟨_, _, h⟩

theorem ImportKind.Lossy.exists_cons (h : Lossy s) : ∃ c rest, s = c :: rest := by
  rcases h with ⟨rest, rfl, -⟩ | ⟨type, flag, rest, rfl, -⟩
  · exact ⟨_, _, rfl⟩
  · exact ⟨_, _, rfl⟩

theorem readImport_finds : Finds readImport Import.In Import.Lossy := by
  rw [readImport_eq]
  refine ((readImportHead_finds.mapError ReadError.imports).bind fun head =>
    readBound_finds head.1 head.2.1 head.2.2).congr (fun i s => ?_) fun s => ?_
  · constructor
    · rintro ⟨moduleName, name, kind, rfl, hmodule, hname, hkind⟩
      obtain ⟨c, bound, rfl⟩ := hkind.exists_cons
      exact ⟨(i.moduleName, i.name, ⟨c⟩), moduleName ++ (name ++ [c]), bound, by simp,
        ⟨moduleName, name, rfl, hmodule,
        hname⟩, rfl, rfl, hkind⟩
    · rintro ⟨⟨_, _, kind⟩, _, bound, rfl, ⟨moduleName, name, rfl, hmodule, hname⟩, rfl, rfl, hkind⟩
      exact ⟨moduleName, name, kind.byte :: bound, by simp, hmodule, hname, hkind⟩
  · constructor
    · rintro (hlossy | ⟨moduleName, text, _, rfl, hmodule,
        hlossy | ⟨name, text', rest, rfl, hname, hlossy⟩⟩)
      · exact .inl (.inl hlossy)
      · exact .inl (.inr ⟨moduleName, text, _, rfl, hmodule, hlossy⟩)
      · obtain ⟨c, bound, rfl⟩ := hlossy.exists_cons
        exact .inr ⟨(moduleName, name, ⟨c⟩), text ++ (text' ++ [c]), bound, by simp,
          ⟨text, text', rfl, hmodule, hname⟩,
          hlossy⟩
    · rintro ((hlossy | ⟨moduleName, text, rest, rfl, hmodule, hlossy⟩) |
        ⟨⟨moduleName, name, kind⟩, _, bound, rfl, ⟨text, text', rfl, hmodule, hname⟩, hlossy⟩)
      · exact .inl hlossy
      · exact .inr ⟨moduleName, text, rest, rfl, hmodule, .inl hlossy⟩
      · exact .inr ⟨moduleName, text, text' ++ kind.byte :: bound, by simp, hmodule,
          .inr ⟨name, text', _, rfl, hname, hlossy⟩⟩

theorem readImports_eq_ok_iff {count : Nat} :
    readImports count s = .ok is ↔ ∃ rest, items readImport count s = .ok (is, rest) := by
  induction count generalizing s is with
  | zero => simp [readImports, items, pure, Except.pure]
  | succ count ih =>
    rw [readImports, items]
    cases hread : readImport s with
    | error e => simp [bind, Except.bind]
    | ok p =>
      change (readImports count p.2 >>= fun is => .ok (p.1 :: is)) = .ok is ↔
        ∃ rest, (items readImport count p.2 >>= fun q => .ok (p.1 :: q.1, q.2)) = .ok (is, rest)
      simp only [Except.bind_eq_ok, ih]
      constructor
      · rintro ⟨is', ⟨rest, hitems⟩, hok⟩
        exact ⟨rest, (is', rest), hitems, by rw [Except.ok.inj hok]⟩
      · rintro ⟨rest, ⟨is', rest'⟩, hitems, hok⟩
        obtain ⟨rfl, rfl⟩ := Prod.mk.inj (Except.ok.inj hok)
        exact ⟨is', ⟨_, hitems⟩, rfl⟩

end Import

section Body

variable {bin body : Bytes} {position : Nat} {id : SectionId} {info : SectionInfo}
  {infos : List SectionInfo}
  {In : α → Bytes → Prop} {Lossy : Bytes → Prop} {result : Except ReadError (List α)}

/-- That a body is that of the first section with an id, among the sections that
are found. -/
def FirstBody (bin : Bytes) (id : SectionId) (body : Bytes) : Prop :=
  ∃ before info after position size, sections bin = .ok (before ++ info :: after) ∧
    (∀ other ∈ before, other.id ≠ id) ∧
    info.id = id ∧ StandsAt bin position info size ∧ body = (bin.drop info.offset).take size

/-- That sections are found, and none of them has an id. -/
def Lacks (bin : Bytes) (id : SectionId) : Prop :=
  ∃ infos, sections bin = .ok infos ∧ ∀ info ∈ infos, info.id ≠ id

theorem lacks_iff :
    Lacks bin id ↔ ∃ infos, sections bin = .ok infos ∧ bodyOf? bin id infos = none := by
  simp [Lacks, bodyOf?, find?_eq_none]

theorem FirstBody.bodyOf?_eq (h : FirstBody bin id body) :
    ∃ infos, sections bin = .ok infos ∧ bodyOf? bin id infos = some body := by
  obtain ⟨before, info, after, position, size, hsections, hbefore, rfl, hstands, rfl⟩ := h
  refine ⟨_, hsections, Option.map_eq_some_iff.mpr ⟨info, ?_, ?_⟩⟩
  · refine find?_eq_some_iff_append.mpr
      ⟨beq_self_eq_true _, before, after, rfl, fun other hmem => ?_⟩
    simpa using hbefore other hmem
  · rw [hstands.size_eq, Int.toNat_natCast]

/-- That what is decoded of some bytes are the entries of the first section with
an id. Unless its body is lossy, some entries are decoded if and only if their
vector stands at its front. -/
structure Decodes (bin : Bytes) (id : SectionId) (In : α → Bytes → Prop) (Lossy : Bytes → Prop)
    (result : Except ReadError (List α)) : Prop where
  found : ∀ {as}, result = .ok as → (∃ body, FirstBody bin id body) ∨ Lacks bin id ∧ as = []
  lacking : Lacks bin id → result = .ok []
  exact : ∀ {body}, FirstBody bin id body → ∀ as,
    (∃ vector rest, body = vector ++ rest ∧ IsVector In as vector) ↔ result = .ok as ∧
      ¬LossyVector In Lossy body

theorem exports_of_body {es : List Export} (hsections : sections bin = .ok infos)
    (hbody : bodyOf? bin .exports infos = some body) :
    exports bin = .ok es ↔
    ∃ rest, (u32 body >>= fun p => items readExport p.1 p.2) = .ok (es, rest) := by
  have hread : (do readExports (← u32) : ByteReader (List Export)).run body =
      (u32 body >>= fun p => items readExport p.1 p.2) := by
    simp only [readExports_eq]
    rfl
  rw [← hread, exports, Except.bind_eq_ok]
  constructor
  · rintro ⟨infos', hsections', hok⟩
    obtain rfl := Except.ok.inj (hsections.symm.trans hsections')
    rw [hbody] at hok
    dsimp only at hok
    split at hok
    · rename_i rest hrun
      obtain rfl := Except.ok.inj hok
      exact ⟨rest, hrun⟩
    · cases hok
  · rintro ⟨rest, hrun⟩
    exact Except.bind_eq_ok.mp (exports_of_some hsections hbody hrun)

theorem imports_of_body (hsections : sections bin = .ok infos)
    (hbody : bodyOf? bin .imports infos = some body) :
    imports bin = .ok is ↔ ∃ rest,
      ((u32 body).mapError .imports >>= fun p => items readImport p.1 p.2) = .ok (is, rest) := by
  have hvector : imports bin = ((u32 body).mapError .imports >>= fun p => readImports p.1 p.2) := by
    simp only [imports, hsections, bind, Except.bind, hbody]
    rfl
  rw [hvector]
  simp only [Except.bind_eq_ok, readImports_eq_ok_iff]
  constructor
  · rintro ⟨p, hcount, rest, hitems⟩
    exact ⟨rest, p, hcount, hitems⟩
  · rintro ⟨rest, p, hcount, hitems⟩
    exact ⟨p, hcount, rest, hitems⟩

variable (hbin : bin.length < 2 ^ 63)

include hbin

/-- A section that is found stands there, unless its body is not looked at. -/
theorem exists_standsAt_of_sectionAt {next : Int} (hid : bin[position]? = some c)
    (hok : sectionAt bin position c = .ok (info, next)) (hcustom : info.id ≠ .custom) :
    ∃ size, StandsAt bin position info size := by
  cases hread : readUnsigned (bin.drop (position + 1)) with
  | error fault =>
    unfold sectionAt at hok
    simp only [hread] at hok
    cases hok
  | ok r =>
    obtain ⟨offset, hhead⟩ := exists_headAt hid hread
    by_cases hfits : offset + r.1 < 2 ^ 63
    · rcases hhead.sectionAt_cases hfits with ⟨e, herror, -⟩ | ⟨entries, hstands⟩
      · cases herror.symm.trans hok
      · obtain ⟨rfl, -⟩ := Prod.mk.inj (Except.ok.inj ((hstands.sectionAt_eq hfits).symm.trans hok))
        exact ⟨_, hstands⟩
    · have hstep := hhead.sectionAt_overrun hbin (Nat.le_of_not_lt hfits)
      split at hstep
      · rename_i hid
        obtain ⟨rfl, -⟩ := Prod.mk.inj (Except.ok.inj (hstep.symm.trans hok))
        exact absurd hid hcustom
      · cases hstep.symm.trans hok

theorem exists_standsAt_of_mem {fuel : Nat} {p : Int} (h : sectionsWithin bin fuel p = .ok infos)
    (hmem : info ∈ infos) (hcustom : info.id ≠ .custom) :
    ∃ position size, StandsAt bin position info size := by
  induction fuel generalizing p infos with
  | zero => cases h
  | succ fuel ih =>
    by_cases hend : (bin.length : Int) ≤ p
    · rw [sectionsWithin, if_pos hend] at h
      cases h
      cases hmem
    by_cases hstart : p < 0
    · rw [sectionsWithin, if_neg hend, if_pos hstart] at h
      cases h
    obtain ⟨position, rfl⟩ := Int.eq_ofNat_of_zero_le (Int.not_lt.mp hstart)
    have hid := getElem?_eq_getElem (show position < bin.length by omega)
    cases hstep : sectionAt bin position bin[position] with
    | error e =>
      rw [sectionsWithin_of_error hid hstep] at h
      cases h
    | ok r =>
      rw [sectionsWithin_of_ok hid hstep] at h
      cases hrest : sectionsWithin bin fuel r.2 with
      | error e =>
        rw [hrest] at h
        cases h
      | ok rest =>
        rw [hrest] at h
        obtain rfl := Except.ok.inj h
        rcases mem_cons.mp hmem with rfl | hmem
        · exact ⟨position, exists_standsAt_of_sectionAt hbin hid hstep hcustom⟩
        · exact ih hrest hmem

theorem exists_standsAt_of_sections (h : sections bin = .ok infos) (hmem : info ∈ infos)
    (hcustom : info.id ≠ .custom) : ∃ position size, StandsAt bin position info size := by
  unfold sections at h
  split at h
  · cases h
  · exact exists_standsAt_of_mem hbin h hmem hcustom

theorem firstBody_of_bodyOf? (hid : id ≠ .custom) (hsections : sections bin = .ok infos)
    (h : bodyOf? bin id infos = some body) : FirstBody bin id body := by
  obtain ⟨info, hfind, rfl⟩ := Option.map_eq_some_iff.mp h
  obtain ⟨hsame, before, after, rfl, hbefore⟩ := find?_eq_some_iff_append.mp hfind
  obtain rfl := beq_iff_eq.mp hsame
  obtain ⟨position, size, hstands⟩ := exists_standsAt_of_sections hbin hsections (by simp) hid
  refine ⟨before, info, after, position, size, hsections, fun other hmem hother => ?_, rfl,
    hstands, ?_⟩
  · have hne := hbefore other hmem
    rw [beq_iff_eq.mpr hother] at hne
    cases hne
  · rw [hstands.size_eq, Int.toNat_natCast]

/-- A function decodes if it reads a vector in the first body, and nothing where
there is none. -/
theorem decodes_of_finds {r : Bytes → Except ε (List α × Bytes)} (hid : id ≠ .custom)
    (hr : Finds r (IsVector In) (LossyVector In Lossy))
    (herror : ∀ e, sections bin = .error e → result = .error e)
    (hnone : ∀ infos, sections bin = .ok infos → bodyOf? bin id infos = none → result = .ok [])
    (hsome : ∀ infos body, sections bin = .ok infos → bodyOf? bin id infos = some body →
      ∀ as, result = .ok as ↔ ∃ rest, r body = .ok (as, rest)) :
    Decodes bin id In Lossy result where
  found := by
    intro as hok
    cases hsections : sections bin with
    | error e => cases (herror e hsections).symm.trans hok
    | ok infos =>
      cases hbody : bodyOf? bin id infos with
      | none =>
        obtain rfl := Except.ok.inj ((hnone infos hsections hbody).symm.trans hok)
        exact .inr ⟨lacks_iff.mpr ⟨infos, hsections, hbody⟩, rfl⟩
      | some body => exact .inl ⟨body, firstBody_of_bodyOf? hbin hid hsections hbody⟩
  lacking := by
    intro h
    obtain ⟨infos, hsections, hbody⟩ := lacks_iff.mp h
    exact hnone infos hsections hbody
  exact := by
    intro body hfirst as
    obtain ⟨infos, hsections, hbody⟩ := hfirst.bodyOf?_eq
    rw [hsome infos body hsections hbody as]
    constructor
    · rintro ⟨vector, rest, hfront, hvector⟩
      obtain ⟨hread, hexact⟩ := (hr body as rest).mp ⟨vector, hfront, hvector⟩
      exact ⟨⟨rest, hread⟩, hexact⟩
    · rintro ⟨⟨rest, hread⟩, hexact⟩
      obtain ⟨vector, hfront, hvector⟩ := (hr body as rest).mpr ⟨hread, hexact⟩
      exact ⟨vector, rest, hfront, hvector⟩

theorem exports_decodes : Decodes bin .exports Export.In Export.Lossy (exports bin) := by
  refine decodes_of_finds hbin (by decide) (vector_finds u32_finds readExport_finds) (fun e h => ?_)
    (fun infos => exports_of_none) fun infos body hsections hbody es =>
      exports_of_body hsections hbody
  rw [exports, h]
  rfl

theorem imports_decodes : Decodes bin .imports Import.In Import.Lossy (imports bin) := by
  refine decodes_of_finds hbin (by decide)
    (vector_finds (u32_finds.mapError ReadError.imports) readImport_finds) (fun e h => ?_)
    (fun infos hsections hbody => ?_) fun infos body hsections hbody is =>
      imports_of_body hsections hbody
  · rw [imports, h]
    rfl
  · refine Except.bind_eq_ok.mpr ⟨infos, hsections, ?_⟩
    rw [hbody]
    rfl

end Body

/-- The exports and the imports that are decoded stand at the front of the first
section of theirs, each with its numbers and names, and whatever is not a vector
of entries is refused. This holds for all bytes of which the count, the length
of a name or an index does not take more than 32 bits, and the flag of a global
is one of the two that there are. -/
theorem entries_decoded_unless_lossy (bin : Bytes) (hbin : bin.length < 2 ^ 63) :
    Decodes bin .exports Export.In Export.Lossy (exports bin) ∧
      Decodes bin .imports Import.In Import.Lossy (imports bin) :=
  ⟨exports_decodes hbin, imports_decodes hbin⟩

theorem isNumber_short (h : continues c = false) : IsNumber (magnitude [c]) [c] := by
  refine ⟨.singleton h, by simp, rfl, ?_⟩
  rw [magnitude_cons, magnitude_nil]
  omega

theorem Row.single {In : α → Bytes → Prop} {a : α} (h : In a s) : Row In [a] s := by
  simpa using Row.cons h .nil

/-- One export, with a count of more bytes than it needs. -/
def oneExport : Bytes := header ++ [0x07, 0x06, 0x81, 0x00, 0x01, 0x66, 0x00, 0x05]

theorem oneExport_firstBody : FirstBody oneExport .exports [0x81, 0x00, 0x01, 0x66, 0x00, 0x05] :=
  ⟨[], ⟨.exports, 10, 6, 1⟩, [], 8, 6, by decide +kernel, by simp, rfl,
    ⟨⟨[0x06], rfl, rfl, ⟨[], 0x06, rfl, by simp [Continuing], rfl⟩, by decide, rfl, by decide⟩,
      rfl, by decide,
      1, _, rfl, rfl⟩, rfl⟩

theorem oneExport_decoded :
    oneExport.length < 2 ^ 63 ∧ exports oneExport = .ok [⟨[0x66], .func, 5⟩] ∧
    imports oneExport = .ok [] := by
  have hsize : oneExport.length < 2 ^ 63 := by decide
  have hcount : IsNumber 1 [0x81, 0x00] :=
    ⟨⟨[0x81], 0x00, rfl, by simp [Continuing, continues], rfl⟩, by decide, rfl, by decide⟩
  have hexport : Export.In ⟨[0x66], .func, 5⟩ [0x01, 0x66, 0x00, 0x05] :=
    ⟨[0x01, 0x66], [0x05], rfl, ⟨[0x01], rfl, isNumber_short rfl⟩, isNumber_short rfl⟩
  have hvector : IsVector Export.In [⟨[0x66], .func, 5⟩] [0x81, 0x00, 0x01, 0x66, 0x00, 0x05] :=
    ⟨[0x81, 0x00], _, rfl, hcount, .single hexport⟩
  obtain ⟨hexports, himports⟩ := entries_decoded_unless_lossy oneExport hsize
  refine ⟨hsize, ((hexports.exact oneExport_firstBody _).mp ⟨_, [], rfl, hvector⟩).1,
    himports.lacking ?_⟩
  exact ⟨[⟨.exports, 10, 6, 1⟩], by decide +kernel, by decide⟩

/-- One export, with an index of 2^32. -/
def wideExport : Bytes := header ++ [0x07, 0x08, 0x01, 0x00, 0x00, 0x80, 0x80, 0x80, 0x80, 0x10]

/-- An index of 2^32 is decoded to 0, which does not stand there. -/
theorem wideExport_decoded : exports wideExport = .ok [⟨[], .func, 0⟩] ∧
    FirstBody wideExport .exports [0x01, 0x00, 0x00, 0x80, 0x80, 0x80, 0x80, 0x10] ∧
    magnitude [0x80, 0x80, 0x80, 0x80, 0x10] = 2 ^ 32 ∧
    ¬∃ vector rest, [0x01, 0x00, 0x00, 0x80, 0x80, 0x80, 0x80, 0x10] = vector ++ rest ∧
      IsVector Export.In [⟨[], .func, 0⟩] vector := by
  have hwide : Oversized [0x80, 0x80, 0x80, 0x80, 0x10] :=
    ⟨_, [], rfl, ⟨[0x80, 0x80, 0x80, 0x80], 0x10, rfl, by simp [Continuing, continues],
      rfl⟩, by decide, by decide,
      by decide⟩
  refine ⟨by decide +kernel, ?_, rfl, ?_⟩
  · exact ⟨[], ⟨.exports, 10, 8, 1⟩, [], 8, 8, by decide +kernel, by simp, rfl,
      ⟨⟨[0x08], rfl, rfl, ⟨[], 0x08, rfl, by simp [Continuing], rfl⟩, by decide, rfl, by decide⟩,
        rfl, by decide,
        1, _, rfl, rfl⟩, rfl⟩
  · rintro ⟨vector, rest, hfront, hvector⟩
    obtain ⟨-, hexact⟩ :=
      (vector_finds u32_finds readExport_finds _ _ rest).mp ⟨vector, hfront, hvector⟩
    refine hexact (.inr ⟨1, [0x01], [], [], _, rfl, isNumber_short rfl, by simp, .nil, .inr ?_⟩)
    exact ⟨[], [0x00], 0x00, _, rfl, ⟨[0x00], rfl, isNumber_short rfl⟩, hwide⟩

end Eel.Wasm
