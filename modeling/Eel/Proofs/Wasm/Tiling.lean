import Eel.Proofs.Wasm.Groups
import Eel.Wasm.Sections

/-!
The sections that are found in any bytes.

Sections stand one behind the other: each has an id, its size as a number, and a
body of that size. Whatever the bytes are, the sections that are found fill them
from the header to the end, reading stays inside of the bytes and comes to an
end. This holds unless there is a section whose size is so large that it would
end at 2^63 or behind. Offsets are signed numbers of 64 bits, so such an end is
taken for one in front of the body, and is not seen to lie past the end of the
input. Reading then leaves the input, or goes back.
-/

namespace Eel.Wasm

open List

/-- That the head of a section stands at a position: its id, and its size as a
number. The body is to start at the offset. -/
def HeadAt (bin : Bytes) (position : Nat) (id : SectionId) (size offset : Nat) : Prop :=
  ∃ number, bin.drop position = id.byte :: (number ++ bin.drop offset) ∧
    offset = position + 1 + number.length ∧
    Terminated number ∧ number.length ≤ 10 ∧ magnitude number = size ∧ size < 2 ^ 64

/-- That a body tells how many entries it has, by the number at its front.
Custom sections and empty ones have none. -/
def Counts (id : SectionId) (body : Bytes) (entries : Int) : Prop :=
  if id = .custom ∨ body = [] then entries = 0
  else ∃ count rest, readUnsigned body = .ok (count, rest) ∧ entries = wrapped count

/-- That a section stands at a position, with its whole body inside of the
bytes. -/
structure StandsAt (bin : Bytes) (position : Nat) (info : SectionInfo) (size : Nat) : Prop where
  head : HeadAt bin position info.id size info.offset
  size_eq : info.size = size
  inside : info.offset + size ≤ bin.length
  entries : Counts info.id ((bin.drop info.offset).take size) info.entries

/-- That sections stand one behind the other, from a first position to a last
one. -/
inductive Adjoin (bin : Bytes) : Nat → List SectionInfo → Nat → Prop
  | nil (position : Nat) : Adjoin bin position [] position
  | cons {position size last : Nat} {info : SectionInfo} {infos : List SectionInfo}
      (hinfo : StandsAt bin position info size)
      (hinfos : Adjoin bin (info.offset + size) infos last) :
      Adjoin bin position (info :: infos) last

/-- That sections fill some bytes, from behind the header to the end. -/
def Tiled (bin : Bytes) (infos : List SectionInfo) : Prop :=
  bin.take 8 = header ∧ Adjoin bin 8 infos bin.length

/-- That behind sections that are in order there is one that would end at 2^63
or behind. -/
def Overruns (bin : Bytes) : Prop := bin.take 8 = header ∧ ∃ infos position id size offset,
  Adjoin bin 8 infos position ∧ HeadAt bin position id size offset ∧ 2 ^ 63 ≤ offset + size

/-- That an error is given back, and not that reading goes astray. -/
def ReadError.Returned (e : ReadError) : Prop := e ≠ .outside ∧ e ≠ .endless

variable {bin : Bytes} {position size offset fuel : Nat} {id : SectionId} {info : SectionInfo}
  {infos : List SectionInfo} {c : UInt8}

section Head

namespace HeadAt

variable (h : HeadAt bin position id size offset)

include h

theorem drop_eq : ∃ number, bin.drop (position + 1) = number ++ bin.drop offset ∧
    offset = position + 1 + number.length ∧ offset ≤ bin.length := by
  obtain ⟨number, hdrop, hoffset, -⟩ := h
  have hlength := congrArg List.length hdrop
  rw [length_drop, length_cons, length_append, length_drop] at hlength
  refine ⟨number, ?_, hoffset, by omega⟩
  rw [← drop_drop, hdrop]
  rfl

theorem offset_le : offset ≤ bin.length := by
  obtain ⟨number, -, -, hle⟩ := h.drop_eq
  exact hle

theorem getElem? : bin[position]? = some id.byte := by
  obtain ⟨number, hdrop, -⟩ := h
  rw [← head?_drop, hdrop, head?_cons]

theorem read : readUnsigned (bin.drop (position + 1)) = .ok (size, bin.drop offset) := by
  obtain ⟨number, hdrop, -, hnumber, hlength, rfl, hfits⟩ := h
  rw [← drop_drop, hdrop]
  exact readUnsigned_terminated hnumber _ hlength hfits

theorem size_lt : size < 2 ^ 64 := by
  obtain ⟨number, -, -, -, -, -, hfits⟩ := h
  exact hfits

/-- The body starts behind the bytes that were read for the size. -/
theorem offset_eq :
    position + 1 + ((bin.drop (position + 1)).length - (bin.drop offset).length) = offset := by
  obtain ⟨number, hdrop, hoffset, -⟩ := h.drop_eq
  rw [hdrop, length_append, Nat.add_sub_cancel, hoffset]

theorem unique {id' : SectionId} {size' offset' : Nat}
    (h' : HeadAt bin position id' size' offset') : size = size' ∧ offset = offset' := by
  obtain ⟨hsize, hdrop⟩ := Prod.mk.inj (Except.ok.inj (h.read.symm.trans h'.read))
  have hlength := congrArg List.length hdrop
  rw [length_drop, length_drop] at hlength
  have hoffset := h.offset_le
  have hoffset' := h'.offset_le
  exact ⟨hsize, by omega⟩

end HeadAt

/-- Where an id stands and a number behind it, there is the head of a
section. -/
theorem exists_headAt {rest : Bytes} (hid : bin[position]? = some c)
    (hread : readUnsigned (bin.drop (position + 1)) = .ok (size, rest)) :
    ∃ offset, HeadAt bin position ⟨c⟩ size offset := by
  obtain ⟨number, hdrop, hnumber, hlength, hsize, hfits⟩ := readUnsigned_eq_ok_iff.mp hread
  refine ⟨position + 1 + number.length, number, ?_, rfl, hnumber, hlength, hsize, hfits⟩
  have hrest : bin.drop (position + 1 + number.length) = rest := by
    rw [← drop_drop, hdrop, drop_left]
  obtain ⟨hlt, rfl⟩ := List.getElem?_eq_some_iff.mp hid
  rw [drop_eq_getElem_cons hlt, hdrop, hrest]

end Head

section Step

theorem wrapped_of_lt {n : Nat} (h : n < 2 ^ 63) : wrapped n = n := by
  unfold wrapped
  exact Int.bmod_eq_of_le (by omega) (by norm_num; omega)

/-- The end of a section as a signed number of 64 bits is the end itself, if
that is in front of 2^63. -/
theorem wrapped_stop (hfits : offset + size < 2 ^ 63) :
    wrapped (offset + wrapped size) = ((offset + size : Nat) : Int) := by
  rw [wrapped_of_lt (by omega), ← Nat.cast_add, wrapped_of_lt hfits]

/-- An end at 2^63 or behind comes to lie in front of the body. -/
theorem wrapped_stop_of_overrun (hoffset : offset < 2 ^ 63) (hsize : size < 2 ^ 64)
    (hover : 2 ^ 63 ≤ offset + size) :
    wrapped (offset + wrapped size) = (offset + size : Int) - 2 ^ 64 := by
  calc wrapped (offset + wrapped size)
    _ = Int.bmod (offset + size) (2 ^ 64) := by rw [wrapped, wrapped, Nat.pow_eq, Int.add_bmod_bmod]
    _ = Int.bmod (offset + size - 2 ^ 64) (2 ^ 64) := by
        rw [← Int.add_mul_bmod_self_left (offset + size - 2 ^ 64) (2 ^ 64) 1]
        congr 1
        norm_num
    _ = offset + size - 2 ^ 64 := Int.bmod_eq_of_le (by omega) (by omega)

namespace HeadAt

variable (h : HeadAt bin position id size offset) (hfits : offset + size < 2 ^ 63)

include h hfits

theorem sectionAt_pastEnd (hpast : bin.length < offset + size) :
    sectionAt bin position id.byte = .error (.pastEnd id position) := by
  unfold sectionAt
  simp only [h.read, h.offset_eq, wrapped_stop hfits]
  rw [if_pos (by omega)]

/-- A section whose body is inside of the bytes is found with the number of its
entries, if that can be read. -/
theorem sectionAt_inside (hinside : offset + size ≤ bin.length) : sectionAt bin position id.byte =
      if id = .custom ∨ (bin.drop offset).take size = [] then
        .ok (⟨id, offset, size, 0⟩, ((offset + size : Nat) : Int))
      else ((readUnsigned ((bin.drop offset).take size)).mapError (.count id)).map fun r =>
        (⟨id, offset, size, wrapped r.1⟩, ((offset + size : Nat) : Int)) := by
  have hempty : (bin.drop offset).take size = [] ↔ size = 0 := by
    rw [← length_eq_zero_iff, length_take, length_drop]
    omega
  have hspan : (((offset + size : Nat) : Int) - offset).toNat = size := by omega
  unfold sectionAt
  simp only [h.read, h.offset_eq, wrapped_stop hfits, hspan]
  rw [if_neg (by omega), if_neg (show ¬((offset + size : Nat) : Int) < offset by omega),
    wrapped_of_lt (show size < 2 ^ 63 by omega)]
  simp only [Bool.or_eq_true, decide_eq_true_eq, hempty]
  cases readUnsigned ((bin.drop offset).take size) with
  | error fault => rfl
  | ok r => rfl

/-- At the head of a section that ends in front of 2^63 the section is found, or
an error is given. -/
theorem sectionAt_cases :
    (∃ e, sectionAt bin position id.byte = .error e ∧ e.Returned) ∨
      ∃ entries, StandsAt bin position ⟨id, offset, size, entries⟩ size := by
  by_cases hinside : offset + size ≤ bin.length
  · by_cases hnone : id = .custom ∨ (bin.drop offset).take size = []
    · exact .inr ⟨0, h, rfl, hinside, by rw [Counts, if_pos hnone]⟩
    · cases hread : readUnsigned ((bin.drop offset).take size) with
      | error fault =>
        refine .inl ⟨.count id fault, ?_, by simp [ReadError.Returned]⟩
        rw [h.sectionAt_inside hfits hinside, if_neg hnone, hread]
        rfl
      | ok r =>
        refine .inr ⟨wrapped r.1, h, rfl, hinside, ?_⟩
        dsimp only
        rw [Counts, if_neg hnone]
        exact ⟨r.1, r.2, hread, rfl⟩
  · have hpast := h.sectionAt_pastEnd hfits (by omega)
    exact .inl ⟨_, hpast, by simp [ReadError.Returned]⟩

end HeadAt

/-- A section that stands at a position is found there, and the next one is
looked for behind it. -/
theorem StandsAt.sectionAt_eq (h : StandsAt bin position info size)
    (hfits : info.offset + size < 2 ^ 63) :
    sectionAt bin position info.id.byte = .ok (info, ((info.offset + size : Nat) : Int)) := by
  obtain ⟨id, offset, _, entries⟩ := info
  obtain ⟨hhead, rfl, hinside, hentries⟩ := h
  rw [hhead.sectionAt_inside hfits hinside]
  dsimp only [Counts] at hentries ⊢
  split at hentries
  · rename_i hnone
    rw [if_pos hnone, hentries]
  · rename_i hsome
    obtain ⟨count, rest, hread, hentries⟩ := hentries
    rw [if_neg hsome, hread, hentries]
    rfl

/-- A section that would end at 2^63 or behind is taken to end in front of its
body, and is not found if that is looked at. -/
theorem HeadAt.sectionAt_overrun (h : HeadAt bin position id size offset)
    (hbin : bin.length < 2 ^ 63) (hover : 2 ^ 63 ≤ offset + size) :
    sectionAt bin position id.byte =
      if id = .custom then .ok (⟨id, offset, wrapped size, 0⟩, (offset + size : Int) - 2 ^ 64)
      else .error .outside := by
  have hoffset := h.offset_le
  have hstop := wrapped_stop_of_overrun (by omega) h.size_lt hover
  have hback := h.size_lt
  have hempty : size ≠ 0 := by omega
  unfold sectionAt
  simp only [h.read, h.offset_eq, hstop, hempty, decide_false, Bool.or_false, decide_eq_true_eq]
  rw [if_neg (by omega), if_pos (show (offset + size : Int) - 2 ^ 64 < offset by omega)]

/-- What one step can do where all sections end in front of 2^63. -/
theorem sectionAt_cases (hid : bin[position]? = some c)
    (hfits : ∀ size offset, HeadAt bin position ⟨c⟩ size offset → offset + size < 2 ^ 63) :
    (∃ e, sectionAt bin position c = .error e ∧ e.Returned) ∨
      ∃ info size, StandsAt bin position info size ∧
        sectionAt bin position c = .ok (info, ((info.offset + size : Nat) : Int)) := by
  cases hread : readUnsigned (bin.drop (position + 1)) with
  | error fault =>
    refine .inl ⟨.size position fault, ?_, by simp [ReadError.Returned]⟩
    unfold sectionAt
    simp only [hread]
  | ok r =>
    obtain ⟨offset, hhead⟩ := exists_headAt hid hread
    rcases hhead.sectionAt_cases (hfits _ _ hhead) with herror | ⟨entries, hstands⟩
    · exact .inl herror
    · exact .inr ⟨_, _, hstands, hstands.sectionAt_eq (hfits _ _ hhead)⟩

end Step

section Run

variable {last : Nat}

theorem Adjoin.concat (h : Adjoin bin position infos last) (hinfo : StandsAt bin last info size) :
    Adjoin bin position (infos ++ [info]) (info.offset + size) := by
  induction h with
  | nil position => exact .cons hinfo (.nil _)
  | cons hfirst _ ih => exact .cons hfirst (ih hinfo)

theorem StandsAt.position_lt (h : StandsAt bin position info size) : position < info.offset := by
  obtain ⟨number, -, hoffset, -⟩ := h.head
  omega

/-- Sections that fill the bytes to the end are the only ones that stand there,
and all of their heads fit. -/
theorem Adjoin.end_le (h : Adjoin bin position infos bin.length) {infos' : List SectionInfo}
    (h' : Adjoin bin position infos' last) (hhead : HeadAt bin last id size offset) :
    offset + size ≤ bin.length := by
  induction h' generalizing infos with
  | nil position =>
    cases h with
    | nil => simpa using hhead.getElem?
    | cons hinfo _ =>
      obtain ⟨rfl, rfl⟩ := hinfo.head.unique hhead
      exact hinfo.inside
  | cons hinfo' _ ih =>
    cases h with
    | nil => simpa using hinfo'.head.getElem?
    | cons hinfo hinfos =>
      obtain ⟨rfl, hoffset⟩ := hinfo.head.unique hinfo'.head
      rw [hoffset] at hinfos
      exact ih hinfos hhead

/-- That all sections in a row from a position on end in front of 2^63. -/
def FitsFrom (bin : Bytes) (position : Nat) : Prop :=
  ∀ ⦃infos : List SectionInfo⦄ ⦃last : Nat⦄ ⦃id : SectionId⦄
  ⦃size offset : Nat⦄, Adjoin bin position infos last → HeadAt bin last id size offset →
  offset + size < 2 ^ 63

theorem FitsFrom.next (h : FitsFrom bin position) (hinfo : StandsAt bin position info size) :
    FitsFrom bin (info.offset + size) := fun _ _ _ _ _ hinfos => h (.cons hinfo hinfos)

theorem sectionsWithin_end (fuel : Nat) : sectionsWithin bin (fuel + 1) bin.length = .ok [] := by
  rw [sectionsWithin, if_pos le_rfl]

theorem sectionsWithin_of_error {e : ReadError} (hid : bin[position]? = some c)
    (h : sectionAt bin position c = .error e) (fuel : Nat) :
    sectionsWithin bin (fuel + 1) position = .error e := by
  obtain ⟨hlt, -⟩ := List.getElem?_eq_some_iff.mp hid
  rw [sectionsWithin, if_neg (by omega), if_neg (by omega), Int.toNat_natCast, hid]
  simp only [h]
  rfl

theorem sectionsWithin_of_ok {next : Int} (hid : bin[position]? = some c)
    (h : sectionAt bin position c = .ok (info, next)) (fuel : Nat) :
    sectionsWithin bin (fuel + 1) position = (sectionsWithin bin fuel next).map (info :: ·) := by
  obtain ⟨hlt, -⟩ := List.getElem?_eq_some_iff.mp hid
  rw [sectionsWithin, if_neg (by omega), if_neg (by omega), Int.toNat_natCast, hid]
  simp only [h]
  cases hrest :
    sectionsWithin bin fuel next <;> simp [hrest, bind, Except.bind, Except.map, pure, Except.pure]

/-- Where all sections end in front of 2^63, each step goes on, so that steps
enough for the bytes find all of the sections or give back an error. -/
theorem sectionsWithin_cases (h : FitsFrom bin position) (hposition : position ≤ bin.length)
    (hfuel : bin.length < position + fuel) :
    (∃ e, sectionsWithin bin fuel position = .error e ∧ e.Returned) ∨
      ∃ infos, sectionsWithin bin fuel position = .ok infos ∧
        Adjoin bin position infos bin.length := by
  induction fuel generalizing position with
  | zero => omega
  | succ fuel ih =>
    rcases Nat.lt_or_eq_of_le hposition with hlt | rfl
    · have hid := getElem?_eq_getElem hlt
      rcases sectionAt_cases hid fun size offset hhead => h (.nil _) hhead with
        ⟨e, hstep, he⟩ | ⟨info, size, hinfo, hstep⟩
      · exact .inl ⟨e, sectionsWithin_of_error hid hstep fuel, he⟩
      · -- The next section starts further behind, so one step less is enough for it.
        have hnext := hinfo.position_lt
        rw [sectionsWithin_of_ok hid hstep fuel]
        rcases ih (h.next hinfo) hinfo.inside (by omega) with ⟨e, hrest, he⟩
            | ⟨infos, hrest, hinfos⟩
        · exact .inl ⟨e, by rw [hrest]; rfl, he⟩
        · exact .inr ⟨info :: infos, by rw [hrest]; rfl, .cons hinfo hinfos⟩
    · exact .inr ⟨[], sectionsWithin_end fuel, .nil _⟩

/-- Sections that fill the bytes are found. -/
theorem Adjoin.sectionsWithin_eq (h : Adjoin bin position infos last) (hlast : last = bin.length)
    (hbin : bin.length < 2 ^ 63) (hfuel : bin.length < position + fuel) :
    sectionsWithin bin fuel position = .ok infos := by
  induction h generalizing fuel with
  | nil position =>
    obtain ⟨fuel, rfl⟩ := Nat.exists_eq_add_one.mpr (show 0 < fuel by omega)
    rw [hlast]
    exact sectionsWithin_end fuel
  | cons hinfo _ ih =>
    have hnext := hinfo.position_lt
    have hinside := hinfo.inside
    obtain ⟨fuel, rfl⟩ := Nat.exists_eq_add_one.mpr (show 0 < fuel by omega)
    rw [sectionsWithin_of_ok hinfo.head.getElem? (hinfo.sectionAt_eq (by omega)) fuel,
      ih hlast (by omega)]
    rfl

theorem length_of_header (h : bin.take 8 = header) : 8 ≤ bin.length := by
  have hlength := congrArg List.length h
  rw [length_take] at hlength
  exact min_eq_left_iff.mp hlength

/-- Behind a header, no section overruns if all of them fit. -/
theorem fitsFrom_iff (h : bin.take 8 = header) : FitsFrom bin 8 ↔ ¬Overruns bin := by
  constructor
  · rintro hfits ⟨-, infos, position, id, size, offset, hinfos, hhead, hover⟩
    exact absurd (hfits hinfos hhead) (Nat.not_lt_of_le hover)
  · intro hnone infos last id size offset hinfos hhead
    by_contra hover
    exact hnone ⟨h, infos, last, id, size, offset, hinfos, hhead, Nat.le_of_not_lt hover⟩

theorem sections_cases (h : ¬Overruns bin) :
    (∃ e, sections bin = .error e ∧ e.Returned) ∨ ∃ infos, sections bin = .ok infos ∧
    Tiled bin infos := by
  unfold sections
  by_cases hheader : bin.take 8 = header
  · rw [if_neg (not_not_intro hheader)]
    have hfuel : bin.length < 8 + (bin.length + 1) := by omega
    rcases sectionsWithin_cases ((fitsFrom_iff hheader).mpr h) (length_of_header hheader) hfuel with
      herror | ⟨infos, hread, hinfos⟩
    · exact .inl herror
    · exact .inr ⟨infos, hread, hheader, hinfos⟩
  · rw [if_pos hheader]
    exact .inl ⟨_, rfl, by simp [ReadError.Returned]⟩

/-- Sections that fill the bytes are found, and none overruns. -/
theorem Tiled.sections_eq (h : Tiled bin infos) (hbin : bin.length < 2 ^ 63) :
    sections bin = .ok infos ∧ ¬Overruns bin := by
  obtain ⟨hheader, hinfos⟩ := h
  refine ⟨?_, (fitsFrom_iff hheader).mp fun _ _ _ _ _ h' hhead =>
    (hinfos.end_le h' hhead).trans_lt hbin⟩
  rw [sections, if_neg (not_not_intro hheader)]
  exact hinfos.sectionsWithin_eq rfl hbin (by omega)

end Run

section Visit

/-- That reading the sections of some bytes arrives at a position. -/
inductive Visits (bin : Bytes) : Int → Prop
  | start (h : bin.take 8 = header) : Visits bin 8
  | next {position : Nat} {c : UInt8} {info : SectionInfo} {next : Int} (h : Visits bin position)
      (hid : bin[position]? = some c) (hstep : sectionAt bin position c = .ok (info, next)) :
        Visits bin next

/-- That reading the sections of some bytes stays inside of them, and that each
section is behind the one before it. -/
structure Steady (bin : Bytes) : Prop where
  inside : ∀ {position : Int}, Visits bin position → 0 ≤ position ∧ position ≤ bin.length
  found : ∀ {position : Nat} {c : UInt8}, Visits bin position → bin[position]? = some c →
    sectionAt bin position c ≠ .error .outside
  advances : ∀ {position : Nat} {c : UInt8} {info : SectionInfo} {next : Int}, Visits bin position →
    bin[position]? = some c → sectionAt bin position c = .ok (info, next) →
      position < info.offset ∧ 0 ≤ info.size ∧ next = info.offset + info.size

/-- Reading arrives only at the ends of rows of sections, if all of them fit. -/
theorem Visits.exists_adjoin {p : Int} (h : Visits bin p) (hnone : ¬Overruns bin) :
    ∃ (position : Nat) (infos : List SectionInfo),
      p = position ∧ position ≤ bin.length ∧ Adjoin bin 8 infos position ∧ FitsFrom bin 8 := by
  induction h with
  | start hheader =>
    exact ⟨8, [], rfl, length_of_header hheader, .nil _, (fitsFrom_iff hheader).mpr hnone⟩
  | next _ hid hstep ih =>
    obtain ⟨position, infos, hp, -, hinfos, hfits⟩ := ih
    obtain rfl := Int.ofNat.inj hp
    rcases sectionAt_cases hid fun size offset =>
        hfits hinfos with ⟨e, herror, -⟩ | ⟨info, size, hinfo, hok⟩
    · cases herror.symm.trans hstep
    · obtain ⟨rfl, rfl⟩ := Prod.mk.inj (Except.ok.inj (hok.symm.trans hstep))
      exact ⟨_, _, rfl, hinfo.inside, hinfos.concat hinfo, hfits⟩

theorem Visits.sectionAt_cases (h : Visits bin position) (hnone : ¬Overruns bin)
    (hid : bin[position]? = some c) :
    (∃ e, sectionAt bin position c = .error e ∧ e.Returned) ∨
      ∃ info size, StandsAt bin position info size ∧
        sectionAt bin position c = .ok (info, ((info.offset + size : Nat) : Int)) := by
  obtain ⟨_, infos, hp, -, hinfos, hfits⟩ := h.exists_adjoin hnone
  obtain rfl := Int.ofNat.inj hp
  exact Wasm.sectionAt_cases hid fun size offset => hfits hinfos

/-- Reading arrives behind every row of sections. -/
theorem Adjoin.visits (h : Adjoin bin position infos last) (hbin : bin.length < 2 ^ 63)
    (hposition : Visits bin position) : Visits bin last := by
  induction h with
  | nil position => exact hposition
  | cons hinfo _ ih =>
    have hinside := hinfo.inside
    exact ih (hposition.next hinfo.head.getElem? (hinfo.sectionAt_eq (by omega)))

/-- Reading goes astray if and only if a section overruns. -/
theorem steady_iff (hbin : bin.length < 2 ^ 63) : Steady bin ↔ ¬Overruns bin := by
  constructor
  · rintro hsteady ⟨hheader, infos, position, id, size, offset, hinfos, hhead, hover⟩
    have hvisits := hinfos.visits hbin (.start hheader)
    have hstep := hhead.sectionAt_overrun hbin hover
    split at hstep
    · -- The end that is taken for the section's lies in front of its offset, and no size leads
      -- there.
      obtain ⟨-, hsize, hnext⟩ := hsteady.advances hvisits hhead.getElem? hstep
      have hlt := hhead.size_lt
      dsimp only at hsize hnext
      omega
    · exact hsteady.found hvisits hhead.getElem? hstep
  · intro hnone
    constructor
    case inside =>
      intro p hvisits
      obtain ⟨position, -, rfl, hle, -⟩ := hvisits.exists_adjoin hnone
      omega
    case found =>
      intro position c hvisits hid hout
      rcases hvisits.sectionAt_cases hnone hid with ⟨e, herror, he, -⟩ | ⟨info, size, -, hok⟩
      · exact he (Except.error.inj (herror.symm.trans hout))
      · cases hok.symm.trans hout
    case advances =>
      intro position c info next hvisits hid hok
      rcases hvisits.sectionAt_cases hnone hid with ⟨e, herror, -⟩ | ⟨info, size, hinfo, hok'⟩
      · cases herror.symm.trans hok
      · obtain ⟨rfl, rfl⟩ := Prod.mk.inj (Except.ok.inj (hok'.symm.trans hok))
        have hsize := hinfo.size_eq
        exact ⟨hinfo.position_lt, by omega, by omega⟩

end Visit

/-- The sections that are found fill the bytes, and sections that fill the bytes
are found, unless one overruns. If none does, an error is given back or sections
are found. Reading stays inside of the bytes and goes on with each section if
and only if none overruns. -/
theorem sections_tile_unless_overrun (bin : Bytes) (hbin : bin.length < 2 ^ 63) :
    (∀ infos, Tiled bin infos ↔ sections bin = .ok infos ∧ ¬Overruns bin) ∧
    (¬Overruns bin → ∀ e, sections bin = .error e → e.Returned) ∧
    (Steady bin ↔ ¬Overruns bin) := by
  refine ⟨fun infos => ⟨fun h => h.sections_eq hbin, ?_⟩, fun hnone e he => ?_, steady_iff hbin⟩
  · rintro ⟨hread, hnone⟩
    rcases sections_cases hnone with ⟨e, herror, -⟩ | ⟨infos', hread', htiled⟩
    · cases herror.symm.trans hread
    · obtain rfl := Except.ok.inj (hread'.symm.trans hread)
      exact htiled
  · rcases sections_cases hnone with ⟨e', herror, hreturned⟩ | ⟨infos, hread, -⟩
    · obtain rfl := Except.error.inj (herror.symm.trans he)
      exact hreturned
    · cases hread.symm.trans he

/-- A custom section with a size of more bytes than it needs, and a section of
types without any. -/
def twoSections : Bytes := header ++ [0x00, 0x82, 0x00, 0xff, 0xff, 0x01, 0x01, 0x00]

theorem twoSections_tiled :
    twoSections.length < 2 ^ 63 ∧ Tiled twoSections [⟨.custom, 11, 2, 0⟩, ⟨.type, 15, 1, 0⟩] ∧
    sections twoSections = .ok [⟨.custom, 11, 2, 0⟩, ⟨.type, 15, 1, 0⟩] ∧ Steady twoSections := by
  have hsize : twoSections.length < 2 ^ 63 := by decide
  have hcustom : StandsAt twoSections 8 ⟨.custom, 11, 2, 0⟩ 2 :=
    ⟨⟨[0x82, 0x00], rfl, rfl, ⟨[0x82], 0x00, rfl, by simp [Continuing, continues], rfl⟩, by decide,
      rfl, by decide⟩,
      rfl, by decide, rfl⟩
  have htype : StandsAt twoSections 13 ⟨.type, 15, 1, 0⟩ 1 :=
    ⟨⟨[0x01], rfl, rfl, ⟨[], 0x01, rfl, by simp [Continuing], rfl⟩, by decide, rfl, by decide⟩,
      rfl, by decide,
      0, [], rfl, rfl⟩
  have htiled : Tiled twoSections [⟨.custom, 11, 2, 0⟩, ⟨.type, 15, 1, 0⟩] :=
    ⟨rfl, .cons hcustom (.cons htype (.nil _))⟩
  obtain ⟨hfound, -, hsteady⟩ := sections_tile_unless_overrun twoSections hsize
  exact ⟨hsize, htiled, ((hfound _).mp htiled).1, hsteady.mpr ((hfound _).mp htiled).2⟩

/-- A section of types with a size of 2^64 - 1. -/
def leavingSection : Bytes := header ++ 0x01 :: (List.replicate 9 0xff ++ [0x01])

/-- A custom section with a size of 2^64 - 11, as many bytes as its head has, to
go back. -/
def circlingSection : Bytes := header ++ 0x00 :: 0xf5 :: (List.replicate 8 0xff ++ [0x01])

/-- A custom section with a size of 2^64 - 1, so that the next one starts at the
last byte of that number. -/
def overlappingSections : Bytes := header ++ 0x00 :: (List.replicate 9 0xff ++ [0x01, 0x00])

/-- With a size of 2^63 or more, reading leaves the input, or never ends, or
finds sections that do not fill it. -/
theorem overruns_astray : sections leavingSection = .error .outside ∧
    (∀ fuel, sectionsWithin circlingSection fuel 8 = .error .endless) ∧
    ∃ infos, sections overlappingSections = .ok infos ∧ ¬Tiled overlappingSections infos := by
  refine ⟨by decide +kernel, fun fuel => ?_,
    [⟨.custom, 19, -1, 0⟩, ⟨.type, 20, 0, 0⟩], by decide +kernel, ?_⟩
  · induction fuel with
    | zero => rfl
    | succ fuel ih =>
      have hstep : sectionAt circlingSection 8 0x00 = .ok (⟨.custom, 19, -11, 0⟩, 8) := by
        decide +kernel
      have hround := sectionsWithin_of_ok rfl hstep fuel
      rw [ih] at hround
      exact hround
  · rintro ⟨-, hinfos⟩
    cases hinfos with
    | cons hinfo _ => exact absurd hinfo.size_eq (by simp)

end Eel.Wasm
