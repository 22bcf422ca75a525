import Eel.Proofs.Program.Lines
import Eel.Proofs.Tree.Numeral

/-!
Excerpts of a source.

An excerpt has the line of an error in it, whatever lines it has around that,
and the mark right below. That is so for every location, also one outside of the
source: the nearest line and the nearest column are marked then. The mark ends
with its line, unless the location has an end in the same line that is behind
the end of it.

The numbers of lines are filled up to four columns and the mark stands behind as
many. So it is under the byte of the error's column as long as no more than four
digits are needed.
-/

namespace Eel

open Bytes
open List hiding splitOn

theorem Bytes.length_decimalOnto_le_iff (n k : Nat) (rest : Bytes) :
    (decimalOnto n rest).length ≤ rest.length + k + 1 ↔ n < 10 ^ (k + 1) := by
  induction k generalizing n rest with
  | zero =>
    rw [decimalOnto]
    split
    · next hlt => simp [hlt]
    · next hge =>
        obtain ⟨digits, htext, hne, -, -⟩ :=
          decimalOnto_eq (n / 10) (('0'.toUInt8 + (n % 10).toUInt8) :: rest)
        have hpos := length_pos_iff.mpr hne
        rw [htext, length_append, length_cons]
        omega
  | succ k ih =>
    rw [decimalOnto]
    split
    · next hlt =>
        have hpow : 10 ≤ 10 ^ (k + 1 + 1) := Nat.le_self_pow (by omega) 10
        rw [length_cons]
        exact ⟨fun _ => by omega, fun _ => by omega⟩
    · have hih := ih (n / 10) (('0'.toUInt8 + (n % 10).toUInt8) :: rest)
      rw [length_cons, Nat.div_lt_iff_lt_mul (by norm_num), ← Nat.pow_succ] at hih
      rw [← hih]
      omega

variable {loc : Loc} {mark : Bytes}

namespace CompileError

/-- What stands in front of a line in an excerpt. -/
def label (number : Int) : Bytes := padLeft 4 (decimalInt number) ++ utf8 " | "

/-- Lines behind their numbers. -/
def rows (numbered : List (Bytes × Nat)) : Bytes :=
  numbered.flatMap fun p => label p.2 ++ p.1 ++ utf8 "\n"

/-- A line behind its number. -/
def row (p : Bytes × Nat) : Bytes := label p.2 ++ p.1

/-- What is in front of the mark. -/
def gutter : Bytes := utf8 "     | "

/-- The label of a line is as long as what stands in front of the mark, up to
four digits. -/
theorem length_label_eq_iff {number : Int} (h : 1 ≤ number) :
    (label number).length = gutter.length ↔ number < 10000 := by
  have hdigits := length_decimalOnto_le_iff number.natAbs 3 []
  have hgutter : gutter.length = 4 + (utf8 " | ").length := rfl
  rw [label, padLeft, decimalInt, if_neg (by omega), decimal, hgutter]
  simp only [length_append, length_replicate, length_nil] at hdigits ⊢
  omega

theorem lineFeed_notMem_label (n : Nat) : lineFeed ∉ label n := by
  obtain ⟨digits, htext, -, hdigits, -⟩ := decimalOnto_eq n []
  rw [label, padLeft, decimalInt, if_neg (by omega), decimal, Int.natAbs_natCast, htext,
    append_nil, mem_append, mem_append, mem_replicate]
  rintro ((⟨-, hblank⟩ | hmem) | hmem)
  · exact absurd hblank (by decide)
  · exact absurd (hdigits _ hmem) (by decide)
  · exact absurd hmem (by decide)

theorem numberedLine_of_ne {marked number : Int} (line : Bytes) (h : number ≠ marked) :
    numberedLine loc marked line number = label number ++ line ++ utf8 "\n" := by
  rw [numberedLine, if_neg h, append_nil, label]

theorem numberedLine_of_eq {marked : Int} (line : Bytes) :
    numberedLine loc marked line marked =
      label marked ++ line ++ utf8 "\n" ++ (gutter ++ marker line loc) ++ utf8 "\n" := by
  rw [numberedLine, if_pos rfl]
  simp only [label, gutter, append_assoc]

theorem clamp_of_le {n low high : Int} (hlow : low ≤ n) (hhigh : n ≤ high) :
    clamp n low high = n := by
  rw [clamp, if_neg (by omega), if_neg (by omega)]

theorem clamp_mem {n low high : Int} (h : low ≤ high) :
    low ≤ clamp n low high ∧ clamp n low high ≤ high := by
  unfold clamp
  split
  · omega
  · split <;> omega

theorem exists_clamp_eq (n : Int) {low high : Int} (hlow : 0 ≤ low) (h : low ≤ high) :
    ∃ k : Nat, clamp n low high = k ∧ low ≤ k ∧ (k : Int) ≤ high := by
  have hmem := @clamp_mem n low high h
  obtain ⟨k, hk⟩ := Int.eq_ofNat_of_zero_le (hlow.trans hmem.1)
  rw [hk] at hmem
  exact ⟨k, hk, hmem⟩

section Window

variable {lines : List Bytes} {line : Bytes} {k n first last : Nat}

variable {shown : Bytes × Nat → Bool}

theorem filter_zipIdx_eq_self (h : ∀ p, k ≤ p.2 → p.2 < k + lines.length → shown p = true) :
    (lines.zipIdx k).filter shown = lines.zipIdx k :=
  filter_eq_self.mpr fun p hp => h p (le_snd_of_mem_zipIdx hp) (snd_lt_add_of_mem_zipIdx hp)

theorem filter_zipIdx_eq_nil (h : ∀ p, k ≤ p.2 → p.2 < k + lines.length → shown p = false) :
    (lines.zipIdx k).filter shown = [] := by
  refine filter_eq_nil_iff.mpr fun p hp => ?_
  rw [h p (le_snd_of_mem_zipIdx hp) (snd_lt_add_of_mem_zipIdx hp)]
  exact Bool.false_ne_true

theorem exists_append (h : k ≤ lines.length) :
    ∃ front back, lines = front ++ back ∧ front.length = k :=
  ⟨lines.take k, lines.drop k, (take_append_drop k lines).symm, length_take_of_le h⟩

/-- Lines from one number to another are picked as one piece, and cut at a line
among them. -/
theorem filter_zipIdx_window (hshown : ∀ p, shown p = true ↔ first ≤ p.2 ∧ p.2 ≤ last)
    (hone : 1 ≤ first) (hfirst : first ≤ n) (hlast : n ≤ last) (hlength : last ≤ lines.length)
    (hget : lines[n - 1]? = some line) :
    ∃ above below, (lines.zipIdx 1).filter shown = above ++ (line, n) :: below ∧
      above ++ (line, n) :: below <:+: lines.zipIdx 1 ∧ first + above.length = n ∧
      n + below.length = last := by
  -- The lines in front, those shown above and below, and the lines behind.
  obtain ⟨front, tail, rfl, hfront⟩ := exists_append (show first - 1 ≤ lines.length by omega)
  rw [length_append] at hlength
  obtain ⟨above, tail, rfl, habove⟩ := exists_append (show n - first ≤ tail.length by omega)
  obtain ⟨tail, rfl⟩ : ∃ rest, tail = line :: rest := by
    rw [← append_assoc, getElem?_append_right (by simp; omega), length_append,
      show n - 1 - (front.length + above.length) = 0 by omega, ← head?_eq_getElem?] at hget
    exact head?_eq_some_iff.mp hget
  rw [length_append, length_cons] at hlength
  obtain ⟨below, back, rfl, hbelow⟩ := exists_append (show last - n ≤ tail.length by omega)
  have hzip : (front ++ (above ++ line :: (below ++ back))).zipIdx 1 =
      front.zipIdx 1 ++ (above.zipIdx first ++ (line, n) :: below.zipIdx (n + 1)) ++
        back.zipIdx (last + 1) := by
    rw [zipIdx_append, zipIdx_append, zipIdx_cons, zipIdx_append,
      show 1 + front.length = first by omega, show first + above.length = n by omega,
      show n + 1 + below.length = last + 1 by omega]
    simp only [append_assoc, cons_append]
  refine ⟨above.zipIdx first, below.zipIdx (n + 1), ?_, ⟨_, _, hzip.symm⟩, ?_, ?_⟩
  · have houtside {p : Bytes × Nat} (hp : p.2 < first ∨ last < p.2) : shown p = false := by
      rw [← Bool.not_eq_true, hshown]
      omega
    rw [hzip, filter_append, filter_append, filter_append,
      filter_cons_of_pos ((hshown _).mpr ⟨hfirst, hlast⟩), filter_zipIdx_eq_nil fun p _ hp =>
        houtside (by omega),
      filter_zipIdx_eq_self fun p hp hp' => (hshown p).mpr (by omega),
      filter_zipIdx_eq_self fun p hp hp' => (hshown p).mpr (by omega),
      filter_zipIdx_eq_nil fun p hp _ => houtside (by omega), nil_append, append_nil]
  · rw [length_zipIdx]
    omega
  · rw [length_zipIdx]
    omega

/-- Of some lines one behind the other, those above have smaller numbers, and
those below have greater ones. -/
theorem number_lt_of_isInfix {above below : List (Bytes × Nat)}
    (h : above ++ (line, n) :: below <:+: lines.zipIdx 1) :
    (∀ p ∈ above, p.2 < n) ∧ ∀ p ∈ below, n < p.2 := by
  have hpairwise : (above ++ (line, n) :: below).Pairwise (·.2 < ·.2) := by
    refine List.Pairwise.sublist h.sublist (pairwise_map.mp ?_)
    rw [zipIdx_map_snd]
    exact pairwise_lt_range'
  rw [pairwise_append, pairwise_cons] at hpairwise
  exact ⟨fun p hp => hpairwise.2.2 p hp _ mem_cons_self, hpairwise.2.1.1⟩

theorem getElem?_of_isInfix {ps : List (Bytes × Nat)} {p : Bytes × Nat} (h : ps <:+: lines.zipIdx 1)
    (hp : p ∈ ps) : lines[p.2 - 1]? = some p.1 :=
  (mem_zipIdx_iff_le_and_getElem?_sub.mp (h.subset hp)).2

end Window

/-- That an excerpt has lines of the source, one behind the other and each
behind its number, among them that of the error, and a mark right below it. If
the source has no such line, it is the nearest one. -/
structure Frames (e : CompileError) (before after : Int) (mark line : Bytes) (n : Nat)
    (above below : List (Bytes × Nat)) : Prop where
  text : e.excerpt before after =
    rows above ++ (label n ++ line ++ utf8 "\n" ++ (gutter ++ mark) ++ utf8 "\n") ++ rows below
  range : above ++ (line, n) :: below <:+: (linesOf e.source).zipIdx 1
  number : (n : Int) = clamp e.loc.line 1 (linesOf e.source).length
  first : (n : Int) - above.length = clamp ((n - before).bmod (Nat.pow 2 64)) 1 n
  last : (n : Int) + below.length =
    clamp ((n + after).bmod (Nat.pow 2 64)) n (linesOf e.source).length

/-- That a span in one line goes on behind the end of that line, and behind the
column it is marked from. -/
def Overruns (loc : Loc) (line : Bytes) (column : Nat) : Prop :=
  loc.endLine = loc.line ∧ ((max line.length (column + 1) + 1 : Nat) : Int) < loc.endColumn

/-- That a mark belongs to a location: blanks up to the column, or the nearest
one that the line or its end has, a caret and a tail. It ends where the line
does unless the location gives an end behind that. -/
structure Underlines (loc : Loc) (line mark : Bytes) (column width : Nat) : Prop where
  shape : mark = List.replicate column ' '.toUInt8 ++ '^'.toUInt8 ::
    List.replicate width '~'.toUInt8
  caret : (column : Int) + 1 = clamp loc.column 1 (line.length + 1)
  cut : (mark.length ≤ line.length ∨ column = line.length ∧ width = 0) ↔ ¬Overruns loc line column
  within : loc.endLine = loc.line → (column : Int) + 1 < loc.endColumn →
    (mark.length : Int) + 1 = loc.endColumn
  beyond : loc.line < loc.endLine → column < line.length → mark.length = line.length

/-- That a text is an excerpt with a mark under the line of an error: the line
behind its number, the mark below it, and above and below these only further
lines of the source. The mark has its caret as far behind the gutter as the
column says, which is under the byte of that column exactly if the line has no
more than four digits. -/
structure Marks (e : CompileError) (line text mark : Bytes) (above below : List (Bytes × Nat)) :
    Prop where
  text : text = rows above ++
    (label e.loc.line ++ line ++ utf8 "\n" ++ mark ++ utf8 "\n") ++ rows below
  above : ∀ p ∈ above, (linesOf e.source)[p.2 - 1]? = some p.1 ∧ (p.2 : Int) < e.loc.line
  below : ∀ p ∈ below, (linesOf e.source)[p.2 - 1]? = some p.1 ∧ e.loc.line < p.2
  shape : ∃ width, mark = gutter ++ List.replicate (e.loc.column - 1).toNat ' '.toUInt8 ++
    '^'.toUInt8 :: List.replicate width '~'.toUInt8
  caret : mark.idxOf '^'.toUInt8 = (label e.loc.line).length + (e.loc.column - 1).toNat ↔
    e.loc.line < 10000

variable {e : CompileError} {line : Bytes} {o : Nat}

theorem idxOf_caret (k : Nat) (w : Bytes) :
    (gutter ++ List.replicate k ' '.toUInt8 ++ '^'.toUInt8 :: w).idxOf '^'.toUInt8 =
      gutter.length + k := by
  have hmem : '^'.toUInt8 ∉ gutter ++ List.replicate k ' '.toUInt8 := by
    rw [mem_append, mem_replicate]
    rintro (hmem | ⟨-, hblank⟩)
    · revert hmem
      decide
    · cases hblank
  rw [idxOf_append_of_notMem hmem, idxOf_cons_self, length_append, length_replicate, Nat.add_zero]

/-- Every error with a source and a location has an excerpt, wherever that is
and however many lines are shown. -/
theorem exists_frames (hsource : e.source ≠ []) (hloc : e.loc.isNone = false) (before after : Int) :
    ∃ line n above below, e.Frames before after (marker line e.loc) line n above below := by
  have hlength : (1 : Int) ≤ (linesOf e.source).length :=
    Int.ofNat_le.mpr (length_pos_iff.mpr (splitOn_ne_nil 0x0a (unifyBreaks e.source)))
  obtain ⟨n, hn, hone, hn'⟩ := exists_clamp_eq e.loc.line Int.one_nonneg hlength
  obtain ⟨first, hfirst, hfirst', hfirst''⟩ :=
    exists_clamp_eq ((n - before).bmod (Nat.pow 2 64)) Int.one_nonneg hone
  obtain ⟨last, hlast, hlast', hlast''⟩ :=
    exists_clamp_eq ((n + after).bmod (Nat.pow 2 64)) (Int.natCast_nonneg n) hn'
  obtain ⟨line, hget⟩ : ∃ line, (linesOf e.source)[n - 1]? = some line :=
    ⟨_, getElem?_eq_getElem (by omega)⟩
  have hshown (p : Bytes × Nat) :
      (first ≤ (p.2 : Int) && (p.2 : Int) ≤ last : Bool) = true ↔ first ≤ p.2 ∧ p.2 ≤ last := by
    simp
  obtain ⟨above, below, hsplit, hrange, habove, hbelow⟩ :=
    filter_zipIdx_window hshown (by omega) (by omega) (by omega) (by omega) hget
  obtain ⟨hbefore, hbehind⟩ := number_lt_of_isInfix hrange
  have hrows {ps : List (Bytes × Nat)} (hps : ∀ p ∈ ps, p.2 ≠ n) :
      ps.flatMap (fun p => numberedLine e.loc n p.1 p.2) = rows ps :=
    flatMap_congr fun p hp => numberedLine_of_ne p.1 (by exact_mod_cast hps p hp)
  refine ⟨line, n, above, below, ?_, hrange, hn.symm, ?_, ?_⟩
  · rw [excerpt, hloc, isEmpty_eq_false_iff.mpr hsource, Bool.or_false, if_neg Bool.false_ne_true]
    simp only [hn, hfirst, hlast]
    rw [hsplit, flatMap_append, flatMap_cons, hrows fun p hp => (hbefore p hp).ne,
      hrows fun p hp => (hbehind p hp).ne', numberedLine_of_eq]
    simp only [append_assoc]
  · rw [hfirst]
    omega
  · rw [hlast]
    omega

theorem exists_underlines (line : Bytes) (loc : Loc) :
    ∃ column width, Underlines loc line (marker line loc) column width := by
  have hcolumn := @clamp_mem loc.column 1 (line.length + 1) (by omega)
  obtain ⟨column, hclamp⟩ : ∃ column : Nat, clamp loc.column 1 (line.length + 1) = column + 1 :=
    ⟨(clamp loc.column 1 (line.length + 1) - 1).toNat, by omega⟩
  have hmarker : marker line loc = List.replicate column ' '.toUInt8 ++
      '^'.toUInt8 :: List.replicate (markWidth line loc (column + 1) - 1).toNat '~'.toUInt8 := by
    rw [marker, hclamp, show ((column : Int) + 1 - 1).toNat = column by omega, append_assoc,
      singleton_append]
  have hlength :
      (marker line loc).length = column + ((markWidth line loc (column + 1) - 1).toNat + 1) := by
    rw [hmarker, length_append, length_cons, length_replicate, length_replicate]
  refine ⟨column, _, hmarker, hclamp.symm, ?_, ?_, ?_⟩
  all_goals
    rw [hlength]
    simp only [Overruns, markWidth]
    split_ifs <;> omega

/-- The lines of an excerpt are those of the source that it frames, and the mark
is the only one between. -/
theorem Frames.splitOn_excerpt {before after : Int} {n : Nat} {above below : List (Bytes × Nat)}
    (h : e.Frames before after mark line n above below) (hmark : lineFeed ∉ mark) :
    splitOn lineFeed (e.excerpt before after) =
      above.map row ++ row (line, n) :: (gutter ++ mark) :: below.map row ++ [[]] := by
  have hrow {p : Bytes × Nat} (hp : p ∈ above ++ (line, n) :: below) : lineFeed ∉ row p := by
    rw [row, mem_append, not_or]
    exact ⟨lineFeed_notMem_label p.2,
      notMem_of_mem_splitOn (mem_of_getElem? (getElem?_of_isInfix h.range hp))⟩
  have hgutter : lineFeed ∉ gutter ++ mark := by
    rw [mem_append, not_or]
    exact ⟨by decide, hmark⟩
  have hrows (ps : List (Bytes × Nat)) : rows ps = (ps.map row).flatMap (· ++ [lineFeed]) := by
    rw [flatMap_map]
    rfl
  have htext : e.excerpt before after =
      (above.map row ++ row (line, n) :: (gutter ++ mark) :: below.map row).flatMap
        (· ++ [lineFeed]) := by
    rw [h.text, hrows, hrows, flatMap_append, flatMap_cons, flatMap_cons,
      show utf8 "\n" = [lineFeed] by decide, row]
    simp only [append_assoc]
  rw [htext, splitOn_flatMap]
  simp only [forall_mem_append, forall_mem_cons, forall_mem_map] at hrow ⊢
  exact ⟨hrow.1, hrow.2.1, hgutter, hrow.2.2⟩

/-- An error that is located at an offset of its source is marked there, however
many lines are shown. -/
theorem exists_marks (hsource : e.source ≠ []) (h : e.loc.Addresses e.source o line)
    (before after : Int) :
    ∃ mark above below, e.Marks line (e.excerpt before after) mark above below := by
  obtain ⟨hone, hlength⟩ := h.number
  have hnone : e.loc.isNone = false := by
    simp only [Loc.isNone, beq_eq_false_iff_ne]
    omega
  obtain ⟨line', n, above, below, hframes⟩ := exists_frames hsource hnone before after
  have hn := hframes.number
  rw [clamp_of_le hone hlength] at hn
  have hlines {p} (hp : p ∈ above ++ (line', n) :: below) := getElem?_of_isInfix hframes.range hp
  obtain rfl : line' = line := by
    have hget := hlines (mem_append_right _ mem_cons_self)
    rw [show n - 1 = (e.loc.line - 1).toNat by omega, h.getLine] at hget
    exact (Option.some.inj hget).symm
  obtain ⟨column, width, hmark⟩ := exists_underlines line' e.loc
  have hcolumn := hmark.caret
  rw [clamp_of_le h.column.1 h.column.2] at hcolumn
  obtain rfl : column = (e.loc.column - 1).toNat := by omega
  obtain ⟨habove, hbelow⟩ := number_lt_of_isInfix hframes.range
  refine ⟨gutter ++ marker line' e.loc, above, below, ?_, fun p hp => ?_, fun p hp => ?_,
    ⟨width, ?_⟩, ?_⟩
  · rw [hframes.text, hn]
  · have hlt := habove p hp
    exact ⟨hlines (mem_append_left _ hp), by omega⟩
  · have hlt := hbelow p hp
    exact ⟨hlines (mem_append_right _ (mem_cons_of_mem _ hp)), by omega⟩
  · rw [hmark.shape, append_assoc]
  · rw [hmark.shape, ← append_assoc, idxOf_caret, ← length_label_eq_iff hone]
    omega

theorem Underlines.lineFeed_notMem {column width : Nat}
    (h : Underlines loc line mark column width) : lineFeed ∉ mark := by
  rw [h.shape, mem_append, mem_cons, mem_replicate, mem_replicate]
  rintro (⟨-, hblank⟩ | hcaret | ⟨-, htail⟩)
  · exact absurd hblank (by decide)
  · exact absurd hcaret (by decide)
  · exact absurd htail (by decide)

/-- Wherever an error is located, the excerpt is the line that is nearest, with
a mark below it and lines around. -/
theorem excerpt_underlined (e : CompileError) (hsource : e.source ≠ []) (hline : e.loc.line ≠ 0)
    (before after : Int) :
    ∃ mark line n above below column width,
      e.Frames before after mark line n above below ∧ Underlines e.loc line mark column width ∧
      Bytes.splitOn Bytes.lineFeed (e.excerpt before after) =
        above.map row ++ row (line, n) :: (gutter ++ mark) :: below.map row ++ [[]] := by
  have hnone : e.loc.isNone = false := beq_eq_false_iff_ne.mpr hline
  obtain ⟨line, n, above, below, hframes⟩ := exists_frames hsource hnone before after
  obtain ⟨column, width, hmark⟩ := exists_underlines line e.loc
  exact ⟨_, line, n, above, below, column, width, hframes, hmark,
    hframes.splitOn_excerpt hmark.lineFeed_notMem⟩

/-- An error in front of the first line and behind every column, with an end in
front of the start. -/
def outOfRange : CompileError where
  loc := ⟨-3, 99, -3, -5⟩
  source := utf8 "a\r\nb"
  cause := .stated (utf8 "m")

theorem outOfRange_underlined : outOfRange.excerpt 7 1 = utf8 "   1 | a\n     |  ^\n   2 | b\n" ∧
    ∃ mark line n above below column width,
      outOfRange.Frames 7 1 mark line n above below ∧
      Underlines outOfRange.loc line mark column width ∧
      Bytes.splitOn Bytes.lineFeed (outOfRange.excerpt 7 1) =
        above.map row ++ row (line, n) :: (gutter ++ mark) :: below.map row ++ [[]] :=
  ⟨by decide +kernel, excerpt_underlined outOfRange (by decide) (by decide) 7 1⟩

/-- An error in a line of two bytes that ends in the ninth column of it. -/
def overlong : CompileError where
  loc := ⟨1, 1, 1, 9⟩
  source := utf8 "ab"
  cause := .stated (utf8 "m")

/-- The mark is not cut at the end of the line. -/
theorem overlong_marked_past_line : overlong.excerpt 0 0 = utf8 "   1 | ab\n     | ^~~~~~~~\n" ∧
    marker overlong.source overlong.loc = utf8 "^~~~~~~~" ∧
    overlong.source.length < (marker overlong.source overlong.loc).length := by
  decide +kernel

end CompileError

end Eel
