import Eel.Program.Excerpt
import Eel.Proofs.Source.Locating

/-!
Lines of a source.

Lines are told apart in two ways. A place has its line by the breaks that end in
front of it, and an excerpt cuts the source at its line feeds, once every break
is one. Both say the same of every offset that is not inside a break of two
bytes: it stands in the line that its place has the number of, behind as many
bytes as the column says.
-/

namespace Eel.CompileError

open Cleaned Bytes
open List hiding splitOn

variable {s t part : Bytes} {c mark : UInt8} {o : Nat}

theorem splitOn_ne_nil (mark : UInt8) (s : Bytes) : splitOn mark s ≠ [] := by
  cases s with
  | nil => simp [splitOn]
  | cons c s =>
    rw [splitOn]
    split
    · simp
    · split <;> simp

theorem notMem_of_mem_splitOn (h : part ∈ splitOn mark s) : mark ∉ part := by
  induction s generalizing part with
  | nil =>
    rw [splitOn, mem_singleton] at h
    rw [h]
    exact not_mem_nil
  | cons c s ih =>
    rw [splitOn] at h
    split at h
    · rcases mem_cons.mp h with rfl | h
      · exact not_mem_nil
      · exact ih h
    · next hc =>
        split at h
        · next hnil => exact absurd hnil (splitOn_ne_nil mark s)
        · next first parts hparts =>
            rw [hparts] at ih
            rcases mem_cons.mp h with rfl | h
            · rw [mem_cons, not_or]
              exact ⟨fun heq => hc heq.symm, ih mem_cons_self⟩
            · exact ih (mem_cons_of_mem _ h)

theorem splitOn_append (h : mark ∉ part) (s : Bytes) :
    splitOn mark (part ++ mark :: s) = part :: splitOn mark s := by
  induction part with
  | nil => rw [nil_append, splitOn, if_pos rfl]
  | cons c part ih =>
    rw [mem_cons, not_or] at h
    rw [cons_append, splitOn, if_neg fun heq => h.1 heq.symm, ih h.2]

/-- Parts with a mark behind each are told apart by the mark. -/
theorem splitOn_flatMap {parts : List Bytes} (h : ∀ part ∈ parts, mark ∉ part) :
    splitOn mark (parts.flatMap (· ++ [mark])) = parts ++ [[]] := by
  induction parts with
  | nil => rfl
  | cons part parts ih =>
    rw [forall_mem_cons] at h
    rw [flatMap_cons, append_assoc, singleton_append, splitOn_append h.1, ih h.2, cons_append]

theorem linesOf_pair (t : Bytes) : linesOf (carriageReturn :: lineFeed :: t) = [] :: linesOf t := by
  simp [linesOf, unifyBreaks, splitOn, carriageReturn, lineFeed]

theorem linesOf_break (hbreak : isBreak c = true)
    (hpair : c = carriageReturn → t.head? ≠ some lineFeed) :
    linesOf (c :: t) = [] :: linesOf t := by
  simp only [isBreak, Bool.or_eq_true, beq_iff_eq] at hbreak
  rcases hbreak with rfl | rfl
  · simp [linesOf, unifyBreaks, splitOn, lineFeed]
  · have hunify : unifyBreaks (carriageReturn :: t) = 0x0a :: unifyBreaks t := by
      rw [carriageReturn, unifyBreaks]
      rintro t' rfl
      exact hpair rfl rfl
    rw [linesOf, hunify, splitOn, if_pos rfl, linesOf]

/-- A byte inside a line goes in front of the first line of what follows. -/
theorem linesOf_cons (hbreak : isBreak c = false) :
    ∃ line rest, linesOf t = line :: rest ∧ linesOf (c :: t) = (c :: line) :: rest := by
  simp only [isBreak, Bool.or_eq_false_iff, beq_eq_false_iff_ne] at hbreak
  obtain ⟨line, rest, hlines⟩ := exists_cons_of_ne_nil (splitOn_ne_nil 0x0a (unifyBreaks t))
  have hunify : unifyBreaks (c :: t) = c :: unifyBreaks t := by
    rw [unifyBreaks]
    · rintro t' rfl
      exact absurd rfl hbreak.2
    · rintro rfl
      exact absurd rfl hbreak.2
  refine ⟨line, rest, hlines, ?_⟩
  rw [linesOf, hunify, splitOn, if_neg hbreak.1, hlines]

/-- That an offset stands in a line of a source: behind the lines `above` and
the bytes `front` of its own, and in front of the bytes `back` of it and the
lines `below`. -/
structure InLine (s : Bytes) (o : Nat) (above : List Bytes) (front back : Bytes)
    (below : List Bytes) : Prop where
  lines : linesOf s = above ++ (front ++ back) :: below
  rest : linesOf (s.drop o) = back :: below
  position : positionIn s o = ⟨o, above.length + 1, front.length + 1⟩
  precedes : front <:+ s.take o

/-- That an offset stands in some line. -/
def HasLine (s : Bytes) (o : Nat) : Prop :=
  ∃ above front back below, InLine s o above front back below

namespace InLine

variable {above below : List Bytes} {front back : Bytes}

/-- A byte inside a line leads on in the same line. -/
theorem along (h : InLine s o above front back below) (hs : s.drop o = c :: t)
    (hbreak : isBreak c = false) : HasLine s (o + 1) := by
  obtain ⟨line, rest, hrest, hcons⟩ := linesOf_cons (t := t) hbreak
  obtain ⟨rfl, rfl⟩ := List.cons.inj (h.rest.symm.trans (hs ▸ hcons))
  have hdrop : s.drop (o + 1) = t := drop_add_of_drop (a := [c]) hs
  refine ⟨above, front ++ [c], line, below, ?_, ?_, ?_, ?_⟩
  · rw [h.lines, append_assoc, singleton_append]
  · rw [hdrop, hrest]
  · rw [positionIn_succ (endsBreak_of_not_isBreak hs hbreak), h.position]
    simp [Position.along]
  · have htake : s.take (o + 1) = s.take o ++ [c] := by
      rw [take_add_one, ← head?_drop, hs]
      rfl
    obtain ⟨earlier, hearlier⟩ := h.precedes
    exact ⟨earlier, by rw [htake, ← hearlier, append_assoc]⟩

/-- Behind a break the next line starts. -/
theorem past {o' : Nat} (h : InLine s o above front back below)
    (hlines : linesOf (s.drop o) = [] :: linesOf (s.drop o'))
    (hposition : positionIn s o' = ⟨o', (positionIn s o).line + 1, 1⟩) : HasLine s o' := by
  obtain ⟨line, rest, hrest⟩ :=
    exists_cons_of_ne_nil (splitOn_ne_nil 0x0a (unifyBreaks (s.drop o')))
  obtain ⟨rfl, rfl⟩ := List.cons.inj (h.rest.symm.trans hlines)
  refine ⟨above ++ [front], [], line, rest, ?_, hrest, ?_, nil_suffix⟩
  · rw [h.lines, append_nil, show linesOf (s.drop o') = line :: rest from hrest]
    simp
  · rw [hposition, h.position]
    simp

end InLine

/-- The byte at an offset leads to the next one, and a break of two bytes behind
both. -/
theorem HasLine.step (h : HasLine s o) (hlt : o < s.length) :
    HasLine s (o + 1) ∨ s[o + 1]? = some lineFeed ∧ HasLine s (o + 2) := by
  obtain ⟨above, front, back, below, h⟩ := h
  obtain ⟨c, t, hs⟩ := exists_cons_of_ne_nil (mt drop_eq_nil_iff.mp (by omega : ¬s.length ≤ o))
  have hdrop : s.drop (o + 1) = t := drop_add_of_drop (a := [c]) hs
  cases hbreak : isBreak c with
  | false => exact .inl (h.along hs hbreak)
  | true =>
    by_cases hpair : c = carriageReturn ∧ t.head? = some lineFeed
    · obtain ⟨rfl, hhead⟩ := hpair
      obtain ⟨t', rfl⟩ := head?_eq_some_iff.mp hhead
      obtain ⟨hinner, hends⟩ := endsBreak_of_pair hs
      have hbehind : s.drop (o + 2) = t' := drop_add_of_drop (a := [_, _]) hs
      refine .inr
        ⟨by rw [← head?_drop, hdrop, hhead], h.past (by rw [hs, hbehind, linesOf_pair]) ?_⟩
      rw [positionIn_succ_break hends, positionIn_succ hinner]
      simp only [Position.along, Position.mk.injEq, and_true]
      push_cast
      ring
    · have hsingle : c = carriageReturn → t.head? ≠ some lineFeed :=
        fun hc hhead => hpair ⟨hc, hhead⟩
      refine .inl (h.past (by rw [hs, hdrop, linesOf_break hbreak hsingle]) ?_)
      rw [positionIn_succ_break (endsBreak_of_isBreak hsingle hs hbreak)]
      push_cast
      rfl

/-- Every offset of a source that is not at a line feed stands in a line. -/
theorem hasLine (hlength : o ≤ s.length) (hfeed : s[o]? ≠ some lineFeed) : HasLine s o := by
  -- Line feeds are left out, as one may be the second byte of a break: going on from the offset
  -- `k`, that is passed
  -- over.
  have hrun : ∀ n k, k + n = o → HasLine s k → HasLine s o := by
    intro n
    induction n using Nat.strong_induction_on with
    | _ n ih =>
      intro k hk h
      cases n with
      | zero => exact hk ▸ h
      | succ n =>
        rcases h.step (by omega) with h' | ⟨hsecond, h'⟩
        · exact ih n (by omega) (k + 1) (by omega) h'
        · cases n with
          | zero => exact absurd (hk ▸ hsecond) hfeed
          | succ n => exact ih n (by omega) (k + 2) (by omega) h'
  obtain ⟨back, below, hlines⟩ := exists_cons_of_ne_nil (splitOn_ne_nil 0x0a (unifyBreaks s))
  exact hrun o 0 (Nat.zero_add o) ⟨[], [], back, below, hlines, hlines, positionIn_zero s,
    nil_suffix⟩

/-- What follows in the line of an offset starts with the byte there, unless
that ends the line. -/
theorem InLine.head?_back {above below : List Bytes} {front back : Bytes}
    (h : InLine s o above front back below) (hbreak : ∀ c, s[o]? = some c → isBreak c = false) :
    back.head? = s[o]? := by
  have hrest := h.rest
  rw [← head?_drop] at hbreak ⊢
  cases hs : s.drop o with
  | nil =>
    rw [hs] at hrest
    obtain ⟨rfl, -⟩ := List.cons.inj (show [[]] = back :: below from hrest)
    rfl
  | cons c t =>
    rw [hs] at hrest hbreak
    obtain ⟨line, rest, -, hcons⟩ := linesOf_cons (t := t) (hbreak c rfl)
    obtain ⟨rfl, -⟩ := List.cons.inj (hcons.symm.trans hrest)
    rfl

/-- That a location is the place of an offset in a source, and which line that
is in. The column is that of a byte of the line or the one behind the last.
There stands what stands at the offset, and in front of it what stands in front
of that. -/
structure Loc.Addresses (s : Bytes) (loc : Loc) (o : Nat) (line : Bytes) : Prop where
  place : loc.line = (positionIn s o).line ∧ loc.column = (positionIn s o).column
  number : 1 ≤ loc.line ∧ loc.line ≤ (linesOf s).length
  getLine : (linesOf s)[(loc.line - 1).toNat]? = some line
  column : 1 ≤ loc.column ∧ loc.column ≤ line.length + 1
  byte : (line.drop (loc.column - 1).toNat).head? = s[o]?
  precedes : line.take (loc.column - 1).toNat <:+ s.take o

theorem exists_addresses {loc : Loc} (hlength : o ≤ s.length)
    (hbreak : ∀ c, s[o]? = some c → isBreak c = false)
    (hplace : loc.line = (positionIn s o).line ∧ loc.column = (positionIn s o).column) :
    ∃ line, loc.Addresses s o line := by
  have hfeed : s[o]? ≠ some lineFeed := fun hfeed => absurd (hbreak _ hfeed) (by decide)
  obtain ⟨above, front, back, below, h⟩ := hasLine hlength hfeed
  have hline : loc.line = above.length + 1 := by rw [hplace.1, h.position]
  have hcolumn : loc.column = front.length + 1 := by rw [hplace.2, h.position]
  have hnumber : (loc.line - 1).toNat = above.length := by omega
  have hindex : (loc.column - 1).toNat = front.length := by omega
  refine ⟨front ++ back, hplace, ?_, ?_, ?_, ?_, ?_⟩
  · rw [h.lines, hline, length_append, length_cons]
    omega
  · rw [h.lines, hnumber, getElem?_append_right le_rfl, Nat.sub_self]
    rfl
  · rw [hcolumn, length_append]
    omega
  · rw [hindex, drop_left, h.head?_back hbreak]
  · rw [hindex, take_left]
    exact h.precedes

end Eel.CompileError
