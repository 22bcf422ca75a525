import Eel.Proofs.Source.Anchors

/-!
The way back from a cleaned text.

From the last anchor on, bytes are copied, and counting on from it gives the
place of every byte. The anchor is found by halving the list, which is right
since anchors come in the order of the cleaned text.
-/

namespace Eel

open List

/-- The place that a later offset comes from if all bytes up to it are
copied. -/
def Anchor.reach (a : Anchor) (dest : Int) : Position :=
  ⟨a.offset + (dest - a.dest), a.line, a.column + (dest - a.dest)⟩

namespace Cleaned

open Piece

theorem firstIndex_eq {p : Nat → Bool} {low high k : Nat} (hlow : low ≤ k) (hhigh : k ≤ high)
    (hbefore : ∀ i, low ≤ i → i < k → p i = false) (hbehind : ∀ i, k ≤ i → i < high → p i = true) :
    firstIndex p low high = k := by
  fun_induction firstIndex p low high with
  | case1 low high hlt middle hmiddle ih =>
    have hk : k ≤ middle := by
      by_contra hk
      have hfalse := hbefore middle (by omega) (by omega)
      rw [hmiddle] at hfalse
      cases hfalse
    exact ih hlow hk hbefore fun i hi hi' => hbehind i hi (by omega)
  | case2 low high hlt middle hmiddle ih =>
    have hk : middle + 1 ≤ k := by
      by_contra hk
      exact hmiddle (hbehind middle (by omega) (by omega))
    exact ih hk hhigh (fun i hi hi' => hbefore i (by omega) hi') hbehind
  | case3 low high hge => omega

variable {p : Piece} {a : Anchor} {x : UInt8}

/-- An offset is located by the last anchor that does not lie past it. -/
theorem locate_of_split {front back : List Anchor} {dest : Int}
    (hfront : ∀ b ∈ front ++ [a], b.dest ≤ dest) (hback : ∀ b ∈ back, dest < b.dest) :
    locate (front ++ a :: back) dest = a.reach dest := by
  have hsplit : front ++ a :: back = (front ++ [a]) ++ back := by simp
  have hindex (i : Nat) : (front ++ a :: back).toArray[i]? = ((front ++ [a]) ++ back)[i]? := by
    rw [getElem?_toArray, hsplit]
  unfold locate
  dsimp only
  rw [firstIndex_eq (k := front.length + 1) (Nat.zero_le _)]
  · simp [Anchor.reach]
  · simp
  · intro i _ hi
    have hlt : i < (front ++ [a]).length := by simpa using hi
    rw [hindex, getElem?_append_left hlt, getElem?_eq_getElem hlt]
    simpa using hfront _ (getElem_mem hlt)
  · intro i hi _
    have hge : (front ++ [a]).length ≤ i := by simpa using hi
    rw [hindex, getElem?_append_right hge]
    split
    · rename_i b hb
      simpa using hback b (mem_of_getElem? hb)
    · rfl

variable {s t : Bytes} {ps qs : List Piece} {d o : Nat}

theorem anchorAt_reach (s : Bytes) (d o : Nat) : (anchorAt s d o).reach d = positionIn s o := by
  simp [Anchor.reach, anchorAt, positionIn]

theorem anchorsFrom_append (d o : Nat) : anchorsFrom s d o (ps ++ qs) = anchorsFrom s d o ps ++
    anchorsFrom s (d + (ps.flatMap cleaned).length) (o + (ps.flatMap source).length) qs := by
  induction ps generalizing d o with
  | nil => simp [anchorsFrom]
  | cons p ps ih => simp [anchorsFrom, ih, Nat.add_assoc]

theorem dest_anchorsFrom (d o : Nat) : ∀ a ∈ anchorsFrom s d o ps,
    (d : Int) ≤ a.dest ∧ a.dest ≤ d + (ps.flatMap cleaned).length := by
  induction ps generalizing d o with
  | nil => simp [anchorsFrom]
  | cons p ps ih =>
    intro a ha
    rw [anchorsFrom, mem_append] at ha
    rw [flatMap_cons, length_append]
    rcases ha with ha | ha
    · obtain rfl : a = anchorAt s (d + p.cleaned.length) (o + p.source.length) := by
        split at ha
        · cases ha
        · simpa using ha
      simp only [anchorAt]
      omega
    · have hrest := ih _ _ a ha
      omega

theorem pairwise_anchorsFrom (d o : Nat) : (anchorsFrom s d o ps).Pairwise (·.dest ≤ ·.dest) := by
  induction ps generalizing d o with
  | nil => simp [anchorsFrom]
  | cons p ps ih =>
    rw [anchorsFrom, pairwise_append]
    refine ⟨by split <;> simp, ih _ _, ?_⟩
    intro a ha b hb
    have hbound := dest_anchorsFrom _ _ b hb
    split at ha
    · cases ha
    · obtain rfl : a = anchorAt s (d + p.cleaned.length) (o + p.source.length) := by simpa using ha
      exact hbound.1

/-- The first piece of a cut, and the cut of the rest. -/
theorem Cuts.uncons (h : Cuts t (p :: ps)) : ∃ t', t = p.source ++ t' ∧ Cuts t' ps ∧
    ∀ c, p = .copied c → Bytes.isBreak c = false := by
  cases h with
  | copied hbreak _ h =>
    refine ⟨_, rfl, h, ?_⟩
    rintro c ⟨⟩
    exact hbreak
  | breakPair h | breakByte _ _ h | lineComment _ _ h => exact ⟨_, rfl, h, by simp⟩
  | blockComment _ h => exact ⟨_, by simp [source], h, by simp⟩
  | openComment => exact ⟨[], by simp [source], .nil, by simp⟩

/-- Behind some pieces, the last anchor so far reaches the place where they
end. -/
theorem Cuts.exists_last (h : Cuts t (ps ++ qs)) (hs : s.drop o = t)
    (ha : a.reach d = positionIn s o) :
    ∃ front b, a :: anchorsFrom s d o ps = front ++ [b] ∧
      b.reach (d + (ps.flatMap cleaned).length : Nat) =
        positionIn s (o + (ps.flatMap source).length) := by
  induction ps generalizing t d o a with
  | nil => exact ⟨[], a, rfl, ha⟩
  | cons p ps ih =>
    obtain ⟨t', rfl, h', hcopied⟩ := h.uncons
    have hnext := drop_add_of_drop hs
    simp only [flatMap_cons, length_append, ← Nat.add_assoc]
    cases hp : p.isCopied with
    | true =>
      obtain ⟨c, rfl⟩ : ∃ c, p = .copied c := by cases p <;> simp_all [isCopied]
      have hreach : a.reach (d + 1 : Nat) = positionIn s (o + 1) := by
        rw [positionIn_succ (endsBreak_of_not_isBreak hs (hcopied c rfl)), ← ha]
        simp only [Anchor.reach, Position.along, Position.mk.injEq]
        push_cast
        refine ⟨by ring, trivial, by ring⟩
      exact ih h' hnext hreach
    | false =>
      obtain ⟨front, b, hfront, hb⟩ := ih h' hnext (anchorAt_reach s (d + p.cleaned.length) _)
      refine ⟨a :: front, b, ?_, hb⟩
      rw [anchorsFrom, hp, cons_append, ← hfront]
      rfl

/-- That a piece stands at an offset of the source, and what it leaves at an
offset of the cleaned text. -/
def StandsAt (ps : List Piece) (p : Piece) (d o : Nat) : Prop :=
  ∃ before after, ps = before ++ p :: after ∧ d = (before.flatMap cleaned).length ∧
    o = (before.flatMap source).length

/-- What is said of a source, its pieces and what it is cleaned to. Every byte
of the cleaned text is what one piece leaves and is located where that piece
starts, and the end of the text is located at the end of the source. -/
structure Traces (s : Bytes) (ps : List Piece) (c : Cleaned) : Prop where
  text : c.text = ps.flatMap cleaned
  sorted : c.anchors.Pairwise (·.dest ≤ ·.dest)
  produced : ∀ {d : Nat} {x : UInt8}, c.text[d]? = some x →
    ∃ p o, StandsAt ps p d o ∧ p.cleaned = [x] ∧ locate c.anchors d = positionIn s o
  copied : ∀ {x : UInt8} {d o : Nat}, StandsAt ps (.copied x) d o → s[o]? = some x ∧
    c.text[d]? = some x
  finish : locate c.anchors c.text.length = positionIn s s.length
  increasing : ∀ {d d' : Nat}, d < d' → d' ≤ c.text.length →
    (locate c.anchors d).offset < (locate c.anchors d').offset

theorem exists_standsAt (h : (ps.flatMap cleaned)[d]? = some x) :
    ∃ p o, StandsAt ps p d o ∧ p.cleaned = [x] := by
  induction ps generalizing d with
  | nil => simp at h
  | cons p ps ih =>
    rw [flatMap_cons] at h
    have hlength : p.cleaned.length ≤ 1 := by cases p <;> simp [cleaned]
    by_cases hd : d < p.cleaned.length
    · obtain rfl : d = 0 := by omega
      rw [getElem?_append_left hd] at h
      refine ⟨p, 0, ⟨[], ps, rfl, rfl, rfl⟩, ?_⟩
      cases p <;> simp_all [cleaned]
    · rw [getElem?_append_right (by omega)] at h
      obtain ⟨q, o, ⟨before, after, rfl, hbefore, -⟩, hx⟩ := ih h
      refine ⟨q, _, ⟨p :: before, after, rfl, ?_, rfl⟩, hx⟩
      rw [flatMap_cons, length_append]
      omega

section Cut

variable (h : Cuts s ps)

include h

theorem Cuts.source_ne_nil : ∀ p ∈ ps, p.source ≠ [] := by
  induction h with
  | nil => simp
  | copied _ _ _ ih | breakPair _ ih | breakByte _ _ _ ih | lineComment _ _ _ ih
  | blockComment _ _ ih =>
    simpa [source] using ih
  | openComment => simp [source]

theorem ofSource_eq :
    ofSource s = ⟨ps.flatMap cleaned, anchorAt s 0 0 :: anchorsFrom s 0 0 ps⟩ := by
  have hstart : Anchor.start = anchorAt s 0 0 := by
    simp [anchorAt, positionIn_zero, Anchor.start, Position.start]
  rw [ofSource, hstart, h.scan_eq drop_zero]
  rfl

theorem text_ofSource : (ofSource s).text = ps.flatMap cleaned := by
  rw [ofSource_eq h]

omit h in
/-- Where some pieces end, if what follows next leaves a byte or nothing
follows. -/
theorem Cuts.locate_behind (h : Cuts s (ps ++ qs))
    (hqs : ∀ a ∈ anchorsFrom s (ps.flatMap cleaned).length
      (ps.flatMap source).length qs, ((ps.flatMap cleaned).length : Int) < a.dest) :
    locate (ofSource s).anchors (ps.flatMap cleaned).length =
      positionIn s (ps.flatMap source).length := by
  obtain ⟨front, b, hfront, hb⟩ := h.exists_last drop_zero (anchorAt_reach s 0 0)
  have hsplit : (ofSource s).anchors = front ++ b :: anchorsFrom s (ps.flatMap cleaned).length
      (ps.flatMap source).length qs := by
    rw [ofSource_eq h, anchorsFrom_append, ← cons_append, hfront, Nat.zero_add, Nat.zero_add]
    simp
  rw [Nat.zero_add, Nat.zero_add] at hb
  rw [hsplit, locate_of_split ?_ hqs, hb]
  intro a ha
  rw [← hfront, mem_cons] at ha
  rcases ha with rfl | ha
  · exact Int.ofNat_le.mpr (Nat.zero_le _)
  · simpa only [Nat.cast_zero, zero_add] using (dest_anchorsFrom 0 0 a ha).2

theorem Cuts.locate_standsAt (hp : StandsAt ps p d o) (hcleaned : p.cleaned ≠ []) :
    locate (ofSource s).anchors d = positionIn s o := by
  obtain ⟨before, after, rfl, rfl, rfl⟩ := hp
  refine h.locate_behind fun a ha => ?_
  have hpos : 0 < p.cleaned.length := length_pos_iff.mpr hcleaned
  rw [anchorsFrom, mem_append] at ha
  rcases ha with ha | ha
  · split at ha
    · cases ha
    · obtain rfl := mem_singleton.mp ha
      simp only [anchorAt]
      omega
  · have hdest := (dest_anchorsFrom _ _ a ha).1
    omega

theorem Cuts.locate_finish :
    locate (ofSource s).anchors (ofSource s).text.length = positionIn s s.length := by
  have happend : Cuts s (ps ++ []) := by rwa [append_nil]
  have hbehind := happend.locate_behind (by simp [anchorsFrom])
  rwa [h.source_eq, ← text_ofSource h] at hbehind

/-- The further a piece leaves something, the further it stands. -/
theorem Cuts.length_source_lt {before before' after after' : List Piece}
    (hps : ps = before ++ after) (hps' : ps = before' ++ after')
    (hlt : (before.flatMap cleaned).length < (before'.flatMap cleaned).length) :
    (before.flatMap source).length < (before'.flatMap source).length := by
  rcases append_eq_append_iff.mp (hps.symm.trans hps') with ⟨between, rfl, rfl⟩
      | ⟨between, rfl, rfl⟩
  · cases between with
    | nil => simp at hlt
    | cons p between =>
      have hsource := length_pos_iff.mpr (h.source_ne_nil p (by simp [hps]))
      simp only [flatMap_append, flatMap_cons, length_append]
      omega
  · simp only [flatMap_append, length_append] at hlt
    omega

theorem Cuts.locate_lt {d' : Nat} (hlt : d < d') (hle : d' ≤ (ofSource s).text.length) :
    (locate (ofSource s).anchors d).offset < (locate (ofSource s).anchors d').offset := by
  have htext := text_ofSource h
  have hreaches {d : Nat} (hd : d ≤ (ofSource s).text.length) : ∃ before after,
      ps = before ++ after ∧ d = (before.flatMap cleaned).length ∧
        locate (ofSource s).anchors d = positionIn s (before.flatMap source).length := by
    rcases hd.lt_or_eq with hd | rfl
    · obtain ⟨p, o, hp, hx⟩ := exists_standsAt (getElem?_eq_getElem (htext ▸ hd))
      have hlocate := h.locate_standsAt hp (by simp [hx])
      obtain ⟨before, after, rfl, rfl, rfl⟩ := hp
      exact ⟨before, _, rfl, rfl, hlocate⟩
    · exact ⟨ps, [], by simp, by rw [htext], by rw [h.locate_finish, h.source_eq]⟩
  obtain ⟨before, after, hps, rfl, hlocate⟩ := hreaches (hlt.le.trans hle)
  obtain ⟨before', after', hps', rfl, hlocate'⟩ := hreaches hle
  have hsource := h.length_source_lt hps hps' hlt
  rw [hlocate, hlocate']
  exact Int.ofNat_lt.mpr hsource

theorem Cuts.copied_at (hp : StandsAt ps (.copied x) d o) :
    s[o]? = some x ∧ (ofSource s).text[d]? = some x := by
  obtain ⟨before, after, rfl, rfl, rfl⟩ := hp
  have hsource := h.source_eq
  rw [text_ofSource h, ← hsource]
  simp [source, cleaned]

end Cut

/-- Every source is cut into pieces, and however it is cut, cleaning leaves what
the pieces leave and locates every offset of the cleaned text at the place of
the piece that it comes from. -/
theorem traces_ofSource (s : Bytes) :
    (∃ ps, Cuts s ps) ∧ ∀ ps, Cuts s ps → Traces s ps (ofSource s) := by
  refine ⟨exists_cuts s, fun ps h => ?_⟩
  have htext := text_ofSource h
  refine ⟨htext, ?_, ?_, h.copied_at, h.locate_finish, h.locate_lt⟩
  · rw [ofSource_eq h, pairwise_cons]
    exact ⟨fun a ha => (dest_anchorsFrom 0 0 a ha).1, pairwise_anchorsFrom 0 0⟩
  · intro d x hx
    obtain ⟨p, o, hp, hcleaned⟩ := exists_standsAt (htext ▸ hx)
    exact ⟨p, o, hp, hcleaned, h.locate_standsAt hp (by simp [hcleaned])⟩

/-- A comment of each kind and a line break of each kind, two of the breaks
inside comments. -/
def everyPiece : List Piece :=
  [.copied 0x61, .lineComment [0x78], .lineBreak [Bytes.carriageReturn, Bytes.lineFeed],
    .blockComment [Bytes.carriageReturn, Bytes.star], .copied 0x62,
    .lineBreak [Bytes.carriageReturn], .openComment [Bytes.lineFeed]]

theorem traces_everyPiece : Cuts (everyPiece.flatMap Piece.source) everyPiece ∧
    Traces (everyPiece.flatMap Piece.source) everyPiece
      (ofSource (everyPiece.flatMap Piece.source)) := by
  have hcuts : Cuts (everyPiece.flatMap Piece.source) everyPiece :=
    .copied rfl rfl (@Cuts.lineComment [0x78] _ _ (forall_mem_singleton.mpr rfl)
      (by simp [Piece.source, Bytes.isBreak]) (.breakPair
        (@Cuts.blockComment [Bytes.carriageReturn, Bytes.star] _ _ (by decide) (.copied rfl rfl
          (.breakByte rfl (by decide) (.openComment (by decide)))))))
  exact ⟨hcuts, (traces_ofSource _).2 everyPiece hcuts⟩

end Cleaned

end Eel
