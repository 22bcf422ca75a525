import Eel.Proofs.Token.Tiling
import Eel.Proofs.Tree.Parsing

/-!
Texts that differ in the case of letters.

Comments, line breaks, blanks, numbers and symbols are made of bytes that are no
letters, and names take letters of both cases. So a text in lower case is
cleaned at the same places as the text itself, and it is cut into tokens of the
same kinds that start at the same places. Only the letters of names differ.
-/

namespace Eel

open List

namespace Bytes

/-- That two texts differ at most in the case of ASCII letters. -/
def SameButCase (s s' : Bytes) : Prop := s.map toLower = s'.map toLower

/-- That a class of bytes does not tell the cases of a letter apart. -/
def CaseBlind (p : UInt8 → Bool) : Prop := ∀ c, p (toLower c) = p c

theorem toLower_toLower (c : UInt8) : toLower (toLower c) = toLower c :=
  toLower_of_not_isUpper (isUpper_toLower c)

theorem toLower_of_high {n : Nat} (hlow : 0x80 ≤ n) (hhigh : n < 0x100) :
    toLower n.toUInt8 = n.toUInt8 := by
  have hnat : n.toUInt8.toNat = n := UInt8.toNat_ofNat_of_lt' hhigh
  refine toLower_of_not_isUpper ?_
  rw [← Bool.not_eq_true, isUpper_iff, hnat]
  omega

/-- A byte that is no letter is the lower-case form of itself only. -/
theorem toLower_eq_iff {b c : UInt8} (hb : isLetter b = false) : toLower c = b ↔ c = b := by
  rw [← Bool.not_eq_true, isLetter, Bool.or_eq_true, isLower_iff, isUpper_iff] at hb
  rw [← UInt8.toNat_inj, ← UInt8.toNat_inj, toNat_toLower]
  split <;> omega

theorem caseBlind_beq {b : UInt8} (hb : isLetter b = false) : CaseBlind (· == b) := by
  intro c
  rw [Bool.eq_iff_iff, beq_iff_eq, beq_iff_eq, toLower_eq_iff hb]

theorem caseBlind_isBreak : CaseBlind isBreak := fun c =>
  congrArg₂ _ (caseBlind_beq (b := lineFeed) rfl c) (caseBlind_beq (b := carriageReturn) rfl c)

theorem sameButCase_map (s : Bytes) : s.SameButCase (s.map toLower) := by
  rw [SameButCase, map_map, show toLower ∘ toLower = toLower from funext toLower_toLower]

/-- A text without letters has no other case. -/
theorem SameButCase.eq {s s' : Bytes} (h : s.SameButCase s') (hs : ∀ c ∈ s, isLetter c = false) :
    s = s' := by
  induction s generalizing s' with
  | nil => exact (map_eq_nil_iff.mp h.symm).symm
  | cons c s ih =>
    obtain ⟨c', s', rfl, hc, hrest⟩ := map_eq_cons_iff.mp h.symm
    have hletter := hs c mem_cons_self
    rw [(toLower_eq_iff hletter).mpr rfl, toLower_eq_iff hletter] at hc
    rw [hc, ih hrest.symm fun d hd => hs d (mem_cons_of_mem c hd)]

theorem CaseBlind.eq {p : UInt8 → Bool} (h : CaseBlind p) {c c' : UInt8}
    (hc : toLower c = toLower c') : p c = p c' := by
  rw [← h c, hc, h]

theorem CaseBlind.forall_mem {p : UInt8 → Bool} (h : CaseBlind p) {s s' : Bytes}
    (hs : s.map toLower = s'.map toLower) (hp : ∀ c ∈ s, p c = true) : ∀ c ∈ s', p c = true := by
  intro c hc
  obtain ⟨d, hd, heq⟩ := mem_map.mp (hs ▸ mem_map_of_mem hc)
  rw [← h.eq heq, hp d hd]

/-- Where two bytes that are no letters do not stand, they do not stand in the
text in lower case. -/
theorem not_pair_map_toLower {b d c : UInt8} {s : Bytes} (hb : isLetter b = false)
    (hd : isLetter d = false) (h : ∀ rest, c = b → s = d :: rest → False) (rest : Bytes)
    (hc : toLower c = b) (hs : s.map toLower = d :: rest) : False := by
  obtain ⟨c', s', rfl, hc', -⟩ := map_eq_cons_iff.mp hs
  rw [toLower_eq_iff hd] at hc'
  exact h s' ((toLower_eq_iff hb).mp hc) (by rw [hc'])

end Bytes

open Bytes

theorem Position.past_toLower (p : Position) (c : UInt8) : p.past (toLower c) = p.past c := by
  have hfeed : toLower c = lineFeed ↔ c = lineFeed := toLower_eq_iff rfl
  simp only [past, hfeed]

namespace Cleaned

/-- A cleaned text in lower case. -/
def lowered (r : Cleaned) : Cleaned := { r with text := r.text.map toLower }

theorem scan_map_toLower (mode : Mode) (a : Anchor) (s : Bytes) :
    scan mode a (s.map toLower) = (scan mode a s).lowered := by
  fun_induction scan mode a s with
  | case1 | case7 | case11 => rfl
  | case2 a s ih => exact ih
  | case3 a s ih => exact congrArg (put blank) ih
  | case4 a s b ih => exact congrArg (fun r => put lineFeed (mark b r)) ih
  | case5 a c s hline hblock hpair hbreak b ih =>
    rw [map_cons, scan, caseBlind_isBreak, if_pos hbreak]
    · exact congrArg (fun r => put lineFeed (mark b r)) ih
    · exact not_pair_map_toLower rfl rfl hline
    · exact not_pair_map_toLower rfl rfl hblock
    · exact not_pair_map_toLower rfl rfl hpair
  | case6 a c s hline hblock hpair hbreak ih =>
    rw [map_cons, scan, caseBlind_isBreak, if_neg hbreak]
    · exact congrArg (put (toLower c)) ih
    · exact not_pair_map_toLower rfl rfl hline
    · exact not_pair_map_toLower rfl rfl hblock
    · exact not_pair_map_toLower rfl rfl hpair
  | case8 a s b ih => exact congrArg (fun r => mark a (put lineFeed (mark b r))) ih
  | case9 a c s hpair hbreak b ih =>
    rw [map_cons, scan, caseBlind_isBreak, if_pos hbreak]
    · exact congrArg (fun r => mark a (put lineFeed (mark b r))) ih
    · exact not_pair_map_toLower rfl rfl hpair
  | case10 a c s hpair hbreak ih =>
    rw [map_cons, scan, caseBlind_isBreak, if_neg hbreak]
    · exact ih
    · exact not_pair_map_toLower rfl rfl hpair
  | case12 a s ih => exact congrArg (mark (a.skip 2)) ih
  | case13 a s ih => exact ih
  | case14 a c s hclose hpair hbreak ih =>
    rw [map_cons, scan, caseBlind_isBreak, if_pos hbreak]
    · exact ih
    · exact not_pair_map_toLower rfl rfl hclose
    · exact not_pair_map_toLower rfl rfl hpair
  | case15 a c s hclose hpair hbreak ih =>
    rw [map_cons, scan, caseBlind_isBreak, if_neg hbreak]
    · exact ih
    · exact not_pair_map_toLower rfl rfl hclose
    · exact not_pair_map_toLower rfl rfl hpair

theorem ofSource_map_toLower (s : Bytes) : ofSource (s.map toLower) = (ofSource s).lowered :=
  congrArg (mark .start) (scan_map_toLower .code .start s)

end Cleaned

namespace Token

theorem caseBlind_isSpace : CaseBlind isSpace := by
  intro c
  rw [Bool.eq_iff_iff, isSpace_iff, isSpace_iff, toNat_toLower]
  split <;> omega

theorem caseBlind_startsName : CaseBlind startsName := by
  intro c
  rw [Bool.eq_iff_iff, startsName_iff, startsName_iff, toNat_toLower]
  split <;> omega

theorem caseBlind_continuesName : CaseBlind continuesName := by
  intro c
  rw [Bool.eq_iff_iff, continuesName_iff, continuesName_iff, toNat_toLower]
  split <;> omega

/-- A byte that starts no name has no other case. -/
theorem toLower_of_not_startsName {c : UInt8} (h : startsName c = false) : toLower c = c := by
  refine toLower_of_not_isUpper ?_
  rw [← Bool.not_eq_true, startsName_iff] at h
  rw [← Bool.not_eq_true, isUpper_iff]
  omega

/-- What follows a gap, in lower case. -/
def Gap.lowered : Gap → Gap
  | .token at_ rest => .token at_ (rest.map toLower)
  | .openComment start => .openComment start

theorem skipGap_map_toLower (mode : Cleaned.Mode) (opened p : Position) (s : Bytes) :
    skipGap mode opened p (s.map toLower) = (skipGap mode opened p s).lowered := by
  fun_induction skipGap mode opened p s with
  | case1 opened p s ih => exact ih
  | case2 opened p s ih => exact ih
  | case3 opened p c s hline hblock hspace ih =>
    rw [map_cons, skipGap, caseBlind_isSpace, if_pos hspace, p.past_toLower]
    · exact ih
    · exact not_pair_map_toLower rfl rfl hline
    · exact not_pair_map_toLower rfl rfl hblock
  | case4 opened p c s hline hblock hspace =>
    rw [map_cons, skipGap, caseBlind_isSpace, if_neg hspace]
    · rfl
    · exact not_pair_map_toLower rfl rfl hline
    · exact not_pair_map_toLower rfl rfl hblock
  | case5 opened p c s ih =>
    have hfeed : toLower c = lineFeed ↔ c = lineFeed := toLower_eq_iff rfl
    simpa only [map_cons, skipGap, hfeed, p.past_toLower] using ih
  | case6 opened p s ih => exact ih
  | case7 opened p c s hclose ih =>
    rw [map_cons, skipGap, p.past_toLower]
    · exact ih
    · exact not_pair_map_toLower rfl rfl hclose
  | case8 opened p => rfl
  | case9 mode opened p hmode => cases mode <;> first | rfl | exact absurd rfl hmode

/-- What a number or a symbol is made of has no case. -/
theorem Kind.Admits.not_isLetter {kind : Kind} {w : Bytes} (h : kind.Admits w)
    (hword : kind.isWord = false) : ∀ c ∈ w, isLetter c = false := by
  cases h with
  | identifier | ifWord => cases hword
  | symbol symbol =>
    have hall : symbol.text.all (!isLetter ·) = true := by cases symbol <;> rfl
    simpa using hall
  | number h =>
    intro c hc
    rw [← Bool.not_eq_true, isLetter, Bool.or_eq_true, isLower_iff, isUpper_iff]
    rcases h.mem hc with hdigit | rfl
    · rw [isDigit_iff] at hdigit
      omega
    · decide

theorem Kind.Admits.sameButCase {kind : Kind} {w w' : Bytes} (h : kind.Admits w)
    (hw : w.SameButCase w') : kind.Admits w' := by
  cases hword : kind.isWord with
  | false => exact hw.eq (h.not_isLetter hword) ▸ h
  | true =>
    have hif : isIfWord w' = isIfWord w := by rw [isIfWord, isIfWord, hw]
    cases h with
    | number | symbol => cases hword
    | identifier hc hrest hself | ifWord hc hrest hself =>
      obtain ⟨c', rest', rfl, hc', hrest'⟩ := map_eq_cons_iff.mp hw.symm
      constructor
      · rwa [caseBlind_startsName.eq hc']
      · exact caseBlind_continuesName.forall_mem hrest'.symm hrest
      · exact hif.trans hself

/-- What a text in lower case starts with, the text itself starts with in its
own case. -/
theorem Kind.Admits.of_prefix_map {kind : Kind} {s w : Bytes} (h : kind.Admits w)
    (hw : w <+: s.map toLower) : ∃ w', kind.Admits w' ∧ w' <+: s ∧ w'.length = w.length := by
  obtain ⟨w', hfront, rfl⟩ := prefix_map_iff.mp hw
  exact ⟨w', h.sameButCase (sameButCase_map w').symm, hfront, (length_map _).symm⟩

/-- The record of a byte that starts no token holds no upper-case letter. -/
theorem map_toLower_encodePoint {c : UInt8} (h : startsName c = false) :
    (Text.encodePoint c.toNat).map toLower = Text.encodePoint c.toNat := by
  have hc := c.toNat_lt
  unfold Text.encodePoint
  split
  · simp [toLower_of_not_startsName h]
  · rw [if_pos (by omega)]
    simp only [map_cons, map_nil]
    rw [toLower_of_high (by omega) (by omega), toLower_of_high (by omega) (by omega)]

/-- A text in lower case starts with a token of the same kind, in lower case. -/
theorem classify_map_toLower (s : Bytes) :
    classify (s.map toLower) = ((classify s).1, (classify s).2.map toLower) := by
  cases s with
  | nil => rfl
  | cons c s =>
    obtain hlongest | ⟨hillegal, hnone⟩ := classify_longest c s
    · have hadmits := hlongest.admits.sameButCase (sameButCase_map _)
      refine Longest.classify_eq ⟨hadmits, hlongest.front.map toLower, fun h hw => ?_⟩
      obtain ⟨w', hw', hfront, hlength⟩ := h.of_prefix_map hw
      rw [← hlength, length_map]
      exact hlongest.length_le hw' hfront
    · have hc : startsName c = false := by
        by_contra hc
        have hword := longest_word (c := c) (s := s) (by simpa using hc)
        exact hnone _ _ hword.admits hword.front
      rw [map_cons, classify_of_illegal, hillegal, toLower_of_not_startsName hc,
        map_toLower_encodePoint hc]
      intro kind w hw hfront
      obtain ⟨w', hw', hfront', -⟩ := hw.of_prefix_map (s := c :: s) hfront
      exact hnone kind w' hw' hfront'

/-- Two tokens that differ at most in the case of a name. -/
structure SameButCase (t t' : Token) : Prop where
  kind : t.kind = t'.kind
  start : t.start = t'.start
  length : t.lexeme.length = t'.lexeme.length
  name : t.kind = .identifier ∨ t.kind = .ifWord → Text.lower t.lexeme = Text.lower t'.lexeme
  number : t.kind = .number → t.lexeme = t'.lexeme

namespace SameButCase

variable {t t' t₁ : Token}

theorem refl (t : Token) : t.SameButCase t := ⟨rfl, rfl, rfl, fun _ => rfl, fun _ => rfl⟩

theorem symm (h : t.SameButCase t') : t'.SameButCase t :=
  ⟨h.kind.symm, h.start.symm, h.length.symm, fun hkind => (h.name (h.kind ▸ hkind)).symm,
    fun hkind => (h.number (h.kind ▸ hkind)).symm⟩

theorem trans (h : t.SameButCase t') (h' : t'.SameButCase t₁) : t.SameButCase t₁ :=
  ⟨h.kind.trans h'.kind, h.start.trans h'.start, h.length.trans h'.length,
    fun hkind => (h.name hkind).trans (h'.name (h.kind ▸ hkind)),
    fun hkind => (h.number hkind).trans (h'.number (h.kind ▸ hkind))⟩

theorem stop (h : t.SameButCase t') : t.stop = t'.stop := by
  rw [Token.stop, Token.stop, h.start, h.length]

theorem span (h : t.SameButCase t') : t.span = t'.span := by
  rw [Token.span, Token.span, h.start, h.stop]

end SameButCase

theorem lower_map_toLower {s : Bytes} (h : ∀ c ∈ s, continuesName c = true) :
    Text.lower (s.map toLower) = Text.lower s := by
  have hs : s.all continuesName = true := all_eq_true.mpr h
  have hlowered : (s.map toLower).all continuesName = true := by
    rw [all_map,
      show continuesName ∘ toLower = continuesName from funext caseBlind_continuesName, hs]
  rw [lower_of_continuesName hs, lower_of_continuesName hlowered, ← sameButCase_map]

/-- The first token of a text and of the text in lower case. -/
theorem sameButCase_classify (p : Position) (s : Bytes) :
    SameButCase ⟨(classify s).1, (classify s).2, p⟩
      ⟨(classify s).1, (classify s).2.map toLower, p⟩ := by
  refine ⟨rfl, rfl, (length_map _).symm, ?_, ?_⟩
  · intro hname
    dsimp only at hname ⊢
    have hlast : (classify s).1.isLast = false := by
      rcases hname with hname | hname <;> rw [hname] <;> rfl
    refine (lower_map_toLower ((longest_classify hlast).admits.continuesName ?_)).symm
    rcases hname with hname | hname <;> simp [hname]
  · intro hnumber
    dsimp only at hnumber ⊢
    have hadmits := (longest_classify (s := s) (by rw [hnumber]; rfl)).admits
    rw [hnumber] at hadmits
    exact (sameButCase_map _).eq (hadmits.not_isLetter rfl)

theorem sameButCase_listWithin (fuel : Nat) (p : Position) (s : Bytes) :
    List.Forall₂ SameButCase (listWithin fuel p s) (listWithin fuel p (s.map toLower)) := by
  induction fuel generalizing p s with
  | zero => exact .cons (.refl _) .nil
  | succ fuel ih =>
    have hgap := skipGap_map_toLower .code p p s
    cases hskip : skipGap .code p p s with
    | openComment start =>
      rw [hskip] at hgap
      rw [listWithin, listWithin, hskip, hgap]
      exact .cons (.refl _) .nil
    | token p' u =>
      rw [hskip] at hgap
      have hfirst := sameButCase_classify p' u
      rw [listWithin_of_skipGap hskip, listWithin_of_skipGap hgap, classify_map_toLower, length_map,
        ← map_drop]
      split
      · exact .cons hfirst .nil
      · exact .cons hfirst (ih _ _)

/-- The tokens of two texts that differ in the case of letters differ in the
case of names. -/
theorem sameButCase_list {s s' : Bytes} (h : s.SameButCase s') :
    List.Forall₂ SameButCase (list s) (list s') := by
  have hlength : s.length = s'.length := by simpa using congrArg List.length h
  have hs := sameButCase_listWithin (s.length + 1) .start s
  have hs' := sameButCase_listWithin (s.length + 1) .start s'
  rw [list, list, ← hlength]
  rw [show s.map toLower = s'.map toLower from h] at hs
  exact forall₂_trans (fun t u t' ht ht' => ht.trans ht'.symm) hs hs'.flip

end Token

namespace Cleaned

/-- Two sources that differ in the case of letters are cleaned alike, and what
is left is found at the same places. -/
theorem sameButCase_ofSource {s s' : Bytes} (h : s.SameButCase s') :
    (ofSource s).text.SameButCase (ofSource s').text ∧
    (ofSource s).anchors = (ofSource s').anchors := by
  have hlowered : (ofSource s).lowered = (ofSource s').lowered := by
    rw [← ofSource_map_toLower, ← ofSource_map_toLower, show s.map toLower = s'.map toLower from h]
  have hanchors : (ofSource s).lowered.anchors = (ofSource s').lowered.anchors := by rw [hlowered]
  exact ⟨congrArg text hlowered, hanchors⟩

end Cleaned

end Eel
