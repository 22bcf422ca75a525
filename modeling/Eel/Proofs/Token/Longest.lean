import Eel.Proofs.Bytes

/-!
Tokens are as long as they can be.

The texts of each kind of token are told by their form: names, numbers of four
shapes, and the spellings of the symbols. Words, numbers and symbols differ in
their first byte. Of all the texts of any kind that a text starts with, a lexer
takes the longest, and it finds an illegal byte only where there is none.
-/

namespace Eel.Token

open Bytes Eel.Symbol List

/-- That a text is a number: digits, or digits on one side of a point or on
both. -/
inductive IsNumeral : Bytes → Prop
  | whole {digits : Bytes} (hne : digits ≠ []) (hdigits : ∀ c ∈ digits, isDigit c = true) :
      IsNumeral digits
  | point {digits fraction : Bytes} (hdigits : ∀ c ∈ digits, isDigit c = true)
      (hfraction : ∀ c ∈ fraction, isDigit c = true) (hne : digits ≠ [] ∨ fraction ≠ []) :
      IsNumeral (digits ++ '.'.toUInt8 :: fraction)

/-- That a text is one of a kind of token. The kinds that end a list of tokens
have no texts. -/
inductive Kind.Admits : Kind → Bytes → Prop
  | identifier {c : UInt8} {rest : Bytes} (hc : startsName c = true)
      (hrest : ∀ d ∈ rest, continuesName d = true)
      (hif : isIfWord (c :: rest) = false) : Admits .identifier (c :: rest)
  | ifWord {c : UInt8} {rest : Bytes} (hc : startsName c = true)
      (hrest : ∀ d ∈ rest, continuesName d = true)
      (hif : isIfWord (c :: rest) = true) : Admits .ifWord (c :: rest)
  | number {w : Bytes} (h : IsNumeral w) : Admits .number w
  | symbol (symbol : Symbol) : Admits (.symbol symbol) symbol.text

/-- That a text starts with one of a kind, and with no longer one of any
kind. -/
structure Longest (s : Bytes) (kind : Kind) (w : Bytes) : Prop where
  admits : kind.Admits w
  front : w <+: s
  length_le : ∀ {kind' : Kind} {w' : Bytes}, kind'.Admits w' → w' <+: s → w'.length ≤ w.length

variable {c : UInt8} {s w : Bytes} {kind kind' : Kind} {symbol : Symbol}

theorem isSpace_iff : isSpace c = true ↔ c.toNat = 32 ∨ 9 ≤ c.toNat ∧ c.toNat ≤ 13 := by
  simp only [isSpace, Bool.or_eq_true, beq_iff_eq, Bool.and_eq_true, decide_eq_true_eq,
    UInt8.le_iff_toNat_le, ← UInt8.toNat_inj]
  rfl

section Numeral

/-- A number is read up to the end of its digits, or of those behind a point
that follows them. -/
theorem numberText_cases (s : Bytes) :
    ∃ digits rest, (∀ c ∈ digits, isDigit c = true) ∧ s = digits ++ rest ∧
    ((numberText s = digits ∧ ∀ c, rest.head? = some c → isDigit c = false ∧ c ≠ '.'.toUInt8) ∨
      ∃ behind, rest = '.'.toUInt8 :: behind ∧
        numberText s = digits ++ '.'.toUInt8 :: behind.takeWhile isDigit) := by
  have hstop := head?_dropWhile_not isDigit s
  have hdrop : (s.takeWhile isDigit ++ s.dropWhile isDigit).drop (s.takeWhile isDigit).length =
      s.dropWhile isDigit :=
    drop_left
  rw [takeWhile_append_dropWhile] at hdrop
  refine ⟨_, _, fun _ => mem_takeWhile_imp, takeWhile_append_dropWhile.symm, ?_⟩
  unfold numberText
  dsimp only
  rw [hdrop]
  cases hrest : s.dropWhile isDigit with
  | nil => exact .inl ⟨rfl, nofun⟩
  | cons c behind =>
    rw [hrest] at hstop
    by_cases hc : c = '.'.toUInt8
    · subst hc
      exact .inr ⟨behind, rfl, if_pos rfl⟩
    · refine .inl ⟨if_neg hc, ?_⟩
      rintro _ ⟨⟩
      exact ⟨by simpa using hstop, hc⟩

theorem numberText_isPrefix (s : Bytes) : numberText s <+: s := by
  obtain ⟨digits, rest, -, rfl, ⟨heq, -⟩ | ⟨behind, rfl, heq⟩⟩ := numberText_cases s
  · rw [heq]
    exact prefix_append _ _
  · rw [heq]
    exact (prefix_append_right_inj _).mpr ((prefix_cons_inj _).mpr (List.takeWhile_prefix _))

/-- A number starts with a digit, or with a point. -/
theorem first_of_startsNumber (h : startsNumber (c :: s) = true) :
    isDigit c = true ∨ c = '.'.toUInt8 := by
  cases s with
  | nil => exact .inl h
  | cons d s =>
    simp only [startsNumber, Bool.or_eq_true, Bool.and_eq_true, beq_iff_eq] at h
    exact h.imp_right And.left

theorem isNumeral_numberText (h : startsNumber s = true) : IsNumeral (numberText s) := by
  obtain ⟨digits, rest, hdigits, rfl, ⟨heq, hrest⟩ | ⟨behind, rfl, heq⟩⟩ := numberText_cases s
  · rw [heq]
    refine .whole ?_ hdigits
    rintro rfl
    cases rest with
    | nil => cases h
    | cons c rest => exact absurd (first_of_startsNumber h) (by simp [hrest c rfl])
  · rw [heq]
    refine .point hdigits (fun _ => mem_takeWhile_imp) ?_
    by_contra hnone
    obtain ⟨hwhole, hfraction⟩ := not_or.mp hnone
    obtain rfl := not_not.mp hwhole
    -- A point with no digit on either side starts no number.
    cases behind with
    | nil => cases h
    | cons d behind =>
      have hpoint : isDigit '.'.toUInt8 = false := rfl
      have hd : isDigit d = true := by simpa [startsNumber, hpoint] using h
      simp [hd] at hfraction

theorem numberText_append_point {digits : Bytes} (hdigits : ∀ c ∈ digits, isDigit c = true)
    (rest : Bytes) :
    numberText (digits ++ '.'.toUInt8 :: rest) = digits ++ '.'.toUInt8 ::
      rest.takeWhile isDigit := by
  have hwhole : (digits ++ '.'.toUInt8 :: rest).takeWhile isDigit = digits := by
    rw [takeWhile_append_of_pos hdigits, takeWhile_cons_of_neg (by decide), append_nil]
  simp [numberText, hwhole]

theorem takeWhile_isDigit_isPrefix (s : Bytes) : s.takeWhile isDigit <+: numberText s := by
  unfold numberText
  dsimp only
  split
  · split
    · exact prefix_append _ _
    · exact prefix_rfl
  · exact prefix_rfl

/-- What a text has in front, as far as it has a property, is part of the
longest beginning that has it. -/
theorem prefix_takeWhile {p : UInt8 → Bool} (hw : w <+: s) (h : ∀ c ∈ w, p c = true) :
    w <+: s.takeWhile p := by
  obtain ⟨t, rfl⟩ := hw
  rw [takeWhile_append_of_pos h]
  exact prefix_append _ _

namespace IsNumeral

theorem length_le (h : IsNumeral w) (hw : w <+: s) : w.length ≤ (numberText s).length := by
  cases h with
  | whole _ hdigits =>
    exact ((prefix_takeWhile hw hdigits).trans (takeWhile_isDigit_isPrefix s)).length_le
  | @point digits fraction hdigits hfraction =>
    obtain ⟨t, rfl⟩ := hw
    rw [append_assoc, cons_append, numberText_append_point hdigits]
    have hle := (prefix_takeWhile (prefix_append fraction t) hfraction).length_le
    simp only [length_append, length_cons]
    omega

/-- The first byte of a number is a digit, or a point before one. -/
theorem startsNumber (h : IsNumeral w) (hw : w <+: s) : startsNumber s = true := by
  obtain ⟨t, rfl⟩ := hw
  have hdigit {c : UInt8} (hc : isDigit c = true) (t : Bytes) :
      Token.startsNumber (c :: t) = true := by
    cases t <;> simp [Token.startsNumber, hc]
  cases h with
  | whole hne hdigits =>
    obtain ⟨c, rest, rfl⟩ := exists_cons_of_ne_nil hne
    exact hdigit (hdigits c mem_cons_self) _
  | @point digits fraction hdigits hfraction hne =>
    cases digits with
    | cons c rest => exact hdigit (hdigits c mem_cons_self) _
    | nil =>
      obtain ⟨d, rest, rfl⟩ := exists_cons_of_ne_nil (hne.resolve_left (· rfl))
      have hd : isDigit d = true := hfraction d mem_cons_self
      simp [Token.startsNumber, hd]

theorem mem (h : IsNumeral w) (hc : c ∈ w) : isDigit c = true ∨ c = '.'.toUInt8 := by
  cases h with
  | whole _ hdigits => exact .inl (hdigits c hc)
  | point hdigits hfraction =>
    rw [mem_append, mem_cons] at hc
    obtain hc | rfl | hc := hc
    · exact .inl (hdigits c hc)
    · exact .inr rfl
    · exact .inl (hfraction c hc)

end IsNumeral

end Numeral

section Symbol

theorem toUInt8_ofUInt8 (c : UInt8) : (Char.ofUInt8 c).toUInt8 = c := UInt8.toUInt8_toUInt32 c

theorem text_of_ofPair? {a b : Char} (h : ofPair? a b = some symbol) :
    symbol.text = [a.toUInt8, b.toUInt8] := by
  unfold ofPair? at h
  split at h <;> cases h <;> rfl

theorem text_of_ofChar? {a : Char} (h : ofChar? a = some symbol) : symbol.text = [a.toUInt8] := by
  unfold ofChar? at h
  split at h <;> cases h <;> rfl

/-- A symbol has one byte or two, by which it is found. -/
theorem text_cases (symbol : Symbol) :
    (∃ c, symbol.text = [c] ∧ ofChar? (Char.ofUInt8 c) = some symbol) ∨
      ∃ c d, symbol.text = [c, d] ∧ ofPair? (Char.ofUInt8 c) (Char.ofUInt8 d) = some symbol := by
  cases symbol with
  | plusAssign | minusAssign | starAssign | slashAssign | percentAssign | equalEqual | bangEqual
  | lessEqual | greaterEqual | andAnd | orOr => exact .inr ⟨_, _, rfl, rfl⟩
  | assign | less | greater | plus | minus | star | slash | percent | caret | ampersand
  | pipe | bang | question | colon
  | comma | semicolon | openParen | closeParen => exact .inl ⟨_, rfl, rfl⟩

end Symbol

namespace Kind

def isWord : Kind → Bool
  | identifier | ifWord => true
  | _ => false

def isNumber : Kind → Bool
  | number => true
  | _ => false

namespace Admits

variable (h : kind.Admits w)

include h

/-- The first byte tells words, numbers and symbols apart. -/
theorem exists_first : ∃ c rest, w = c :: rest ∧ startsName c = kind.isWord ∧
    (isDigit c || c == '.'.toUInt8) = kind.isNumber := by
  have hname {c : UInt8} (hc : startsName c = true) : (isDigit c || c == '.'.toUInt8) = false := by
    have hpoint : '.'.toUInt8.toNat = 46 := rfl
    rw [startsName_iff] at hc
    rw [← Bool.not_eq_true, Bool.or_eq_true, isDigit_iff, beq_iff_eq, ← UInt8.toNat_inj, hpoint]
    omega
  have hnumber {c : UInt8} (hc : (isDigit c || c == '.'.toUInt8) = true) :
      startsName c = false := by
    rw [← Bool.not_eq_true]
    intro hstarts
    rw [hname hstarts] at hc
    cases hc
  cases h with
  | identifier hc | ifWord hc => exact ⟨_, _, rfl, hc, hname hc⟩
  | symbol symbol => cases symbol <;> exact ⟨_, _, rfl, rfl, rfl⟩
  | number h =>
    have hstarts := h.startsNumber prefix_rfl
    obtain ⟨c, rest, rfl⟩ : ∃ c rest, w = c :: rest := by
      cases w with
      | nil => cases hstarts
      | cons c rest => exact ⟨c, rest, rfl⟩
    have hc : (isDigit c || c == '.'.toUInt8) = true := by
      simpa using first_of_startsNumber hstarts
    exact ⟨c, rest, rfl, hnumber hc, hc⟩

theorem ne_nil : w ≠ [] := by
  obtain ⟨c, rest, rfl, -⟩ := h.exists_first
  exact cons_ne_nil c rest

/-- What a text starts with has its first byte. -/
theorem first (hw : w <+: c :: s) :
    startsName c = kind.isWord ∧ (isDigit c || c == '.'.toUInt8) = kind.isNumber := by
  obtain ⟨d, rest, rfl, hname, hnumber⟩ := h.exists_first
  obtain ⟨rfl, -⟩ := cons_prefix_cons.mp hw
  exact ⟨hname, hnumber⟩

theorem isLast : kind.isLast = false := by
  cases h <;> rfl

theorem isNumeral (hnumber : kind.isNumber = true) : IsNumeral w := by
  cases h with
  | number h => exact h
  | identifier | ifWord | symbol => cases hnumber

/-- Only symbols are made of other bytes than names are. -/
theorem continuesName (hsymbol : ∀ symbol, kind ≠ .symbol symbol) :
    ∀ d ∈ w, continuesName d = true := by
  cases h with
  | identifier hc hrest | ifWord hc hrest =>
    exact forall_mem_cons.mpr ⟨continuesName_of_startsName hc, hrest⟩
  | symbol symbol => exact absurd rfl (hsymbol symbol)
  | number h =>
    intro d hd
    rcases h.mem hd with hd | rfl
    · simp [Token.continuesName, hd]
    · rfl

theorem not_isSpace : ∀ d ∈ w, isSpace d = false := by
  have hname {d : UInt8} (hd : Token.continuesName d = true) : isSpace d = false := by
    rw [continuesName_iff] at hd
    rw [← Bool.not_eq_true, isSpace_iff]
    omega
  cases h with
  | symbol symbol =>
    have hall : symbol.text.all (!isSpace ·) = true := by cases symbol <;> rfl
    simpa using hall
  | identifier hc hrest hif =>
    exact fun d hd => hname ((identifier hc hrest hif).continuesName nofun d hd)
  | ifWord hc hrest hif => exact fun d hd => hname ((ifWord hc hrest hif).continuesName nofun d hd)
  | number h => exact fun d hd => hname ((number h).continuesName nofun d hd)

/-- Where neither a name nor a number starts, and no symbol of two bytes, there
is at most one of the first byte. -/
theorem eq_singleton (hw : w <+: c :: s) (hname : startsName c = false)
    (hnumber : Token.startsNumber (c :: s) = false)
    (hpair : ∀ d rest, s = d :: rest → ofPair? (Char.ofUInt8 c) (Char.ofUInt8 d) = none) :
    w = [c] ∧ ∃ symbol, ofChar? (Char.ofUInt8 c) = some symbol := by
  cases h with
  | symbol symbol =>
    obtain ⟨a, htext, hchar⟩ | ⟨a, b, htext, hsecond⟩ := text_cases symbol
    · rw [htext] at hw ⊢
      obtain ⟨rfl, -⟩ := cons_prefix_cons.mp hw
      exact ⟨rfl, symbol, hchar⟩
    · rw [htext] at hw
      obtain ⟨rfl, rest, hs⟩ := cons_prefix_cons.mp hw
      cases (hpair b rest hs.symm).symm.trans hsecond
  | number h => rw [h.startsNumber hw] at hnumber; cases hnumber
  | identifier hc | ifWord hc =>
    obtain ⟨rfl, -⟩ := cons_prefix_cons.mp hw
    rw [hc] at hname
    cases hname

/-- A text of a kind is read as one of that kind. -/
theorem classify_eq : classify w = (kind, w) := by
  have hword {c : UInt8} {rest : Bytes} (hc : startsName c = true)
      (hrest : ∀ d ∈ rest, Token.continuesName d = true) :
      classify (c :: rest) =
        (if isIfWord (c :: rest) then .ifWord else .identifier, c :: rest) := by
    have hall : (c :: rest).takeWhile Token.continuesName = c :: rest :=
      takeWhile_eq_self_iff.mpr (forall_mem_cons.mpr ⟨continuesName_of_startsName hc, hrest⟩)
    rw [classify, if_pos hc, hall]
  cases h with
  | identifier hc hrest hif => rw [hword hc hrest, hif]; rfl
  | ifWord hc hrest hif => rw [hword hc hrest, hif]; rfl
  | symbol symbol => cases symbol <;> decide +kernel
  | number h =>
    obtain ⟨c, rest, rfl, hname, -⟩ := (Admits.number h).exists_first
    have hwhole : numberText (c :: rest) = c :: rest :=
      (numberText_isPrefix _).eq_of_length
        (le_antisymm (numberText_isPrefix _).length_le (h.length_le prefix_rfl))
    rw [classify, if_neg (by simp [hname, isWord]), if_pos (h.startsNumber prefix_rfl), hwhole]

/-- No text is one of two kinds. -/
theorem unique (h' : kind'.Admits w) : kind = kind' :=
  congrArg Prod.fst (h.classify_eq.symm.trans h'.classify_eq)

end Admits

end Kind

/-- The longest token is one and no other. -/
theorem Longest.unique {w' : Bytes} (h : Longest s kind w) (h' : Longest s kind' w') :
    kind = kind' ∧ w = w' := by
  obtain rfl : w = w' :=
    (prefix_of_prefix_length_le h.front h'.front (h'.length_le h.admits h.front)).eq_of_length
      (le_antisymm (h'.length_le h.admits h.front) (h.length_le h'.admits h'.front))
  exact ⟨h.admits.unique h'.admits, rfl⟩

section Classify

theorem longest_word (hc : startsName c = true) : Longest (c :: s)
    (if isIfWord ((c :: s).takeWhile continuesName) then .ifWord else .identifier)
    ((c :: s).takeWhile continuesName) := by
  have hcons : (c :: s).takeWhile continuesName = c :: s.takeWhile continuesName :=
    takeWhile_cons_of_pos (continuesName_of_startsName hc)
  refine ⟨?_, takeWhile_prefix _, fun h hw => (prefix_takeWhile hw (h.continuesName ?_)).length_le⟩
  · rw [hcons]
    split
    · rename_i hif
      exact .ifWord hc (fun _ => mem_takeWhile_imp) hif
    · rename_i hif
      exact .identifier hc (fun _ => mem_takeWhile_imp) (Bool.eq_false_of_not_eq_true hif)
  · rintro symbol rfl
    exact absurd ((h.first hw).1.symm.trans hc) (by simp [Kind.isWord])

theorem longest_number (h : startsNumber (c :: s) = true) :
    Longest (c :: s) .number (numberText (c :: s)) := by
  have hadmits : Kind.Admits .number (numberText (c :: s)) := .number (isNumeral_numberText h)
  refine ⟨hadmits, numberText_isPrefix _, fun h' hw => (h'.isNumeral ?_).length_le hw⟩
  rw [← (h'.first hw).2, (hadmits.first (numberText_isPrefix _)).2]
  rfl

section Symbolic

variable (hname : startsName c = false) (hnumber : startsNumber (c :: s) = false)

include hname hnumber

/-- There is no symbol of more than two bytes. -/
theorem longest_pair {d : UInt8} {rest : Bytes} (hs : s = d :: rest)
    (hpair : ofPair? (Char.ofUInt8 c) (Char.ofUInt8 d) = some symbol) :
    Longest (c :: s) (.symbol symbol) [c, d] := by
  have htext := text_of_ofPair? hpair
  rw [toUInt8_ofUInt8, toUInt8_ofUInt8] at htext
  refine ⟨htext ▸ .symbol symbol, by simp [hs], fun {kind' w'} h hw => ?_⟩
  cases h with
  | symbol symbol' =>
    obtain ⟨a, htext', -⟩ | ⟨a, b, htext', -⟩ := text_cases symbol' <;> simp [htext']
  | number h => rw [h.startsNumber hw] at hnumber; cases hnumber
  | identifier hc | ifWord hc =>
    obtain ⟨rfl, -⟩ := cons_prefix_cons.mp hw
    rw [hc] at hname
    cases hname

theorem longest_char (hchar : ofChar? (Char.ofUInt8 c) = some symbol)
    (hpair : ∀ d rest, s = d :: rest → ofPair? (Char.ofUInt8 c) (Char.ofUInt8 d) = none) :
    Longest (c :: s) (.symbol symbol) [c] := by
  have htext := text_of_ofChar? hchar
  rw [toUInt8_ofUInt8] at htext
  refine ⟨htext ▸ .symbol symbol, by simp, fun h hw => ?_⟩
  rw [(h.eq_singleton hw hname hnumber hpair).1]

end Symbolic

/-- A lexer takes the longest token there is, or there is none and it finds an
illegal byte. -/
theorem classify_longest (c : UInt8) (s : Bytes) :
    Longest (c :: s) (classify (c :: s)).1 (classify (c :: s)).2 ∨
    classify (c :: s) = (.illegal c, Text.encodePoint c.toNat) ∧
      ∀ (kind : Kind) (w : Bytes), kind.Admits w → ¬w <+: c :: s := by
  generalize hclassify : classify (c :: s) = first
  rw [classify] at hclassify
  cases hname : startsName c with
  | true =>
    rw [if_pos hname] at hclassify
    subst hclassify
    exact .inl (longest_word hname)
  | false =>
    rw [if_neg (by simp [hname])] at hclassify
    cases hnumber : startsNumber (c :: s) with
    | true =>
      rw [if_pos hnumber] at hclassify
      subst hclassify
      exact .inl (longest_number hnumber)
    | false =>
      rw [if_neg (by simp [hnumber])] at hclassify
      dsimp only at hclassify
      split at hclassify
      · rename_i symbol text hfound
        obtain ⟨d, hd, hsymbol⟩ := Option.bind_eq_some_iff.mp hfound
        obtain ⟨symbol', hpair, htext⟩ := Option.bind_eq_some_iff.mp hsymbol
        obtain ⟨rest, hs⟩ := head?_eq_some_iff.mp hd
        obtain ⟨rfl, rfl⟩ := Prod.mk.inj (Option.some.inj htext)
        subst hclassify
        exact .inl (longest_pair hname hnumber hs hpair)
      · rename_i hfound
        have hpair :
            ∀ d rest, s = d :: rest → ofPair? (Char.ofUInt8 c) (Char.ofUInt8 d) = none := by
          rintro d rest rfl
          exact Option.eq_none_iff_forall_ne_some.mpr (by simpa using hfound)
        split at hclassify
        · rename_i symbol hchar
          subst hclassify
          exact .inl (longest_char hname hnumber hchar hpair)
        · rename_i hchar
          refine .inr ⟨hclassify.symm, fun kind w h hw => ?_⟩
          obtain ⟨-, symbol, hsymbol⟩ := h.eq_singleton hw hname hnumber hpair
          cases hchar.symm.trans hsymbol

/-- Reading a token means finding the longest one. -/
theorem Longest.classify_eq (h : Longest s kind w) : classify s = (kind, w) := by
  cases s with
  | nil => exact absurd (prefix_nil.mp h.front) h.admits.ne_nil
  | cons c s =>
    obtain hlongest | ⟨-, hnone⟩ := classify_longest c s
    · obtain ⟨hkind, hw⟩ := hlongest.unique h
      exact Prod.ext hkind hw
    · exact absurd h.front (hnone kind w h.admits)

/-- A byte is illegal where no token is admitted. -/
theorem classify_of_illegal (h : ∀ (kind : Kind) (w : Bytes), kind.Admits w → ¬w <+: c :: s) :
    classify (c :: s) = (.illegal c, Text.encodePoint c.toNat) := by
  obtain hlongest | ⟨hillegal, -⟩ := classify_longest c s
  · exact absurd hlongest.front (h _ _ hlongest.admits)
  · exact hillegal

/-- A token that others follow is the longest one. -/
theorem longest_classify (h : (classify s).1.isLast = false) :
    Longest s (classify s).1 (classify s).2 := by
  cases s with
  | nil => cases h
  | cons c s =>
    obtain hlongest | ⟨hillegal, -⟩ := classify_longest c s
    · exact hlongest
    · rw [hillegal] at h
      cases h

end Classify

end Eel.Token
