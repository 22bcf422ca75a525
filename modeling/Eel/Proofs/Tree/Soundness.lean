import Eel.Proofs.Double.Rounding
import Eel.Proofs.Tree.Parsing
import Eel.Proofs.Tree.WellFormed
import Eel.Source.Basic

/-!
What is read is well formed.

What is read is derived from its words, and the words are those of the lexer. So
it is enough that every form of the grammar puts well-formed trees together to a
well-formed tree.
-/

namespace Eel

open List

/-- What is known of a word that was read from a text. -/
def Word.IsRead : Word → Prop
  | name lexeme => Token.isLowerName (Text.lower lexeme) = true ∧ Text.lower lexeme ≠ utf8 "if"
  | ifWord lexeme => Text.lower lexeme = utf8 "if"
  | number _ | symbol _ => True

/-- A tree that was read: well formed, and without a negative number. -/
structure Node.IsRead (n : Node) : Prop where
  wellFormed : n.isWellFormed = true
  literals : ∀ x ∈ n.literals, x.isNegative = false

variable {s : Bytes} {w : Word} {x : Double} {callee : Ident} {ws : List Word} {at_ : Position}
  {c : UInt8}

namespace Node.IsRead

variable {n left right : Node} {body : List Node} {span : Span}

theorem number (hfinite : x.isFinite = true) (hsign : x.isNegative = false) :
    (number x span).IsRead :=
  ⟨hfinite, by simpa [Node.literals] using hsign⟩

theorem literalsAll (h : ∀ n ∈ body, n.IsRead) : ∀ x ∈ literalsAll body, x.isNegative = false := by
  simp only [mem_literalsAll]
  rintro x ⟨n, hn, hx⟩
  exact (h n hn).literals x hx

theorem block (hlength : 2 ≤ body.length) (h : ∀ n ∈ body, n.IsRead) :
    (block body span).IsRead := by
  refine ⟨?_, literalsAll h⟩
  simpa [isWellFormed, hlength, areWellFormed_iff] using fun n hn => (h n hn).wellFormed

theorem call (hcallee : Token.isLowerName callee.name = true) (h : ∀ n ∈ body, n.IsRead) :
    (call callee body span).IsRead := by
  refine ⟨?_, literalsAll h⟩
  simpa [isWellFormed, hcallee, areWellFormed_iff] using fun n hn => (h n hn).wellFormed

theorem unary {op : UnaryOp} (hop : op.isProper = true) (h : n.IsRead) : (unary op n span).IsRead :=
  ⟨by simp [isWellFormed, hop, h.wellFormed], h.literals⟩

theorem literals_append (hl : left.IsRead) (hr : right.IsRead) :
    ∀ x ∈ left.literals ++ right.literals, x.isNegative = false := by
  simp only [mem_append]
  rintro x (hx | hx)
  · exact hl.literals x hx
  · exact hr.literals x hx

theorem binary {op : BinaryOp} (hop : op.isProper = true) (hl : left.IsRead) (hr : right.IsRead) :
    (binary op left right span).IsRead :=
  ⟨by simp [isWellFormed, hop, hl.wellFormed, hr.wellFormed], hl.literals_append hr⟩

theorem logical {op : LogicalOp} (hop : op.isProper = true) (hl : left.IsRead) (hr : right.IsRead) :
    (logical op left right span).IsRead :=
  ⟨by simp [isWellFormed, hop, hl.wellFormed, hr.wellFormed], hl.literals_append hr⟩

theorem assign {op : AssignOp} (hop : op.isProper = true) (hl : left.IsRead)
    (htarget : Tree.isAssignable left = true) (hr : right.IsRead) :
    (assign op left right span).IsRead :=
  ⟨by simp [isWellFormed, hop, htarget, hl.wellFormed, hr.wellFormed], hl.literals_append hr⟩

end Node.IsRead

/-- Places have no part in whether a tree is well formed. -/
theorem Node.isWellFormed_bare (n : Node) : n.bare.isWellFormed = n.isWellFormed := by
  have hbody {body : List Node} (h : ∀ n ∈ body, n.bare.isWellFormed = n.isWellFormed) :
      areWellFormed (bareAll body) = areWellFormed body := by
    rw [Bool.eq_iff_iff, areWellFormed_iff, areWellFormed_iff, bareAll_eq_map, forall_mem_map]
    exact forall₂_congr fun n hn => by rw [h n hn]
  induction n using inductionOn with
  | missing | script | ident | number => rfl
  | block body span ih =>
    simp only [bare, isWellFormed, hbody ih]
    rw [bareAll_eq_map, length_map]
  | call callee args span ih => simp only [bare, isWellFormed, hbody ih]
  | binary op left right span ihl ihr | logical op left right span ihl ihr =>
    simp only [bare, isWellFormed, ihl, ihr]
  | unary op operand span ih => simp only [bare, isWellFormed, ih]
  | assign op target value span iht _ ihv =>
    simp only [bare, isWellFormed, Tree.isAssignable_bare, iht, ihv]

theorem Node.mem_literals_bare {n : Node} : x ∈ n.bare.literals ↔ x ∈ n.literals := by
  induction n using inductionOn with
  | missing | ident | number => rfl
  | script body span ih | block body span ih | call callee body span ih =>
    simp only [bare, literals, mem_literalsAll, bareAll_eq_map, mem_map, exists_exists_and_eq_and]
    exact exists_congr fun n => and_congr_right fun hn => ih n hn
  | binary op left right span ihl ihr | logical op left right span ihl ihr
  | assign op left right span ihl _ ihr =>
    simp only [bare, literals, mem_append, ihl, ihr]
  | unary op operand span ih => exact ih

theorem Node.IsRead.of_bare {n : Node} (h : n.bare.IsRead) : n.IsRead :=
  ⟨n.isWellFormed_bare ▸ h.wellFormed, fun x hx => h.literals x (mem_literals_bare.mpr hx)⟩

/-- Numbers are read without a sign. -/
theorem Tree.numberValue?_eq_some {lexeme : Bytes} (h : numberValue? lexeme = some x) :
    x.isFinite = true ∧ x.isNegative = false := by
  unfold numberValue? at h
  dsimp only at h
  split at h
  · cases h
  · rename_i hinfinite
    cases h
    have hratio := Double.ofRatio_false
    exact ⟨(hratio _ _).2 (Bool.eq_false_iff.mpr hinfinite), (hratio _ _).1⟩

namespace Grammar

theorem isLowerName_if : Token.isLowerName (utf8 "if") = true := by decide

theorem isLowerName_of_callee? (h : callee? w = some callee) (hw : w.IsRead) :
    Token.isLowerName callee.name = true := by
  cases w with
  | name lexeme =>
    cases h
    exact hw.1
  | ifWord lexeme =>
    cases h
    have hif : Text.lower lexeme = utf8 "if" := hw
    exact hif ▸ isLowerName_if
  | number | symbol => cases h

theorem Rank.isRead_join {r : Rank} {s : Symbol} {join : Node → Node → Node}
    (h : r.join? s = some join) {left right : Node} (hl : left.IsRead) (hr : right.IsRead) :
    (join left right).IsRead := by
  unfold Rank.join? at h
  split at h <;> cases h <;> first | exact .binary rfl hl hr | exact .logical rfl hl hr

theorem isRead_chosen {test consequent alternate : Node} (ht : test.IsRead) (hc : consequent.IsRead)
    (ha : alternate.IsRead) : (chosen test consequent alternate).IsRead :=
  .call isLowerName_if (by simpa using ⟨ht, hc, ha⟩)

theorem mem_separated {s : Symbol} {parts : List Phrase} {p : Phrase} (hp : p ∈ parts)
    (hw : w ∈ p.words) : w ∈ separated s parts := by
  cases parts with
  | nil => cases hp
  | cons q rest =>
    rw [separated_cons, mem_append, mem_flatMap]
    rcases mem_cons.mp hp with rfl | hp
    · exact .inl hw
    · exact .inr ⟨p, hp, mem_cons_of_mem _ hw⟩

/-- Every form makes a tree that was read of the words that were. -/
theorem Derives.isRead {f : Form} {n : Node} (h : Derives f ws n) (hws : ∀ w ∈ ws, w.IsRead) :
    n.IsRead := by
  induction h with
  | number h =>
    obtain ⟨hfinite, hsign⟩ := Tree.numberValue?_eq_some h
    exact .number hfinite hsign
  | name =>
    obtain ⟨hname, hif⟩ := hws _ (mem_singleton.mpr rfl)
    refine ⟨?_, by simp [Node.literals]⟩
    simpa [Node.isWellFormed, hname] using hif
  | call hcallee _ ih =>
    rw [forall_mem_cons] at hws
    refine .call (isLowerName_of_callee? hcallee hws.1)
      (forall_mem_map.mpr fun a ha => ih a ha fun w hw => ?_)
    exact hws.2 w (by simp [mem_separated ha hw])
  | group _ ih => exact ih fun w hw => hws w (by simp [hw])
  | sign hop _ ih =>
    refine .unary ?_ (ih fun w hw => hws w (mem_cons_of_mem _ hw))
    unfold sign? at hop
    split at hop <;> cases hop <;> rfl
  | unsigned _ ih | operand _ ih | test _ ih | value _ ih => exact ih hws
  | join _ hjoin _ ihl ihr =>
    rw [forall_mem_append, forall_mem_cons] at hws
    exact Rank.isRead_join hjoin (ihl hws.1) (ihr hws.2.2)
  | half _ _ iht ihc =>
    rw [forall_mem_append, forall_mem_cons] at hws
    exact isRead_chosen (iht hws.1) (ihc hws.2.2) (.number (by decide) (by decide))
  | full _ _ _ iht ihc iha =>
    rw [forall_mem_append, forall_mem_cons, forall_mem_append, forall_mem_cons] at hws
    exact isRead_chosen (iht hws.1) (ihc hws.2.2.1) (iha hws.2.2.2.2)
  | assign _ hassignable hop _ iht ihv =>
    rw [forall_mem_append, forall_mem_cons] at hws
    refine .assign ?_ (iht hws.1) hassignable (ihv hws.2.2)
    unfold assigns? at hop
    split at hop <;> cases hop <;> rfl
  | @sequence parts hparts _ semicolon ih =>
    have hall : ∀ p ∈ parts, p.tree.IsRead := fun p hp =>
      ih p hp fun w hw => hws w (mem_append_left _ (mem_separated hp hw))
    rcases parts with _ | ⟨p, _ | ⟨q, rest⟩⟩
    · cases hparts rfl
    · exact hall p (by simp)
    · exact .block (by simp) (forall_mem_map.mpr hall)

theorem Script.isRead {body : List Node} (h : Script ws body) (hws : ∀ w ∈ ws, w.IsRead) :
    ∀ n ∈ body, n.IsRead := by
  cases h with
  | empty => simp
  | statements count h =>
    replace hws := (forall_mem_append.mp hws).2
    induction h with
    | last h => exact forall_mem_singleton.mpr (h.isRead (forall_mem_append.mp hws).1)
    | more h _ _ ih =>
      obtain ⟨hfirst, hrest⟩ := forall_mem_append.mp hws
      exact forall_mem_cons.mpr ⟨h.isRead (forall_mem_append.mp hfirst).1, ih hrest⟩

end Grammar

namespace Token

theorem isLowerName_map_toLower {rest : Bytes} (hc : startsName c = true)
    (hrest : rest.all continuesName = true) :
    isLowerName ((c :: rest).map Bytes.toLower) = true := by
  simp only [map_cons, isLowerName, startsName_toLower hc, Bool.true_and, Bool.and_eq_true,
    all_cons, all_map, Bytes.isUpper_toLower, Bool.not_false]
  simp only [all_eq_true] at hrest ⊢
  exact ⟨fun d hd => continuesName_toLower (hrest d hd), fun d _ => by simp [Bytes.isUpper_toLower]⟩

/-- The name that a text starts with. -/
theorem isRead_name (hc : startsName c = true)
    (h : word? ⟨if isIfWord ((c :: s).takeWhile continuesName) then .ifWord else .identifier,
      (c :: s).takeWhile continuesName, at_⟩ = some w) : w.IsRead := by
  have hname : (c :: s).takeWhile continuesName = c :: s.takeWhile continuesName := by
    simp [continuesName_of_startsName hc]
  have hlower : Text.lower (c :: s.takeWhile continuesName) =
      (c :: s.takeWhile continuesName).map Bytes.toLower :=
    lower_of_continuesName (by simp [continuesName_of_startsName hc])
  rw [hname] at h
  by_cases hif : isIfWord (c :: s.takeWhile continuesName) = true
  · rw [if_pos hif] at h
    cases h
    rw [Word.IsRead, hlower]
    simpa [isIfWord] using hif
  · rw [if_neg hif] at h
    cases h
    rw [Word.IsRead, hlower]
    refine ⟨isLowerName_map_toLower hc (by simp), fun heq => hif ?_⟩
    simpa [isIfWord] using heq

theorem isRead_classify (h : word? ⟨(classify s).1, (classify s).2, at_⟩ = some w) : w.IsRead := by
  cases s with
  | nil => cases h
  | cons c s =>
    by_cases hc : startsName c = true
    · apply isRead_name (s := s) hc
      simpa only [classify, hc, if_true] using h
    · have hkind : (classify (c :: s)).1 ≠ .identifier ∧ (classify (c :: s)).1 ≠ .ifWord := by
        unfold classify
        dsimp only
        rw [if_neg hc]
        split
        · simp
        · split
          · simp
          · split <;> simp
      unfold word? at h
      dsimp only at h
      split at h <;> cases h
      · exact absurd ‹_› hkind.1
      · exact absurd ‹_› hkind.2
      · trivial
      · trivial

theorem isRead_listWithin {fuel : Nat} {p : Position} {t : Token} (ht : t ∈ listWithin fuel p s)
    (hw : t.word? = some w) : w.IsRead := by
  induction fuel generalizing p s with
  | zero =>
    obtain rfl := mem_singleton.mp ht
    cases hw
  | succ fuel ih =>
    unfold listWithin at ht
    split at ht
    · obtain rfl := mem_singleton.mp ht
      cases hw
    · dsimp only at ht
      split at ht
      · obtain rfl := mem_singleton.mp ht
        exact isRead_classify hw
      · rcases mem_cons.mp ht with rfl | ht
        · exact isRead_classify hw
        · exact ih ht

end Token

/-- Every script that is read from a text is well formed, and no number in it is
negative. -/
theorem Script.isRead_of_parse {script : Script} (h : Script.parse s = .ok script) :
    ∀ n ∈ script.body, n.IsRead := by
  have hreads := Tree.parse_reads s
  rw [h] at hreads
  obtain ⟨ws, hspell, hscript⟩ := hreads
  obtain ⟨-, rfl⟩ := Tree.readable_of_spell hspell rfl
  have hws : ∀ w ∈ (Token.list s).filterMap Token.word?, w.IsRead := by
    intro w hw
    obtain ⟨t, ht, hw⟩ := mem_filterMap.mp hw
    exact Token.isRead_listWithin ht hw
  intro n hn
  refine .of_bare (hscript.isRead hws n.bare ?_)
  rw [Node.bareAll_eq_map]
  exact mem_map_of_mem hn

theorem Source.parse_eq_ok {source : Source} (h : Source.parse s = .ok source) :
    source.cleaned = Cleaned.ofSource s ∧ Script.parse source.cleaned.text = .ok source.script := by
  unfold Source.parse at h
  cases hscript : Script.parse (Cleaned.ofSource s).text with
  | error e => simp [hscript] at h
  | ok script =>
    simp only [hscript, Except.ok.injEq] at h
    subst h
    exact ⟨rfl, hscript⟩

end Eel
