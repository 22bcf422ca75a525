import Eel.Proofs.Token.Spelling
import Eel.Proofs.Tree.WellFormed
import Eel.Tree.Printer

/-!
Texts of the forms of the grammar.

A text is written in a form when it is read as words of that form before any
byte that ends a token. The rules of the grammar carry over from words to texts:
parentheses around a text, a sign before it, an operator with blanks around it
and lists with separators.
-/

namespace Eel.Grammar

open Token Bytes List

/-- Whether a byte can stand behind every symbol: it makes no longer symbol and
no comment of it. -/
def follows (c : UInt8) : Bool := !pairs c && c != slash && c != star

/-- Whether a byte can stand behind every word. -/
def delimits (c : UInt8) : Bool := separates c && c != slash && c != star

variable {s : Symbol} {c : UInt8} {w : Word}

theorem follows_of_delimits (h : delimits c = true) : follows c = true := by
  simp only [delimits, separates, follows, Bool.and_eq_true] at h ⊢
  exact ⟨⟨h.1.1.2, h.1.2⟩, h.2⟩

theorem endsBefore_of_delimits (w : Word) (h : delimits c = true) : w.endsBefore c = true := by
  cases w with
  | symbol => exact follows_of_delimits h
  | name | ifWord | number =>
    simp only [delimits, Bool.and_eq_true] at h
    exact h.1.1

/-- That a text stands for a tree of a form, whatever follows it that ends a
token. -/
structure Written (f : Form) (text : Bytes) (t : Node) : Prop where
  starts : Starts follows text
  spelled : ∃ ws, Derives f ws t ∧ ∀ s us, Starts delimits s → Spells s us →
    Spells (text ++ s) (ws ++ us)

theorem Starts.append {p q : UInt8 → Bool} {s t : Bytes} (h : Starts p s) (ht : Starts q t)
    (hpq : ∀ c, q c = true → p c = true) : Starts p (s ++ t) := by
  cases s with
  | nil => exact ht.imp hpq
  | cons c s => exact .cons (h c rfl) _

theorem spells_symbol {symbol : Symbol} {s : Bytes} {us : List Word} (hs : Starts follows s)
    (h : Spells s us) : Spells (symbol.text ++ s) (.symbol symbol :: us) := by
  have hspelled : (Word.symbol symbol).isSpelled = true := by cases symbol <;> decide
  exact h.word hspelled hs

/-- A text in parentheses. -/
theorem spells_parenthesized {text s : Bytes} {ws us : List Word} (hstarts : Starts follows text)
    (hspells : ∀ s us, Starts delimits s → Spells s us → Spells (text ++ s) (ws ++ us))
    (hs : Starts delimits s) (hus : Spells s us) :
    Spells (Node.parenthesized text ++ s)
      (.symbol .openParen :: (ws ++ .symbol .closeParen :: us)) := by
  have hclose : Spells (Symbol.closeParen.text ++ s) (.symbol .closeParen :: us) :=
    spells_symbol (hs.imp fun _ => follows_of_delimits) hus
  have hfollows : Starts follows (Symbol.closeParen.text ++ s) := .cons rfl s
  have hinner := hspells (Symbol.closeParen.text ++ s) _ (.cons rfl s) hclose
  have hopen := @spells_symbol .openParen _ _ (Starts.append hstarts hfollows fun _ h => h) hinner
  rw [Node.parenthesized, append_assoc, append_assoc]
  exact hopen

theorem infixed_append (left op right s : Bytes) :
    Node.infixed left op right ++ s = left ++ Bytes.blank ::
      (op ++ Bytes.blank :: (right ++ s)) := by
  have hblank : utf8 " " = [Bytes.blank] := rfl
  simp [Node.infixed, hblank]

namespace Written

variable {f g : Form} {text left right : Bytes} {t t' : Node}

theorem imp (h : Written f text t) (hfg : ∀ ws, Derives f ws t → Derives g ws t') :
    Written g text t' := by
  obtain ⟨hstarts, ws, hderives, hspells⟩ := h
  exact ⟨hstarts, ws, hfg ws hderives, hspells⟩

theorem word (hw : w.isSpelled = true) (hstarts : Starts follows w.text) (h : Derives f [w] t) :
    Written f w.text t :=
  ⟨hstarts, [w], h,
    fun _ _ hs hspells => hspells.word hw (hs.imp fun _ => endsBefore_of_delimits w)⟩

theorem group (h : Written .sequence text t) : Written .primary (Node.parenthesized text) t := by
  obtain ⟨hstarts, ws, hderives, hspells⟩ := h
  refine ⟨.cons rfl _, _, .group hderives, fun s us hs hus => ?_⟩
  simpa using spells_parenthesized hstarts hspells hs hus

theorem sign {op : UnaryOp} (hop : sign? s = some op) (h : Written .unary text t) :
    Written .unary (s.text ++ text) (.unary op t .none) := by
  obtain ⟨hstarts, ws, hderives, hspells⟩ := h
  refine ⟨?_, _, .sign hop hderives, fun r us hr hus => ?_⟩
  · cases s <;> cases hop <;> exact .cons rfl _
  · rw [append_assoc]
    exact spells_symbol (Starts.append hstarts hr fun _ => follows_of_delimits)
      (hspells r us hr hus)

/-- Two texts with an operator between them. -/
theorem infixed {f₁ f₂ : Form} {t₁ t₂ : Node} (hleft : Written f₁ left t₁)
    (hright : Written f₂ right t₂)
    (h : ∀ ws us, Derives f₁ ws t₁ → Derives f₂ us t₂ → Derives f (ws ++ .symbol s :: us) t) :
    Written f (Node.infixed left s.text right) t := by
  obtain ⟨hstarts, ws, hws, hspells⟩ := hleft
  obtain ⟨-, us, hus, hspells'⟩ := hright
  refine ⟨?_, _, h ws us hws hus, fun r vs hr hvs => ?_⟩
  · have hblank := infixed_append left s.text right []
    rw [append_nil] at hblank
    rw [hblank]
    exact Starts.append hstarts (.cons rfl _ : Starts follows _) fun _ h => h
  · have hbehind : Spells (s.text ++ Bytes.blank :: (right ++ r)) (.symbol s :: (us ++ vs)) :=
      spells_symbol (.cons rfl _) (hspells' r vs hr hvs).space
    have hall := hspells _ _ (.cons rfl _) hbehind.space
    rw [infixed_append]
    simpa using hall

theorem raise {r : Rank} (h : Written .unary text t) : Written (.rank r) text t :=
  h.imp fun _ hws => hws.climb r

theorem expr (h : Written (.rank .logical) text t) : Written (.expr false) text t :=
  h.imp fun _ hws => .value (.test hws)

theorem sequence (h : Written (.expr false) text t) : Written .sequence text t := by
  refine h.imp fun ws hws => ?_
  have hsequence := @Derives.sequence [⟨ws, t, false⟩] (by simp) (by simpa using hws) false
  simpa [separated, trailing, sequenceTree] using hsequence

end Written

/-- Texts with a separator and a blank between them. -/
theorem written_list {f : Form} (hs : ∀ r, Starts delimits (s.text ++ r))
    {parts : List (Bytes × Node)} (h : ∀ p ∈ parts, Written f p.1 p.2) :
    Starts follows (Bytes.join (s.text ++ utf8 " ") (parts.map (·.1))) ∧
      ∃ phrases : List Phrase, phrases.map (·.tree) = parts.map (·.2) ∧
        (∀ p ∈ phrases, p.dangling = false ∧ Derives f p.words p.tree) ∧
        ∀ r us, Starts delimits r → Spells r us →
          Spells (Bytes.join (s.text ++ utf8 " ") (parts.map (·.1)) ++ r)
            (separated s phrases ++ us) := by
  induction parts with
  | nil => exact ⟨.nil _, [], rfl, by simp, fun r us _ hus => hus⟩
  | cons p parts ih =>
    obtain ⟨hstarts, ws, hws, hspells⟩ := h p (by simp)
    obtain ⟨-, phrases, htrees, hphrases, hrest⟩ := ih fun q hq => h q (by simp [hq])
    have hall : ∀ q ∈ (⟨ws, p.2, false⟩ :: phrases : List Phrase), q.dangling = false ∧
        Derives f q.words q.tree :=
      forall_mem_cons.mpr ⟨⟨rfl, hws⟩, hphrases⟩
    cases parts with
    | nil =>
      obtain rfl : phrases = [] := by simpa using htrees
      refine ⟨by simpa [Bytes.join] using hstarts, _, by simp, hall, fun r us hr hus => ?_⟩
      simpa [Bytes.join, separated] using hspells r us hr hus
    | cons q parts =>
      obtain ⟨phrase, phrases, rfl⟩ :=
        exists_cons_of_ne_nil (l := phrases) (by rintro rfl; simp at htrees)
      have hblank : utf8 " " = [Bytes.blank] := rfl
      refine ⟨?_, _, by simp [← htrees], hall, fun r us hr hus => ?_⟩
      · simpa [Bytes.join, List.intercalate, hblank] using
          Starts.append hstarts (hs _) fun _ => follows_of_delimits
      · have hbehind := hspells _ _ (hs _) (spells_symbol (.cons rfl _) (hrest r us hr hus).space)
        rw [separated_cons_cons]
        simpa [Bytes.join, List.intercalate, hblank] using hbehind

namespace Written

variable {parts : List (Bytes × Node)}

theorem block (hparts : parts ≠ []) (h : ∀ p ∈ parts, Written (.expr false) p.1 p.2) :
    Written .primary (Node.parenthesized (Bytes.join (utf8 "; ") (parts.map (·.1))))
      (sequenceTree (parts.map (·.2))) := by
  obtain ⟨hstarts, phrases, htrees, hphrases, hspells⟩ :=
    written_list (s := .semicolon) (fun r => .cons rfl r) h
  have hne : phrases ≠ [] := by
    rintro rfl
    simp_all
  have hderives :=
    @Derives.sequence phrases hne (fun p hp => (hphrases p hp).1 ▸ (hphrases p hp).2) false
  rw [htrees, trailing, if_neg (by simp), append_nil] at hderives
  exact group ⟨hstarts, _, hderives, hspells⟩

theorem call {callee : Ident} (hw : w.isSpelled = true) (hstarts : Starts follows w.text)
    (hcallee : callee? w = some callee) (h : ∀ p ∈ parts, Written .sequence p.1 p.2) :
    Written .primary (w.text ++ Node.parenthesized (Bytes.join (utf8 ", ") (parts.map (·.1))))
      (.call callee (parts.map (·.2)) .none) := by
  obtain ⟨hinner, phrases, htrees, hphrases, hspells⟩ :=
    written_list (s := .comma) (fun r => .cons rfl r) h
  refine ⟨Starts.append hstarts (.cons rfl _ : Starts follows (Node.parenthesized _)) fun _ h => h,
    _, htrees ▸ Derives.call hcallee fun a ha => (hphrases a ha).2, fun s us hs hus => ?_⟩
  have hends :
      Starts w.endsBefore (Node.parenthesized (Bytes.join (utf8 ", ") (parts.map (·.1))) ++ s) :=
    .cons (endsBefore_of_delimits w rfl) _
  have hall := (spells_parenthesized hinner hspells hs hus).word hw hends
  simpa using hall

end Written

end Eel.Grammar
