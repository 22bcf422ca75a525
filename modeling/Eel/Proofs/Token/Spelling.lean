import Eel.Proofs.Token.Tiling
import Eel.Proofs.Tree.Parsing

/-!
Words as text.

Words that are written one after another are read back, if none of them starts
with what the one before could go on with.
-/

namespace Eel

open List

namespace Word

/-- The text of a word. -/
def text : Word → Bytes
  | name lexeme | ifWord lexeme | number lexeme => lexeme
  | symbol s => s.text

/-- Whether a word is read from its own text. -/
def isSpelled (w : Word) : Bool := w.text != [] && Token.classify w.text == (w.kind, w.text)

/-- Whether a word does not go on with a byte behind it. Behind a slash there is
no second one and no star either. -/
def endsBefore : Word → UInt8 → Bool
  | symbol _, c => !Token.pairs c && c != Bytes.slash && c != Bytes.star
  | _, c => Token.separates c

end Word

namespace Token

open Bytes

variable {c : UInt8} {s : Bytes} {w : Word}

/-- A symbol is read before what is no second byte of one. -/
theorem longest_symbol (symbol : Symbol) (hs : Starts (!pairs ·) s) :
    Longest (symbol.text ++ s) (.symbol symbol) symbol.text := by
  have hadmits : Kind.Admits (.symbol symbol) symbol.text := .symbol symbol
  obtain ⟨c, rest, htext, hname, hnumber⟩ := hadmits.exists_first
  refine ⟨hadmits, prefix_append _ _, fun h hw => ?_⟩
  have hfirst := h.first (c := c) (s := rest ++ s) (by rwa [htext] at hw)
  cases h with
  | symbol symbol' =>
    have hp : ∀ d ∈ symbol'.text.tail, (!pairs d) = false :=
      fun d hd => by simp [pairs_of_mem_tail symbol' d hd]
    exact (prefix_of_prefix_append hp hadmits.ne_nil hs hw).length_le
  | identifier | ifWord => cases hname.symm.trans hfirst.1
  | number => cases hnumber.symm.trans hfirst.2

/-- The text of a word is one of its kind. -/
theorem admits_text (hw : w.isSpelled = true) : w.kind.Admits w.text := by
  simp only [Word.isSpelled, Bool.and_eq_true, beq_iff_eq] at hw
  have hlast : w.kind.isLast = false := by cases w <;> rfl
  have hlongest := longest_classify (s := w.text) (by rw [hw.2, hlast])
  rw [hw.2] at hlongest
  exact hlongest.admits

theorem longest_text (hw : w.isSpelled = true) (hs : Starts w.endsBefore s) :
    Longest (w.text ++ s) w.kind w.text := by
  have hadmits := admits_text hw
  cases w with
  | symbol symbol =>
    refine longest_symbol symbol (hs.imp fun c hc => ?_)
    simp only [Word.endsBefore, Bool.and_eq_true] at hc
    exact hc.1.1
  | name | ifWord | number =>
    exact Longest.append ⟨hadmits, prefix_rfl, fun _ hw => hw.length_le⟩ hs

theorem continuesName_of_isDigit (h : isDigit c = true) : continuesName c = true := by
  simp [continuesName, h]

theorem CommentFree.append_of_continuesName {t : Bytes} (ht : ∀ c ∈ t, continuesName c = true)
    (h : CommentFree s) : CommentFree (t ++ s) := by
  induction t with
  | nil => exact h
  | cons c t ih =>
    refine (ih fun d hd => ht d (by simp [hd])).cons (opensComment_of_ne ?_ _)
    rintro rfl
    cases ht slash (by simp)

theorem CommentFree.append_symbol (symbol : Symbol) (hs : Starts (Word.symbol symbol).endsBefore s)
    (h : CommentFree s) : CommentFree (symbol.text ++ s) := by
  have hslash : CommentFree (slash :: s) := by
    refine h.cons ?_
    by_contra hopens
    obtain ⟨rest, hrest | hrest⟩ := Cleaned.opensComment_eq_true (by simpa using hopens)
    · obtain ⟨-, rfl⟩ := List.cons.inj hrest
      cases hs slash rfl
    · obtain ⟨-, rfl⟩ := List.cons.inj hrest
      cases hs Bytes.star rfl
  cases symbol with
  | slash => exact hslash
  | slashAssign => exact (h.cons (opensComment_of_ne (by decide) s)).cons rfl
  | plusAssign | minusAssign | starAssign | percentAssign | equalEqual | bangEqual | lessEqual
  | greaterEqual | andAnd | orOr =>
    exact (h.cons (opensComment_of_ne (by decide) s)).cons (opensComment_of_ne (by decide) _)
  | assign | less | greater | plus | minus | star | percent | caret | ampersand | pipe
  | bang | question | colon | comma
  | semicolon | openParen | closeParen => exact h.cons (opensComment_of_ne (by decide) s)

theorem CommentFree.append_text (hw : w.isSpelled = true) (hs : Starts w.endsBefore s)
    (h : CommentFree s) : CommentFree (w.text ++ s) := by
  have hadmits := admits_text hw
  cases w with
  | symbol symbol => exact h.append_symbol symbol hs
  | name | ifWord | number => exact .append_of_continuesName (hadmits.continuesName nofun) h

theorem carriageReturn_not_mem_text (hw : w.isSpelled = true) : carriageReturn ∉ w.text := by
  intro hmem
  cases (admits_text hw).not_isSpace carriageReturn hmem

/-- That a text without comments and carriage returns is read as words, behind
any other. -/
structure Spells (s : Bytes) (ws : List Word) : Prop where
  free : CommentFree s
  plain : carriageReturn ∉ s
  tokens : ∀ front, ∃ ts, Tiles (front ++ s) front.length ts ∧ Spell .finish ts ws

namespace Spells

variable {s : Bytes} {ws : List Word}

theorem spell (h : Spells s ws) : Spell .finish (list s) ws := by
  obtain ⟨ts, htiles, hspell⟩ := h.tokens []
  rwa [← nil_append s, htiles.list_eq]

theorem nil : Spells [] [] := by
  refine ⟨.nil, not_mem_nil, fun front => ⟨_, .finish ?_, .finish rfl⟩⟩
  rw [append_nil]
  exact .refl _ _

theorem blank {c : UInt8} (hc : isSpace c = true) (hreturn : c ≠ carriageReturn) (h : Spells s ws) :
    Spells (c :: s) ws := by
  have hfree : CommentFree (c :: s) := by
    refine h.free.cons (opensComment_of_ne ?_ s)
    rintro rfl
    cases hc
  refine ⟨hfree, by simpa [hreturn.symm] using h.plain, fun front => ?_⟩
  obtain ⟨ts, htiles, hspell⟩ := h.tokens (front ++ [c])
  rw [append_assoc, length_append] at htiles
  exact ⟨ts, htiles.behind (passes_of_drop drop_left (.blank hc .nil)), hspell⟩

theorem lineFeed (h : Spells s ws) : Spells (Bytes.lineFeed :: s) ws := h.blank rfl (by decide)

theorem space (h : Spells s ws) : Spells (Bytes.blank :: s) ws := h.blank rfl (by decide)

theorem word {w : Word} (hw : w.isSpelled = true) (hs : Starts w.endsBefore s) (h : Spells s ws) :
    Spells (w.text ++ s) (w :: ws) := by
  have hfree := h.free.append_text hw hs
  refine ⟨hfree, ?_, fun front => ?_⟩
  · exact fun hmem => (mem_append.mp hmem).elim (carriageReturn_not_mem_text hw) h.plain
  obtain ⟨ts, htiles, hspell⟩ := h.tokens (front ++ w.text)
  rw [append_assoc, length_append] at htiles
  have hdrop : (front ++ (w.text ++ s)).drop front.length = w.text ++ s := drop_left
  have htile :=
    @isTile_of_longest _ front.length ⟨w.kind, w.text, _⟩ (by rw [hdrop]; exact longest_text hw hs)
    (by rw [hdrop]; exact hfree _ suffix_rfl) rfl
  exact ⟨_, .token (.refl _ _) htile htiles, .word (by cases w <;> rfl) hspell⟩

end Spells

end Token

end Eel
