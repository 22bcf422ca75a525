import Eel.Proofs.Steps
import Eel.Tree.Parser

/-!
Tokens as the words of a grammar.

A word is a token without its place. A cursor shows a sequence of words when
these are the tokens still to be read, with the token behind them at which
reading ends: the end of the text, or a token that cannot be read. Readers look
at one word and pass over it, so what they do is said by the words that are
shown.
-/

namespace Eel

/-- A token of the language, without its place. -/
inductive Word where
  | name (lexeme : Bytes)
  | ifWord (lexeme : Bytes)
  | number (lexeme : Bytes)
  | symbol (s : Symbol)
deriving DecidableEq, Repr

variable {s : Symbol} {e : ParseError}

namespace Word

def kind : Word → Token.Kind
  | name _ => .identifier
  | ifWord _ => .ifWord
  | number _ => .number
  | symbol s => .symbol s

/-- The kind of the token that comes next when words are read. -/
def nextKind : List Word → Token.Kind
  | [] => .finish
  | w :: _ => w.kind

theorem eq_symbol_of_kind {w : Word} (h : w.kind = .symbol s) : w = .symbol s := by
  cases w <;> cases h
  rfl

end Word

namespace Token

/-- The word that a token is, unless reading ends at it. -/
def word? (t : Token) : Option Word :=
  match t.kind with
  | .identifier => some (.name t.lexeme)
  | .ifWord => some (.ifWord t.lexeme)
  | .number => some (.number t.lexeme)
  | .symbol s => some (.symbol s)
  | .finish | .illegal _ | .openComment => none

/-- That tokens are words with a token behind them, of some kind, at which
reading ends. -/
inductive Spell : Kind → List Token → List Word → Prop
  | finish {t : Token} (h : t.kind = .finish) : Spell .finish [t] []
  | unreadable {t u : Token} {w : Word} {e : ParseError} (h : t.word? = some w)
      (hu : Tree.Reader.lexicalError? u = some e) : Spell u.kind [t, u] [w]
  | word {last : Kind} {t : Token} {w : Word} {ts : List Token} {ws : List Word}
      (h : t.word? = some w)
      (hrest : Spell last ts ws) : Spell last (t :: ts) (w :: ws)

end Token

namespace Tree

/-- That a cursor has words to read, and then a token at which reading ends. -/
def Cursor.ShowsUntil (last : Token.Kind) (c : Cursor) (ws : List Word) : Prop :=
  Token.Spell last (c.current :: c.rest) ws

/-- That a cursor has words to read, and then the end of the text. -/
abbrev Cursor.Shows (c : Cursor) (ws : List Word) : Prop := c.ShowsUntil .finish ws

theorem incomplete_of_lexicalError? {t : Token} (h : Reader.lexicalError? t = some e)
    (he : e.incomplete = true) : t.kind = .openComment := by
  cases hkind : t.kind with
  | openComment => rfl
  | illegal byte =>
    simp only [Reader.lexicalError?, hkind, Option.some.injEq] at h
    subst h
    have hkinds : t.kind = .finish ∨ t.kind = .openComment := by simpa [ParseError.atToken] using he
    rw [hkind] at hkinds
    rcases hkinds with hkinds | hkinds <;> cases hkinds
  | _ =>
    simp only [Reader.lexicalError?, hkind] at h
    cases h

namespace Cursor.ShowsUntil

variable {last : Token.Kind} {c : Cursor} {w : Word} {ws : List Word}

theorem word?_eq (h : c.ShowsUntil last (w :: ws)) : c.current.word? = some w := by
  obtain ⟨t, rest, stop⟩ := c
  rcases h with _ | ⟨h, -⟩ | ⟨h, -⟩
  · exact h
  · exact h

theorem kind_eq (h : c.ShowsUntil last ws) : c.current.kind = Word.nextKind ws := by
  cases ws with
  | nil =>
    obtain ⟨t, rest, stop⟩ := c
    cases h with
    | finish h => exact h
  | cons w ws =>
    have hw := h.word?_eq
    unfold Token.word? at hw
    split at hw <;> cases hw <;> assumption

/-- Where no words are left, the text is at its end. -/
theorem last_eq (h : c.ShowsUntil last []) : last = .finish := by
  obtain ⟨t, rest, stop⟩ := c
  cases h with
  | finish => rfl

/-- The token that comes next can be read. -/
theorem lexicalError?_eq (h : c.ShowsUntil last ws) : Reader.lexicalError? c.current = none := by
  unfold Reader.lexicalError?
  rw [h.kind_eq]
  rcases ws with _ | ⟨_ | _ | _ | _, _⟩ <;> rfl

/-- The next word is passed over, unless reading ends behind it. -/
theorem advance (h : c.ShowsUntil last (w :: ws)) :
    (∃ c', Reader.advance c = .ok ((), c') ∧ c'.ShowsUntil last ws) ∨
      last ≠ .finish ∧ ∃ e, Reader.advance c = .error e ∧
      (e.incomplete = true → last = .openComment) := by
  obtain ⟨t, rest, stop⟩ := c
  rcases h with _ | @⟨_, u, _, e, -, hu⟩ | ⟨-, hrest⟩
  · refine .inr ⟨?_, e, ?_, ?_⟩
    · intro hlast
      unfold Reader.lexicalError? at hu
      rw [hlast] at hu
      cases hu
    · simp only [Reader.advance, hu]
    · exact incomplete_of_lexicalError? hu
  · cases rest with
    | nil => cases hrest
    | cons u rest =>
      have hlegal : Reader.lexicalError? u = none := lexicalError?_eq (c := ⟨u, rest, stop⟩) hrest
      refine .inl ⟨⟨u, rest, t.stop⟩, ?_, hrest⟩
      simp only [Reader.advance, hlegal]

end Cursor.ShowsUntil

namespace Reader

variable {α β : Type} {c : Cursor} {f : α → Reader β} {r : Reader α}

theorem kind_bind {f : Token.Kind → Reader β} : (kind >>= f) c = f c.current.kind c := rfl

theorem current_bind {f : Token → Reader β} : (current >>= f) c = f c.current c := rfl

theorem bind_of_ok {a : α} {c' : Cursor} (h : r c = .ok (a, c')) : (r >>= f) c = f a c' := by
  change (r c >>= fun p => f p.1 p.2) = _
  rw [h]
  rfl

theorem bind_of_error (h : r c = .error e) : (r >>= f) c = .error e := by
  change (r c >>= fun p => f p.1 p.2) = _
  rw [h]
  rfl

theorem expect_bind {wanted : List ParseError.Wanted} {f : Unit → Reader β} :
    (expect s wanted >>= f) c =
      if c.current.kind = .symbol s then (advance >>= f) c
      else (unexpected wanted : Reader β) c := by
  change ((if c.current.kind = .symbol s then advance else unexpected wanted) >>= f) c = _
  split <;> rfl

end Reader

namespace Cursor.Shows

variable {c : Cursor} {w : Word} {ws : List Word}

theorem pass (h : c.Shows (w :: ws)) :
    ∃ d, d.Shows ws ∧ ∀ {β : Type} (f : Unit → Reader β), (Reader.advance >>= f) c = f () d := by
  obtain ⟨d, hadvance, hd⟩ | ⟨hlast, -⟩ := h.advance
  · exact ⟨d, hd, fun f => Reader.bind_of_ok hadvance⟩
  · exact absurd rfl hlast

theorem expect (h : c.Shows (.symbol s :: ws)) :
    ∃ d, d.Shows ws ∧ ∀ {β : Type} (wanted : List ParseError.Wanted) (f : Unit → Reader β),
      (Reader.expect s wanted >>= f) c = f () d := by
  obtain ⟨d, hd, hpass⟩ := h.pass
  have hkind : c.current.kind = .symbol s := h.kind_eq
  exact ⟨d, hd, fun wanted f => by rw [Reader.expect_bind, if_pos hkind, hpass]⟩

end Cursor.Shows

end Tree

end Eel
