import Eel.Proofs.Tree.Reading

/-!
Texts and the grammar.

A text is a script exactly if its words are derived from the grammar, and then
the script is the tree of the derivation. The tokens of a text are words up to
the last one, which is the end of the text or what cannot be read. Nothing is
read past a token of the second kind, so a text with one is no script.
-/

namespace Eel

open List

variable {ts : List Token} {s : Bytes} {last : Token.Kind}

namespace Token

variable {t : Token} {ws : List Word}

theorem exists_word (h : t.kind.isLast = false) : ∃ w, t.word? = some w := by
  unfold word?
  cases hkind : t.kind with
  | identifier | ifWord | number | symbol => exact ⟨_, rfl⟩
  | finish | illegal | openComment =>
    rw [hkind] at h
    cases h

theorem word?_of_isLast (h : t.kind.isLast = true) : t.word? = none := by
  unfold word?
  cases hkind : t.kind with
  | finish | illegal | openComment => rfl
  | identifier | ifWord | number | symbol =>
    rw [hkind] at h
    cases h

theorem lexicalError?_of_isLast (h : t.kind.isLast = false) :
    Tree.Reader.lexicalError? t = none := by
  unfold Tree.Reader.lexicalError?
  cases hkind : t.kind with
  | illegal | openComment =>
    rw [hkind] at h
    cases h
  | finish | identifier | ifWord | number | symbol => rfl

theorem exists_lexicalError (h : t.kind.isLast = true) (hfinish : t.kind ≠ .finish) :
    ∃ e, Tree.Reader.lexicalError? t = some e := by
  unfold Tree.Reader.lexicalError?
  cases hkind : t.kind with
  | illegal | openComment => exact ⟨_, rfl⟩
  | finish => exact absurd hkind hfinish
  | identifier | ifWord | number | symbol =>
    rw [hkind] at h
    cases h

theorem exists_last (fuel : Nat) (p : Position) (s : Bytes) : ∃ front last,
    listWithin fuel p s = front ++ [last] ∧ (∀ t ∈ front, t.kind.isLast = false) ∧
    last.kind.isLast = true := by
  induction fuel generalizing p s with
  | zero => exact ⟨[], _, rfl, by simp, rfl⟩
  | succ fuel ih =>
    rw [listWithin]
    split
    · exact ⟨[], _, rfl, by simp, rfl⟩
    · rename_i p s _
      dsimp only
      split
      · rename_i hlast
        exact ⟨[], _, rfl, by simp, hlast⟩
      · rename_i hlast
        obtain ⟨front, last, hlist, hfront, hkind⟩ :=
          ih (Token.stop ⟨(classify s).1, (classify s).2, p⟩) (s.drop (classify s).2.length)
        rw [hlist]
        exact ⟨_ :: front, last, rfl, forall_mem_cons.mpr ⟨by simpa using hlast, hfront⟩, hkind⟩

theorem spell_append {front : List Token} {last : Token}
    (hfront : ∀ t ∈ front, t.kind.isLast = false) (hlast : last.kind.isLast = true)
    (h : front ≠ [] ∨ last.kind = .finish) :
    Spell last.kind (front ++ [last]) (front.filterMap word?) := by
  induction front with
  | nil =>
    have hkind : last.kind = .finish := by simpa using h
    rw [hkind]
    exact .finish hkind
  | cons t front ih =>
    obtain ⟨w, hw⟩ := exists_word (hfront t (by simp))
    rw [filterMap_cons_some hw]
    by_cases hmore : front ≠ [] ∨ last.kind = .finish
    · exact .word hw (ih (fun u hu => hfront u (by simp [hu])) hmore)
    · obtain ⟨rfl, hkind⟩ : front = [] ∧ last.kind ≠ .finish := by simpa [not_or] using hmore
      obtain ⟨e, he⟩ := exists_lexicalError hlast hkind
      exact .unreadable hw he

theorem Spell.exists_last {last : Kind} (h : Spell last ts ws) : ∃ t ∈ ts, t.kind = last := by
  induction h with
  | @finish t h => exact ⟨t, by simp, h⟩
  | @unreadable t u => exact ⟨u, by simp, rfl⟩
  | word _ _ ih =>
    obtain ⟨t, ht, hkind⟩ := ih
    exact ⟨t, mem_cons_of_mem _ ht, hkind⟩

theorem Spell.length_lt {last : Kind} (h : Spell last ts ws) : ws.length < ts.length := by
  induction h with
  | finish | unreadable => simp
  | word _ _ ih => simpa using ih

end Token

namespace Word

/-- The words of a text, if each of its tokens can be read. -/
def list? (s : Bytes) : Option (List Word) :=
  if (Token.list s).all fun t =>
    (Tree.Reader.lexicalError? t).isNone then some ((Token.list s).filterMap Token.word?)
  else none

end Word

namespace Tree

open Token

variable {ws : List Word}

/-- The words of a text are the ones that a cursor at its start shows. -/
theorem spell_of_list? (h : Word.list? s = some ws) : Spell .finish (Token.list s) ws := by
  obtain ⟨front, last, hlist, hfront, hlast⟩ := exists_last (s.length + 1) .start s
  rw [← Token.list] at hlist
  unfold Word.list? at h
  rw [hlist] at h ⊢
  split at h
  · rename_i hlegal
    have hkind : last.kind = .finish := by
      by_contra hkind
      obtain ⟨e, he⟩ := exists_lexicalError hlast hkind
      simp [he] at hlegal
    have hspell := spell_append hfront hlast (.inr hkind)
    have hwords : (front ++ [last]).filterMap word? = front.filterMap word? := by
      simp [filterMap_append, word?_of_isLast hlast]
    rwa [hkind, ← hwords, Option.some.inj h] at hspell
  · cases h

theorem readable_of_spell (h : Spell last ts ws) (hlast : last = .finish) :
    (∀ t ∈ ts, Reader.lexicalError? t = none) ∧ ts.filterMap word? = ws := by
  induction h with
  | @finish t h =>
    have hlegal := Cursor.ShowsUntil.lexicalError?_eq (c := ⟨t, [], .start⟩) (.finish h)
    have hword : t.word? = none := word?_of_isLast (by rw [h]; rfl)
    exact ⟨by simpa using hlegal, by simp [hword]⟩
  | @unreadable t u w e _ hu =>
    unfold Reader.lexicalError? at hu
    rw [hlast] at hu
    cases hu
  | @word _ t w ts ws h hrest ih =>
    obtain ⟨hlegal, hwords⟩ := ih hlast
    have ht := Cursor.ShowsUntil.lexicalError?_eq (c := ⟨t, ts, .start⟩) (.word h hrest)
    exact ⟨forall_mem_cons.mpr ⟨ht, hlegal⟩, by rw [filterMap_cons_some h, hwords]⟩

theorem list?_of_spell (h : Spell .finish (Token.list s) ws) : Word.list? s = some ws := by
  obtain ⟨hlegal, hwords⟩ := readable_of_spell h rfl
  rw [Word.list?, if_pos (by simpa using hlegal), hwords]

/-- A text begins with a token that cannot be read, or its tokens are words up
to the last. -/
theorem exists_spell (s : Bytes) :
    (∃ t e, Token.list s = [t] ∧ Reader.lexicalError? t = some e) ∨
    ∃ last ws, Spell last (Token.list s) ws := by
  obtain ⟨front, last, hlist, hfront, hlast⟩ := exists_last (s.length + 1) .start s
  rw [← Token.list] at hlist
  rw [hlist]
  by_cases h : front ≠ [] ∨ last.kind = .finish
  · exact .inr ⟨_, _, spell_append hfront hlast h⟩
  · obtain ⟨rfl, hkind⟩ : front = [] ∧ last.kind ≠ .finish := by simpa [not_or] using h
    obtain ⟨e, he⟩ := exists_lexicalError hlast hkind
    exact .inl ⟨last, e, rfl, he⟩

theorem ofTokens_cons {t : Token} {rest : List Token} (h : Reader.lexicalError? t = none) :
    ofTokens (t :: rest) = (script (rest.length + 1) ⟨t, rest, ⟨0, 0, 0⟩⟩).map (·.1) := by
  rw [ofTokens, h]
  cases hrun : script (rest.length + 1) ⟨t, rest, ⟨0, 0, 0⟩⟩ with
  | error e =>
    simp only [StateT.run, hrun]
    rfl
  | ok result =>
    simp only [StateT.run, hrun]
    rfl

/-- Tokens that start with a word or with the end are read as a whole. -/
theorem ofTokens_of_spell (h : Spell last ts ws) :
    ∃ c : Cursor, c.ShowsUntil last ws ∧ ofTokens ts = (script ts.length c).map (·.1) := by
  cases ts with
  | nil => cases h
  | cons t rest =>
    have hc : Cursor.ShowsUntil last ⟨t, rest, ⟨0, 0, 0⟩⟩ ws := h
    exact ⟨_, hc, ofTokens_cons hc.lexicalError?_eq⟩

/-- What is read of a text is derived. What is incomplete, unless a comment is
open, can be completed. -/
theorem parse_reads (s : Bytes) :
    match Script.parse s with
    | .ok result =>
      ∃ ws, Spell .finish (Token.list s) ws ∧ Grammar.Script ws (Node.bareAll result.body)
    | .error e => e.incomplete = true → (∃ t ∈ Token.list s, t.kind = .openComment) ∨
        ∃ ws us body, Spell .finish (Token.list s) ws ∧ Closing us ∧
          Grammar.Script (ws ++ us) body := by
  obtain ⟨t, e, hlist, he⟩ | ⟨last, ws, hspell⟩ := exists_spell s
  · have hparse : Script.parse s = .error e := by rw [Script.parse, hlist, ofTokens, he]
    rw [hparse]
    exact fun hincomplete => .inl ⟨t, by simp [hlist], incomplete_of_lexicalError? he hincomplete⟩
  · obtain ⟨c, hc, hparse⟩ := ofTokens_of_spell hspell
    have hreads := script_reads (Token.list s).length last c ws hc hspell.length_lt
    rw [Script.parse, hparse]
    cases hrun : script (Token.list s).length c with
    | ok result =>
      rw [hrun] at hreads
      obtain ⟨us, vs, rfl, hd, hkind, hscript⟩ := hreads
      cases vs with
      | nil =>
        obtain rfl := hd.last_eq
        exact ⟨us, by rwa [append_nil] at hspell, hscript⟩
      | cons w vs => cases w <;> cases hkind
    | error e =>
      rw [hrun] at hreads
      intro hincomplete
      obtain rfl | ⟨rfl, us, result, hus, -, hscript⟩ := hreads hincomplete
      · exact .inl hspell.exists_last
      · exact .inr ⟨ws, us, _, hspell, hus, hscript⟩

/-- What is derived is read. -/
theorem parse_of_spell {body : List Node} (hspell : Spell .finish (Token.list s) ws)
    (hscript : Grammar.Script ws body) :
    ∃ result, Script.parse s = .ok result ∧ Node.bareAll result.body = body := by
  obtain ⟨c, hc, hparse⟩ := ofTokens_of_spell hspell
  obtain ⟨result, d, hrun, hbody⟩ := script_gives hscript hc hspell.length_lt
  refine ⟨result, ?_, hbody⟩
  rw [Script.parse, hparse, hrun]
  rfl

/-- A text is a script if and only if its words are derived from the grammar,
and its tree is the one derived. -/
theorem parse_iff_derived (s : Bytes) (body : List Node) :
    (∃ result, Script.parse s = .ok result ∧ Node.bareAll result.body = body) ↔
      ∃ ws, Word.list? s = some ws ∧ Grammar.Script ws body := by
  constructor
  · rintro ⟨result, hparse, rfl⟩
    have hreads := parse_reads s
    rw [hparse] at hreads
    obtain ⟨ws, hspell, hscript⟩ := hreads
    exact ⟨ws, list?_of_spell hspell, hscript⟩
  · rintro ⟨ws, hws, hscript⟩
    exact parse_of_spell (spell_of_list? hws) hscript

end Tree

end Eel
