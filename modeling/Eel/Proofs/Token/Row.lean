import Eel.Proofs.Token.Tiling

/-!
Tokens stand one behind the other.

In a text without comments and carriage returns there are only blanks between
two tokens. Each token is found where its bytes stand, with the line and the
column of their offset, and no token reaches over the end of a line.
-/

namespace Eel.Token

open Cleaned List

/-- That a token of a text fills it from one offset up to another. Its bytes
stand there, none of them a blank, and its places are those of the offsets. -/
structure Fills (text : Bytes) (t : Token) (i j : Nat) : Prop where
  mem : t ∈ list text
  kind : t.kind.isLast = false
  lexeme : t.lexeme ≠ []
  solid : ∀ c ∈ t.lexeme, isSpace c = false
  length : j = i + t.lexeme.length
  stands : text.drop i = t.lexeme ++ text.drop j
  start : t.start = positionIn text i
  stop : t.stop = positionIn text j

/-- That a token is the last one of a text: its end, or a byte that starts no
token. -/
structure Closes (text : Bytes) (t : Token) (i : Nat) : Prop where
  mem : t ∈ list text
  start : t.start = positionIn text i
  ends : t.kind = .finish ∧ t.lexeme = [] ∧ i = text.length ∨
    ∃ c, t.kind = .illegal c ∧ text[i]? = some c ∧ isSpace c = false

/-- That tokens stand one behind the other in a text from an offset on, up to
the last one. -/
inductive InRow (text : Bytes) : Nat → List Token → Prop
  | last {i k : Nat} {t : Token} (hle : i ≤ k) (h : t.Closes text k) : InRow text i [t]
  | next {i k j : Nat} {t : Token} {ts : List Token} (hle : i ≤ k) (h : t.Fills text k j)
      (hrest : InRow text j ts) :
      InRow text i (t :: ts)

variable {text : Bytes} {t : Token} {ts : List Token} {i j : Nat} {c : UInt8}

theorem Fills.lt (h : t.Fills text i j) : i < j := by
  have hpos := length_pos_iff.mpr h.lexeme
  have hlength := h.length
  omega

theorem Fills.le_length (h : t.Fills text i j) : j ≤ text.length := by
  have hstands := congrArg List.length h.stands
  have hlength := h.length
  have hpos := length_pos_iff.mpr h.lexeme
  rw [length_append, length_drop, length_drop] at hstands
  omega

/-- In a text without comments and carriage returns the tokens that tile it
stand in a row. -/
theorem Tiles.inRow (h : Tiles text i ts) (hfree : CommentFree text)
    (hreturn : Bytes.carriageReturn ∉ text) (hmem : ∀ t ∈ ts, t ∈ list text) : InRow text i ts := by
  induction h with
  | finish hgap =>
    exact .last hgap.le ⟨hmem _ (by simp), (positionIn_eq_counted hreturn le_rfl).symm,
      .inl ⟨rfl, rfl, rfl⟩⟩
  | @illegal i k c s hgap hs hc _ =>
    have hget : text[k]? = some c := by rw [← head?_drop, hs, head?_cons]
    have hk := (List.getElem?_eq_some_iff.mp hget).1.le
    exact .last hgap.le ⟨hmem _ (by simp), (positionIn_eq_counted hreturn hk).symm,
      .inr ⟨c, rfl, hget, hc⟩⟩
  | @openComment i k body _ hs =>
    have hopens := hfree _ (drop_suffix k text)
    rw [hs] at hopens
    cases hopens
  | @token i k j t ts hgap ht _ ih =>
    have hj := ht.le_length
    have hadmits := ht.longest.admits
    have hstart := ht.start.trans (positionIn_eq_counted hreturn (ht.lt.le.trans hj)).symm
    have hstop := ht.stop.trans (positionIn_eq_counted hreturn hj).symm
    refine .next hgap.le ⟨hmem t (by simp), hadmits.isLast, hadmits.ne_nil, hadmits.not_isSpace,
      ht.length, ht.slice, hstart, hstop⟩ (ih fun u hu => hmem u (by simp [hu]))

/-- The tokens of a text without comments and carriage returns. -/
theorem inRow_list (hfree : CommentFree text) (hreturn : Bytes.carriageReturn ∉ text) :
    InRow text 0 (list text) :=
  (tiles_list text).inRow hfree hreturn fun _ ht => ht

theorem Tiles.lexeme_of_illegal (h : Tiles text i ts) (ht : t ∈ ts) (hkind : t.kind = .illegal c) :
    t.lexeme = Text.encodePoint c.toNat := by
  induction h with
  | finish | openComment =>
    obtain rfl := mem_singleton.mp ht
    cases hkind
  | illegal =>
    obtain rfl := mem_singleton.mp ht
    cases hkind
    rfl
  | token _ htile _ ih =>
    rcases mem_cons.mp ht with rfl | ht
    · have hlast := htile.longest.admits.isLast
      rw [hkind] at hlast
      cases hlast
    · exact ih ht

/-- A byte that starts no token is recorded as the code point of its number. -/
theorem lexeme_of_illegal (h : t ∈ list text) (hkind : t.kind = .illegal c) :
    t.lexeme = Text.encodePoint c.toNat := (tiles_list text).lexeme_of_illegal h hkind

end Eel.Token
