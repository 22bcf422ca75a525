import Eel.Proofs.Source.Anchors
import Eel.Proofs.Token.Longest

/-!
Tokens and what stands behind them.

The longest token at the front of a text stays the same when something is put
behind the text, unless that starts with a byte that the token could go on with.
A line feed never does.
-/

namespace Eel.Token

open Bytes List

variable {c : UInt8} {s t u w : Bytes} {kind : Kind} {p : UInt8 → Bool}

/-- That what a text starts with, if anything, has a property. -/
def Starts (p : UInt8 → Bool) (s : Bytes) : Prop := ∀ c, s.head? = some c → p c = true

theorem Starts.nil (p : UInt8 → Bool) : Starts p [] := nofun

theorem Starts.cons (h : p c = true) (s : Bytes) : Starts p (c :: s) := by
  rintro _ ⟨⟩
  exact h

theorem Starts.imp {q : UInt8 → Bool} (h : Starts p s) (hpq : ∀ c, p c = true → q c = true) :
    Starts q s := fun c hc => hpq c (h c hc)

/-- Whether a byte is the second one of a symbol. -/
def pairs (c : UInt8) : Bool := c == '='.toUInt8 || c == '&'.toUInt8 || c == '|'.toUInt8

/-- Whether a byte is no part of a token that started before it. -/
def separates (c : UInt8) : Bool := !continuesName c && !pairs c

theorem pairs_of_mem_tail (symbol : Symbol) : ∀ d ∈ symbol.text.tail, pairs d = true := by
  have hall : symbol.text.tail.all pairs = true := by cases symbol <;> rfl
  simpa using hall

/-- Behind the first byte of a token there is none that separates. -/
theorem Kind.Admits.not_separates (h : kind.Admits w) : ∀ d ∈ w.tail, separates d = false := by
  have hname (hsymbol : ∀ symbol, kind ≠ .symbol symbol) : ∀ d ∈ w.tail, separates d = false := by
    intro d hd
    simp [separates, h.continuesName hsymbol d (mem_of_mem_tail hd)]
  cases h with
  | symbol symbol =>
    intro d hd
    simp [separates, pairs_of_mem_tail symbol d hd]
  | identifier | ifWord | number => exact hname nofun

/-- What is put behind a text is no part of a beginning that does not go on with
its first byte. -/
theorem prefix_of_prefix_append (hp : ∀ d ∈ w.tail, p d = false) (hs : s ≠ []) (hu : Starts p u)
    (hw : w <+: s ++ u) : w <+: s := by
  rcases prefix_or_prefix_of_prefix hw (prefix_append s u) with hw' | ⟨v, rfl⟩
  · exact hw'
  · rw [prefix_append_right_inj] at hw
    cases v with
    | nil => rw [append_nil]
    | cons d v =>
      obtain ⟨u', rfl⟩ := hw
      have hd := hp d (by simp [tail_append_of_ne_nil hs])
      rw [hu d rfl] at hd
      cases hd

/-- What stands behind a text does not change its first token, if it starts with
no part of it. -/
theorem Longest.append (h : Longest s kind w) (hu : Starts separates u) :
    Longest (s ++ u) kind w := by
  refine ⟨h.admits, h.front.trans (prefix_append _ _), fun h' hw => h.length_le h' ?_⟩
  refine prefix_of_prefix_append h'.not_separates ?_ hu hw
  rintro rfl
  exact h.admits.ne_nil (prefix_nil.mp h.front)

theorem not_prefix_append (h : ∀ (kind : Kind) (w : Bytes), kind.Admits w → ¬w <+: c :: s)
    (hu : Starts separates u) : ∀ (kind : Kind) (w : Bytes), kind.Admits w → ¬w <+: c :: (s ++ u) :=
  fun kind w hw hfront =>
    h kind w hw (prefix_of_prefix_append hw.not_separates (cons_ne_nil c s) hu hfront)

/-- That no comment opens anywhere in a text. -/
def CommentFree (s : Bytes) : Prop := ∀ t, t <:+ s → Cleaned.opensComment t = false

theorem CommentFree.nil : CommentFree [] := by
  intro t ht
  obtain rfl := suffix_nil.mp ht
  rfl

theorem CommentFree.cons (h : CommentFree s) (hc : Cleaned.opensComment (c :: s) = false) :
    CommentFree (c :: s) := by
  intro t ht
  rcases suffix_cons_iff.mp ht with rfl | ht
  · exact hc
  · exact h t ht

theorem opensComment_of_ne (h : c ≠ slash) (s : Bytes) : Cleaned.opensComment (c :: s) = false := by
  by_contra hopens
  obtain ⟨rest, hrest | hrest⟩ := Cleaned.opensComment_eq_true (by simpa using hopens)
  · exact h (List.cons.inj hrest).1
  · exact h (List.cons.inj hrest).1

theorem CommentFree.suffix (h : CommentFree s) (ht : t <:+ s) : CommentFree t :=
  fun u hu => h u (hu.trans ht)

theorem CommentFree.left (h : CommentFree (s ++ u)) : CommentFree s := by
  intro t ht
  obtain ⟨front, rfl⟩ := ht
  have happend := h (t ++ u) ⟨front, by rw [append_assoc]⟩
  by_contra hopens
  obtain ⟨rest, rfl | rfl⟩ := Cleaned.opensComment_eq_true (by simpa using hopens)
  · cases happend
  · cases happend

section Opening

open Cleaned

/-- Whether a comment opens is decided by two bytes. -/
theorem opensComment_pair {d : UInt8} (h : opensComment (c :: d :: t) = false) (t' : Bytes) :
    opensComment (c :: d :: t') = false := by
  by_contra hopens
  obtain ⟨rest, hrest | hrest⟩ := opensComment_eq_true (Bool.not_eq_false _ ▸ hopens)
  · obtain ⟨rfl, rfl, -⟩ : c = slash ∧ d = slash ∧ t' = rest := by simpa using hrest
    cases h
  · obtain ⟨rfl, rfl, -⟩ : c = slash ∧ d = star ∧ t' = rest := by simpa using hrest
    cases h

theorem opensComment_lineFeed (c : UInt8) (t : Bytes) :
    opensComment (c :: lineFeed :: t) = false := by
  by_contra hopens
  obtain ⟨rest, hrest | hrest⟩ := opensComment_eq_true (Bool.not_eq_false _ ▸ hopens)
  · exact absurd (List.cons.inj (List.cons.inj hrest).2).1 (by decide)
  · exact absurd (List.cons.inj (List.cons.inj hrest).2).1 (by decide)

theorem opensComment_append_lineFeed (h : opensComment (c :: t) = false) (v : Bytes) :
    opensComment (c :: (t ++ lineFeed :: v)) = false := by
  cases t with
  | nil => exact opensComment_lineFeed c v
  | cons d t => exact opensComment_pair h _

end Opening

end Eel.Token
