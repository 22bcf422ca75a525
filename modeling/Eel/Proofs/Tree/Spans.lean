import Eel.Proofs.Token.Row
import Eel.Proofs.Tree.Parsing

/-!
Where the nodes of a tree stand.

A node reaches from the first byte of a token to behind the last byte of one.
Its parts lie inside of it, one behind the other. Readers keep to this from the
offset where they start to the one behind the last token that they pass over,
and where they fail, they point at what is wrong: at the token that cannot stand
there, or at what cannot be assigned.
-/

namespace Eel

open Cleaned Token

namespace Position

/-- That a place is in front of the first byte of a token. -/
def StartsToken (text : Bytes) (p : Position) : Prop :=
  ∃ (t : Token) (i j : Nat), t.Fills text i j ∧ p = positionIn text i

/-- That a place is behind the last byte of a token. -/
def EndsToken (text : Bytes) (p : Position) : Prop :=
  ∃ (t : Token) (i j : Nat), t.Fills text i j ∧ p = positionIn text j

end Position

namespace Span

/-- That a span lies inside of another one. -/
def Inside (a b : Span) : Prop := b.start.offset ≤ a.start.offset ∧ a.stop.offset ≤ b.stop.offset

/-- That a span ends before another one starts. -/
def Before (a b : Span) : Prop := a.stop.offset ≤ b.start.offset

/-- That a span reaches from the first byte of a token to behind the last byte
of one, and is not empty. -/
structure Framed (text : Bytes) (span : Span) : Prop where
  start : span.start.StartsToken text
  stop : span.stop.EndsToken text
  nonempty : span.start.offset < span.stop.offset

end Span

namespace Node

/-- The parts of a node, in the order of the text. Callees are no nodes. -/
def children : Node → List Node
  | script body _ | block body _ => body
  | binary _ left right _ | logical _ left right _ => [left, right]
  | unary _ operand _ => [operand]
  | assign _ target value _ => [target, value]
  | call _ args _ => args
  | missing | ident _ | number .. => []

def callee? : Node → Option Ident
  | call callee _ _ => some callee
  | _ => none

/-- That some of a node's parts are those that were written: all of them, or the
first two of a choice whose second branch is missing, which is then zero. -/
inductive HasParts (text : Bytes) : Node → List Node → Prop
  | all (n : Node) : HasParts text n n.children
  | choice {t : Token} {test consequent : Node} {span : Span} (ht : t ∈ list text)
      (hkind : t.kind = .symbol .question) :
      HasParts text (.call ⟨utf8 "if", t.span⟩ [test, consequent, .number .zero .none] span)
        [test, consequent]

/-- That a node and all that were written inside of it have their places in a
text. Each reaches from a token to a token, its callee and its parts lie inside
of it, and the parts stand one behind the other. -/
inductive Nested (text : Bytes) : Node → Prop
  | intro {n : Node} {parts : List Node} (hparts : n.HasParts text parts)
      (framed : n.span.Framed text)
      (callee : ∀ id, n.callee? = some id → id.span.Framed text ∧ id.span.Inside n.span)
      (inside : ∀ m ∈ parts, m.span.Inside n.span) (order : parts.Pairwise (·.span.Before ·.span))
      (nested : ∀ m ∈ parts, m.Nested text) : n.Nested text

theorem Nested.framed {text : Bytes} {n : Node} (h : n.Nested text) : n.span.Framed text := by
  cases h with
  | intro _ framed => exact framed

end Node

namespace ParseError

/-- That what a cause is about starts at an offset. A target that cannot be
assigned is what is read in front of the operator, and its place is that of the
node. -/
def Cause.StartsAt (text : Bytes) (i : Nat) : Cause → Prop
  | .illegalByte c => ∃ t : Token, t.Closes text i ∧ t.kind = .illegal c
  | .openComment => False
  | .unexpected t => t.Closes text i ∧ t.kind = .finish ∨ ∃ j, t.Fills text i j
  | .numberRange lexeme =>
    ∃ (t : Token) (j : Nat), t.Fills text i j ∧ t.kind = .number ∧ t.lexeme = lexeme
  | .badTarget => ∃ (levels : Nat) (c d : Tree.Cursor) (n : Node) (k j : Nat),
      Tree.conditional (Tree.expression levels) (levels + 1) c = .ok (n, d) ∧ n.Nested text ∧
        n.span.start = positionIn text i ∧ Tree.isAssignable n = false ∧ d.current.Fills text k j ∧
          (Tree.assignOp? d.current.kind).isSome = true

/-- That a span is that of what a cause is about. The end of the text is empty,
a byte that starts no token takes as many bytes as the code point of its number,
and all else reaches from token to token. -/
def Cause.Spans (text : Bytes) (span : Span) : Cause → Prop
  | .illegalByte c => span.stop = span.start.along (Text.encodePoint c.toNat).length
  | .unexpected t => if t.kind = .finish then span.stop = span.start else span.Framed text
  | .openComment | .numberRange _ | .badTarget => span.Framed text

/-- That an error is located where what it is about starts, and ends where that
does. -/
def Points (text : Bytes) (e : ParseError) : Prop :=
  ∃ i, e.start = positionIn text i ∧ e.cause.StartsAt text i ∧ e.cause.Spans text ⟨e.start, e.stop⟩

end ParseError

variable {wanted : List ParseError.Wanted} {e : ParseError} {rest : List Token} {start : Position}

namespace Tree

variable {text : Bytes} {i j k : Nat} {c d : Cursor} {n : Node} {ns : List Node} {α β : Type}
  {next : α → Reader β}

section Place

/-- That a cursor is at the tokens that stand in a text from an offset on, and
that the first of them can be read. -/
structure Stands (text : Bytes) (i : Nat) (c : Cursor) : Prop where
  row : InRow text i (c.current :: c.rest)
  legible : Reader.lexicalError? c.current = none

/-- That a cursor is right behind a token that ends at an offset. -/
structure Behind (text : Bytes) (j : Nat) (c : Cursor) : Prop extends Stands text j c where
  lastStop : c.lastStop = positionIn text j
  ends : ∃ (t : Token) (i : Nat), t.Fills text i j

/-- That a node has its place between two offsets. -/
structure Laid (text : Bytes) (i j : Nat) (n : Node) : Prop where
  nested : n.Nested text
  start : (i : Int) ≤ n.span.start.offset
  stop : n.span.stop.offset ≤ j

/-- That nodes have their places between two offsets, one behind the other. -/
structure LaidAll (text : Bytes) (i j : Nat) (ns : List Node) : Prop where
  each : ∀ n ∈ ns, Laid text i j n
  order : ns.Pairwise (·.span.Before ·.span)

theorem Laid.widen {i' j' : Nat} (h : Laid text i j n) (hi : i' ≤ i) (hj : j ≤ j') :
    Laid text i' j' n :=
  ⟨h.nested, by have := h.start; omega, by have := h.stop; omega⟩

theorem LaidAll.nil : LaidAll text i j [] := ⟨by simp, .nil⟩

theorem LaidAll.widen {i' : Nat} (h : LaidAll text i j ns) (hi : i' ≤ i) : LaidAll text i' j ns :=
  ⟨fun n hn => (h.each n hn).widen hi le_rfl, h.order⟩

theorem LaidAll.cons (h : Laid text i j n) (hrest : LaidAll text j k ns) (hij : i ≤ j)
    (hjk : j ≤ k) : LaidAll text i k (n :: ns) := by
  refine ⟨List.forall_mem_cons.mpr
    ⟨h.widen le_rfl hjk, fun m hm => (hrest.each m hm).widen hij le_rfl⟩, ?_⟩
  exact .cons (fun m hm => h.stop.trans (hrest.each m hm).start) hrest.order

theorem offset_positionIn (text : Bytes) (i : Nat) : (positionIn text i).offset = i := rfl

theorem framed_of_fills {t : Token} (h : t.Fills text i j) : t.span.Framed text := by
  refine ⟨⟨t, i, j, h, h.start⟩, ⟨t, i, j, h, h.stop⟩, ?_⟩
  have hlt := h.lt
  rw [span, h.start, h.stop, offset_positionIn, offset_positionIn]
  omega

theorem Behind.endsToken (h : Behind text j c) : (positionIn text j).EndsToken text := by
  obtain ⟨t, i, ht⟩ := h.ends
  exact ⟨t, i, j, ht, rfl⟩

end Place

section Outcome

/-- That a reader gives something with a property if it does not fail, and
points at what is wrong if it does. -/
def Leads (text : Bytes) (r : Reader α) (c : Cursor) (post : α → Cursor → Prop) : Prop :=
  (∀ a d, r c = .ok (a, d) → post a d) ∧ ∀ e, r c = .error e → e.Points text

variable {t : Token} {r : Reader α}

namespace Leads

variable {post : α → Cursor → Prop} {post' : β → Cursor → Prop}

theorem bind (h : Leads text r c post) (h' : ∀ a d, post a d → Leads text (next a) d post') :
    Leads text (r >>= next) c post' := by
  cases hr : r c with
  | error e =>
    rw [Leads, Reader.bind_of_error hr]
    refine ⟨fun a d hok => (by cases hok), fun e' he => ?_⟩
    obtain rfl := Except.error.inj he
    exact h.2 e hr
  | ok p =>
    obtain ⟨a, d⟩ := p
    rw [Leads, Reader.bind_of_ok hr]
    exact h' a d (h.1 a d hr)

theorem mono {post' : α → Cursor → Prop} (h : Leads text r c post)
    (himp : ∀ a d, post a d → post' a d) :
    Leads text r c post' := ⟨fun a d hok => himp a d (h.1 a d hok), h.2⟩

theorem pure {a : α} (h : post a c) : Leads text (pure a) c post := by
  refine ⟨fun b d hok => ?_, fun e he => by cases he⟩
  obtain ⟨rfl, rfl⟩ := pure_eq_ok.mp hok
  exact h

theorem throw (h : e.Points text) : Leads text (throw e) c post := by
  refine ⟨fun a d hok => (by cases hok), fun e' he => ?_⟩
  obtain rfl := Except.error.inj he
  exact h

theorem throw_bind (h : e.Points text) : Leads text (MonadExcept.throw e >>= next) c post' := by
  have hnever : Leads text (MonadExcept.throw e) c fun (_ : α) _ => False := throw h
  exact hnever.bind fun _ _ => False.elim

theorem get {next : Cursor → Reader β} (h : Leads text (next c) c post') :
    Leads text (get >>= next) c post' := h

theorem current {next : Token → Reader β} (h : Leads text (next c.current) c post') :
    Leads text (Reader.current >>= next) c post' := h

theorem kind {next : Kind → Reader β} (h : Leads text (next c.current.kind) c post') :
    Leads text (Reader.kind >>= next) c post' := h

end Leads

/-- The current token fills a part of the text, with further tokens behind it,
or is the end of the text. -/
theorem Stands.cases (h : Stands text i c) :
    (∃ k j, i ≤ k ∧ c.current.Fills text k j ∧ InRow text j c.rest) ∨
      i ≤ text.length ∧ c.current.Closes text text.length ∧ c.current.kind = .finish := by
  obtain ⟨hrow, hlegible⟩ := h
  generalize hts : c.current :: c.rest = ts at hrow
  cases hrow with
  | @last _ k t hle hcloses =>
    obtain ⟨rfl, -⟩ := List.cons.inj hts
    rcases hcloses.ends with ⟨hkind, -, rfl⟩ | ⟨b, hkind, -⟩
    · exact .inr ⟨hle, hcloses, hkind⟩
    · simp [Reader.lexicalError?, hkind] at hlegible
  | @next _ k j t ts hle hfills hrest =>
    obtain ⟨rfl, rfl⟩ := List.cons.inj hts
    exact .inl ⟨k, j, hle, hfills, hrest⟩

theorem Stands.fills (h : Stands text i c) (hkind : c.current.kind.isLast = false) :
    ∃ k j, i ≤ k ∧ c.current.Fills text k j ∧ InRow text j c.rest := by
  rcases h.cases with hfills | ⟨-, -, hfinish⟩
  · exact hfills
  · rw [hfinish] at hkind
    cases hkind

/-- Nothing but blanks is in front of the current token. -/
theorem Stands.forward (h : Stands text i c) (hkind : c.current.kind.isLast = false) :
    ∃ k j, i ≤ k ∧ c.current.Fills text k j ∧ Stands text k c := by
  obtain ⟨k, j, hle, hfills, hrest⟩ := h.fills hkind
  exact ⟨k, j, hle, hfills, .next le_rfl hfills hrest, h.legible⟩

theorem advance_of_none (hrest : c.rest = t :: rest) (h : Reader.lexicalError? t = none) :
    Reader.advance c = .ok ((), ⟨t, rest, c.current.stop⟩) := by
  simp only [Reader.advance, hrest, h]

theorem advance_of_some (hrest : c.rest = t :: rest) (h : Reader.lexicalError? t = some e) :
    Reader.advance c = .error e := by
  simp only [Reader.advance, hrest, h]

/-- What cannot be read at all is the last token of a text, and located
there. -/
theorem points_of_lexicalError? {ts : List Token} (hrow : InRow text i (t :: ts))
    (h : Reader.lexicalError? t = some e) : e.Points text := by
  cases hrow with
  | next _ hfills =>
    rw [lexicalError?_of_isLast hfills.kind] at h
    cases h
  | @last _ k _ _ hcloses =>
    rcases hcloses.ends with ⟨hkind, -, -⟩ | ⟨b, hkind, -⟩
    · simp [Reader.lexicalError?, hkind] at h
    · obtain rfl : ParseError.atToken (.illegalByte b) t [] = e := by
        simpa [Reader.lexicalError?, hkind] using h
      refine ⟨k, hcloses.start, ⟨t, hcloses, hkind⟩, ?_⟩
      rw [ParseError.atToken, ParseError.Cause.Spans, ← lexeme_of_illegal hcloses.mem hkind, stop]

namespace Leads

variable {post : α → Cursor → Prop}

theorem unexpected (h : Stands text i c) : Leads text (Reader.unexpected wanted) c post := by
  refine current (throw ?_)
  rcases h.cases with ⟨k, j, -, hfills, -⟩ | ⟨-, hcloses, hkind⟩
  · refine ⟨k, hfills.start, .inr ⟨j, hfills⟩, ?_⟩
    have hne : c.current.kind ≠ .finish := by
      intro hfinish
      cases hfinish ▸ hfills.kind
    rw [ParseError.atToken, ParseError.Cause.Spans, if_neg hne]
    exact framed_of_fills hfills
  · refine ⟨text.length, hcloses.start, .inl ⟨hcloses, hkind⟩, ?_⟩
    have hempty : c.current.lexeme = [] := by
      rcases hcloses.ends with ⟨-, hempty, -⟩ | ⟨b, hillegal, -⟩
      · exact hempty
      · cases hkind.symm.trans hillegal
    rw [ParseError.atToken, ParseError.Cause.Spans, if_pos hkind]
    simp [stop, hempty, Position.along]

theorem unexpected_bind {post : β → Cursor → Prop} (h : Stands text i c) :
    Leads text (Reader.unexpected wanted >>= next) c post := by
  have hnever : Leads text (Reader.unexpected wanted) c fun (_ : α) _ => False := unexpected h
  exact hnever.bind fun _ _ => False.elim

/-- Behind the current token, or at a byte that starts none. -/
theorem advance (h : Stands text i c) (hkind : c.current.kind.isLast = false) :
    Leads text Reader.advance c fun _ d => ∃ k j, i ≤ k ∧ k < j ∧ c.current.Fills text k j ∧
    Behind text j d := by
  obtain ⟨k, j, hle, hfills, hrest⟩ := h.fills hkind
  cases hts : c.rest with
  | nil =>
    rw [hts] at hrest
    cases hrest
  | cons t rest =>
    rw [hts] at hrest
    cases hlexical : Reader.lexicalError? t with
    | none =>
      have hok := advance_of_none hts hlexical
      refine ⟨fun a d hok' => ?_, fun e he => (by cases hok.symm.trans he)⟩
      obtain ⟨rfl, rfl⟩ := Prod.mk.inj (Except.ok.inj (hok.symm.trans hok'))
      exact ⟨k, j, hle, hfills.lt, hfills, ⟨hrest, hlexical⟩, hfills.stop, c.current, k, hfills⟩
    | some e =>
      have herror := advance_of_some hts hlexical
      refine ⟨fun a d hok => (by cases herror.symm.trans hok), fun e' he => ?_⟩
      obtain rfl := Except.error.inj (herror.symm.trans he)
      exact points_of_lexicalError? hrest hlexical

theorem expect {s : Symbol} (h : Stands text i c) :
    Leads text (Reader.expect s wanted) c fun _ d => ∃ j, i < j ∧ Behind text j d := by
  refine kind ?_
  split
  · rename_i hkind
    refine (advance h (by rw [hkind]; rfl)).mono ?_
    rintro _ d ⟨k, j, hle, hlt, -, hbehind⟩
    exact ⟨j, hle.trans_lt hlt, hbehind⟩
  · exact unexpected h

end Leads

end Outcome

section Build

variable {a b : Nat} {t : Token} {l r : Node} {parts : List Node}

/-- A node between the start of a token and the end of one has its place if its
parts have theirs between. -/
theorem Laid.enclose (hparts : n.HasParts text parts) (hlaid : LaidAll text a b parts)
    (hspan : n.span = ⟨positionIn text k, positionIn text j⟩)
    (hstart : (positionIn text k).StartsToken text) (hends : (positionIn text j).EndsToken text)
    (ha : k ≤ a) (hb : b ≤ j) (hlt : k < j) (hcallee : ∀ id, n.callee? = some id →
      id.span.Framed text ∧ k ≤ id.span.start.offset ∧ id.span.stop.offset ≤ j) :
    Laid text k j n := by
  have hfrom : n.span.start.offset = k := by rw [hspan, offset_positionIn]
  have hto : n.span.stop.offset = j := by rw [hspan, offset_positionIn]
  have hframed : n.span.Framed text := by
    refine ⟨?_, ?_, by omega⟩
    · rw [hspan]
      exact hstart
    · rw [hspan]
      exact hends
  refine ⟨.intro hparts hframed (fun id hid => ?_) (fun m hm => ?_) hlaid.order fun m hm => ?_,
    hfrom.ge, hto.le⟩
  · obtain ⟨hcallee, hge, hle⟩ := hcallee id hid
    exact ⟨hcallee, hfrom ▸ hge, hto ▸ hle⟩
  · have hm := (hlaid.each m hm).widen ha hb
    exact ⟨hfrom ▸ hm.start, hto ▸ hm.stop⟩
  · exact (hlaid.each m hm).nested

/-- A node that is one token. -/
theorem Laid.leaf (h : t.Fills text k j) (hspan : n.span = t.span) (hchildren : n.children = [])
    (hcallee : n.callee? = none) : Laid text k j n := by
  have hparts : n.HasParts text [] := hchildren ▸ .all n
  refine .enclose hparts (LaidAll.nil (i := k) (j := j)) ?_ ⟨t, k, j, h, rfl⟩
    ⟨t, k, j, h, rfl⟩ le_rfl le_rfl h.lt
    (by simp [hcallee])
  rw [hspan, span, h.start, h.stop]

/-- The offsets that a node fills. -/
theorem Laid.exists_fills (h : Laid text i j n) : ∃ a b, i ≤ a ∧ a < b ∧ b ≤ j ∧
    (n.span.start = positionIn text a ∧ (positionIn text a).StartsToken text) ∧
    (n.span.stop = positionIn text b ∧ (positionIn text b).EndsToken text) ∧ Laid text a b n := by
  obtain ⟨⟨t, a, a', ht, hstart⟩, ⟨t', b', b, ht', hstop⟩, hnonempty⟩ := h.nested.framed
  have hi := h.start
  have hj := h.stop
  have hlaid : Laid text a b n :=
    ⟨h.nested, by rw [hstart, offset_positionIn], by rw [hstop, offset_positionIn]⟩
  rw [hstart, offset_positionIn] at hi hnonempty
  rw [hstop, offset_positionIn] at hj hnonempty
  exact ⟨a, b, by omega, by omega, by omega, ⟨hstart, t, a, a', ht, rfl⟩,
    ⟨hstop, t', b', b, ht', rfl⟩, hlaid⟩

/-- Two nodes, one behind the other, that are the parts of a third. -/
theorem Laid.join (hl : Laid text i j l) (hr : Laid text j k r) (hspan : n.span = spanOver l r)
    (hchildren : n.children = [l, r]) (hcallee : n.callee? = none) : Laid text i k n := by
  obtain ⟨a, a', hia, hlt, haj, ⟨hstart, hstarts⟩, -, hl'⟩ := hl.exists_fills
  obtain ⟨b', b, hjb, hlt', hbk, -, ⟨hstop, hends⟩, hr'⟩ := hr.exists_fills
  have hparts : n.HasParts text [l, r] := hchildren ▸ .all n
  have hlaid : LaidAll text a b [l, r] :=
    .cons hl' (.cons (hr'.widen (by omega) le_rfl) .nil (by omega) le_rfl) (by omega) (by omega)
  refine (Laid.enclose hparts hlaid ?_ hstarts hends le_rfl le_rfl ?_
    (by simp [hcallee])).widen hia hbk
  · rw [hspan, spanOver, hstart, hstop]
  · omega

/-- An operand behind a sign. -/
theorem Laid.unary {op : UnaryOp} (ht : t.Fills text k j) (h : Laid text j b n) :
    Laid text k b (.unary op n ⟨t.start, n.span.stop⟩) := by
  obtain ⟨a, b', hja, hlt, hle, -, ⟨hstop, hends⟩, h'⟩ := h.exists_fills
  have hkj := ht.lt
  rw [hstop, ht.start]
  refine (Laid.enclose (.all _) (.cons h' .nil (by omega) le_rfl) rfl
    ⟨t, k, j, ht, rfl⟩ hends ?_ le_rfl ?_
    (by simp [Node.callee?])).widen le_rfl hle
  · omega
  · omega

end Build

section Grammar

/-- That a cursor is right behind a token that does not lie in front of an
offset, and what is known up to there. -/
def After (text : Bytes) (i : Nat) (P : Nat → Prop) (d : Cursor) : Prop :=
  ∃ j, i ≤ j ∧ Behind text j d ∧ P j

/-- That a reader gives a node that has its place among the tokens that it
passes over, at least one. -/
def LaysOut (text : Bytes) (r : Reader Node) : Prop :=
  ∀ {i c}, Stands text i c →
    Leads text r c fun n d => c.current.kind.isLast = false ∧
      After text i (fun j => Laid text i j n) d

variable {expr : Reader Node} (hexpr : LaysOut text expr) (bound : Nat) {r : Grammar.Rank}

include hexpr

theorem sequenceTail_lays (h : Behind text i c) :
    Leads text (sequenceTail expr bound) c fun ns d =>
      After text i (fun j => LaidAll text i j ns) d := by
  induction bound generalizing i c with
  | zero => exact .pure ⟨i, le_rfl, h, .nil⟩
  | succ bound ih =>
    refine .kind ?_
    split
    · exact .pure ⟨i, le_rfl, h, .nil⟩
    · rename_i hkind
      refine (Leads.advance h.toStands (by rw [not_not.mp hkind]; rfl)).bind ?_
      rintro _ d ⟨k, j, hik, hkj, hfills, hd⟩
      refine .kind ?_
      split
      · exact .pure ⟨j, by omega, hd, .nil⟩
      · refine (hexpr hd.toStands).bind ?_
        rintro n d' ⟨-, j', hjj', hd', hn⟩
        refine (ih hd').bind ?_
        rintro ns d'' ⟨j'', hjj'', hd'', hns⟩
        exact .pure ⟨j'', by omega, hd'', .cons (hn.widen (by omega) le_rfl) hns (by omega) hjj''⟩

theorem sequence_lays (h : Stands text i c) (hki : k ≤ i)
    (hstart : c.current.kind.isLast = false → start = positionIn text k ∧
      (positionIn text k).StartsToken text) :
    Leads text (sequence expr bound start wanted) c fun n d =>
      c.current.kind.isLast = false ∧ After text i (fun j => Laid text k j n) d := by
  refine (hexpr h).bind ?_
  rintro first d ⟨hlast, j, hij, hd, hfirst⟩
  refine (sequenceTail_lays hexpr bound hd).bind ?_
  rintro others d' ⟨j', hjj', hd', hothers⟩
  refine .kind ?_
  cases others with
  | nil =>
    dsimp only
    split
    · exact .unexpected_bind hd'.toStands
    · exact .pure ⟨hlast, j', by omega, hd', hfirst.widen hki hjj'⟩
  | cons second rest =>
    dsimp only
    split
    · exact .unexpected_bind hd'.toStands
    · refine .get (.pure ⟨hlast, j', by omega, hd', ?_⟩)
      obtain ⟨rfl, hstarts⟩ := hstart hlast
      obtain ⟨a, b, hia, hab, hbj, -⟩ := hfirst.exists_fills
      rw [hd'.lastStop]
      exact .enclose (.all _) (.cons hfirst hothers hij hjj') rfl hstarts hd'.endsToken hki
        le_rfl (by omega)
        (by simp [Node.callee?])

theorem arguments_lays (count : Nat) (h : Behind text i c) :
    Leads text (arguments expr bound count) c fun ns d =>
      After text i (fun j => LaidAll text i j ns) d := by
  induction count generalizing i c with
  | zero => exact .pure ⟨i, le_rfl, h, .nil⟩
  | succ count ih =>
    have harg : Leads text (sequence expr bound c.current.start wantArgumentEnd) c fun n d =>
        After text i (fun j => Laid text i j n) d := by
      cases hlast : c.current.kind.isLast with
      | true =>
        refine (sequence_lays hexpr bound h.toStands le_rfl fun hkind => ?_).mono fun n d hn => hn.2
        rw [hlast] at hkind
        cases hkind
      | false =>
        obtain ⟨k, j, hik, hfills, hk⟩ := h.toStands.forward hlast
        refine (sequence_lays hexpr bound hk le_rfl fun _ =>
          ⟨hfills.start, _, k, j, hfills, rfl⟩).mono ?_
        rintro n d ⟨-, j', hkj, hd, hn⟩
        exact ⟨j', by omega, hd, hn.widen hik le_rfl⟩
    refine .current (harg.bind ?_)
    rintro arg d ⟨j, hij, hd, harg⟩
    refine .kind ?_
    split
    · rename_i hkind
      refine (Leads.advance hd.toStands (by rw [hkind]; rfl)).bind ?_
      rintro _ d' ⟨k, j', hjk, hlt, hfills, hd'⟩
      refine (ih hd').bind ?_
      rintro rest d'' ⟨j'', hjj'', hd'', hrest⟩
      exact .pure ⟨j'', by omega, hd'', .cons (harg.widen le_rfl (by omega)) hrest (by omega) hjj''⟩
    · exact .pure ⟨j, hij, hd, .cons harg .nil hij le_rfl⟩

/-- A call of what was read right before. -/
theorem callOf_lays {callee : Ident} {t : Token} (ht : t.Fills text k i)
    (hcallee : callee.span = t.span) (h : Behind text i c) :
    Leads text (callOf expr bound callee) c fun n d =>
      After text i (fun j => Laid text k j n) d := by
  refine (Leads.expect h.toStands).bind ?_
  rintro _ d ⟨j, hij, hd⟩
  have hclose (args : List Node) {j' : Nat} {d' : Cursor} (hjj' : j ≤ j') (hd' : Behind text j' d')
      (hargs : LaidAll text j j' args) : Leads text (do
        Reader.expect .closeParen wantArgumentEnd
        return Node.call callee args ⟨callee.span.start, (← get).lastStop⟩ :
          Reader Node) d' fun n d =>
          After text i (fun j => Laid text k j n) d := by
    refine (Leads.expect hd'.toStands).bind ?_
    rintro _ d'' ⟨j'', hj'', hd''⟩
    have hlt := ht.lt
    refine .get
      (.pure ⟨j'', by omega, hd'',
        .enclose (.all _) hargs ?_ ⟨t, k, i, ht, rfl⟩ hd''.endsToken (by omega)
      (by omega) (by omega) ?_⟩)
    · rw [hd''.lastStop, hcallee, span, ht.start, Node.span]
    · rintro id ⟨⟩
      rw [hcallee]
      refine ⟨framed_of_fills ht, ?_, ?_⟩
      · rw [span, ht.start, offset_positionIn]
      · simp only [span, ht.stop, offset_positionIn]
        omega
  refine .kind ?_
  split
  · exact hclose [] le_rfl hd .nil
  · refine (arguments_lays hexpr bound bound hd).bind ?_
    rintro args d' ⟨j', hjj', hd', hargs⟩
    exact hclose args hjj' hd' hargs

theorem primary_lays : LaysOut text (primary expr bound) := by
  intro i c h
  have hcall {k j : Nat} {d : Cursor} (hik : i ≤ k) (hfills : c.current.Fills text k j)
      (hd : Behind text j d) :
      Leads text (callOf expr bound ⟨Text.lower c.current.lexeme, c.current.span⟩) d fun n d' =>
        After text i (fun j => Laid text i j n) d' := by
    have hlt := hfills.lt
    refine (callOf_lays hexpr bound hfills rfl hd).mono ?_
    rintro n d' ⟨j', hjj', hd', hn⟩
    exact ⟨j', by omega, hd', hn.widen hik le_rfl⟩
  refine .current ?_
  cases hkind : c.current.kind with
  | number =>
    have hlast : c.current.kind.isLast = false := by rw [hkind]; rfl
    dsimp only
    cases numberValue? c.current.lexeme with
    | none =>
      obtain ⟨k, j, -, hfills, -⟩ := h.fills hlast
      exact .throw ⟨k, hfills.start, ⟨c.current, j, hfills, hkind, rfl⟩, framed_of_fills hfills⟩
    | some value =>
      refine (Leads.advance h hlast).bind ?_
      rintro _ d ⟨k, j, hik, hlt, hfills, hd⟩
      exact .pure ⟨rfl, j, by omega, hd, (Laid.leaf hfills rfl rfl rfl).widen hik le_rfl⟩
  | identifier =>
    have hlast : c.current.kind.isLast = false := by rw [hkind]; rfl
    refine (Leads.advance h hlast).bind ?_
    rintro _ d ⟨k, j, hik, hlt, hfills, hd⟩
    refine .kind ?_
    split
    · exact (hcall hik hfills hd).mono fun _ _ hn => ⟨rfl, hn⟩
    · exact .pure ⟨rfl, j, by omega, hd, (Laid.leaf hfills rfl rfl rfl).widen hik le_rfl⟩
  | ifWord =>
    have hlast : c.current.kind.isLast = false := by rw [hkind]; rfl
    refine (Leads.advance h hlast).bind ?_
    rintro _ d ⟨k, j, hik, hlt, hfills, hd⟩
    refine .kind ?_
    split
    · exact (hcall hik hfills hd).mono fun _ _ hn => ⟨rfl, hn⟩
    · exact .unexpected hd.toStands
  | symbol s =>
    by_cases hparen : s = .openParen
    · subst hparen
      have hlast : c.current.kind.isLast = false := by rw [hkind]; rfl
      refine (Leads.advance h hlast).bind ?_
      rintro _ d ⟨k, j, hik, hlt, hfills, hd⟩
      refine (sequence_lays hexpr bound hd.toStands hlt.le fun _ =>
        ⟨hfills.start, _, k, j, hfills, rfl⟩).bind ?_
      rintro n d' ⟨-, j', hjj', hd', hn⟩
      refine (Leads.expect hd'.toStands).bind ?_
      rintro _ d'' ⟨j'', hjj'', hd''⟩
      exact .pure ⟨rfl, j'', by omega, hd'', hn.widen hik hjj''.le⟩
    · cases s <;> first | exact absurd rfl hparen | exact Leads.unexpected h
  | finish | illegal | openComment => exact .unexpected h

theorem unary_lays (count : Nat) : LaysOut text (unary expr bound count) := by
  induction count with
  | zero => exact fun h => .unexpected h
  | succ count ih =>
    intro i c h
    refine .current ?_
    cases hop : unaryOp? c.current.kind with
    | none => exact primary_lays hexpr bound h
    | some op =>
      have hlast : c.current.kind.isLast = false := by
        obtain ⟨s, hs, -⟩ := unaryOp?_eq_some hop
        rw [hs]
        rfl
      refine (Leads.advance h hlast).bind ?_
      rintro _ d ⟨k, j, hik, hlt, hfills, hd⟩
      refine (ih hd.toStands).bind ?_
      rintro n d' ⟨-, j', hjj', hd', hn⟩
      exact .pure ⟨hlast, j', by omega, hd', (Laid.unary hfills hn).widen hik le_rfl⟩

omit hexpr in
/-- An operator joins two nodes to one around both. -/
theorem join_of_joins? {kind : Kind} {join : Node → Node → Node} (h : joins? r kind = some join) :
    kind.isLast = false ∧ ∀ left right : Node,
      (join left right).span = spanOver left right ∧ (join left right).children = [left, right] ∧
        (join left right).callee? = none := by
  obtain ⟨s, -, rfl, -⟩ := joins?_eq_some h
  cases r <;> cases s <;> cases h <;> exact ⟨rfl, fun _ _ => ⟨rfl, rfl, rfl⟩⟩

omit hexpr in
theorem chain_lays {operand : Reader Node} (hoperand : LaysOut text operand) :
    LaysOut text (chain operand (joins? r) bound) := by
  have htail (bound : Nat) {i j : Nat} {left : Node} {c : Cursor} (h : Behind text j c)
      (hij : i ≤ j)
      (hleft : Laid text i j left) :
      Leads text (chainTail operand (joins? r) bound left) c fun n d =>
        After text i (fun j => Laid text i j n) d := by
    induction bound generalizing j left c with
    | zero => exact .pure ⟨j, hij, h, hleft⟩
    | succ bound ih =>
      refine .kind ?_
      cases hk : joins? r c.current.kind with
      | none => exact .pure ⟨j, hij, h, hleft⟩
      | some join =>
        obtain ⟨hlast, hnode⟩ := join_of_joins? hk
        refine (Leads.advance h.toStands hlast).bind ?_
        rintro _ d ⟨k, j', hjk, hlt, hfills, hd⟩
        refine (hoperand hd.toStands).bind ?_
        rintro right d' ⟨-, j'', hjj'', hd', hright⟩
        obtain ⟨hspan, hchildren, hcallee⟩ := hnode left right
        refine ih hd' (by omega) (Laid.join hleft (hright.widen ?_ le_rfl) hspan hchildren hcallee)
        omega
  intro i c h
  refine (hoperand h).bind ?_
  rintro left d ⟨hlast, j, hij, hd, hleft⟩
  exact (htail bound hd hij hleft).mono fun n d hn => ⟨hlast, hn⟩

theorem logical_lays : LaysOut text (logical expr bound) := by
  have hbitwise : LaysOut text (bitwise expr bound) :=
    chain_lays (r := .bitwise) bound (unary_lays hexpr bound bound)
  have hmultiplicative : LaysOut text (multiplicative expr bound) :=
    chain_lays (r := .multiplicative) bound hbitwise
  have hadditive : LaysOut text (additive expr bound) :=
    chain_lays (r := .additive) bound hmultiplicative
  have hcomparison : LaysOut text (comparison expr bound) :=
    chain_lays (r := .comparison) bound hadditive
  intro i c h
  exact chain_lays (r := .logical) bound hcomparison h

/-- A choice starts with its test. -/
theorem conditional_lays : LaysOut text (conditional expr bound) := by
  intro i c h
  refine (logical_lays hexpr bound h).bind ?_
  rintro test d ⟨hlast, j, hij, hd, htest⟩
  refine .current ?_
  split
  · exact .pure ⟨hlast, j, hij, hd, htest⟩
  · rename_i hkind
    have hquestion := not_not.mp hkind
    refine (Leads.advance hd.toStands (by rw [hquestion]; rfl)).bind ?_
    rintro _ d₁ ⟨k, j₁, hjk, hlt, hfills, hd₁⟩
    refine (hexpr hd₁.toStands).bind ?_
    rintro consequent d₂ ⟨-, j₂, hj₂, hd₂, hconsequent⟩
    obtain ⟨a, b, hia, hab, hbj, ⟨hstart, hstarts⟩, -, htest'⟩ := htest.exists_fills
    have hchoice (alternate : Node) {parts : List Node} {j₃ : Nat} {d₃ : Cursor} (hj₃ : j₂ ≤ j₃)
        (hd₃ : Behind text j₃ d₃)
        (hparts : (Node.call ⟨utf8 "if", d.current.span⟩ [test, consequent, alternate]
          ⟨test.span.start, d₃.lastStop⟩).HasParts text (test :: consequent :: parts))
        (hlaid : LaidAll text j₂ j₃ parts) :
        Leads text (do
          return Node.call ⟨utf8 "if", d.current.span⟩ [test, consequent, alternate]
            ⟨test.span.start, (← get).lastStop⟩ : Reader Node) d₃ fun n d' =>
              c.current.kind.isLast = false ∧ After text i (fun j => Laid text i j n) d' := by
      have hall : LaidAll text a j₃ (test :: consequent :: parts) := by
        refine .cons (htest'.widen le_rfl hbj)
          (.cons (hconsequent.widen ?_ le_rfl) hlaid ?_ hj₃) ?_ ?_ <;> omega
      refine .get (.pure ⟨hlast, j₃, by omega, hd₃, ?_⟩)
      refine (Laid.enclose hparts hall ?_ hstarts hd₃.endsToken le_rfl le_rfl ?_ ?_).widen
        hia le_rfl
      · rw [hd₃.lastStop, hstart, Node.span]
      · omega
      · rintro id ⟨⟩
        refine ⟨framed_of_fills hfills, ?_, ?_⟩
        · simp only [span, hfills.start, offset_positionIn]
          omega
        · simp only [span, hfills.stop, offset_positionIn]
          omega
    refine .kind ?_
    split
    · rename_i hcolon
      refine (Leads.advance hd₂.toStands (by rw [hcolon]; rfl)).bind ?_
      rintro _ d₃ ⟨k₃, j₃, hk₃, hlt₃, hfills₃, hd₃⟩
      refine (hexpr hd₃.toStands).bind ?_
      rintro alternate d₄ ⟨-, j₄, hj₄, hd₄, halternate⟩
      refine hchoice alternate (by omega) hd₄ (.all _)
        (.cons (halternate.widen ?_ le_rfl) .nil ?_ le_rfl) <;> omega
    · exact hchoice _ le_rfl hd₂ (.choice hfills.mem hquestion) .nil

omit hexpr in
theorem assignment_lays {levels : Nat} (hexpr : LaysOut text (expression levels)) :
    LaysOut text (assignment (expression levels) (levels + 1)) := by
  intro i c h
  have hconditional := conditional_lays hexpr (levels + 1) h
  have hleft : Leads text (conditional (expression levels) (levels + 1)) c fun left d =>
      conditional (expression levels) (levels + 1) c = .ok (left, d) ∧
        c.current.kind.isLast = false ∧ After text i (fun j => Laid text i j left) d :=
    ⟨fun left d hok => ⟨hok, hconditional.1 left d hok⟩, hconditional.2⟩
  refine hleft.bind ?_
  rintro left d ⟨hread, hlast, j, hij, hd, hleft⟩
  refine .kind ?_
  cases hop : assignOp? d.current.kind with
  | none => exact .pure ⟨hlast, j, hij, hd, hleft⟩
  | some op =>
    have hlast' : d.current.kind.isLast = false := by
      obtain ⟨s, hs, -⟩ := assignOp?_eq_some hop
      rw [hs]
      rfl
    dsimp only
    split
    · rename_i htarget
      obtain ⟨a, b, -, -, -, ⟨hstart, -⟩, -⟩ := hleft.exists_fills
      obtain ⟨k, j, -, hfills, -⟩ := hd.toStands.fills hlast'
      refine .throw_bind
        ⟨a, hstart, ⟨levels, c, d, left, k, j, hread, hleft.nested, hstart, ?_, hfills, ?_⟩,
        hleft.nested.framed⟩
      · simpa using htarget
      · rw [hop]
        rfl
    · refine (Leads.advance hd.toStands hlast').bind ?_
      rintro _ d' ⟨k, j', hjk, hlt, hfills, hd'⟩
      refine (hexpr hd'.toStands).bind ?_
      rintro right d'' ⟨-, j'', hjj'', hd'', hright⟩
      refine .pure
        ⟨hlast, j'', by omega, hd'', Laid.join hleft (hright.widen ?_ le_rfl) rfl rfl rfl⟩
      omega

omit hexpr in
theorem expression_lays (levels : Nat) : LaysOut text (expression levels) := by
  induction levels with
  | zero => exact fun h => .unexpected h
  | succ levels ih => exact assignment_lays ih

/-- Statements, from the first token on. -/
theorem statements_lays (h : Stands text i c) : Leads text (statements expr bound) c fun ns d =>
    (ns ≠ [] → c.current.kind.isLast = false) ∧ ∃ j, i ≤ j ∧ Stands text j d ∧
    LaidAll text i j ns := by
  induction bound generalizing i c with
  | zero => exact .pure ⟨by simp, i, le_rfl, h, .nil⟩
  | succ bound ih =>
    refine .kind ?_
    split
    · exact .pure ⟨by simp, i, le_rfl, h, .nil⟩
    · rename_i hkind
      have hlast : c.current.kind.isLast = false := by rw [hkind]; rfl
      refine (Leads.advance h hlast).bind ?_
      rintro _ d ⟨k, j, hik, hlt, hfills, hd⟩
      refine (ih hd.toStands).mono ?_
      rintro ns d' ⟨-, j', hjj', hd', hns⟩
      exact ⟨fun _ => hlast, j', by omega, hd', hns.widen (by omega)⟩
    · refine (hexpr h).bind ?_
      rintro n d ⟨hlast, j, hij, hd, hn⟩
      refine .kind ?_
      have hmore : Leads text (do return n :: (← statements expr bound)) d fun ns d' =>
          (ns ≠ [] → c.current.kind.isLast = false) ∧ ∃ j, i ≤ j ∧ Stands text j d' ∧
            LaidAll text i j ns := by
        refine (ih hd.toStands).bind ?_
        rintro ns d' ⟨-, j', hjj', hd', hns⟩
        exact .pure ⟨fun _ => hlast, j', by omega, hd', .cons hn hns hij hjj'⟩
      split
      · exact hmore
      · exact hmore
      · exact .unexpected hd.toStands

omit hexpr in
/-- Where the current token starts. -/
theorem Stands.exists_start (h : Stands text i c) :
    ∃ k, i ≤ k ∧ k ≤ text.length ∧ c.current.start = positionIn text k ∧
    Stands text k c ∧ (c.current.kind.isLast = false → c.current.start.StartsToken text) := by
  rcases h.cases with ⟨k, j, hik, hfills, hrest⟩ | ⟨hle, hcloses, hkind⟩
  · refine ⟨k, hik, hfills.lt.le.trans hfills.le_length, hfills.start,
      ⟨.next le_rfl hfills hrest, h.legible⟩,
      fun _ => ?_⟩
    exact ⟨c.current, k, j, hfills, hfills.start⟩
  · refine ⟨text.length, hle, le_rfl, hcloses.start, ⟨?_, h.legible⟩, fun hlast => ?_⟩
    · have hrow := h.row
      generalize c.rest = rest at hrow
      cases hrow with
      | last => exact .last le_rfl hcloses
      | next _ hfills =>
        have hlast := hfills.kind
        rw [hkind] at hlast
        cases hlast
    · rw [hkind] at hlast
      cases hlast

end Grammar

end Tree

/-- That a script has its place in a text. Its statements and all that is in
them have theirs inside of it, one behind the other. It starts with a token and
is not empty, unless there is no statement. -/
structure Script.Nested (text : Bytes) (s : Script) : Prop where
  span : ∃ i j, s.span = ⟨positionIn text i, positionIn text j⟩ ∧ j ≤ text.length
  start : s.body ≠ [] → s.span.start.StartsToken text ∧ s.span.start.offset < s.span.stop.offset
  inside : ∀ n ∈ s.body, n.span.Inside s.span
  order : s.body.Pairwise (·.span.Before ·.span)
  nested : ∀ n ∈ s.body, n.Nested text

namespace Tree

variable {text : Bytes}

theorem script_lays {i : Nat} {c : Cursor} (bound : Nat) (h : Stands text i c) :
    Leads text (script bound) c fun s _ => s.Nested text := by
  obtain ⟨k, -, -, hstart, hk, htoken⟩ := h.exists_start
  refine .current ((statements_lays (expression_lays bound) bound hk).bind ?_)
  rintro body d ⟨hbody, j, hkj, hd, hlaid⟩
  obtain ⟨k', hjk', hle, hstop, -, -⟩ := hd.exists_start
  have hinside : ∀ n ∈ body, n.span.Inside ⟨c.current.start, d.current.start⟩ := by
    intro n hn
    have hfrom := (hlaid.each n hn).start
    have hto := (hlaid.each n hn).stop
    simp only [Span.Inside, hstart, hstop, offset_positionIn]
    omega
  refine .current
    (.pure ⟨⟨k, k', by rw [hstart, hstop], hle⟩, fun hne => ⟨htoken (hbody hne), ?_⟩, hinside,
      hlaid.order,
    fun n hn => (hlaid.each n hn).nested⟩)
  obtain ⟨n, hn⟩ := List.exists_mem_of_ne_nil body hne
  have hnonempty := (hlaid.each n hn).nested.framed.nonempty
  obtain ⟨hfrom, hto⟩ := hinside n hn
  exact hfrom.trans_lt (hnonempty.trans_le hto)

/-- What is read from a text without comments and carriage returns has its place
there, and what is wrong is pointed at. -/
theorem parse_lays (hfree : CommentFree text) (hreturn : Bytes.carriageReturn ∉ text) :
    (∀ s, Script.parse text = .ok s → s.Nested text) ∧ ∀ e, Script.parse text = .error e →
    e.Points text := by
  have hrow := inRow_list hfree hreturn
  unfold Script.parse
  generalize list text = ts at hrow
  cases ts with
  | nil => cases hrow
  | cons t rest =>
    cases hlexical : Reader.lexicalError? t with
    | some e =>
      have herror : ofTokens (t :: rest) = .error e := by rw [ofTokens, hlexical]
      refine ⟨fun s hok => (by cases herror.symm.trans hok), fun e' he => ?_⟩
      obtain rfl := Except.error.inj (herror.symm.trans he)
      exact points_of_lexicalError? hrow hlexical
    | none =>
      have hstands : Stands text 0 ⟨t, rest, ⟨0, 0, 0⟩⟩ := ⟨hrow, hlexical⟩
      have hscript := script_lays (rest.length + 1) hstands
      rw [ofTokens_cons hlexical]
      cases hrun : script (rest.length + 1) ⟨t, rest, ⟨0, 0, 0⟩⟩ with
      | error e =>
        refine ⟨fun s hok => (by cases hok), fun e' he => ?_⟩
        obtain rfl := Except.error.inj he
        exact hscript.2 e hrun
      | ok r =>
        refine ⟨fun s hok => ?_, fun e he => (by cases he)⟩
        obtain rfl := Except.ok.inj hok
        exact hscript.1 r.1 r.2 hrun

end Tree

end Eel
