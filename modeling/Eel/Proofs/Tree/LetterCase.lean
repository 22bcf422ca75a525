import Eel.Proofs.Token.LetterCase
import Eel.Source.Basic

/-!
Reading without regard to the case of letters.

A reader decides by the kinds of tokens, and of a name it keeps the form in
lower case. So on two lists of tokens that differ in the case of names it does
the same step by step: it fails on both, or it gives one tree for both, with the
same spans.
-/

namespace Eel

variable {wanted : List ParseError.Wanted} {callee : Ident}

namespace Tree

variable {α β : Type}

/-- Two cursors whose tokens differ at most in the case of names. -/
structure Cursor.SameButCase (c c' : Cursor) : Prop where
  current : c.current.SameButCase c'.current
  rest : List.Forall₂ Token.SameButCase c.rest c'.rest
  lastStop : c.lastStop = c'.lastStop

/-- Two results that are the same, with tokens left that differ at most in the
case of names. -/
def SameResult (x x' : α × Cursor) : Prop := x.1 = x'.1 ∧ x.2.SameButCase x'.2

/-- That two readers do the same on tokens that differ in the case of names. -/
def ReadsAlike (r r' : Reader α) : Prop :=
  ∀ c c' : Cursor, c.SameButCase c' → Parallel SameResult (r c) (r' c')

/-- That a reader does not tell the cases of letters apart. -/
abbrev IgnoresCase (r : Reader α) : Prop := ReadsAlike r r

theorem lexicalError?_eq_none_iff {t t' : Token} (h : t.SameButCase t') :
    Reader.lexicalError? t = none ↔ Reader.lexicalError? t' = none := by
  unfold Reader.lexicalError?
  rw [← h.kind]
  cases t.kind <;> simp

namespace ReadsAlike

variable {r r' : Reader α} {next next' : α → Reader β}

theorem pure {a : α} : IgnoresCase (pure a : Reader α) := fun _ _ hc => .ok ⟨rfl, hc⟩

theorem bind (h : ReadsAlike r r') (hnext : ∀ a, ReadsAlike (next a) (next' a)) :
    ReadsAlike (r >>= next) (r' >>= next') := by
  intro c c' hc
  refine Parallel.bind (h c c' hc) ?_
  rintro ⟨a, d⟩ ⟨_, d'⟩ ⟨rfl, hd⟩
  exact hnext a d d' hd

theorem throw {e e' : ParseError} : ReadsAlike (throw e : Reader α) (throw e') :=
  fun _ _ _ => .error

theorem unexpected :
    IgnoresCase (Reader.unexpected wanted : Reader α) := fun _ _ _ => .error

theorem throw_bind {e e' : ParseError} :
    ReadsAlike (MonadExcept.throw e >>= next) (MonadExcept.throw e' >>= next') :=
  fun _ _ _ => .error

theorem unexpected_bind :
    ReadsAlike (Reader.unexpected wanted >>= next) (Reader.unexpected wanted >>= next') :=
  fun _ _ _ => .error

theorem kind : IgnoresCase Reader.kind := by
  intro c c' hc
  exact .ok ⟨hc.current.kind, hc⟩

theorem advance : IgnoresCase Reader.advance := by
  rintro ⟨t, rest, stop⟩ ⟨t', rest', stop'⟩ ⟨ht, hrest, -⟩
  simp only at ht hrest
  cases hrest with
  | nil => exact .ok ⟨rfl, ht, .nil, ht.stop⟩
  | cons hu hrest =>
    have hlegal := lexicalError?_eq_none_iff hu
    simp only [Reader.advance]
    split
    · split
      · exact .error
      · simp_all
    · split
      · simp_all
      · exact .ok ⟨rfl, hu, hrest, ht.stop⟩

/-- The current token is known up to the case of a name. -/
theorem current_bind {f f' : Token → Reader α}
    (h : ∀ t t', t.SameButCase t' → ReadsAlike (f t) (f' t')) :
    ReadsAlike (Reader.current >>= f) (Reader.current >>= f') :=
  fun c c' hc => h _ _ hc.current c c' hc

/-- Of the cursor itself only the place behind the last token is used. -/
theorem get_bind {f f' : Cursor → Reader α}
    (h : ∀ c c', c.lastStop = c'.lastStop → ReadsAlike (f c) (f' c')) :
    ReadsAlike (MonadState.get >>= f) (MonadState.get >>= f') :=
  fun c c' hc => h c c' hc.lastStop c c' hc

theorem expect {s : Symbol} : IgnoresCase (Reader.expect s wanted) := by
  refine kind.bind fun k => ?_
  split
  · exact advance
  · exact unexpected

end ReadsAlike

section Readers

variable {bound : Nat}

/-- The parenthesis behind the arguments of a call. -/
theorem closeCall_ignoresCase {args : List Node} : IgnoresCase (do
    Reader.expect .closeParen wantArgumentEnd
    return Node.call callee args ⟨callee.span.start, (← get).lastStop⟩) := by
  refine ReadsAlike.expect.bind fun _ => .get_bind fun c c' hstop => ?_
  rw [hstop]
  exact .pure

theorem chain_ignoresCase {operand : Reader Node}
    {joins? : Token.Kind → Option (Node → Node → Node)} (h : IgnoresCase operand) :
    IgnoresCase (chain operand joins? bound) := by
  refine h.bind fun left => ?_
  induction bound generalizing left with
  | zero => exact .pure
  | succ bound ih =>
    refine ReadsAlike.kind.bind fun k => ?_
    cases joins? k with
    | none => exact .pure
    | some join => exact ReadsAlike.advance.bind fun _ => h.bind fun right => ih (join left right)

section Expression

variable {expr : Reader Node} (h : IgnoresCase expr)

include h

theorem sequenceTail_ignoresCase : IgnoresCase (sequenceTail expr bound) := by
  induction bound with
  | zero => exact .pure
  | succ bound ih =>
    refine ReadsAlike.kind.bind fun k => ?_
    split
    · exact .pure
    · refine ReadsAlike.advance.bind fun _ => ReadsAlike.kind.bind fun k => ?_
      split
      · exact .pure
      · exact h.bind fun e => ih.bind fun rest => .pure

theorem sequence_ignoresCase {start : Position} :
    IgnoresCase (sequence expr bound start wanted) := by
  refine h.bind fun first => (sequenceTail_ignoresCase h).bind fun others =>
    ReadsAlike.kind.bind fun k => ?_
  dsimp only
  split
  · exact .unexpected_bind
  · cases others with
    | nil => exact .pure
    | cons second rest =>
      refine .get_bind fun c c' hstop => ?_
      rw [hstop]
      exact .pure

theorem arguments_ignoresCase (count : Nat) : IgnoresCase (arguments expr bound count) := by
  induction count with
  | zero => exact .pure
  | succ count ih =>
    refine .current_bind fun t t' ht => ?_
    rw [ht.start]
    refine (sequence_ignoresCase h).bind fun arg => ReadsAlike.kind.bind fun k => ?_
    split
    · exact ReadsAlike.advance.bind fun _ => ih.bind fun rest => .pure
    · exact .pure

theorem callOf_ignoresCase : IgnoresCase (callOf expr bound callee) := by
  refine ReadsAlike.expect.bind fun _ => ReadsAlike.kind.bind fun k => ?_
  split
  · exact closeCall_ignoresCase
  · exact (arguments_ignoresCase h bound).bind fun args => closeCall_ignoresCase

theorem primary_ignoresCase : IgnoresCase (primary expr bound) := by
  refine .current_bind fun t t' ht => ?_
  have hspan := ht.span
  obtain ⟨kind, lexeme, start⟩ := t
  obtain ⟨kind', lexeme', start'⟩ := t'
  obtain ⟨rfl, rfl, -, hname, hnumber⟩ := ht
  simp only at hname hnumber ⊢
  rw [hspan]
  cases kind with
  | number =>
    obtain rfl := hnumber rfl
    dsimp only
    cases numberValue? lexeme with
    | none => exact .throw
    | some value => exact ReadsAlike.advance.bind fun _ => .pure
  | identifier =>
    rw [hname (.inl rfl)]
    refine ReadsAlike.advance.bind fun _ => ReadsAlike.kind.bind fun k => ?_
    split
    · exact callOf_ignoresCase h
    · exact .pure
  | ifWord =>
    rw [hname (.inr rfl)]
    refine ReadsAlike.advance.bind fun _ => ReadsAlike.kind.bind fun k => ?_
    split
    · exact callOf_ignoresCase h
    · exact .unexpected
  | symbol s =>
    cases s with
    | openParen =>
      refine ReadsAlike.advance.bind fun _ => (sequence_ignoresCase h).bind fun e => ?_
      exact ReadsAlike.expect.bind fun _ => .pure
    | _ => exact .unexpected
  | finish | illegal b | openComment => exact .unexpected

theorem unary_ignoresCase (count : Nat) : IgnoresCase (unary expr bound count) := by
  induction count with
  | zero => exact .unexpected
  | succ count ih =>
    refine .current_bind fun t t' ht => ?_
    rw [← ht.kind, ht.start]
    cases unaryOp? t.kind with
    | none => exact primary_ignoresCase h
    | some op => exact ReadsAlike.advance.bind fun _ => ih.bind fun operand => .pure

theorem logical_ignoresCase : IgnoresCase (logical expr bound) := by
  have hbitwise : IgnoresCase (bitwise expr bound) := chain_ignoresCase (unary_ignoresCase h bound)
  have hmultiplicative : IgnoresCase (multiplicative expr bound) := chain_ignoresCase hbitwise
  have hadditive : IgnoresCase (additive expr bound) := chain_ignoresCase hmultiplicative
  have hcomparison : IgnoresCase (comparison expr bound) := chain_ignoresCase hadditive
  exact chain_ignoresCase hcomparison

theorem conditional_ignoresCase : IgnoresCase (conditional expr bound) := by
  refine (logical_ignoresCase h).bind fun test => .current_bind fun t t' ht => ?_
  rw [← ht.kind, ht.span]
  have hclose (consequent alternate : Node) : IgnoresCase (do
      return Node.call ⟨utf8 "if", t'.span⟩ [test, consequent, alternate]
        ⟨test.span.start, (← get).lastStop⟩) := by
    refine .get_bind fun c c' hstop => ?_
    rw [hstop]
    exact .pure
  split
  · exact .pure
  · refine ReadsAlike.advance.bind fun _ => h.bind fun consequent =>
      ReadsAlike.kind.bind fun k => ?_
    split
    · exact ReadsAlike.advance.bind fun _ => h.bind fun alternate => hclose consequent alternate
    · exact hclose consequent _

theorem assignment_ignoresCase : IgnoresCase (assignment expr bound) := by
  refine (conditional_ignoresCase h).bind fun left => ReadsAlike.kind.bind fun k => ?_
  cases assignOp? k with
  | none => exact .pure
  | some op =>
    dsimp only
    split
    · exact .throw_bind
    · exact ReadsAlike.advance.bind fun _ => h.bind fun right => .pure

theorem statements_ignoresCase : IgnoresCase (statements expr bound) := by
  induction bound with
  | zero => exact .pure
  | succ bound ih =>
    refine ReadsAlike.kind.bind fun k => ?_
    split
    · exact .pure
    · exact ReadsAlike.advance.bind fun _ => ih
    · refine h.bind fun e => ReadsAlike.kind.bind fun k => ?_
      have hmore : IgnoresCase (do return e :: (← statements expr bound)) :=
        ih.bind fun rest => .pure
      split
      · exact hmore
      · exact hmore
      · exact .unexpected

end Expression

theorem expression_ignoresCase (levels : Nat) : IgnoresCase (expression levels) := by
  induction levels with
  | zero => exact .unexpected
  | succ levels ih => exact assignment_ignoresCase ih

theorem script_ignoresCase : IgnoresCase (script bound) := by
  refine .current_bind fun t t' ht => ?_
  rw [ht.start]
  refine (statements_ignoresCase (expression_ignoresCase bound)).bind fun body =>
    .current_bind fun u u' hu => ?_
  rw [hu.start]
  exact .pure

end Readers

theorem ofTokens_parallel {ts ts' : List Token} (h : List.Forall₂ Token.SameButCase ts ts') :
    Parallel (· = ·) (ofTokens ts) (ofTokens ts') := by
  cases h with
  | nil => exact .ok rfl
  | @cons t t' rest rest' ht hrest =>
    have hlegal := lexicalError?_eq_none_iff ht
    cases herror : Reader.lexicalError? t with
    | some e =>
      obtain ⟨e', herror'⟩ := Option.ne_none_iff_exists'.mp (mt hlegal.mpr (by simp [herror]))
      simp only [ofTokens, herror, herror']
      exact .error
    | none =>
      simp only [ofTokens, herror, hlegal.mp herror, hrest.length_eq]
      refine Parallel.bind (script_ignoresCase _ _ ⟨ht, hrest, rfl⟩) ?_
      rintro ⟨script, d⟩ ⟨_, d'⟩ ⟨rfl, -⟩
      exact .ok rfl

end Tree

/-- Texts that differ in the case of letters hold the same script, or none. -/
theorem Script.parse_parallel {s s' : Bytes} (h : s.SameButCase s') :
    Parallel (· = ·) (Script.parse s) (Script.parse s') :=
  Tree.ofTokens_parallel (Token.sameButCase_list h)

namespace Source

/-- Two sources with the same script, whose spans are found at the same places
of both. -/
structure SameTree (a b : Source) : Prop where
  script : a.script = b.script
  spans : ∀ span, a.locateSpan span = b.locateSpan span

theorem parse_parallel {s s' : Bytes} (h : s.SameButCase s') :
    Parallel SameTree (parse s) (parse s') := by
  obtain ⟨htext, hanchors⟩ := Cleaned.sameButCase_ofSource h
  have hscript := Script.parse_parallel htext
  unfold parse
  dsimp only
  generalize Script.parse (Cleaned.ofSource s).text = x, Script.parse (Cleaned.ofSource s').text =
    y at hscript
  cases hscript with
  | ok h => exact .ok ⟨h, fun span => by simp only [locateSpan, hanchors]⟩
  | error => exact .error

end Source

end Eel
