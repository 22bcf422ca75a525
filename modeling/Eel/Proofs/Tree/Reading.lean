import Eel.Proofs.Tree.Derivation

/-!
What is derived is read.

A text of a form is read as the tree of its derivation if no token behind it
would be taken in as well. Which tokens these are is said by weights: a form
takes in operators up to its own weight. The proof is an induction over
derivations, and it holds with any number of levels and any bound that the words
do not reach.
-/

namespace Eel.Tree

open Grammar Reader Word List

variable {kind : Token.Kind} {r : Rank} {s : Symbol}

/-- How loosely a symbol binds what stands before it to what stands behind
it. -/
def weight : Symbol → Nat
  | .openParen => 0
  | .ampersand | .pipe => 1
  | .star | .slash | .percent | .caret => 2
  | .plus | .minus => 3
  | .equalEqual | .bangEqual | .less | .lessEqual | .greater | .greaterEqual => 4
  | .andAnd | .orOr => 5
  | .question => 6
  | .assign | .plusAssign | .minusAssign | .starAssign | .slashAssign | .percentAssign => 7
  | .colon | .comma | .semicolon | .closeParen | .bang => 8

/-- The weight of the last operators that a form takes in. -/
def reach : Form → Nat
  | .primary | .unary => 0
  | .rank .bitwise => 1
  | .rank .multiplicative => 2
  | .rank .additive => 3
  | .rank .comparison => 4
  | .rank .logical => 5
  | .choice _ | .expr _ => 7
  | .sequence => 8

def isDangling : Form → Bool
  | .choice dangling | .expr dangling => dangling
  | _ => false

/-- That a token of a kind is not taken in by a text of a form before it. -/
def Stops (f : Form) (kind : Token.Kind) : Prop :=
  ∀ s, kind = .symbol s → reach f < weight s ∧ (isDangling f = true → s ≠ .colon)

variable {lexeme : Bytes} {semicolon : Bool} {op : AssignOp} {f : Form} {p : Phrase} {w : Word}

theorem Stops.of_le {f' : Form} (h : Stops f kind) (hreach : reach f' ≤ reach f)
    (hdangling : isDangling f' = true → isDangling f = true) : Stops f' kind := by
  intro s hs
  obtain ⟨hweight, hcolon⟩ := h s hs
  exact ⟨hreach.trans_lt hweight, fun hd => hcolon (hdangling hd)⟩

theorem weight_of_join? {join : Node → Node → Node} (h : r.join? s = some join) :
    weight s = reach (.rank r) := by
  cases r <;> cases s <;> cases h <;> rfl

theorem reach_operand (r : Rank) : reach r.operand + 1 = reach (.rank r) := by
  cases r <;> rfl

theorem isDangling_operand (r : Rank) : isDangling r.operand = false := by
  cases r <;> rfl

theorem Stops.operand (h : Stops (.rank r) kind) : Stops r.operand kind := by
  have hreach := reach_operand r
  exact h.of_le (by omega) (by simp [isDangling_operand])

/-- An operator of a rank is not taken in by its left operand. -/
theorem stops_of_join? {join : Node → Node → Node} (h : r.join? s = some join) :
    Stops r.operand (.symbol s) := by
  rintro _ ⟨⟩
  have hweight := weight_of_join? h
  have hreach := reach_operand r
  exact ⟨by omega, by simp [isDangling_operand]⟩

theorem Stops.joins? (h : Stops (.rank r) kind) : joins? r kind = none := by
  cases hjoin : Tree.joins? r kind with
  | none => rfl
  | some join =>
    obtain ⟨s, join', rfl, hjoin', -⟩ := joins?_eq_some hjoin
    have hweight := weight_of_join? hjoin'
    have hlt := (h s rfl).1
    omega

theorem weight_of_assigns? (h : assigns? s = some op) : weight s = 7 := by
  cases s <;> cases h <;> rfl

theorem Stops.assignOp? {d : Bool} (h : Stops (.expr d) kind) : assignOp? kind = none := by
  cases hop : Tree.assignOp? kind with
  | none => rfl
  | some op =>
    obtain ⟨s, rfl, hs⟩ := assignOp?_eq_some hop
    have hlt := (h s rfl).1
    rw [weight_of_assigns? hs] at hlt
    exact absurd hlt (lt_irrefl _)

theorem Stops.ne (h : Stops f kind) (hs : weight s ≤ reach f) : kind ≠ .symbol s := by
  rintro rfl
  have hlt := (h s rfl).1
  omega

/-- That a reader gives a tree, up to places, and leaves words to be read. -/
def Gives (r : Reader Node) (c : Cursor) (t : Node) (vs : List Word) : Prop :=
  ∃ n d, r c = .ok (n, d) ∧ n.bare = t ∧ d.Shows vs

variable {c : Cursor} {ws vs : List Word} {expr : Reader Node} {bound : Nat}

theorem lexeme_of_word? {t : Token} (h : t.word? = some w)
    (hw : w = .name lexeme ∨ w = .ifWord lexeme ∨ w = .number lexeme) : t.lexeme = lexeme := by
  unfold Token.word? at h
  split at h <;> cases h <;> simp_all

theorem number_gives {value : Double} (h : c.Shows (.number lexeme :: vs))
    (hvalue : numberValue? lexeme = some value) :
    Gives (primary expr bound) c (.number value .none) vs := by
  obtain ⟨d, hd, hpass⟩ := h.pass
  have hkind : c.current.kind = .number := h.kind_eq
  have hlexeme := lexeme_of_word? h.word?_eq (.inr (.inr rfl))
  refine ⟨.number value c.current.span, d, ?_, rfl, hd⟩
  rw [primary, current_bind]
  simp only [hkind, hlexeme, hvalue]
  exact hpass _

theorem name_gives (h : c.Shows (.name lexeme :: vs)) (hvs : nextKind vs ≠ .symbol .openParen) :
    Gives (primary expr bound) c (.ident { name := Text.lower lexeme }) vs := by
  obtain ⟨d, hd, hpass⟩ := h.pass
  have hkind : c.current.kind = .identifier := h.kind_eq
  have hlexeme := lexeme_of_word? h.word?_eq (.inl rfl)
  refine ⟨.ident ⟨Text.lower c.current.lexeme, c.current.span⟩, d, ?_, by rw [hlexeme]; rfl, hd⟩
  rw [primary, current_bind]
  simp only [hkind]
  rw [hpass, kind_bind, hd.kind_eq, if_neg hvs]
  rfl

/-- That a token ends a sequence. -/
def EndsSequence (kind : Token.Kind) : Prop := kind = .symbol .closeParen ∨ kind = .symbol .comma

theorem stops_expr {d : Bool} (hs : weight s = 8) (hcolon : s ≠ .colon) :
    Stops (.expr d) (.symbol s) := by
  rintro _ ⟨⟩
  exact ⟨by rw [hs]; exact Nat.lt_succ_self 7, fun _ => hcolon⟩

theorem EndsSequence.stops {d : Bool} (h : EndsSequence kind) : Stops (.expr d) kind := by
  rcases h with rfl | rfl
  · exact stops_expr rfl (by simp)
  · exact stops_expr rfl (by simp)

theorem EndsSequence.endsSequence (h : EndsSequence kind) : Tree.endsSequence kind = true := by
  rcases h with rfl | rfl <;> rfl

theorem EndsSequence.ne_semicolon (h : EndsSequence kind) : kind ≠ .symbol .semicolon := by
  rcases h with rfl | rfl <;> simp

/-- That a reader takes expressions of less than some number of words. -/
def TakesExpr (expr : Reader Node) (k : Nat) (p : Phrase) : Prop :=
  ∀ (c : Cursor) (vs : List Word), c.Shows (p.words ++ vs) → (p.words ++ vs).length < k →
    Stops (.expr p.dangling) (nextKind vs) → Gives expr c p.tree vs

/-- That sequences of less than some number of words are taken. -/
def TakesSequence (expr : Reader Node) (bound k : Nat) (p : Phrase) : Prop :=
  ∀ (c : Cursor) (vs : List Word), c.Shows (p.words ++ vs) → (p.words ++ vs).length < k →
    EndsSequence (nextKind vs) → ∀ (start : Position) (wanted : List ParseError.Wanted),
      Gives (sequence expr bound start wanted) c p.tree vs

def StartsOperand (ws : List Word) : Prop := ∃ w rest, ws = w :: rest ∧ startsOperand w = true

/-- What starts an operand ends nothing that is before it. -/
theorem StartsOperand.nextKind (h : StartsOperand ws) (vs : List Word) :
    Tree.endsSequence (nextKind (ws ++ vs)) = false ∧ nextKind (ws ++ vs) ≠ .symbol .closeParen ∧
      nextKind (ws ++ vs) ≠ .symbol .semicolon ∧ nextKind (ws ++ vs) ≠ .finish := by
  obtain ⟨w, rest, rfl, hw⟩ := h
  cases w with
  | symbol s =>
    cases s <;> first
      | exact absurd hw (by decide)
      | simp [Word.nextKind, Word.kind, Tree.endsSequence]
  | _ => simp [Word.nextKind, Word.kind, Tree.endsSequence]

section Sequence

variable {k : Nat} {parts : List Phrase}

/-- The words behind the first expression of a sequence. -/
def tailWords (parts : List Phrase) (semicolon : Bool) : List Word :=
  parts.flatMap (fun p => .symbol .semicolon :: p.words) ++ trailing semicolon

theorem tailWords_cons (p : Phrase) (semicolon : Bool) (vs : List Word) :
    tailWords (p :: parts) semicolon ++ vs =
      .symbol .semicolon :: (p.words ++ (tailWords parts semicolon ++ vs)) := by
  simp [tailWords]

theorem stops_tailWords {d : Bool} (hend : EndsSequence (nextKind vs)) :
    Stops (.expr d) (nextKind (tailWords parts semicolon ++ vs)) := by
  rcases parts with _ | ⟨p, parts⟩
  · cases semicolon
    · exact hend.stops
    · exact stops_expr rfl (by simp)
  · exact stops_expr rfl (by simp)

theorem sequenceTail_gives (hexpr : ∀ p ∈ parts, TakesExpr expr k p)
    (hstarts : ∀ p ∈ parts, StartsOperand p.words) (h : c.Shows (tailWords parts semicolon ++ vs))
    (hbound : (tailWords parts semicolon ++ vs).length < bound)
    (hk : (tailWords parts semicolon ++ vs).length < k + 1) (hend : EndsSequence (nextKind vs)) :
    ∃ body d, sequenceTail expr bound c = .ok (body, d) ∧ Node.bareAll body = parts.map (·.tree) ∧
      d.Shows vs := by
  induction parts generalizing c bound with
  | nil =>
    obtain ⟨bound, rfl⟩ : ∃ b, bound = b + 1 := ⟨bound - 1, by omega⟩
    cases semicolon with
    | false =>
      have hkind : c.current.kind = nextKind vs := h.kind_eq
      refine ⟨[], c, ?_, rfl, h⟩
      rw [sequenceTail, kind_bind, if_pos (hkind ▸ hend.ne_semicolon)]
      rfl
    | true =>
      have hkind : c.current.kind = .symbol .semicolon := h.kind_eq
      obtain ⟨d, hd, hpass⟩ := h.pass
      refine ⟨[], d, ?_, rfl, hd⟩
      rw [sequenceTail, kind_bind, if_neg (not_not.mpr hkind), hpass, kind_bind,
        if_pos (hd.kind_eq ▸ hend.endsSequence)]
      rfl
  | cons p parts ih =>
    obtain ⟨bound, rfl⟩ : ∃ b, bound = b + 1 := ⟨bound - 1, by omega⟩
    rw [tailWords_cons] at h hbound hk
    simp only [length_cons, length_append] at hbound hk
    have hkind : c.current.kind = .symbol .semicolon := h.kind_eq
    obtain ⟨d, hd, hpass⟩ := h.pass
    have hends := ((hstarts p (by simp)).nextKind (tailWords parts semicolon ++ vs)).1
    obtain ⟨n, d₁, hn, hbare, hd₁⟩ := hexpr p (by simp) d _ hd
      (by simp only [length_append]; omega) (stops_tailWords hend)
    have hrest : (tailWords parts semicolon ++ vs).length < bound := by
      rw [length_append]
      omega
    obtain ⟨body, d₂, hbody, hbares, hd₂⟩ := ih (fun q hq => hexpr q (by simp [hq]))
      (fun q hq => hstarts q (by simp [hq])) hd₁ hrest (by rw [length_append]; omega)
    refine ⟨n :: body, d₂, ?_, by simp [Node.bareAll, hbare, hbares], hd₂⟩
    rw [sequenceTail, kind_bind, if_neg (not_not.mpr hkind), hpass, kind_bind,
      if_neg (by simp [hd.kind_eq, hends]), bind_of_ok hn, bind_of_ok hbody]
    rfl

theorem sequence_gives (hparts : parts ≠ []) (hexpr : ∀ p ∈ parts, TakesExpr expr k p)
    (hstarts : ∀ p ∈ parts, StartsOperand p.words) (hk : k ≤ bound) :
    TakesSequence expr bound k
      ⟨separated .semicolon parts ++ trailing semicolon, sequenceTree (parts.map (·.tree)),
        false⟩ := by
  intro c vs h hlength hend start wanted
  obtain ⟨p, parts, rfl⟩ := exists_cons_of_ne_nil hparts
  have hwords : separated .semicolon (p :: parts) ++ trailing semicolon ++ vs =
      p.words ++ (tailWords parts semicolon ++ vs) := by
    rw [separated_cons, tailWords, append_assoc, append_assoc, append_assoc]
  rw [hwords] at h hlength
  obtain ⟨n, d, hn, hbare, hd⟩ := hexpr p (by simp) c _ h hlength (stops_tailWords hend)
  simp only [length_append] at hlength
  have hrest : (tailWords parts semicolon ++ vs).length < bound := by
    rw [length_append]
    omega
  obtain ⟨body, d₁, hbody, hbares, hd₁⟩ := sequenceTail_gives (fun q hq => hexpr q (by simp [hq]))
    (fun q hq => hstarts q (by simp [hq])) hd hrest (by rw [length_append]; omega) hend
  refine ⟨sequenceNode n body ⟨start, d₁.lastStop⟩, d₁, ?_, ?_, hd₁⟩
  · rw [sequence, bind_of_ok hn, bind_of_ok hbody, kind_bind, hd₁.kind_eq, hend.endsSequence]
    cases body <;> rfl
  · rw [map_cons, ← hbare, ← hbares]
    cases body <;> rfl

end Sequence

section Call

variable {k : Nat} {args : List Phrase}

theorem arguments_gives (hp : ∀ a ∈ p :: args, TakesSequence expr bound k a) {count : Nat}
    (h : c.Shows (separated .comma (p :: args) ++ .symbol .closeParen :: vs))
    (hcount : (separated .comma (p :: args) ++ .symbol .closeParen :: vs).length < count)
    (hk : (separated .comma (p :: args) ++ .symbol .closeParen :: vs).length < k) :
    ∃ nodes d, arguments expr bound count c = .ok (nodes, d) ∧
      Node.bareAll nodes = (p :: args).map (·.tree) ∧ d.Shows (.symbol .closeParen :: vs) := by
  induction args generalizing p c count with
  | nil =>
    obtain ⟨count, rfl⟩ : ∃ b, count = b + 1 := ⟨count - 1, by omega⟩
    rw [separated_cons, flatMap_nil, append_nil] at h hk
    obtain ⟨n, d, hn, hbare, hd⟩ :=
      hp p (by simp) c _ h hk (.inl rfl) c.current.start wantArgumentEnd
    have hkind : d.current.kind = .symbol .closeParen := hd.kind_eq
    refine ⟨[n], d, ?_, by simp [Node.bareAll, hbare], hd⟩
    rw [arguments, current_bind, bind_of_ok hn, kind_bind, if_neg (by simp [hkind])]
    rfl
  | cons q args ih =>
    obtain ⟨count, rfl⟩ : ∃ b, count = b + 1 := ⟨count - 1, by omega⟩
    have hwords : separated .comma (p :: q :: args) ++ .symbol .closeParen :: vs =
        p.words ++ .symbol .comma ::
          (separated .comma (q :: args) ++ .symbol .closeParen :: vs) := by
      rw [separated_cons_cons, append_assoc, cons_append]
    rw [hwords] at h hcount hk
    obtain ⟨n, d, hn, hbare, hd⟩ :=
      hp p (by simp) c _ h hk (.inr rfl) c.current.start wantArgumentEnd
    have hkind : d.current.kind = .symbol .comma := hd.kind_eq
    obtain ⟨d₁, hd₁, hpass⟩ := hd.pass
    simp only [length_append, length_cons] at hcount hk
    have hrest : (separated .comma (q :: args) ++ .symbol .closeParen :: vs).length < count := by
      simp only [length_append, length_cons]
      omega
    obtain ⟨nodes, d₂, hnodes, hbares, hd₂⟩ :=
      ih (fun a ha => hp a (mem_cons_of_mem _ ha)) hd₁ hrest
        (by simp only [length_append, length_cons]; omega)
    refine ⟨n :: nodes, d₂, ?_, by simp [Node.bareAll, hbare, hbares], hd₂⟩
    rw [arguments, current_bind, bind_of_ok hn, kind_bind, if_pos hkind, hpass,
      bind_of_ok hnodes]
    rfl

/-- The parenthesis behind the arguments of a call. -/
theorem closeCall_gives (h : c.Shows (.symbol .closeParen :: vs)) (callee : Ident)
    (nodes : List Node) :
    ∃ d, d.Shows vs ∧ (do
      expect .closeParen wantArgumentEnd
      return .call callee nodes ⟨callee.span.start, (← get).lastStop⟩ : Reader Node) c =
        .ok (.call callee nodes ⟨callee.span.start, d.lastStop⟩, d) := by
  obtain ⟨d, hd, hclose⟩ := h.expect
  refine ⟨d, hd, ?_⟩
  rw [hclose]
  rfl

theorem callOf_gives (hargs : ∀ a ∈ args, TakesSequence expr bound k a)
    (hstarts : ∀ a ∈ args, StartsOperand a.words) (hk : k ≤ bound)
    (h : c.Shows (.symbol .openParen :: (separated .comma args ++ .symbol .closeParen :: vs)))
    (hlength : (separated .comma args ++ .symbol .closeParen :: vs).length < k) (callee : Ident) :
    Gives (callOf expr bound callee) c
      (.call { name := callee.name } (args.map (·.tree)) .none) vs := by
  obtain ⟨d, hd, hopen⟩ := h.expect
  cases args with
  | nil =>
    have hkind : d.current.kind = .symbol .closeParen := hd.kind_eq
    obtain ⟨d₁, hd₁, hclose⟩ := closeCall_gives hd callee []
    refine ⟨.call callee [] ⟨callee.span.start, d₁.lastStop⟩, d₁, ?_, rfl, hd₁⟩
    rw [callOf, hopen, kind_bind, if_pos hkind]
    exact hclose
  | cons p args =>
    have hkind : d.current.kind ≠ .symbol .closeParen := by
      rw [hd.kind_eq, separated_cons, append_assoc]
      exact ((hstarts p (by simp)).nextKind _).2.1
    obtain ⟨nodes, d₁, hnodes, hbares, hd₁⟩ :=
      arguments_gives hargs hd (hlength.trans_le hk) hlength
    obtain ⟨d₂, hd₂, hclose⟩ := closeCall_gives hd₁ callee nodes
    refine ⟨.call callee nodes ⟨callee.span.start, d₂.lastStop⟩, d₂, ?_, by rw [← hbares]; rfl, hd₂⟩
    rw [callOf, hopen, kind_bind, if_neg hkind, bind_of_ok hnodes]
    exact hclose

end Call

/-- The reader of a rank, and the one of its operands. -/
def rankReader (expr : Reader Node) (bound : Nat) : Rank → Reader Node
  | .bitwise => bitwise expr bound
  | .multiplicative => multiplicative expr bound
  | .additive => additive expr bound
  | .comparison => comparison expr bound
  | .logical => logical expr bound

def operandReader (expr : Reader Node) (bound : Nat) : Rank → Reader Node
  | .bitwise => unary expr bound bound
  | .multiplicative => bitwise expr bound
  | .additive => multiplicative expr bound
  | .comparison => additive expr bound
  | .logical => comparison expr bound

theorem rankReader_eq (r : Rank) :
    rankReader expr bound r = chain (operandReader expr bound r) (joins? r) bound := by
  cases r <;> rfl

/-- That words are read as a tree, with any number of levels and any bound that
is large enough. Of a rank it is said that its chain comes to the tree and goes
on from there. -/
def Takes (f : Form) (ws : List Word) (t : Node) : Prop :=
  match f with
  | .primary =>
    ∀ (n : Nat) (c : Cursor) (vs : List Word), c.Shows (ws ++ vs) → (ws ++ vs).length ≤ n →
      Stops .primary (nextKind vs) → Gives (primary (expression n) (n + 1)) c t vs
  | .unary =>
    ∀ (n count : Nat) (c : Cursor) (vs : List Word), c.Shows (ws ++ vs) → (ws ++ vs).length ≤ n →
      (ws ++ vs).length < count → Stops .unary (nextKind vs) →
        Gives (unary (expression n) (n + 1) count) c t vs
  | .rank r =>
    ∀ (n : Nat) (c : Cursor) (vs : List Word), c.Shows (ws ++ vs) → (ws ++ vs).length ≤ n →
      Stops r.operand (nextKind vs) → ∃ left d b,
        rankReader (expression n) (n + 1) r c =
          chainTail (operandReader (expression n) (n + 1) r) (joins? r) b left d ∧
        left.bare = t ∧ d.Shows vs ∧ vs.length < b
  | .choice dangling =>
    ∀ (n : Nat) (c : Cursor) (vs : List Word), c.Shows (ws ++ vs) → (ws ++ vs).length ≤ n →
      Stops (.choice dangling) (nextKind vs) → Gives (conditional (expression n) (n + 1)) c t vs
  | .expr dangling => ∀ n, TakesExpr (expression n) n ⟨ws, t, dangling⟩
  | .sequence => ∀ n, TakesSequence (expression n) (n + 1) n ⟨ws, t, false⟩

namespace Takes

variable {r : Rank} {t left right : Node} {us : List Word} {n : Nat} {d : Bool}

theorem call {callee : Ident} {args : List Phrase} (hcallee : callee? w = some callee)
    (hargs : ∀ a ∈ args, Takes .sequence a.words a.tree)
    (hstarts : ∀ a ∈ args, StartsOperand a.words) :
    Takes .primary (w :: .symbol .openParen :: (separated .comma args ++ [.symbol .closeParen]))
      (.call callee (args.map (·.tree)) .none) := by
  intro n c vs h hlength _
  have hwords : w :: .symbol .openParen :: (separated .comma args ++ [.symbol .closeParen]) ++ vs =
      w :: .symbol .openParen :: (separated .comma args ++ .symbol .closeParen :: vs) := by simp
  rw [hwords] at h hlength
  simp only [length_cons] at hlength
  obtain ⟨d, hd, hpass⟩ := h.pass
  have hopen : d.current.kind = .symbol .openParen := hd.kind_eq
  have hgives :=
    callOf_gives (k := n) (fun a ha => hargs a ha n) hstarts (Nat.le_succ n) hd (by omega)
  cases w with
  | name lexeme | ifWord lexeme =>
    cases hcallee
    have hlexeme : c.current.lexeme = lexeme := lexeme_of_word? h.word?_eq (by simp)
    obtain ⟨node, d₁, hnode, hbare, hd₁⟩ := hgives ⟨Text.lower c.current.lexeme, c.current.span⟩
    refine ⟨node, d₁, ?_, by rw [hbare, hlexeme], hd₁⟩
    rw [primary, current_bind]
    simp only [h.kind_eq, nextKind, Word.kind]
    rw [hpass, kind_bind, if_pos hopen]
    exact hnode
  | number | symbol => cases hcallee

theorem group (h : Takes .sequence ws t) :
    Takes .primary (.symbol .openParen :: (ws ++ [.symbol .closeParen])) t := by
  intro n c vs hc hlength _
  have hwords : .symbol .openParen :: (ws ++ [.symbol .closeParen]) ++ vs =
      .symbol .openParen :: (ws ++ .symbol .closeParen :: vs) := by simp
  rw [hwords] at hc hlength
  have hkind : c.current.kind = .symbol .openParen := hc.kind_eq
  obtain ⟨d, hd, hpass⟩ := hc.pass
  obtain ⟨node, d₁, hnode, hbare, hd₁⟩ := h n d _ hd hlength (.inl rfl) c.current.start wantBlockEnd
  obtain ⟨d₂, hd₂, hclose⟩ := hd₁.expect
  refine ⟨node, d₂, ?_, hbare, hd₂⟩
  rw [primary, current_bind]
  simp only [hkind]
  rw [hpass, bind_of_ok hnode, hclose]
  rfl

theorem sign {s : Symbol} {op : UnaryOp} (hop : sign? s = some op) (h : Takes .unary ws t) :
    Takes .unary (.symbol s :: ws) (.unary op t .none) := by
  intro n count c vs hc hlength hcount hstop
  simp only [cons_append, length_cons] at hlength hcount
  obtain ⟨count, rfl⟩ : ∃ b, count = b + 1 := ⟨count - 1, by omega⟩
  have hkind : unaryOp? c.current.kind = some op := by
    rw [hc.kind_eq]
    cases s <;> cases hop <;> rfl
  obtain ⟨d, hd, hpass⟩ := hc.pass
  obtain ⟨node, d₁, hnode, hbare, hd₁⟩ := h n count d vs hd (by omega) (by omega) hstop
  refine ⟨.unary op node ⟨c.current.start, node.span.stop⟩, d₁, ?_, by rw [Node.bare, hbare], hd₁⟩
  rw [unary, current_bind]
  simp only [hkind]
  rw [hpass, bind_of_ok hnode]
  rfl

theorem unsigned (hws : Derives .primary ws t) (h : Takes .primary ws t) : Takes .unary ws t := by
  intro n count c vs hc hlength hcount hstop
  obtain ⟨count, rfl⟩ : ∃ b, count = b + 1 := ⟨count - 1, by omega⟩
  have hkind : unaryOp? c.current.kind = none := by
    rw [hc.kind_eq]
    cases hws with
    | number | name | group => rfl
    | @call w _ _ hcallee => cases w <;> first | rfl | cases hcallee
  rw [Gives, unary, current_bind]
  simp only [hkind]
  exact h n c vs hc hlength hstop

section Level

variable (hc : c.Shows (ws ++ vs)) (hlength : (ws ++ vs).length ≤ n)

include hc hlength

/-- A chain ends before a token that does not go on with it. -/
theorem gives_rank (h : Takes (.rank r) ws t) (hstop : Stops (.rank r) (nextKind vs)) :
    Gives (rankReader (expression n) (n + 1) r) c t vs := by
  obtain ⟨left, d, b, hchain, hleft, hd, hb⟩ := h n c vs hc hlength hstop.operand
  obtain ⟨b, rfl⟩ : ∃ b', b = b' + 1 := ⟨b - 1, by omega⟩
  refine ⟨left, d, ?_, hleft, hd⟩
  rw [hchain, chainTail, kind_bind, hd.kind_eq, hstop.joins?]
  rfl

theorem gives_operand (h : Takes r.operand ws t) (hstop : Stops r.operand (nextKind vs)) :
    Gives (operandReader (expression n) (n + 1) r) c t vs := by
  cases r with
  | bitwise => exact h n (n + 1) c vs hc hlength (Nat.lt_succ_of_le hlength) hstop
  | multiplicative => exact gives_rank (r := .bitwise) hc hlength h hstop
  | additive => exact gives_rank (r := .multiplicative) hc hlength h hstop
  | comparison => exact gives_rank (r := .additive) hc hlength h hstop
  | logical => exact gives_rank (r := .comparison) hc hlength h hstop

/-- A choice may be nothing but its test. -/
theorem gives_test (h : Takes (.rank .logical) ws t) (hstop : Stops (.rank .logical) (nextKind vs))
    (hvs : nextKind vs ≠ .symbol .question) :
    Gives (conditional (expression n) (n + 1)) c t vs := by
  obtain ⟨node, d, hnode, hbare, hd⟩ : Gives (Tree.logical _ _) c t vs :=
    gives_rank hc hlength h hstop
  refine ⟨node, d, ?_, hbare, hd⟩
  rw [conditional, bind_of_ok hnode, current_bind, if_pos (hd.kind_eq ▸ hvs)]
  rfl

end Level

theorem operand (h : Takes r.operand ws t) : Takes (.rank r) ws t := by
  intro n c vs hc hlength hstop
  obtain ⟨left, d, hleft, hbare, hd⟩ := gives_operand hc hlength h hstop
  simp only [length_append] at hlength
  refine ⟨left, d, n + 1, ?_, hbare, hd, by omega⟩
  rw [rankReader_eq, chain, bind_of_ok hleft]

theorem join {s : Symbol} {join : Node → Node → Node} (hleft : Takes (.rank r) ws left)
    (hjoin : r.join? s = some join) (hright : Takes r.operand us right) :
    Takes (.rank r) (ws ++ .symbol s :: us) (join left right) := by
  intro n c vs hc hlength hstop
  rw [append_assoc, cons_append] at hc hlength
  obtain ⟨node, d, b, hchain, hnode, hd, hb⟩ := hleft n c _ hc hlength (stops_of_join? hjoin)
  simp only [length_append, length_cons] at hlength hb
  obtain ⟨b, rfl⟩ : ∃ b', b = b' + 1 := ⟨b - 1, by omega⟩
  obtain ⟨join', hjoin', hbare⟩ := exists_joins? hjoin
  have hkind : d.current.kind = .symbol s := hd.kind_eq
  obtain ⟨d₁, hd₁, hpass⟩ := hd.pass
  obtain ⟨node', d₂, hnode', hbare', hd₂⟩ :=
    gives_operand (n := n) hd₁ (by simp only [length_append]; omega) hright hstop
  refine ⟨join' node node', d₂, b, ?_, by rw [hbare, hnode, hbare'], hd₂, by omega⟩
  rw [hchain, chainTail, kind_bind, hkind, hjoin']
  simp only
  rw [hpass, bind_of_ok hnode']

theorem climb (hws : Derives .primary ws t) (h : Takes .primary ws t) :
    Takes (.rank .logical) ws t := by
  have hbitwise : Takes (.rank .bitwise) ws t := operand (h.unsigned hws)
  have hmultiplicative : Takes (.rank .multiplicative) ws t := operand hbitwise
  have hadditive : Takes (.rank .additive) ws t := operand hmultiplicative
  have hcomparison : Takes (.rank .comparison) ws t := operand hadditive
  exact operand hcomparison

theorem stops_question : Stops (.rank .logical) (.symbol .question) := by
  rintro _ ⟨⟩
  exact ⟨Nat.lt_succ_self 5, by simp [isDangling]⟩

/-- The reader of what is behind the consequent of a choice. -/
def alternateReader (expr : Reader Node) : Reader Node := do
  if (← Reader.kind) = .symbol .colon then do
    advance
    expr
  else pure (.number .zero .none)

theorem choice {test consequent alternate : Node} {xs : List Word}
    (htest : Takes (.rank .logical) ws test) (hconsequent : Takes (.expr d) us consequent)
    (hc : c.Shows (ws ++ .symbol .question :: (us ++ xs)))
    (hlength : (ws ++ .symbol .question :: (us ++ xs)).length ≤ n)
    (hstop : Stops (.expr d) (nextKind xs)) (halternate : ∀ c : Cursor, c.Shows xs →
      Gives (alternateReader (expression n)) c alternate vs) :
    Gives (conditional (expression n) (n + 1)) c (chosen test consequent alternate) vs := by
  obtain ⟨node, d₁, hnode, hbare, hd₁⟩ : Gives (Tree.logical _ _) c test _ :=
    gives_rank hc hlength htest stops_question
  simp only [length_append, length_cons] at hlength
  have hquestion : d₁.current.kind = .symbol .question := hd₁.kind_eq
  obtain ⟨d₂, hd₂, hpass⟩ := hd₁.pass
  obtain ⟨node', d₃, hnode', rfl, hd₃⟩ : Gives (expression n) d₂ consequent xs :=
    hconsequent n d₂ xs hd₂ (by simp only [length_append]; omega) hstop
  obtain ⟨node'', d₄, hnode'', rfl, hd₄⟩ := halternate d₃ hd₃
  refine ⟨.call ⟨utf8 "if", d₁.current.span⟩ [node, node', node''] ⟨node.span.start, d₄.lastStop⟩,
    d₄, ?_, ?_, hd₄⟩
  · rw [conditional, bind_of_ok hnode, current_bind, if_neg (not_not.mpr hquestion), hpass,
      bind_of_ok hnode', kind_bind]
    rw [alternateReader, kind_bind] at hnode''
    by_cases hcolon : d₃.current.kind = .symbol .colon
    · rw [if_pos hcolon] at hnode'' ⊢
      rw [← bind_assoc]
      exact bind_of_ok hnode''
    · rw [if_neg hcolon] at hnode'' ⊢
      exact bind_of_ok hnode''
  · rw [chosen, ← hbare]
    rfl

theorem half {test consequent : Node} (htest : Takes (.rank .logical) ws test)
    (hconsequent : Takes (.expr d) us consequent) :
    Takes (.choice true) (ws ++ .symbol .question :: us)
      (chosen test consequent (.number .zero .none)) := by
  intro n c vs hc hlength hstop
  rw [append_assoc, cons_append] at hc hlength
  refine htest.choice hconsequent hc hlength (hstop.of_le le_rfl fun _ => rfl) fun d hd => ?_
  have hcolon : d.current.kind ≠ .symbol .colon :=
    fun h => (hstop .colon (hd.kind_eq ▸ h)).2 rfl rfl
  refine ⟨.number .zero .none, d, ?_, rfl, hd⟩
  rw [alternateReader, kind_bind, if_neg hcolon]
  rfl

theorem full {test consequent alternate : Node} {xs : List Word}
    (htest : Takes (.rank .logical) ws test) (hconsequent : Takes (.expr false) us consequent)
    (halternate : Takes (.expr d) xs alternate) :
    Takes (.choice d) (ws ++ .symbol .question :: (us ++ .symbol .colon :: xs))
      (chosen test consequent alternate) := by
  intro n c vs hc hlength hstop
  have hwords : ws ++ .symbol .question :: (us ++ .symbol .colon :: xs) ++ vs =
      ws ++ .symbol .question :: (us ++ .symbol .colon :: (xs ++ vs)) := by simp
  rw [hwords] at hc hlength
  have hstops : Stops (.expr false) (.symbol .colon) := by
    rintro _ ⟨⟩
    exact ⟨Nat.lt_succ_self 7, nofun⟩
  refine htest.choice hconsequent hc hlength hstops fun d hd => ?_
  simp only [length_append, length_cons] at hlength
  have hcolon : d.current.kind = .symbol .colon := hd.kind_eq
  obtain ⟨d₁, hd₁, hpass⟩ := hd.pass
  rw [Gives, alternateReader, kind_bind, if_pos hcolon, hpass]
  exact halternate n d₁ vs hd₁ (by simp only [length_append]; omega) hstop

theorem value (h : Takes (.choice d) ws t) : Takes (.expr d) ws t := by
  intro n c vs hc hlength hstop
  obtain ⟨n, rfl⟩ : ∃ m, n = m + 1 := ⟨n - 1, by omega⟩
  obtain ⟨node, d₁, hnode, hbare, hd₁⟩ := h n c vs hc (Nat.le_of_lt_succ hlength) hstop
  refine ⟨node, d₁, ?_, hbare, hd₁⟩
  rw [expression, assignment, bind_of_ok hnode, kind_bind, hd₁.kind_eq, hstop.assignOp?]
  rfl

theorem assign {s : Symbol} {target : Node} (hws : Derives .primary ws target)
    (htarget : Takes .primary ws target) (hassignable : isAssignable target = true)
    (hop : assigns? s = some op) (hright : Takes (.expr d) us right) :
    Takes (.expr d) (ws ++ .symbol s :: us) (.assign op target right .none) := by
  intro n c vs hc hlength hstop
  obtain ⟨n, rfl⟩ : ∃ m, n = m + 1 := ⟨n - 1, by omega⟩
  rw [append_assoc, cons_append] at hc hlength
  have hweight := weight_of_assigns? hop
  have hstops : Stops (.rank .logical) (.symbol s) := by
    rintro _ ⟨⟩
    exact ⟨by rw [hweight]; decide, nofun⟩
  have hquestion : Token.Kind.symbol s ≠ .symbol .question := by
    rintro ⟨⟩
    cases hop
  obtain ⟨node, d₁, hnode, hbare, hd₁⟩ :=
    gives_test hc (Nat.le_of_lt_succ hlength) (htarget.climb hws) hstops hquestion
  simp only [length_append, length_cons] at hlength
  have hkind : d₁.current.kind = .symbol s := hd₁.kind_eq
  have hassigns : assignOp? (.symbol s) = some op := by cases s <;> cases hop <;> rfl
  have hnodeAssignable : isAssignable node = true := by rw [← isAssignable_bare, hbare, hassignable]
  obtain ⟨d₂, hd₂, hpass⟩ := hd₁.pass
  obtain ⟨node', d₃, hnode', hbare', hd₃⟩ :=
    hright n d₂ vs hd₂ (by simp only [length_append]; omega) hstop
  refine ⟨.assign op node node' (spanOver node node'), d₃,
    ?_, by rw [Node.bare, hbare, hbare'], hd₃⟩
  rw [expression, assignment, bind_of_ok hnode, kind_bind, hkind, hassigns]
  simp only [hnodeAssignable]
  exact (hpass _).trans (by rw [bind_of_ok hnode']; rfl)

end Takes

/-- Every text of the grammar is read as the tree of its derivation. -/
theorem takes_of_derives {t : Node} (h : Derives f ws t) : Takes f ws t := by
  induction h with
  | number h => exact fun n c vs hc _ _ => number_gives hc h
  | name => exact fun n c vs hc _ hstop => name_gives hc (hstop.ne le_rfl)
  | call hcallee hargs ih => exact Takes.call hcallee ih fun a ha => (hargs a ha).starts
  | group _ ih => exact ih.group
  | sign hop _ ih => exact ih.sign hop
  | unsigned h ih => exact ih.unsigned h
  | operand _ ih => exact ih.operand
  | join _ hjoin _ ihleft ihright => exact ihleft.join hjoin ihright
  | test _ ih =>
    intro n c vs hc hlength hstop
    exact Takes.gives_test hc hlength ih (hstop.of_le (by decide) nofun) (hstop.ne (by decide))
  | half _ _ ihtest ih => exact ihtest.half ih
  | full _ _ _ ihtest ih ih' => exact ihtest.full ih ih'
  | value _ ih => exact ih.value
  | assign hws hassignable hop _ ihtarget ih => exact ihtarget.assign hws hassignable hop ih
  | sequence hparts h semicolon ih =>
    intro n
    exact sequence_gives hparts (fun p hp => ih p hp n) (fun p hp => (h p hp).starts)
      (Nat.le_succ n)

section Statements

variable {body : List Node} {k : Nat}

/-- That statements are read to the end of the text, with any bound that the
words do not reach. -/
def TakesAll (expr : Reader Node) (k : Nat) (ws : List Word) (body : List Node) : Prop :=
  ∀ (bound : Nat) (c : Cursor), c.Shows ws → ws.length < bound → ws.length < k →
    ∃ nodes d, statements expr bound c = .ok (nodes, d) ∧ Node.bareAll nodes = body ∧ d.Shows []

theorem TakesAll.nil : TakesAll expr k [] [] := by
  intro bound c hc hbound _
  obtain ⟨bound, rfl⟩ : ∃ b, bound = b + 1 := ⟨bound - 1, by omega⟩
  have hkind : c.current.kind = .finish := hc.kind_eq
  refine ⟨[], c, ?_, rfl, hc⟩
  rw [statements, kind_bind, hkind]
  rfl

theorem TakesAll.semicolons (h : TakesAll expr k ws body) (count : Nat) :
    TakesAll expr k (semicolons count ++ ws) body := by
  induction count with
  | zero => exact h
  | succ count ih =>
    intro bound c hc hbound hk
    rw [Grammar.semicolons, replicate_succ, cons_append] at hc hbound hk
    simp only [length_cons] at hbound hk
    obtain ⟨bound, rfl⟩ : ∃ b, bound = b + 1 := ⟨bound - 1, by omega⟩
    have hkind : c.current.kind = .symbol .semicolon := hc.kind_eq
    obtain ⟨d, hd, hpass⟩ := hc.pass
    obtain ⟨nodes, d₁, hnodes, hbare, hd₁⟩ :=
      ih bound d hd (Nat.lt_of_succ_lt_succ hbound) (Nat.lt_of_succ_lt hk)
    refine ⟨nodes, d₁, ?_, hbare, hd₁⟩
    rw [statements, kind_bind, hkind]
    exact (hpass _).trans hnodes

theorem TakesAll.cons (hp : TakesExpr expr k p) (hstarts : StartsOperand p.words)
    (h : TakesAll expr k ws body) (hws : Separated ws) :
    TakesAll expr k (p.words ++ ws) (p.tree :: body) := by
  intro bound c hc hbound hk
  obtain ⟨bound, rfl⟩ : ∃ b, bound = b + 1 := ⟨bound - 1, by omega⟩
  have hnext : nextKind ws = .finish ∨ nextKind ws = .symbol .semicolon := by
    rcases hws with rfl | hhead
    · exact .inl rfl
    · obtain ⟨rest, rfl⟩ := head?_eq_some_iff.mp hhead
      exact .inr rfl
  have hstop : Stops (.expr p.dangling) (nextKind ws) := by
    rcases hnext with hnext | hnext <;> rw [hnext]
    · exact nofun
    · exact stops_expr rfl (by simp)
  have hlength : 0 < p.words.length := by
    obtain ⟨w, rest, hp, -⟩ := hstarts
    simp [hp]
  obtain ⟨-, -, hsemicolon, hfinish⟩ := hstarts.nextKind ws
  rw [← hc.kind_eq] at hsemicolon hfinish
  obtain ⟨node, d, hnode, hbare, hd⟩ := hp c ws hc hk hstop
  simp only [length_append] at hbound hk
  obtain ⟨nodes, d₁, hnodes, hbares, hd₁⟩ := h bound d hd (by omega) (by omega)
  refine ⟨node :: nodes, d₁, ?_, by rw [Node.bareAll, hbare, hbares], hd₁⟩
  rw [statements, kind_bind]
  generalize c.current.kind = kind at hsemicolon hfinish ⊢
  split
  · contradiction
  · contradiction
  · rw [bind_of_ok hnode, kind_bind, hd.kind_eq]
    rcases hnext with hnext | hnext <;> rw [hnext] <;> exact (bind_of_ok hnodes).trans rfl

theorem separated_semicolons (count : Nat) : Separated (semicolons count) := by
  cases count with
  | zero => exact .inl rfl
  | succ count => exact .inr rfl

theorem takesAll_of_statements (h : Statements ws body) (n : Nat) :
    TakesAll (expression n) n ws body := by
  induction h with
  | @last ws t d h count =>
    have hrest : TakesAll (expression n) n (semicolons count) [] := by
      simpa using TakesAll.nil.semicolons count
    exact .cons (p := ⟨ws, t, d⟩) (takes_of_derives h n) h.starts hrest (separated_semicolons count)
  | @more ws us t body d h count _ ih =>
    rw [append_assoc]
    exact .cons (p := ⟨ws, t, d⟩) (takes_of_derives h n) h.starts
      (ih.semicolons (count + 1)) (.inr rfl)

/-- A whole script is read as its statements. -/
theorem script_gives (h : Grammar.Script ws body) (hc : c.Shows ws) (hlength : ws.length < bound) :
    ∃ s d, script bound c = .ok (s, d) ∧ Node.bareAll s.body = body := by
  have htakes : TakesAll (expression bound) bound ws body := by
    cases h with
    | empty count => simpa using TakesAll.nil.semicolons count
    | statements count h => exact (takesAll_of_statements h bound).semicolons count
  obtain ⟨nodes, d, hnodes, hbare, -⟩ := htakes bound c hc hlength hlength
  refine ⟨⟨nodes, ⟨c.current.start, d.current.start⟩⟩, d, ?_, hbare⟩
  rw [script, current_bind, bind_of_ok hnodes]
  rfl

end Statements

end Eel.Tree
