import Eel.Proofs.Tree.Grammar
import Eel.Proofs.Tree.Reads

/-!
What is read is derived.

Each reader reads the words of one form of the grammar, if the reader for the
expressions inside does. Readers look ahead by one token only, and the one thing
that they remember of it is that an open choice is not followed by a colon. So
all that is read has a derivation, and all that breaks off at the end of a text
is the beginning of something that has one.
-/

namespace Eel.Tree

open Grammar Token Node List

variable {kind kind' : Kind} {us vs : List Word} {n : Node} {bound : Nat}

/-- Words derived from a form, and the tree that was read. -/
abbrev Formed (f : Form) (us : List Word) (n : Node) (_ : Kind) : Prop := Derives f us n.bare

/-- Words of an expression, to which a colon behind them does not belong. -/
def Expression (us : List Word) (n : Node) (k : Kind) : Prop :=
  ∃ dangling, Derives (.expr dangling) us n.bare ∧ (k = .symbol .colon → dangling = false)

theorem zero_derives : Derives .primary [.number [0x30]] (.number .zero .none) :=
  .number (by decide)

theorem closable_formed {f : Form} (h : Derives f [.number [0x30]] (.number .zero .none)) :
    Closable (Formed f) :=
  ⟨[.number [0x30]], .number .zero .none, by simp [Closing, closers], h⟩

variable {expr : Reader Node} {k : Nat} {body args : List Node} {callee : Ident} {w : Word}
  (hexpr : Reads (·.length < k) Expression expr)

/-- The rest of a sequence: expressions behind semicolons. -/
def Tail (us : List Word) (body : List Node) (_ : Kind) : Prop :=
  ∃ (parts : List Phrase) (semicolon : Bool),
    us = parts.flatMap (fun p => .symbol .semicolon :: p.words) ++ trailing semicolon ∧
      bareAll body = parts.map (·.tree) ∧ ∀ p ∈ parts, Derives (.expr p.dangling) p.words p.tree

theorem Tail.nil : Tail [] [] kind := ⟨[], false, rfl, rfl, by simp⟩

theorem Tail.semicolon : Tail [.symbol .semicolon] [] kind :=
  ⟨[], true, rfl, rfl, by simp⟩

theorem Tail.cons (hn : Expression us n kind) (h : Tail vs body kind') :
    Tail (.symbol .semicolon :: (us ++ vs)) (n :: body) kind' := by
  obtain ⟨dangling, hn, -⟩ := hn
  obtain ⟨parts, semicolon, rfl, hbody, hparts⟩ := h
  refine ⟨⟨us, n.bare, dangling⟩ :: parts, semicolon, by simp, by simp [bareAll, hbody], ?_⟩
  exact forall_mem_cons.mpr ⟨hn, hparts⟩

include hexpr in
theorem sequenceTail_reads (bound : Nat) :
    Reads (fun ws => ws.length < bound ∧ ws.length < k + 1) Tail (sequenceTail expr bound) := by
  induction bound with
  | zero => exact fun _ c ws _ hws => absurd hws.1 (Nat.not_lt_zero _)
  | succ bound ih =>
    refine .kind fun kind => ?_
    by_cases hkind : kind = .symbol .semicolon
    · subst hkind
      rw [if_neg (by simp)]
      refine .symbol (fun _ hws => hws.2) (.kind fun kind => ?_)
      split
      · exact .pure fun _ _ => .semicolon
      · refine Reads.bind (hexpr.restrict ?_) (fun us n kind hn => ?_) fun us n hn => ?_
        · intro ws hws
          simp only [length_cons] at hws
          omega
        · refine (ih.restrict ?_).map fun vs body kind' hbody => .cons hn hbody
          intro ws hws
          simp only [length_cons, length_append] at hws
          omega
        · exact ⟨[], [n], .nil, .cons hn .nil⟩
    · rw [if_pos hkind]
      exact .pure fun _ _ => .nil

/-- The node of a sequence that was read. -/
def sequenceNode (first : Node) (others : List Node) (span : Span) : Node :=
  match others with
  | [] => first
  | _ => .block (first :: others) span

/-- A sequence is an expression and the rest of the sequence. -/
theorem formed_sequence (hn : Expression us n kind) (h : Tail vs body kind') (span : Span) :
    Derives .sequence (us ++ vs) (sequenceNode n body span).bare := by
  obtain ⟨dangling, hn, -⟩ := hn
  obtain ⟨parts, semicolon, rfl, hbody, hparts⟩ := h
  have hsequence := @Derives.sequence (⟨us, n.bare, dangling⟩ :: parts) (by simp)
    (forall_mem_cons.mpr ⟨hn, hparts⟩) semicolon
  rw [separated_cons, map_cons, ← hbody, append_assoc] at hsequence
  cases body <;> exact hsequence

theorem closable_sequence (hn : Expression us n kind) (h : Tail vs body kind') :
    Closable fun ws => Formed .sequence (us ++ (vs ++ ws)) :=
  ⟨[], sequenceNode n body .none, .nil, by simpa [Formed] using formed_sequence hn h .none⟩

include hexpr in
theorem sequence_reads (hbound : k ≤ bound) (start : Position) (wanted : List ParseError.Wanted) :
    Reads (·.length < k) (Formed .sequence) (sequence expr bound start wanted) := by
  refine hexpr.bind (fun us n kind hn => ?_) fun us n hn => ?_
  · refine Reads.bind ((sequenceTail_reads hexpr bound).restrict ?_) (fun vs body kind' hbody => ?_)
      fun vs body hbody => ?_
    · intro ws hws
      simp only [length_append] at hws
      omega
    · have hformed (span : Span) {kind : Kind} :
          Formed .sequence (us ++ vs) (sequenceNode n body span) kind :=
        formed_sequence hn hbody span
      refine .kind fun kind'' => ?_
      dsimp only
      split
      · exact .unexpected_bind fun _ => closable_sequence hn hbody
      · cases body with
        | nil =>
          refine .pure fun _ _ => ?_
          rw [append_nil]
          exact hformed .none
        | cons second rest =>
          refine .get fun c => .pure fun _ _ => ?_
          rw [append_nil]
          exact hformed ⟨start, c.lastStop⟩
    · exact closable_sequence hn hbody
  · exact closable_sequence hn (.nil : Tail [] [] .finish)

/-- Arguments, at least one, with commas between them. -/
def Arguments (us : List Word) (args : List Node) (_ : Kind) : Prop :=
  ∃ parts : List Phrase, parts ≠ [] ∧ us = separated .comma parts ∧
    bareAll args = parts.map (·.tree) ∧
    ∀ p ∈ parts, Derives .sequence p.words p.tree

theorem Arguments.singleton (h : Formed .sequence us n kind) : Arguments us [n] kind' :=
  ⟨[⟨us, n.bare, false⟩], by simp, by simp [separated], rfl, by simpa [Formed] using h⟩

theorem Arguments.cons (hn : Formed .sequence us n kind) (h : Arguments vs args kind') :
    Arguments (us ++ .symbol .comma :: vs) (n :: args) kind' := by
  obtain ⟨parts, hne, rfl, hargs, hparts⟩ := h
  obtain ⟨p, rest, rfl⟩ := exists_cons_of_ne_nil hne
  refine ⟨⟨us, n.bare, false⟩ :: p :: rest, by simp, ?_, by simp [bareAll, hargs],
    forall_mem_cons.mpr ⟨hn, hparts⟩⟩
  rw [separated_cons_cons]

include hexpr in
theorem arguments_reads (hbound : k ≤ bound) (count : Nat) :
    Reads (fun ws => ws.length < count ∧ ws.length < k) Arguments (arguments expr bound count) := by
  induction count with
  | zero => exact fun _ c ws _ hws => absurd hws.1 (Nat.not_lt_zero _)
  | succ count ih =>
    refine .current fun t => ?_
    have hfirst := sequence_reads hexpr hbound t.start wantArgumentEnd
    refine Reads.bind (hfirst.restrict fun _ hws => hws.2)
      (fun us n kind hn => .kind fun kind' => ?_) fun us n hn => ?_
    · by_cases hcomma : kind' = .symbol .comma
      · subst hcomma
        rw [if_pos rfl]
        refine .symbol (fun _ hws => hws.2)
          ((ih.restrict ?_).map fun vs args kind' hargs => .cons hn hargs)
        intro ws hws
        simp only [length_append, length_cons] at hws
        omega
      · rw [if_neg hcomma]
        exact .pure fun _ _ => by simpa using Arguments.singleton hn
    · exact ⟨[], [n], .nil, by simpa using Arguments.singleton hn⟩

theorem Arguments.call (hcallee : callee? w = some { name := callee.name })
    (h : Arguments us args kind) (span : Span) :
    Derives .primary (w :: .symbol .openParen :: (us ++ [.symbol .closeParen]))
      (call callee args span).bare := by
  obtain ⟨parts, -, rfl, hargs, hparts⟩ := h
  have hcall := Derives.call hcallee hparts
  rwa [← hargs] at hcall

/-- The parenthesis behind the arguments of a call. -/
theorem closeCall_reads
    (h : ∀ span, Derives .primary (w :: .symbol .openParen :: (us ++ [.symbol .closeParen]))
      (call callee args span).bare) :
    Reads A (fun vs n kind => Formed .primary (w :: .symbol .openParen :: (us ++ vs)) n kind) (do
      Reader.expect .closeParen wantArgumentEnd
      return .call callee args ⟨callee.span.start, (← get).lastStop⟩) :=
  .expect (.get fun _ => .pure fun _ _ => h _)
    fun _ => ⟨[.symbol .closeParen], .call callee args .none, by simp [Closing, closers], h .none⟩

include hexpr in
theorem callOf_reads (hbound : k ≤ bound) (hcallee : callee? w = some { name := callee.name }) :
    Reads (·.length < k + 1) (fun us n kind => Formed .primary (w :: us) n kind)
      (callOf expr bound callee) := by
  have hempty (span : Span) :
      Derives .primary (w :: .symbol .openParen :: ([] ++ [.symbol .closeParen]))
      (call callee [] span).bare := @Derives.call w _ [] hcallee (by simp)
  have hopen : Closable fun us => Formed .primary (w :: us) :=
    ⟨[.symbol .openParen, .symbol .closeParen],
      .call callee [] .none, by simp [Closing, closers], hempty _⟩
  refine .expect (.kind fun kind => ?_) fun _ => hopen
  by_cases hkind : kind = .symbol .closeParen
  · rw [if_pos hkind]
    exact .pure_bind (closeCall_reads hempty)
  · rw [if_neg hkind]
    refine Reads.bind ((arguments_reads hexpr hbound bound).restrict ?_)
      (fun us args kind hargs => closeCall_reads (hargs.call hcallee)) fun us args hargs => ?_
    · intro ws hws
      simp only [length_cons] at hws
      omega
    · exact ⟨[.symbol .closeParen], .call callee args .none, by simp [Closing, closers],
        hargs.call hcallee .none⟩

include hexpr in
theorem primary_reads (hbound : k ≤ bound) :
    Reads (·.length < k + 1) (Formed .primary) (primary expr bound) := by
  refine .token (fun t ht => ?_) fun t w hw => ?_
  · rw [ht]
    exact .unexpected fun _ => closable_formed zero_derives
  · have hshort {ws : List Word} (hws : (w :: ws).length < k + 1 ∧ (w :: ws).head? = some w) :
        ws.length < k := by
      simpa using hws.1
    unfold word? at hw
    split at hw <;> rename_i hkind <;> cases hw <;> simp only [hkind]
    · -- A name, or a call by a name.
      refine .word (fun _ hws => hws.2) (.kind fun kind => ?_)
      split
      · exact (callOf_reads hexpr hbound rfl).restrict fun ws hws =>
          Nat.lt_succ_of_lt (hshort hws.1)
      · exact .pure fun _ _ => .name
    · refine .word (fun _ hws => hws.2) (.kind fun kind => ?_)
      split
      · exact (callOf_reads hexpr hbound rfl).restrict fun ws hws =>
          Nat.lt_succ_of_lt (hshort hws.1)
      · refine .unexpected fun _ => ?_
        refine ⟨[.symbol .openParen, .symbol .closeParen],
          .call { name := Text.lower t.lexeme } [] .none,
          by simp [Closing, closers], ?_⟩
        exact @Derives.call _ _ [] rfl (by simp)
    · cases hvalue : numberValue? t.lexeme with
      | none =>
        dsimp only
        exact .throw (by simp [ParseError.atToken, hkind])
      | some value => exact .word (fun _ hws => hws.2) (.pure fun _ _ => .number hvalue)
    · rename_i s
      by_cases hs : s = .openParen
      · subst hs
        refine .word (fun _ hws => hws.2) ?_
        refine Reads.bind
          ((sequence_reads hexpr hbound t.start wantBlockEnd).restrict fun ws hws => hshort hws)
          (fun us n kind hn => .expect (.pure fun _ _ => .group hn) fun _ => ?_) fun us n hn => ?_
        · exact ⟨[.symbol .closeParen], n, by simp [Closing, closers], .group hn⟩
        · exact ⟨[.symbol .closeParen], n, by simp [Closing, closers], .group hn⟩
      · cases s <;> first | exact absurd rfl hs | exact .unexpected fun h => absurd h.2 (by simp)

theorem unaryOp?_eq_some {op : UnaryOp} (h : unaryOp? kind = some op) :
    ∃ s, kind = .symbol s ∧ sign? s = some op := by
  unfold unaryOp? at h
  split at h <;> cases h <;> exact ⟨_, rfl, rfl⟩

include hexpr in
theorem unary_reads (hbound : k ≤ bound) (count : Nat) :
    Reads (fun ws => ws.length < count ∧ ws.length < k + 1) (Formed .unary)
      (unary expr bound count) := by
  induction count with
  | zero => exact fun _ c ws _ hws => absurd hws.1 (Nat.not_lt_zero _)
  | succ count ih =>
    refine .kindOf fun t => ?_
    cases hop : unaryOp? t.kind with
    | none =>
      exact (primary_reads hexpr hbound).mono (fun _ hws => hws.1.2) fun _ _ _ h => .unsigned h
    | some op =>
      obtain ⟨s, hs, hsign⟩ := unaryOp?_eq_some hop
      refine .symbol (fun _ hws => hws.2.trans hs)
        ((ih.restrict ?_).map fun us n kind hn => .sign hsign hn)
      intro ws hws
      simp only [length_cons] at hws
      omega

/-- The operators that readers know for a rank. -/
def joins? : Rank → Kind → Option (Node → Node → Node)
  | .bitwise, kind => (bitwiseOp? kind).map joinBinary
  | .multiplicative, kind => (multiplicativeOp? kind).map joinBinary
  | .additive, kind => (additiveOp? kind).map joinBinary
  | .comparison, kind => (comparisonOp? kind).map joinBinary
  | .logical, kind => (logicalOp? kind).map joinLogical

theorem joins?_eq_some {r : Rank} {join : Node → Node → Node} (h : joins? r kind = some join) :
    ∃ s join', kind = .symbol s ∧ r.join? s = some join' ∧
      ∀ left right : Node, (join left right).bare = join' left.bare right.bare := by
  obtain ⟨s, rfl⟩ : ∃ s, kind = .symbol s := by
    cases r <;> cases kind <;> first | exact ⟨_, rfl⟩ | cases h
  cases r <;> cases s <;> cases h <;> exact ⟨_, _, rfl, rfl, fun _ _ => rfl⟩

theorem exists_joins? {r : Rank} {s : Symbol} {join' : Node → Node → Node}
    (h : r.join? s = some join') :
    ∃ join, joins? r (.symbol s) = some join ∧
      ∀ left right : Node, (join left right).bare = join' left.bare right.bare := by
  cases r <;> cases s <;> cases h <;> exact ⟨_, rfl, fun _ _ => rfl⟩

section Chain

variable {operand : Reader Node} {r : Rank}

theorem chainTail_reads (hoperand : Reads (·.length < k) (Formed r.operand) operand)
    (bound : Nat) {us : List Word} {left : Node} (hleft : Derives (.rank r) us left.bare) :
    Reads (fun ws => ws.length < bound ∧ ws.length < k)
      (fun vs n kind => Formed (.rank r) (us ++ vs) n kind)
      (chainTail operand (joins? r) bound left) := by
  induction bound generalizing us left with
  | zero => exact fun _ c ws _ hws => absurd hws.1 (Nat.not_lt_zero _)
  | succ bound ih =>
    refine .kind fun kind => ?_
    cases hkind : joins? r kind with
    | none => exact .pure fun _ _ => by simpa [Formed] using hleft
    | some join =>
      obtain ⟨s, join', rfl, hjoin, hbare⟩ := joins?_eq_some hkind
      have hjoined {vs : List Word} {right : Node} (hright : Derives r.operand vs right.bare) :
          Derives (.rank r) (us ++ .symbol s :: vs) (join left right).bare := by
        rw [hbare]
        exact .join hleft hjoin hright
      refine .symbol (fun _ hws => hws.2) ?_
      refine Reads.bind (hoperand.restrict ?_) (fun vs right kind hright => ?_)
        fun vs right hright => ?_
      · intro ws hws
        simp only [length_cons] at hws
        omega
      · refine (ih (hjoined hright)).mono ?_ ?_
        · intro ws hws
          simp only [length_cons, length_append] at hws
          omega
        · intro ws n kind hn
          simpa using hn
      · exact ⟨[], join left right, .nil, by simpa using hjoined hright⟩

theorem chain_reads (hoperand : Reads (·.length < k) (Formed r.operand) operand)
    {bound : Nat} (hbound : k ≤ bound) :
    Reads (·.length < k) (Formed (.rank r)) (chain operand (joins? r) bound) := by
  refine hoperand.bind (fun us left kind hleft => ?_) fun us left hleft => ?_
  · refine (chainTail_reads hoperand bound (.operand hleft)).restrict ?_
    intro ws hws
    simp only [length_append] at hws
    omega
  · exact ⟨[], left, .nil, by simpa using Derives.operand hleft⟩

end Chain

include hexpr in
theorem logical_reads (hbound : k + 1 ≤ bound) :
    Reads (·.length < k + 1) (Formed (.rank .logical)) (logical expr bound) := by
  have hunary : Reads (·.length < k + 1) (Formed .unary) (unary expr bound bound) :=
    (unary_reads hexpr (by omega) bound).restrict fun ws hws => ⟨by omega, hws⟩
  have hbitwise := chain_reads (r := .bitwise) hunary hbound
  have hmultiplicative := chain_reads (r := .multiplicative) hbitwise hbound
  have hadditive := chain_reads (r := .additive) hmultiplicative hbound
  have hcomparison := chain_reads (r := .comparison) hadditive hbound
  exact chain_reads (r := .logical) hcomparison hbound

/-- Words of a choice, to which a colon behind them does not belong. -/
def Choice (us : List Word) (n : Node) (k : Kind) : Prop :=
  ∃ dangling, Derives (.choice dangling) us n.bare ∧ (k = .symbol .colon → dangling = false)

include hexpr in
theorem conditional_reads (hbound : k + 1 ≤ bound) :
    Reads (·.length < k + 1) Choice (conditional expr bound) := by
  refine (logical_reads hexpr hbound).bind (fun us test kind htest => .kindOf fun t => ?_)
    fun us test htest => ?_
  · by_cases hkind : t.kind = .symbol .question
    · rw [if_neg (by simp [hkind])]
      have hhalf {vs : List Word} {consequent : Node} {kind : Kind}
          (h : Expression vs consequent kind)
          (span : Span) : Derives (.choice true) (us ++ .symbol .question :: vs)
            (call ⟨utf8 "if", t.span⟩ [test, consequent, .number .zero .none] span).bare := by
        obtain ⟨_, hconsequent, -⟩ := h
        exact .half htest hconsequent
      have hfull {vs vs' : List Word} {consequent alternate : Node} {kind : Kind}
          (h : Expression vs consequent (.symbol .colon)) (h' : Expression vs' alternate kind)
          (span : Span) :
          Choice (us ++ .symbol .question :: (vs ++ .symbol .colon :: vs'))
            (call ⟨utf8 "if", t.span⟩ [test, consequent, alternate] span) kind := by
        obtain ⟨dangling, hconsequent, hcolon⟩ := h
        obtain rfl := hcolon rfl
        obtain ⟨dangling', halternate, hcolon'⟩ := h'
        exact ⟨dangling', .full htest hconsequent halternate, hcolon'⟩
      refine .symbol (fun _ hws => hws.2.trans hkind) ?_
      refine Reads.bind (hexpr.restrict ?_) (fun vs consequent kind' hconsequent => ?_)
        fun vs consequent h => ?_
      · intro ws hws
        simp only [length_append, length_cons] at hws
        omega
      · refine .knownKind (fun _ hws => hws.2) ?_
        by_cases hcolon : kind' = .symbol .colon
        · subst hcolon
          rw [if_pos rfl]
          refine .symbol (fun _ hws => hws.2) ?_
          refine Reads.bind (hexpr.restrict ?_)
            (fun vs' alternate kind'' h => .get fun c => .pure fun ws hws => ?_) fun vs'
              alternate h => ?_
          · intro ws hws
            simp only [length_append, length_cons] at hws
            omega
          · rw [append_nil, hws.2]
            exact hfull hconsequent h _
          · exact ⟨[], .call ⟨utf8 "if", t.span⟩ [test, consequent, alternate] .none, .nil,
              by simpa using hfull hconsequent h _⟩
        · rw [if_neg hcolon]
          refine .pure_bind
            (.get fun c => .pure fun ws hws =>
              ⟨true, ?_, fun h => absurd (hws.2.symm.trans h) hcolon⟩)
          simpa using hhalf hconsequent _
      · refine ⟨[], .call ⟨utf8 "if", t.span⟩ [test, consequent, .number .zero .none] .none, .nil,
          true, ?_, ?_⟩
        · simpa using hhalf h _
        · simp
    · rw [if_pos hkind]
      exact .pure fun _ _ => ⟨false, by simpa using .test htest, fun _ => rfl⟩
  · exact ⟨[], test, .nil, false, by simpa using .test htest, fun _ => rfl⟩

theorem isAssignable_bare (n : Node) : isAssignable n.bare = isAssignable n := by
  cases n <;> rfl

theorem assignOp?_eq_some {op : AssignOp} (h : assignOp? kind = some op) :
    ∃ s, kind = .symbol s ∧ assigns? s = some op := by
  unfold assignOp? at h
  split at h <;> cases h <;> exact ⟨_, rfl, rfl⟩

include hexpr in
theorem assignment_reads (hbound : k + 1 ≤ bound) :
    Reads (·.length < k + 1) Expression (assignment expr bound) := by
  have hvalue {us : List Word} {n : Node} {kind : Kind} (h : Choice us n kind) :
      Expression us n kind := by
    obtain ⟨dangling, hn, hcolon⟩ := h
    exact ⟨dangling, .value hn, hcolon⟩
  refine (conditional_reads hexpr hbound).bind (fun us left kind hleft => ?_) fun us left hleft =>
    ⟨[], left, .nil, by simpa using hvalue hleft⟩
  refine .knownKind (fun _ hws => hws.2) ?_
  cases hop : assignOp? kind with
  | none => exact .pure fun ws hws => by simpa [hws.2] using hvalue hleft
  | some op =>
    obtain ⟨s, rfl, hs⟩ := assignOp?_eq_some hop
    cases htarget : isAssignable left with
    | false => exact .throw rfl
    | true =>
      obtain ⟨_, hchoice, -⟩ := hleft
      have hprimary : Derives .primary us left.bare := by
        simpa using hchoice.primary_of_isAssignable ((isAssignable_bare left).trans htarget)
      have hassign {vs : List Word} {right : Node} {kind : Kind} (h : Expression vs right kind) :
          Expression (us ++ .symbol s :: vs)
            (.assign op left right (spanOver left right)) kind := by
        obtain ⟨dangling, hright, hcolon⟩ := h
        exact ⟨dangling,
          .assign hprimary ((isAssignable_bare left).trans htarget) hs hright, hcolon⟩
      refine .symbol (fun _ hws => hws.2) ((hexpr.restrict ?_).map fun vs right kind h => hassign h)
      intro ws hws
      simp only [length_append, length_cons] at hws
      omega

/-- An expression is read as the grammar derives it. -/
theorem expression_reads (levels : Nat) :
    Reads (·.length < levels) Expression (expression levels) := by
  induction levels with
  | zero => exact fun _ c ws _ hws => absurd hws (Nat.not_lt_zero _)
  | succ levels ih => exact assignment_reads ih le_rfl

/-- The words of a whole script, and the statements that were read. -/
def Whole (us : List Word) (body : List Node) (kind : Kind) : Prop :=
  kind = .finish ∧ Grammar.Script us (bareAll body)

/-- That words are none, or start with a semicolon. -/
def Separated (ws : List Word) : Prop := ws = [] ∨ ws.head? = some (.symbol .semicolon)

theorem separated_of_nextKind {ws : List Word}
    (h : Word.nextKind ws = .finish ∨ Word.nextKind ws = .symbol .semicolon) : Separated ws := by
  cases ws with
  | nil => exact .inl rfl
  | cons w ws =>
    rcases h with h | h
    · cases w <;> cases h
    · exact .inr (by rw [Word.eq_symbol_of_kind h, head?_cons])

include hexpr in
/-- A statement, behind which others are read. -/
theorem statement_reads {others : Reader (List Node)}
    (hothers : Reads (fun ws => (ws.length < bound ∧ ws.length < k) ∧ (True → Separated ws))
      (fun us body kind => Whole us body kind ∧ (True → Separated us)) others) :
    Reads (fun ws => ws.length < bound + 1 ∧ ws.length < k) Whole (do
      let e ← expr
      match ← Reader.kind with
      | .finish | .symbol .semicolon => return e :: (← others)
      | _ => Reader.unexpected wantStatementEnd) := by
  refine Reads.bind (hexpr.restrict fun ws hws => hws.2) (fun us e kind he => ?_) fun us e he => ?_
  · obtain ⟨_, he, -⟩ := he
    have hlength : 0 < us.length := by
      obtain ⟨_, _, rfl, -⟩ := he.starts
      exact Nat.succ_pos _
    have hmore (hkind : kind = .finish ∨ kind = .symbol .semicolon) :
        Reads (fun ws => ((us ++ ws).length < bound + 1 ∧ (us ++ ws).length < k) ∧
          Word.nextKind ws = kind)
          (fun vs body kind => Whole (us ++ vs) body kind) (do return e :: (← others)) := by
      refine (hothers.restrict ?_).map fun vs body kind h =>
        ⟨h.1.1, Script.cons he h.1.2 (h.2 trivial)⟩
      intro ws hws
      simp only [length_append] at hws
      exact ⟨by omega, fun _ => separated_of_nextKind (hws.2 ▸ hkind)⟩
    refine .knownKind (fun _ hws => hws.2) ?_
    split
    · exact hmore (.inl rfl)
    · exact hmore (.inr rfl)
    · rename_i hfinish _
      exact .unexpected fun h => absurd h.2.symm hfinish
  · obtain ⟨_, he, -⟩ := he
    exact ⟨[], [e], .nil,
      rfl, by simpa [bareAll, semicolons] using Script.cons he (.empty 0) (.inl rfl)⟩

include hexpr in
/-- Statements are read to the end. If they have to be separated from what is
before them, they are. -/
theorem statements_reads (bound : Nat) (behind : Prop) :
    Reads (fun ws => (ws.length < bound ∧ ws.length < k) ∧ (behind → Separated ws))
      (fun us body kind => Whole us body kind ∧ (behind → Separated us))
      (statements expr bound) := by
  induction bound generalizing behind with
  | zero => exact fun _ c ws _ hws => absurd hws.1.1 (Nat.not_lt_zero _)
  | succ bound ih =>
    refine .kind fun kind => ?_
    split
    · exact .pure fun ws hws => ⟨⟨hws.2, .empty 0⟩, fun _ => .inl rfl⟩
    · refine .symbol (fun _ hws => hws.2) ((ih False).mono ?_ ?_)
      · intro ws hws
        simp only [length_cons] at hws
        exact ⟨by omega, False.elim⟩
      · exact fun us body kind h => ⟨⟨h.1.1, h.1.2.semicolon⟩, fun _ => .inr rfl⟩
    · rename_i hfinish hsemicolon
      by_cases hbehind : behind
      · intro _ c ws _ hws
        rcases hws.1.2 hbehind with rfl | hhead
        · exact absurd hws.2.symm hfinish
        · obtain ⟨rest, rfl⟩ := head?_eq_some_iff.mp hhead
          exact absurd hws.2.symm hsemicolon
      · exact (statement_reads hexpr (ih True)).mono (fun ws hws => hws.1.1)
          fun us body kind h => ⟨h, fun h => absurd h hbehind⟩

theorem script_reads (bound : Nat) :
    Reads (·.length < bound) (fun us s kind => Whole us s.body kind) (script bound) := by
  refine .current fun start => ?_
  refine Reads.bind ((statements_reads (expression_reads bound) bound False).restrict ?_)
    (fun us body kind h => .current fun t => .pure fun ws hws => ?_) fun us body h => ?_
  · exact fun ws hws => ⟨⟨hws, hws⟩, False.elim⟩
  · rw [append_nil, hws.2]
    exact h.1
  · exact ⟨[], ⟨body, .none⟩, .nil, by simpa using h.1⟩

end Eel.Tree
