import Eel.Proofs.Tree.Parsing

/-!
Reading without regard to what is not read.

Of two lists of tokens one goes on where the other ends. As long as a reader has
not come to that place, it cannot know which of the two it reads, so it gives
the same on both, or fails on both. Once it is at the end of the shorter list,
it stays there or fails as incomplete. So a list of tokens that is refused, but
not as incomplete, is refused with anything behind it.
-/

namespace Eel.Tree

open Reader List

variable {α β : Type} {tail : List Token} {m k count' : Nat} {wanted : List ParseError.Wanted}
  {e : ParseError}
  {operand' : Reader Node} {start : Position} {callee : Ident} {s : Symbol} {a : α}

/-- That nothing but the end of the text is left. -/
def Cursor.AtEnd (c : Cursor) : Prop := c.current.kind = .finish ∧ c.rest = []

/-- That a reader came to the end of the text, or failed there. -/
def Ended : Except ParseError (α × Cursor) → Prop
  | .ok (_, d) => d.AtEnd
  | .error e => e.incomplete = true

theorem Ended.incomplete {x : Except ParseError (α × Cursor)} (h : Ended x)
    (hx : x.map (·.1) = .error e) : e.incomplete = true := by
  cases x with
  | ok result => cases hx
  | error e' =>
    cases hx
    exact h

theorem Ended.bind {r : Reader α} {next : α → Reader β} {c : Cursor} (h : Ended (r c))
    (hnext : ∀ a d, d.AtEnd → Ended (next a d)) : Ended ((r >>= next) c) := by
  cases hrun : r c with
  | ok result =>
    rw [hrun] at h
    rw [bind_of_ok hrun]
    exact hnext _ _ h
  | error e =>
    rw [hrun] at h
    rw [bind_of_error hrun]
    exact h

/-- That a reader, started at the end of the text, stays there or fails as
incomplete. -/
def Ends (r : Reader α) : Prop := ∀ c : Cursor, c.AtEnd → Ended (r c)

theorem Ends.pure : Ends (pure a : Reader α) := fun _ hc => hc

theorem Ends.unexpected : Ends (Reader.unexpected wanted : Reader α) := by
  intro c hc
  change (ParseError.atToken _ c.current wanted).incomplete = true
  simp [ParseError.atToken, hc.1]

/-- That a cursor has tokens to read before the end, and another one has the
same and then others. -/
structure Extends (tail : List Token) (c c' : Cursor) : Prop where
  current : c'.current = c.current
  lastStop : c'.lastStop = c.lastStop
  word : c.current.kind.isLast = false
  rest : ∃ front last, (∀ t ∈ front, t.kind.isLast = false) ∧ last.kind = .finish ∧
    c.rest = front ++ [last] ∧ c'.rest = front ++ tail

/-- That two readers do the same up to the end of the shorter text, on cursors
with less than `k` tokens behind the current one, and that the first one ends
there, if `p` says that it may be started there. Where they succeed before it,
they have passed over at least `m` tokens. -/
structure FollowsIf (p : Prop) (tail : List Token) (m k : Nat) (r r' : Reader α) : Prop where
  ends : p → Ends r
  follows : ∀ c c', Extends tail c c' → c.rest.length < k →
    Ended (r c) ∨ (∃ e e', r c = .error e ∧ r' c' = .error e') ∨
      ∃ a d d', r c = .ok (a, d) ∧ r' c' = .ok (a, d') ∧ Extends tail d d' ∧
        d.rest.length + m ≤ c.rest.length

abbrev Follows (tail : List Token) (m k : Nat) (r r' : Reader α) : Prop :=
  FollowsIf True tail m k r r'

namespace FollowsIf

variable {p : Prop} {r r' : Reader α} {next next' : α → Reader β}

theorem mono (h : Follows tail m k r r') {m' k' : Nat} (hm : m' ≤ m) (hk : k' ≤ k) :
    FollowsIf p tail m' k' r r' := by
  refine ⟨fun _ => h.ends trivial, fun c c' hc hlength => ?_⟩
  refine (h.follows c c' hc (hlength.trans_le hk)).imp_right (Or.imp_right ?_)
  rintro ⟨a, d, d', hr, hr', hd, hconsumed⟩
  exact ⟨a, d, d', hr, hr', hd, by omega⟩

theorem weaken (h : Follows tail m k r r') : FollowsIf p tail 0 k r r' :=
  mono h (Nat.zero_le m) le_rfl

/-- Where no token may be left, only the end counts. -/
theorem of_ends (h : Ends r) (hk : k = 0) : FollowsIf p tail m k r r' :=
  ⟨fun _ => h, fun c c' _ hlength => absurd hlength (by omega)⟩

theorem pure : FollowsIf p tail 0 k (pure a : Reader α) (pure a) :=
  ⟨fun _ => .pure, fun c c' hc _ => .inr (.inr ⟨a, c, c', rfl, rfl, hc, le_rfl⟩)⟩

/-- What is read behind a reader has fewer tokens left. -/
theorem bind_consumed (h : FollowsIf p tail m k r r')
    (hnext : ∀ a, Follows tail 0 (k - m) (next a) (next' a)) :
    FollowsIf p tail m k (r >>= next) (r' >>= next') := by
  have hends (a : α) : Ends (next a) := (hnext a).ends trivial
  refine ⟨fun hp c hc => (h.ends hp c hc).bind hends, fun c c' hc hlength => ?_⟩
  rcases h.follows c c' hc hlength with hended | ⟨e, e', hr, hr'⟩
      | ⟨a, d, d', hr, hr', hd, hconsumed⟩
  · exact .inl (hended.bind hends)
  · exact .inr (.inl ⟨e, e', bind_of_error hr, bind_of_error hr'⟩)
  · rw [bind_of_ok hr, bind_of_ok hr']
    refine ((hnext a).follows d d' hd (by omega)).imp_right (Or.imp_right ?_)
    rintro ⟨b, d₁, d₁', hb, hb', hd₁, hconsumed'⟩
    exact ⟨b, d₁, d₁', hb, hb', hd₁, by omega⟩

theorem bind (h : FollowsIf p tail m k r r') (hnext : ∀ a, Follows tail 0 k (next a) (next' a)) :
    FollowsIf p tail m k (r >>= next) (r' >>= next') :=
  h.bind_consumed fun a => mono (hnext a) le_rfl (Nat.sub_le k m)

theorem kind {f f' : Token.Kind → Reader α}
    (h : ∀ kind, FollowsIf (kind = .finish) tail m k (f kind) (f' kind)) :
    FollowsIf p tail m k (Reader.kind >>= f) (Reader.kind >>= f') := by
  refine ⟨fun _ c hc => (h _).ends hc.1 c hc, fun c c' hc hlength => ?_⟩
  rw [kind_bind, kind_bind, hc.current]
  exact (h _).follows c c' hc hlength

theorem current {f f' : Token → Reader α}
    (h : ∀ t, FollowsIf (t.kind = .finish) tail m k (f t) (f' t)) :
    FollowsIf p tail m k (Reader.current >>= f) (Reader.current >>= f') := by
  refine ⟨fun _ c hc => (h _).ends hc.1 c hc, fun c c' hc hlength => ?_⟩
  rw [current_bind, current_bind, hc.current]
  exact (h _).follows c c' hc hlength

/-- Of the cursor itself only the place behind the last token is used. -/
theorem get {f : Cursor → Reader α} (h : ∀ c, FollowsIf p tail m k (f c) (f c))
    (hstop : ∀ c c', c'.lastStop = c.lastStop → f c' = f c) :
    FollowsIf p tail m k (MonadState.get >>= f) (MonadState.get >>= f) := by
  refine ⟨fun hp c hc => (h c).ends hp c hc, fun c c' hc hlength => ?_⟩
  have hget (c : Cursor) : (MonadState.get >>= f) c = f c c := rfl
  rw [hget, hget, hstop c c' hc.lastStop]
  exact (h c).follows c c' hc hlength

theorem advance {next next' : Unit → Reader α} (h : Follows tail 0 (k - 1) (next ()) (next' ())) :
    FollowsIf p tail 1 k (Reader.advance >>= next) (Reader.advance >>= next') := by
  constructor
  · rintro - c hc
    have hadvance : Reader.advance c = .ok ((), { c with lastStop := c.current.stop }) := by
      simp only [Reader.advance, hc.2]
    rw [bind_of_ok hadvance]
    exact h.ends trivial _ hc
  rintro ⟨t, rest, stop⟩ ⟨t', rest', stop'⟩ hc hlength
  obtain ⟨front, last, hfront, hlast, hrest, hrest'⟩ := hc.rest
  obtain rfl : t = t' := hc.current.symm
  simp only at hrest hrest' hlength
  subst hrest hrest'
  cases front with
  | nil =>
    have hlegal : lexicalError? last = none :=
      Cursor.ShowsUntil.lexicalError?_eq (c := ⟨last, [], stop⟩) (.finish hlast)
    have hadvance : Reader.advance ⟨t, [last], stop⟩ = .ok ((), ⟨last, [], t.stop⟩) := by
      simp only [Reader.advance, hlegal]
    left
    rw [nil_append, bind_of_ok hadvance]
    exact h.ends trivial _ ⟨hlast, rfl⟩
  | cons u front =>
    have hlegal : lexicalError? u = none := Token.lexicalError?_of_isLast (hfront u (by simp))
    have hadvance (more : List Token) (stop : Position) :
        Reader.advance ⟨t, u :: (front ++ more), stop⟩ = .ok ((), ⟨u, front ++ more, t.stop⟩) := by
      simp only [Reader.advance, hlegal]
    rw [cons_append, cons_append, bind_of_ok (hadvance _ _), bind_of_ok (hadvance _ _)]
    have hd : Extends tail ⟨u, front ++ [last], t.stop⟩ ⟨u, front ++ tail, t.stop⟩ :=
      ⟨rfl, rfl, hfront u (by simp), front, last, fun v hv => hfront v (by simp [hv]),
        hlast, rfl, rfl⟩
    simp only [cons_append, length_cons] at hlength
    refine (h.follows _ _ hd (by dsimp only; omega)).imp_right (Or.imp_right ?_)
    rintro ⟨a, d, d', hr, hr', hd, hconsumed⟩
    refine ⟨a, d, d', hr, hr', hd, ?_⟩
    simp only [length_cons] at hconsumed ⊢
    omega

theorem unexpected :
    FollowsIf p tail m k (Reader.unexpected wanted : Reader α) (Reader.unexpected wanted) :=
  ⟨fun _ => .unexpected, fun _ _ _ _ => .inr (.inl ⟨_, _, rfl, rfl⟩)⟩

theorem unexpected_bind {f f' : α → Reader β} :
    FollowsIf p tail m k (Reader.unexpected wanted >>= f) (Reader.unexpected wanted >>= f') :=
  ⟨fun _ c hc => Ends.unexpected c hc, fun _ _ _ _ => .inr (.inl ⟨_, _, rfl, rfl⟩)⟩

/-- An error of another kind does not come up at the end. -/
theorem throw (h : ¬ p) : FollowsIf p tail m k (throw e : Reader α) (throw e) :=
  ⟨fun hp => absurd hp h, fun _ _ _ _ => .inr (.inl ⟨_, _, rfl, rfl⟩)⟩

theorem throw_bind {f f' : α → Reader β} (h : ¬ p) :
    FollowsIf p tail m k (MonadExcept.throw e >>= f) (MonadExcept.throw e >>= f') :=
  ⟨fun hp => absurd hp h, fun _ _ _ _ => .inr (.inl ⟨_, _, rfl, rfl⟩)⟩

theorem expect {next next' : Unit → Reader α} (h : Follows tail 0 (k - 1) (next ()) (next' ())) :
    FollowsIf p tail 1 k (Reader.expect s wanted >>= next) (Reader.expect s wanted >>= next') := by
  refine ⟨fun _ c hc => ?_, fun c c' hc hlength => ?_⟩
  · rw [expect_bind, if_neg (by simp [hc.1])]
    exact Ends.unexpected c hc
  · rw [expect_bind, expect_bind, hc.current]
    split
    · exact (advance (p := p) h).follows c c' hc hlength
    · exact (unexpected (p := p)).follows c c' hc hlength

end FollowsIf

section Readers

variable {p : Prop} {expr expr' : Reader Node} {b B : Nat} {j count : Nat} {operand : Reader Node}
  {r : Grammar.Rank}
  (h : Follows tail 1 k expr expr')

include h

theorem sequenceTail_follows (hk : j ≤ k + 1) (hj : j ≤ b) (hB : b ≤ B) :
    Follows tail 0 j (sequenceTail expr b) (sequenceTail expr' B) := by
  induction b generalizing j B with
  | zero => exact .of_ends .pure (by omega)
  | succ b ih =>
    obtain ⟨B, rfl⟩ : ∃ B', B = B' + 1 := ⟨B - 1, by omega⟩
    refine .kind fun kind => ?_
    split
    · exact .pure
    · refine .weaken (m := 1) (.advance (.kind fun kind => ?_))
      split
      · exact .pure
      · exact (FollowsIf.mono h (Nat.zero_le 1) (by omega)).bind fun e =>
          (ih (by omega) (by omega) (by omega)).bind fun _ => .pure

theorem sequence_follows (hb : k ≤ b) (hB : b ≤ B) :
    Follows tail 1 k (sequence expr b start wanted) (sequence expr' B start wanted) := by
  refine h.bind fun first => (sequenceTail_follows h (by omega) hb hB).bind fun others =>
    .kind fun kind => ?_
  dsimp only
  split
  · exact .unexpected_bind
  · cases others with
    | nil => exact .pure
    | cons second rest => exact .get (fun _ => .pure) fun c c' hstop => by rw [hstop]

theorem arguments_follows (hb : k ≤ b) (hB : b ≤ B) (hk : j ≤ k) (hj : j ≤ count)
    (hcount : count ≤ count') :
    Follows tail 0 j (arguments expr b count) (arguments expr' B count') := by
  induction count generalizing j count' with
  | zero => exact .of_ends .pure (by omega)
  | succ count ih =>
    obtain ⟨count', rfl⟩ : ∃ n, count' = n + 1 := ⟨count' - 1, by omega⟩
    refine .current fun t =>
      FollowsIf.bind (.mono (sequence_follows h hb hB) (Nat.zero_le 1) hk) fun arg =>
      .kind fun kind => ?_
    split
    · refine .weaken (m := 1) (.advance ?_)
      exact (ih (by omega) (by omega) (by omega)).bind fun _ => .pure
    · exact .pure

omit h in
/-- The parenthesis behind the arguments of a call. -/
theorem closeCall_follows {args : List Node} : FollowsIf p tail 0 j
    (do Reader.expect .closeParen wantArgumentEnd
        return Node.call callee args ⟨callee.span.start, (← get).lastStop⟩)
    (do Reader.expect .closeParen wantArgumentEnd
        return Node.call callee args ⟨callee.span.start, (← get).lastStop⟩) :=
  .weaken (m := 1) (.expect (.get (fun _ => .pure) fun c c' hstop => by rw [hstop]))

theorem callOf_follows (hb : k ≤ b) (hB : b ≤ B) :
    FollowsIf p tail 0 k (callOf expr b callee) (callOf expr' B callee) := by
  refine .weaken (m := 1) (.expect (.kind fun kind => ?_))
  split
  · exact closeCall_follows
  · exact (FollowsIf.mono (arguments_follows h hb hB le_rfl hb hB) le_rfl (Nat.sub_le k 1)).bind
      fun _ => closeCall_follows

theorem primary_follows (hb : k ≤ b) (hB : b ≤ B) :
    FollowsIf p tail 1 (k + 1) (primary expr b) (primary expr' B) := by
  refine .current fun t => ?_
  split
  · split
    · exact .throw (by simp [*])
    · exact .advance .pure
  · refine .advance (.kind fun kind => ?_)
    split
    · exact callOf_follows h hb hB
    · exact .pure
  · refine .advance (.kind fun kind => ?_)
    split
    · exact callOf_follows h hb hB
    · exact .unexpected
  · refine .advance ((FollowsIf.weaken (sequence_follows h hb hB)).bind fun e => ?_)
    exact .weaken (m := 1) (.expect .pure)
  · exact .unexpected

theorem unary_follows (hb : k ≤ b) (hB : b ≤ B) (hk : j ≤ k + 1) (hj : j ≤ count)
    (hcount : count ≤ count') : Follows tail 1 j (unary expr b count) (unary expr' B count') := by
  induction count generalizing j count' with
  | zero => exact .of_ends .unexpected (by omega)
  | succ count ih =>
    obtain ⟨count', rfl⟩ : ∃ n, count' = n + 1 := ⟨count' - 1, by omega⟩
    refine .current fun t => ?_
    split
    · exact .advance ((FollowsIf.weaken (ih (by omega) (by omega) (by omega))).bind fun _ => .pure)
    · exact .mono (primary_follows h hb hB) le_rfl hk

omit h in
theorem chainTail_follows (h : Follows tail 1 k operand operand') (hk : j ≤ k + 1) (hj : j ≤ b)
    (hB : b ≤ B) (left : Node) :
    Follows tail 0 j (chainTail operand (joins? r) b left)
      (chainTail operand' (joins? r) B left) := by
  induction b generalizing j B left with
  | zero => exact .of_ends .pure (by omega)
  | succ b ih =>
    obtain ⟨B, rfl⟩ : ∃ B', B = B' + 1 := ⟨B - 1, by omega⟩
    refine .kind fun kind => ?_
    split
    · exact .pure
    · refine .weaken (m := 1) (.advance ?_)
      exact (FollowsIf.mono h (Nat.zero_le 1) (by omega)).bind fun _ =>
        ih (by omega) (by omega) (by omega) _

omit h in
theorem chain_follows (h : Follows tail 1 k operand operand') (hb : k ≤ b) (hB : b ≤ B) :
    Follows tail 1 k (chain operand (joins? r) b) (chain operand' (joins? r) B) :=
  h.bind fun left => chainTail_follows h (Nat.le_succ k) hb hB left

theorem logical_follows (hb : k + 1 ≤ b) (hB : b ≤ B) :
    Follows tail 1 (k + 1) (logical expr b) (logical expr' B) := by
  have hunary : Follows tail 1 (k + 1) (unary expr b b) (unary expr' B B) :=
    unary_follows h (by omega) hB le_rfl hb hB
  have hbitwise := chain_follows (r := .bitwise) hunary hb hB
  have hmultiplicative := chain_follows (r := .multiplicative) hbitwise hb hB
  have hadditive := chain_follows (r := .additive) hmultiplicative hb hB
  have hcomparison := chain_follows (r := .comparison) hadditive hb hB
  exact chain_follows (r := .logical) hcomparison hb hB

theorem conditional_follows (hb : k + 1 ≤ b) (hB : b ≤ B) :
    Follows tail 1 (k + 1) (conditional expr b) (conditional expr' B) := by
  refine (logical_follows h hb hB).bind fun test => .current fun t => ?_
  split
  · exact .pure
  · have hlast (consequent alternate : Node) (j : Nat) : Follows tail 0 j
        (do return Node.call ⟨utf8 "if", t.span⟩ [test, consequent, alternate]
              ⟨test.span.start, (← get).lastStop⟩)
        (do return Node.call ⟨utf8 "if", t.span⟩ [test, consequent, alternate]
              ⟨test.span.start, (← get).lastStop⟩) :=
      .get (fun _ => .pure) fun c c' hstop => by rw [hstop]
    refine .weaken (m := 1)
      (.advance ((FollowsIf.weaken h).bind fun consequent => .kind fun kind => ?_))
    split
    · refine .weaken (m := 1) (.advance ?_)
      exact (FollowsIf.mono h (Nat.zero_le 1) (Nat.sub_le k 1)).bind fun _ => hlast _ _ _
    · exact .weaken (hlast _ _ _)

theorem assignment_follows (hb : k + 1 ≤ b) (hB : b ≤ B) :
    Follows tail 1 (k + 1) (assignment expr b) (assignment expr' B) := by
  refine (conditional_follows h hb hB).bind fun left => .kind fun kind => ?_
  split
  case h_1 => exact .pure
  case h_2 op hop =>
    dsimp only
    split
    · exact .throw_bind (by rintro rfl; cases hop)
    · exact .weaken (m := 1) (.advance ((FollowsIf.weaken h).bind fun _ => .pure))

omit h in
theorem expression_follows {n N : Nat} (h : n ≤ N) :
    Follows tail 1 n (expression n) (expression N) := by
  induction n generalizing N with
  | zero => exact .of_ends .unexpected rfl
  | succ n ih =>
    obtain ⟨N, rfl⟩ : ∃ N', N = N' + 1 := ⟨N - 1, by omega⟩
    exact assignment_follows (ih (by omega)) le_rfl h

theorem statements_follows (hk : j ≤ k) (hj : j ≤ b) (hB : b ≤ B) :
    Follows tail 0 j (statements expr b) (statements expr' B) := by
  induction b generalizing j B with
  | zero => exact .of_ends .pure (by omega)
  | succ b ih =>
    obtain ⟨B, rfl⟩ : ∃ B', B = B' + 1 := ⟨B - 1, by omega⟩
    have hrest : Follows tail 0 (j - 1) (statements expr b) (statements expr' B) :=
      ih (by omega) (by omega) (by omega)
    refine .kind fun kind => ?_
    split
    · exact .pure
    · exact .weaken (m := 1) (.advance hrest)
    · refine .weaken (m := 1)
        ((FollowsIf.mono h le_rfl hk).bind_consumed fun e => .kind fun kind => ?_)
      split
      · exact .weaken (hrest.bind fun _ => .pure)
      · exact .weaken (hrest.bind fun _ => .pure)
      · exact .unexpected

omit h in
theorem script_follows (h : b ≤ B) : Follows tail 0 b (script b) (script B) :=
  .current fun _ => .weaken ((statements_follows (expression_follows h) le_rfl le_rfl h).bind
    fun _ => .current fun _ => .pure)

end Readers

/-- Tokens that are refused, but not as incomplete, are refused with anything
behind them. -/
theorem ofTokens_append_error {front : List Token} {last : Token}
    (hfront : ∀ t ∈ front, t.kind.isLast = false) (hlast : last.kind = .finish)
    (h : ofTokens (front ++ [last]) = .error e) (he : e.incomplete = false) (htail : tail ≠ []) :
    ∃ e', ofTokens (front ++ tail) = .error e' := by
  cases front with
  | nil =>
    have hlegal : lexicalError? last = none :=
      Cursor.ShowsUntil.lexicalError?_eq (c := ⟨last, [], .start⟩) (.finish hlast)
    have hfollows : Follows tail 0 1 (script 1) (script 1) := script_follows (le_refl 1)
    have hended := hfollows.ends trivial ⟨last, [], ⟨0, 0, 0⟩⟩ ⟨hlast, rfl⟩
    rw [nil_append, ofTokens_cons hlegal] at h
    exact absurd (hended.incomplete h) (by simp [he])
  | cons t front =>
    have hlegal : lexicalError? t = none := Token.lexicalError?_of_isLast (hfront t (by simp))
    have hc : Extends tail ⟨t, front ++ [last], ⟨0, 0, 0⟩⟩ ⟨t, front ++ tail, ⟨0, 0, 0⟩⟩ :=
      ⟨rfl, rfl, hfront t (by simp), front, last, fun u hu => hfront u (by simp [hu]),
        hlast, rfl, rfl⟩
    have hlength : (front ++ [last]).length + 1 ≤ (front ++ tail).length + 1 := by
      have hpos := length_pos_iff.mpr htail
      simp only [length_append, length_singleton]
      omega
    rw [cons_append, ofTokens_cons hlegal] at h ⊢
    have hfollows := (script_follows hlength).follows _ _ hc (Nat.lt_succ_self _)
    rcases hfollows with hended | ⟨e₁, e₂, hrun, hrun'⟩ | ⟨a, d, d', hrun, -⟩
    · exact absurd (hended.incomplete h) (by simp [he])
    · exact ⟨e₂, by rw [hrun']; rfl⟩
    · rw [hrun] at h
      cases h

end Eel.Tree
