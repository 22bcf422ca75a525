import Eel.Proofs.Token.Lexing

/-!
The tokens of a text tile it.

Between two tokens, in front of the first and behind the last there are blanks
and comments and nothing else. Every token is the longest one at its offset,
with the line and the column that counting line feeds gives. The last one is the
end of the text, a byte that starts no token, or a comment that is never closed.
There is one such tiling, whatever bytes the text has, and it is the list that a
lexer makes. So a lexer always ends by itself.
-/

namespace Eel

open List

namespace Position

variable {text rest : Bytes} {i : Nat}

/-- The place of an offset, by the line feeds before it and the bytes behind the
last one of these. -/
def counted (text : Bytes) (i : Nat) : Position where
  offset := i
  line := 1 + (text.take i).count Bytes.lineFeed
  column := 1 + ((text.take i).rtakeWhile (· != Bytes.lineFeed)).length

theorem counted_succ {c : UInt8} (h : text.drop i = c :: rest) :
    counted text (i + 1) = (counted text i).past c := by
  have htake : text.take (i + 1) = text.take i ++ [c] := by
    rw [take_add_one, ← head?_drop, h]
    rfl
  unfold counted past along
  rw [htake, count_append, rtakeWhile_concat]
  by_cases hc : c = Bytes.lineFeed
  · rw [if_pos (show c = 0x0a from hc)]
    simp [hc, add_assoc]
  · rw [if_neg (show ¬c = 0x0a from hc)]
    simp [hc, add_assoc]

theorem counted_add {w : Bytes} (h : text.drop i = w ++ rest) :
    counted text (i + w.length) = w.foldl past (counted text i) := by
  induction w generalizing i with
  | nil => rfl
  | cons c w ih =>
    have hnext : text.drop (i + 1) = w ++ rest := Cleaned.drop_add_of_drop (a := [c]) h
    rw [length_cons, foldl_cons, ← counted_succ h, ← ih hnext]
    congr 1
    omega

theorem counted_append (more : Bytes) (hi : i ≤ text.length) :
    counted (text ++ more) i = counted text i := by
  rw [counted, counted, take_append_of_le_length hi]

end Position

/-- Without carriage returns places are counted by line feeds. -/
theorem Cleaned.positionIn_eq_counted {text : Bytes} {i : Nat}
    (hreturn : Bytes.carriageReturn ∉ text) (hi : i ≤ text.length) :
    positionIn text i = .counted text i := by
  induction i with
  | zero => exact positionIn_zero text
  | succ i ih =>
    have hdrop : text.drop i = text[i] :: text.drop (i + 1) := drop_eq_getElem_cons hi
    have hc : text[i] ≠ Bytes.carriageReturn := fun h => hreturn (h ▸ getElem_mem hi)
    rw [Position.counted_succ hdrop, ← ih (Nat.le_of_succ_le hi), Position.past]
    by_cases hfeed : text[i] = Bytes.lineFeed
    · rw [positionIn_succ_break (by simp [endsBreak_of_drop hdrop, hfeed]), if_pos hfeed]
      rfl
    · rw [positionIn_succ (by simp [endsBreak_of_drop hdrop, hfeed, hc]), if_neg hfeed]

namespace Token

open Bytes Cleaned Position

section Gap

variable {behind gap s : Bytes} {p opened : Position}

theorem along_two (p : Position) : p.along 2 = (p.along 1).along 1 := by
  simp only [along, Position.mk.injEq]
  refine ⟨by push_cast; ring, trivial, by push_cast; ring⟩

theorem skipGap_blank {c : UInt8} (hc : isSpace c = true) :
    skipGap .code opened p (c :: s) = skipGap .code opened (p.past c) s := by
  have hslash : c ≠ slash := by
    rintro rfl
    cases hc
  rw [skipGap, if_pos hc]
  · rintro rest rfl rfl
    exact hslash rfl
  · rintro rest rfl rfl
    exact hslash rfl

theorem skipGap_token {c : UInt8} (hc : isSpace c = false)
    (hcomment : opensComment (c :: s) = false) :
    skipGap .code opened p (c :: s) = .token p (c :: s) := by
  rw [skipGap, if_neg (by simp [hc])]
  · rintro rest rfl rfl
    cases hcomment
  · rintro rest rfl rfl
    cases hcomment

/-- A line comment is passed over up to its line feed, which a lexer takes for a
blank. -/
theorem skipGap_lineComment {body : Bytes} (hbody : ∀ c ∈ body, c ≠ lineFeed)
    (hs : ∀ c, s.head? = some c → c = lineFeed) :
    ∃ opened', skipGap .lineComment opened p (body ++ s) =
      skipGap .code opened' (body.foldl past p) s := by
  induction body generalizing p with
  | nil =>
    refine ⟨opened, ?_⟩
    cases s with
    | nil => rfl
    | cons c s =>
      obtain rfl := hs c rfl
      rw [nil_append, foldl_nil, skipGap_blank rfl, skipGap, if_pos rfl]
  | cons c body ih =>
    obtain ⟨opened', h⟩ := ih (p := p.past c) fun d hd => hbody d (by simp [hd])
    refine ⟨opened', ?_⟩
    rw [cons_append, skipGap, if_neg (hbody c mem_cons_self), h, foldl_cons]

theorem skipGap_blockComment {body : Bytes} (hbody : ¬[star, slash] <:+: body ++ [star]) :
    skipGap .blockComment opened p (body ++ star :: slash :: s) =
      skipGap .code opened ((body ++ [star, slash]).foldl past p) s := by
  induction body generalizing p with
  | nil =>
    change skipGap .code opened (p.along 2) s = _
    rw [along_two]
    rfl
  | cons c body ih =>
    have hhead : (body ++ star :: slash :: s).head? = (body ++ [star]).head? := by
      cases body <;> rfl
    rw [cons_append, skipGap, ih (not_infix_tail hbody), cons_append, foldl_cons]
    rintro rest rfl hrest
    exact head?_ne_of_not_isInfix hbody rfl (hhead ▸ hrest ▸ rfl)

theorem foldl_past_eq_along {w : Bytes} (h : ∀ c ∈ w, c ≠ lineFeed) (p : Position) :
    w.foldl past p = p.along w.length := by
  induction w generalizing p with
  | nil => simp [along]
  | cons c w ih =>
    rw [foldl_cons, ih fun d hd => h d (by simp [hd]), past, if_neg (h c mem_cons_self)]
    simp only [along, length_cons, Position.mk.injEq]
    refine ⟨by push_cast; ring, trivial, by push_cast; ring⟩

/-- What is passed over in front of a text: blanks and comments that are
complete. A line comment reaches up to a line feed or the end of all, a block
comment up to the first star and slash behind its opening. -/
inductive Passable (behind : Bytes) : Bytes → Prop
  | nil : Passable behind []
  | blank {c : UInt8} {gap : Bytes} (hc : isSpace c = true) (h : Passable behind gap) :
      Passable behind (c :: gap)
  | lineComment {body gap : Bytes} (hbody : ∀ c ∈ body, c ≠ lineFeed)
      (hend : ∀ c, (gap ++ behind).head? = some c → c = lineFeed) (h : Passable behind gap) :
      Passable behind (slash :: slash :: (body ++ gap))
  | blockComment {body gap : Bytes} (hbody : ¬[star, slash] <:+: body ++ [star])
      (h : Passable behind gap) :
      Passable behind (slash :: star :: (body ++ star :: slash :: gap))

/-- A lexer looks for a token behind all that can be passed over. -/
theorem Passable.skipGap_eq (h : Passable behind gap) (opened p : Position) :
    ∃ opened', skipGap .code opened p (gap ++ behind) =
      skipGap .code opened' (gap.foldl past p) behind := by
  induction h generalizing opened p with
  | nil => exact ⟨opened, rfl⟩
  | @blank c gap hc _ ih =>
    obtain ⟨opened', h⟩ := ih opened (p.past c)
    exact ⟨opened', by rw [cons_append, skipGap_blank hc, h, foldl_cons]⟩
  | @lineComment body gap hbody hend _ ih =>
    obtain ⟨inner, hline⟩ := @skipGap_lineComment (gap ++ behind) (p.along 2) p body hbody hend
    obtain ⟨opened', h⟩ := ih inner (body.foldl past (p.along 2))
    refine ⟨opened', ?_⟩
    rw [cons_append, cons_append, append_assoc]
    change skipGap .lineComment p (p.along 2) (body ++ (gap ++ behind)) = _
    rw [hline, h, along_two]
    simp only [foldl_cons, foldl_append]
    rfl
  | @blockComment body gap hbody _ ih =>
    obtain ⟨opened', h⟩ := ih p ((body ++ [star, slash]).foldl past (p.along 2))
    refine ⟨opened', ?_⟩
    rw [cons_append, cons_append, append_assoc]
    change skipGap .blockComment p (p.along 2) (body ++ star :: slash :: (gap ++ behind)) = _
    rw [skipGap_blockComment hbody, h, along_two]
    simp only [foldl_cons, foldl_append]
    rfl

/-- What can be passed over in front of a gap is passed over together with
it. -/
theorem Passable.append {front : Bytes} (hfront : Passable (gap ++ behind) front)
    (hgap : Passable behind gap) : Passable behind (front ++ gap) := by
  induction hfront with
  | nil => exact hgap
  | blank hc _ ih => exact .blank hc ih
  | lineComment hbody hend _ ih => simpa using Passable.lineComment hbody (by rwa [append_assoc]) ih
  | blockComment hbody _ ih => simpa using Passable.blockComment hbody ih

/-- More lines behind a text change nothing about its gaps. -/
theorem Passable.append_lineFeed (h : Passable behind gap) (more : Bytes) :
    Passable (behind ++ lineFeed :: more) gap := by
  induction h with
  | nil => exact .nil
  | blank hc _ ih => exact .blank hc ih
  | @lineComment body gap hbody hend _ ih =>
    refine .lineComment hbody ?_ ih
    rw [← append_assoc]
    generalize gap ++ behind = rest at hend
    cases rest with
    | nil =>
      rintro _ ⟨⟩
      rfl
    | cons c rest => exact hend
  | blockComment hbody _ ih => exact .blockComment hbody ih

theorem skipGap_unclosed (h : ¬[star, slash] <:+: s) :
    skipGap .blockComment opened p s = .openComment opened := by
  induction s generalizing p with
  | nil => rfl
  | cons c s ih =>
    rw [skipGap, ih fun hs => h (hs.trans (suffix_cons c s).isInfix)]
    rintro rest rfl rfl
    exact h ⟨[], rest, rfl⟩

/-- That there is nothing to pass over in front of a text: it is at its end, or
something else than a comment or a blank starts, or a comment that is not
closed. -/
inductive Stops : Bytes → Prop
  | finish : Stops []
  | token {c : UInt8} {s : Bytes} (hc : isSpace c = false)
      (hcomment : opensComment (c :: s) = false) : Stops (c :: s)
  | openComment {body : Bytes} (hbody : ¬[star, slash] <:+: body) : Stops (slash :: star :: body)

/-- Every text starts with something that can be passed over, up to where a
lexer stops. -/
theorem exists_passable (s : Bytes) :
    ∃ gap behind, s = gap ++ behind ∧ Passable behind gap ∧ Stops behind := by
  induction hn : s.length using Nat.strong_induction_on generalizing s with
  | _ n ih =>
    have hless (rest : Bytes) (hrest : rest.length < s.length) :
        ∃ gap behind, rest = gap ++ behind ∧ Passable behind gap ∧ Stops behind :=
      ih rest.length (hn ▸ hrest) rest rfl
    cases s with
    | nil => exact ⟨[], [], rfl, .nil, .finish⟩
    | cons c s =>
      cases hopens : opensComment (c :: s) with
      | true =>
        obtain ⟨rest, hrest | hrest⟩ := opensComment_eq_true hopens
        · obtain ⟨body, rest, rfl, hbody, hend⟩ := exists_upTo (· == lineFeed) rest
          simp only [beq_eq_false_iff_ne, beq_iff_eq] at hbody hend
          obtain ⟨gap, behind, rfl, hgap, hstop⟩ := hless rest (by
            simp only [hrest, length_cons, length_append]
            omega)
          exact ⟨_, behind, by rw [hrest]; simp, .lineComment hbody hend hgap, hstop⟩
        · cases hclosing : Source.afterClosing? rest with
          | none => exact ⟨[], _, hrest, .nil, .openComment (not_infix_of_afterClosing? hclosing)⟩
          | some rest' =>
            obtain ⟨body, rfl, hbody⟩ := exists_body_of_afterClosing? hclosing
            obtain ⟨gap, behind, rfl, hgap, hstop⟩ := hless rest' (by
              simp only [hrest, length_cons, length_append]
              omega)
            exact ⟨_, behind, by rw [hrest]; simp, .blockComment hbody hgap, hstop⟩
      | false =>
        cases hc : isSpace c with
        | false => exact ⟨[], c :: s, rfl, .nil, .token hc hopens⟩
        | true =>
          obtain ⟨gap, behind, rfl, hgap, hstop⟩ := hless s (by simp)
          exact ⟨c :: gap, behind, rfl, .blank hc hgap, hstop⟩

end Gap

section Tiles

/-- That there is nothing but what can be passed over from one offset up to
another. -/
def Passes (text : Bytes) (i k : Nat) : Prop :=
  ∃ gap, k = i + gap.length ∧ text.drop i = gap ++ text.drop k ∧ Passable (text.drop k) gap

/-- That a token of a text fills it from one offset up to another. It is the
longest one there, no comment opens there, and its places are those of the
offsets. -/
structure IsTile (text : Bytes) (t : Token) (i j : Nat) : Prop where
  length : j = i + t.lexeme.length
  slice : text.drop i = t.lexeme ++ text.drop j
  longest : Longest (text.drop i) t.kind t.lexeme
  outside : opensComment (text.drop i) = false
  start : t.start = .counted text i
  stop : t.stop = .counted text j

/-- That tokens tile a text from an offset on, up to the end of the text, to a
byte that starts no token, or to a comment that is not closed. -/
inductive Tiles (text : Bytes) : Nat → List Token → Prop
  | finish {i : Nat} (hgap : Passes text i text.length) :
      Tiles text i [⟨.finish, [], .counted text text.length⟩]
  | illegal {i k : Nat} {c : UInt8} {s : Bytes} (hgap : Passes text i k) (hs : text.drop k = c :: s)
      (hc : isSpace c = false)
      (hnone : ∀ (kind : Kind) (w : Bytes), kind.Admits w → ¬w <+: c :: s) :
      Tiles text i [⟨.illegal c, Text.encodePoint c.toNat, .counted text k⟩]
  | openComment {i k : Nat} {body : Bytes} (hgap : Passes text i k)
      (hs : text.drop k = slash :: star :: body)
      (hbody : ¬[star, slash] <:+: body) : Tiles text i [⟨.openComment, utf8 "/*", .counted text k⟩]
  | token {i k j : Nat} {t : Token} {ts : List Token} (hgap : Passes text i k)
      (ht : t.IsTile text k j)
      (hrest : Tiles text j ts) : Tiles text i (t :: ts)

variable {text w : Bytes} {i j k : Nat} {t : Token} {ts : List Token} {kind : Kind}

theorem IsTile.lt (h : t.IsTile text i j) : i < j := by
  have hpos := length_pos_iff.mpr h.longest.admits.ne_nil
  have hlength := h.length
  omega

theorem IsTile.le_length (h : t.IsTile text i j) : j ≤ text.length := by
  have hslice := congrArg List.length h.slice
  have hlength := h.length
  have hlt := h.lt
  rw [length_append, length_drop, length_drop] at hslice
  omega

theorem isTile_of_longest (h : Longest (text.drop i) t.kind t.lexeme)
    (hcomment : opensComment (text.drop i) = false) (hstart : t.start = .counted text i) :
    t.IsTile text i (i + t.lexeme.length) := by
  obtain ⟨rest, hrest⟩ := h.front
  have hdrop : text.drop (i + t.lexeme.length) = rest := drop_add_of_drop hrest.symm
  have hline : ∀ c ∈ t.lexeme, c ≠ lineFeed := by
    rintro _ hc rfl
    cases h.admits.not_isSpace _ hc
  refine ⟨rfl, by rw [hdrop, hrest], h, hcomment, hstart, ?_⟩
  rw [counted_add hrest.symm, foldl_past_eq_along hline, stop, hstart]

/-- A token stays the same when the text goes on in another line. -/
theorem IsTile.append_lineFeed (h : t.IsTile text i j) (more : Bytes) :
    t.IsTile (text ++ lineFeed :: more) i j := by
  have hi := h.lt.le.trans h.le_length
  have hlongest := h.longest.append (.cons rfl more : Starts separates (lineFeed :: more))
  have hcomment : opensComment (text.drop i ++ lineFeed :: more) = false := by
    obtain ⟨c, rest, hlexeme, -⟩ := h.longest.admits.exists_first
    have houtside := h.outside
    rw [h.slice, hlexeme] at houtside ⊢
    exact opensComment_append_lineFeed houtside more
  rw [← drop_append_of_le_length hi] at hlongest hcomment
  rw [h.length]
  exact isTile_of_longest hlongest hcomment (h.start.trans (counted_append _ hi).symm)

/-- There is nothing to pass over in front of a token. -/
theorem IsTile.skipGap_eq (h : t.IsTile text i j) (opened p : Position) :
    skipGap .code opened p (text.drop i) = .token p (text.drop i) := by
  obtain ⟨c, rest, hlexeme, -⟩ := h.longest.admits.exists_first
  have hc := h.longest.admits.not_isSpace c (by simp [hlexeme])
  have hcomment := h.outside
  rw [h.slice, hlexeme, cons_append] at hcomment ⊢
  exact skipGap_token hc hcomment

theorem Passes.le (h : Passes text i k) : i ≤ k := by
  obtain ⟨gap, hk, -⟩ := h
  omega

theorem passes_of_drop {gap rest : Bytes} (h : text.drop i = gap ++ rest)
    (hgap : Passable rest gap) : Passes text i (i + gap.length) := by
  have hdrop : text.drop (i + gap.length) = rest := drop_add_of_drop h
  exact ⟨gap, rfl, by rw [hdrop, h], by rwa [hdrop]⟩

theorem Passes.refl (text : Bytes) (i : Nat) : Passes text i i := ⟨[], rfl, rfl, .nil⟩

theorem Passes.trans (h : Passes text i k) (h' : Passes text k j) : Passes text i j := by
  obtain ⟨gap, rfl, hdrop, hgap⟩ := h
  obtain ⟨gap', rfl, hdrop', hgap'⟩ := h'
  refine ⟨gap ++ gap', by rw [length_append, Nat.add_assoc], ?_, (hdrop' ▸ hgap).append hgap'⟩
  rw [hdrop, hdrop', append_assoc]

theorem Passes.append_lineFeed (h : Passes text i k) (hk : k ≤ text.length) (more : Bytes) :
    Passes (text ++ lineFeed :: more) i k := by
  obtain ⟨gap, rfl, hdrop, hgap⟩ := h
  refine passes_of_drop ?_ (hgap.append_lineFeed more)
  rw [drop_append_of_le_length (by omega), hdrop, append_assoc]

/-- What a lexer finds at an offset is what it finds where it stops. -/
theorem Passes.skipGap_eq (h : Passes text i k) (opened : Position) : ∃ opened',
    skipGap .code opened (.counted text i) (text.drop i) =
      skipGap .code opened' (.counted text k) (text.drop k) := by
  obtain ⟨gap, rfl, hdrop, hgap⟩ := h
  obtain ⟨opened', heq⟩ := hgap.skipGap_eq opened (.counted text i)
  exact ⟨opened', by rw [counted_add hdrop, ← heq, ← hdrop]⟩

/-- A text has a tiling from every offset on. -/
theorem exists_tiles (hi : i ≤ text.length) : ∃ ts, Tiles text i ts := by
  induction hn : text.length - i using Nat.strong_induction_on generalizing i with
  | _ n ih =>
    obtain ⟨gap, behind, hsplit, hgap, hstop⟩ := exists_passable (text.drop i)
    have hdrop : text.drop (i + gap.length) = behind := drop_add_of_drop hsplit
    have hpasses := passes_of_drop hsplit hgap
    cases hstop with
    | finish =>
      have hlength := congrArg List.length hsplit
      rw [append_nil, length_drop] at hlength
      have hend : i + gap.length = text.length := by omega
      rw [hend] at hpasses
      exact ⟨_, .finish hpasses⟩
    | @token c s hc hcomment =>
      obtain hlongest | ⟨-, hnone⟩ := classify_longest c s
      · rw [← hdrop] at hlongest hcomment
        have htile :=
          isTile_of_longest (t := ⟨_, _, .counted text (i + gap.length)⟩) hlongest hcomment rfl
        have hlt := htile.lt
        have hle := htile.le_length
        obtain ⟨ts, hts⟩ := ih _ (by omega) hle rfl
        exact ⟨_, .token hpasses htile hts⟩
      · exact ⟨_, .illegal hpasses hdrop hc hnone⟩
    | openComment hbody => exact ⟨_, .openComment hpasses hdrop hbody⟩

theorem listWithin_of_skipGap {fuel : Nat} {p p' : Position} {t u : Bytes}
    (h : skipGap .code p p t = .token p' u) :
    listWithin (fuel + 1) p t =
      if (classify u).1.isLast then [⟨(classify u).1, (classify u).2, p'⟩]
      else ⟨(classify u).1, (classify u).2, p'⟩ ::
        listWithin fuel (p'.along (classify u).2.length) (u.drop (classify u).2.length) := by
  rw [listWithin, h]
  rfl

/-- The first token behind a gap is read where the gap ends. -/
theorem Passes.listWithin_succ (h : Passes text i k) (fuel : Nat)
    (hstop : ∀ opened p, skipGap .code opened p (text.drop k) = .token p (text.drop k)) :
    listWithin (fuel + 1) (.counted text i) (text.drop i) =
      if (classify (text.drop k)).1.isLast then
        [⟨(classify (text.drop k)).1, (classify (text.drop k)).2, .counted text k⟩]
      else ⟨(classify (text.drop k)).1, (classify (text.drop k)).2, .counted text k⟩ ::
        listWithin fuel ((counted text k).along (classify (text.drop k)).2.length)
          ((text.drop k).drop (classify (text.drop k)).2.length) := by
  obtain ⟨opened', heq⟩ := h.skipGap_eq (.counted text i)
  exact listWithin_of_skipGap (heq.trans (hstop opened' _))

/-- No token starts where none is admitted, and neither does a comment. -/
theorem opensComment_of_illegal {c : UInt8} {s : Bytes}
    (h : ∀ (kind : Kind) (w : Bytes), kind.Admits w → ¬w <+: c :: s) :
    opensComment (c :: s) = false := by
  refine opensComment_of_ne ?_ s
  rintro rfl
  exact h _ _ (.symbol .slash) (cons_prefix_cons.mpr ⟨rfl, nil_prefix⟩)

namespace Tiles

/-- What can be passed over in front of tokens makes no difference. -/
theorem behind (h : Tiles text k ts) (hgap : Passes text i k) : Tiles text i ts := by
  cases h with
  | finish hmore => exact .finish (hgap.trans hmore)
  | illegal hmore hs hc hnone => exact .illegal (hgap.trans hmore) hs hc hnone
  | openComment hmore hs hbody => exact .openComment (hgap.trans hmore) hs hbody
  | token hmore ht hrest => exact .token (hgap.trans hmore) ht hrest

variable (h : Tiles text i ts)

include h

/-- The tiling is what a lexer makes that may read one token more than there are
bytes left, or more still. -/
theorem listWithin_eq {fuel : Nat} (hi : i ≤ text.length) (hfuel : text.length < i + fuel) :
    listWithin fuel (.counted text i) (text.drop i) = ts := by
  obtain ⟨fuel, rfl⟩ : ∃ n, fuel = n + 1 := ⟨fuel - 1, by omega⟩
  induction h generalizing fuel with
  | @finish i hgap =>
    have hend : text.drop text.length = [] := drop_length
    rw [hgap.listWithin_succ fuel (by rw [hend]; exact fun _ _ => rfl), hend]
    rfl
  | @illegal i k c s hgap hs hc hnone =>
    have hstop : ∀ opened p, skipGap .code opened p (text.drop k) = .token p (text.drop k) := by
      rw [hs]
      exact fun _ _ => skipGap_token hc (opensComment_of_illegal hnone)
    rw [hgap.listWithin_succ fuel hstop, hs, classify_of_illegal hnone]
    rfl
  | @openComment i k body hgap hs hbody =>
    obtain ⟨opened', heq⟩ := hgap.skipGap_eq (.counted text i)
    have hopen :
        skipGap .code opened' (.counted text k) (text.drop k) = .openComment (.counted text k) := by
      rw [hs]
      exact skipGap_unclosed hbody
    rw [listWithin, heq, hopen]
  | @token i k j t ts hgap ht _ ih =>
    have hlt := ht.lt
    have hle := hgap.le
    have hlength := ht.le_length
    obtain ⟨fuel, rfl⟩ : ∃ n, fuel = n + 1 := ⟨fuel - 1, by omega⟩
    have hbehind : (text.drop k).drop t.lexeme.length = text.drop j := by rw [drop_drop, ht.length]
    have hstop : (counted text k).along t.lexeme.length = .counted text j := by
      rw [← ht.stop, stop, ht.start]
    rw [hgap.listWithin_succ (fuel + 1) ht.skipGap_eq, ht.longest.classify_eq,
      if_neg (by simp [ht.longest.admits.isLast]), hbehind, hstop, ih hlength fuel (by omega),
      ← ht.start]

theorem ne_nil : ts ≠ [] := by
  cases h <;> exact cons_ne_nil _ _

theorem kind_ne_openComment (hfree : CommentFree text) : ∀ t ∈ ts, t.kind ≠ .openComment := by
  induction h with
  | finish | illegal => simp
  | @openComment i k body _ hs =>
    have hopens := hfree _ (drop_suffix k text)
    rw [hs] at hopens
    cases hopens
  | token _ ht _ ih =>
    refine forall_mem_cons.mpr ⟨fun hkind => ?_, ih⟩
    have hlast := ht.longest.admits.isLast
    rw [hkind] at hlast
    cases hlast

/-- A text goes on behind a line feed: the tokens before it stay, and if there
is an end behind them, more follow in its place. -/
theorem append_lineFeed (hfree : CommentFree text) :
    ∃ front last, ts = front ++ [last] ∧ (∀ t ∈ front, t.kind.isLast = false) ∧
      ((last.kind = .finish ∧ ∀ more us, Tiles (text ++ lineFeed :: more) text.length us →
          Tiles (text ++ lineFeed :: more) i (front ++ us)) ∨
        (∃ c, last.kind = .illegal c) ∧
        ∀ more, Tiles (text ++ lineFeed :: more) i (front ++ [last])) := by
  induction h with
  | finish hgap =>
    exact ⟨[], _, rfl, nofun,
      .inl ⟨rfl, fun more us hus => hus.behind (hgap.append_lineFeed le_rfl more)⟩⟩
  | @illegal i k c s hgap hs hc hnone =>
    have hk : k ≤ text.length := by
      have hlength := congrArg List.length hs
      rw [length_drop, length_cons] at hlength
      omega
    refine ⟨[], _, rfl, nofun, .inr ⟨⟨c, rfl⟩, fun more => ?_⟩⟩
    rw [← counted_append (lineFeed :: more) hk]
    have hnone' := not_prefix_append hnone (.cons rfl more : Starts separates (lineFeed :: more))
    refine .illegal (hgap.append_lineFeed hk more) ?_ hc hnone'
    rw [drop_append_of_le_length hk, hs, cons_append]
  | openComment hgap hs hbody =>
    exact absurd rfl ((Tiles.openComment hgap hs hbody).kind_ne_openComment hfree _ mem_cons_self)
  | @token i k j t ts hgap ht _ ih =>
    obtain ⟨front, last, rfl, hfront, hmore⟩ := ih
    have hk := ht.lt.le.trans ht.le_length
    have hstep {more : Bytes} {us : List Token} (hus : Tiles (text ++ lineFeed :: more) j us) :
        Tiles (text ++ lineFeed :: more) i (t :: us) :=
      .token (hgap.append_lineFeed hk more) (ht.append_lineFeed more) hus
    refine ⟨t :: front, last, rfl, forall_mem_cons.mpr ⟨ht.longest.admits.isLast, hfront⟩, ?_⟩
    exact hmore.imp (fun h => ⟨h.1, fun more us hus => hstep (h.2 more us hus)⟩)
      fun h => ⟨h.1, fun more => hstep (h.2 more)⟩

theorem le_offset : ∀ t ∈ ts, (i : Int) ≤ t.start.offset := by
  induction h with
  | finish hgap | illegal hgap | openComment hgap =>
    intro t ht
    obtain rfl := mem_singleton.mp ht
    exact Int.ofNat_le.mpr hgap.le
  | @token i k j t ts hgap ht _ ih =>
    have hle := hgap.le
    have hlt := ht.lt
    refine forall_mem_cons.mpr ⟨?_, fun u hu => ?_⟩
    · rw [ht.start]
      exact Int.ofNat_le.mpr hle
    · have hu := ih u hu
      omega

theorem offsets_increase : ts.Pairwise fun t u => t.start.offset < u.start.offset := by
  induction h with
  | finish | illegal | openComment => exact pairwise_singleton _ _
  | @token i k j t ts _ ht hrest ih =>
    refine pairwise_cons.mpr ⟨fun u hu => ?_, ih⟩
    have hlt := ht.lt
    have hu := hrest.le_offset u hu
    rw [ht.start]
    change (k : Int) < u.start.offset
    omega

theorem length_le (hi : i ≤ text.length) : i + ts.length ≤ text.length + 1 := by
  induction h with
  | finish | illegal | openComment =>
    rw [length_singleton]
    omega
  | token hgap ht _ ih =>
    have hle := hgap.le
    have hlt := ht.lt
    have hrest := ih ht.le_length
    rw [length_cons]
    omega

end Tiles

theorem Tiles.list_eq (h : Tiles text 0 ts) : list text = ts :=
  h.listWithin_eq (Nat.zero_le _) (by omega)

theorem tiles_list (text : Bytes) : Tiles text 0 (list text) := by
  obtain ⟨ts, hts⟩ := exists_tiles (Nat.zero_le text.length)
  rwa [hts.list_eq]

/-- The tokens of a text are its one tiling. A lexer makes it with no more
tokens than there are bytes, and the last one behind them, and it does not
matter how many more it may make. Each token starts behind the one before. -/
theorem list_tiles (text : Bytes) :
    (∀ ts, Tiles text 0 ts ↔ ts = list text) ∧ (list text).length ≤ text.length + 1 ∧
      (∀ more, listWithin (text.length + 1 + more) .start text = list text) ∧
      (list text).Pairwise fun t u => t.start.offset < u.start.offset := by
  have htiles := tiles_list text
  have hlength := htiles.length_le (Nat.zero_le _)
  refine ⟨fun ts => ⟨fun h => h.list_eq.symm, fun h => h ▸ htiles⟩, by omega, fun more => ?_,
    htiles.offsets_increase⟩
  exact htiles.listWithin_eq (Nat.zero_le _) (by omega)

example : (list (utf8 "a.1<=1..5 /**//=//")).map (fun t => (t.lexeme, t.start.offset)) =
    [(utf8 "a.1", 0), (utf8 "<=", 3), (utf8 "1.", 5), (utf8 ".5", 7), (utf8 "/=", 14),
      ([], 18)] := by decide

end Tiles

end Token

end Eel
