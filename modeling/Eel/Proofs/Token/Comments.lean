import Eel.Proofs.Source.Continuation
import Eel.Proofs.Token.Tiling

/-!
Tokens of a source with its comments and without them.

A lexer passes over comments where it looks for a token. Cleaning drops them
wherever they stand, and leaves a blank or a line feed where a token must not go
on. So the two texts are tiled piece by piece with the same tokens, and each
token of the cleaned text is located where the one of the source starts.
-/

namespace Eel

open Bytes Cleaned.Piece List

namespace Cleaned

open Token

variable {t : Bytes} {ps : List Piece}

/-- What stands behind a line comment is the line feed that ends it. -/
theorem head?_eq_lineFeed (hreturn : carriageReturn ∉ t)
    (hend : ∀ c, t.head? = some c → isBreak c = true) : ∀ c, t.head? = some c → c = lineFeed := by
  intro c hc
  have hne : c ≠ carriageReturn := by
    rintro rfl
    exact hreturn (mem_of_mem_head? hc)
  simpa [isBreak, hne] using hend c hc

theorem Cuts.of_append {before : List Piece} (h : Cuts t (before ++ ps)) :
    Cuts (ps.flatMap source) ps := by
  induction before generalizing t with
  | nil =>
    rw [nil_append] at h
    rwa [h.source_eq]
  | cons p before ih =>
    obtain ⟨t', -, h', -⟩ := h.uncons
    exact ih h'

/-- Behind a line comment a line feed is left, or nothing. -/
theorem Cuts.head?_cleaned (h : Cuts t ps) (hend : ∀ c, t.head? = some c → isBreak c = true) :
    ∀ c, (ps.flatMap cleaned).head? = some c → c = lineFeed := by
  cases h with
  | nil => simp
  | breakPair | breakByte =>
    rintro _ ⟨⟩
    rfl
  | copied hbreak =>
    rw [hend _ rfl] at hbreak
    cases hbreak
  | lineComment | blockComment | openComment => exact absurd (hend _ rfl) (by decide)

/-- A cut starts with copied bytes, behind which no token goes on, neither in
the source nor in the cleaned text. -/
theorem Cuts.exists_run (h : Cuts t ps) :
    ∃ (w : Bytes) (after : List Piece), ps = w.map Piece.copied ++ after ∧
    Starts separates (after.flatMap source) ∧ Starts separates (after.flatMap cleaned) := by
  induction h with
  | nil => exact ⟨[], [], rfl, .nil _, .nil _⟩
  | @copied c s ps _ _ _ ih =>
    obtain ⟨w, after, rfl, hsource, hcleaned⟩ := ih
    exact ⟨c :: w, after, rfl, hsource, hcleaned⟩
  | breakPair | blockComment => exact ⟨[], _, rfl, .cons rfl _, .cons rfl _⟩
  | @breakByte c _ _ hbreak =>
    refine ⟨[], _, rfl, .cons ?_ _, .cons rfl _⟩
    simp only [isBreak, Bool.or_eq_true, beq_iff_eq] at hbreak
    rcases hbreak with rfl | rfl <;> rfl
  | lineComment _ hend h _ =>
    exact ⟨[], _, rfl, .cons rfl _, fun c hc => h.head?_cleaned hend c hc ▸ rfl⟩
  | openComment => exact ⟨[], _, rfl, .cons rfl _, .cons rfl _⟩

theorem flatMap_source_copied (w : Bytes) : (w.map copied).flatMap source = w := by
  induction w with
  | nil => rfl
  | cons c w ih => simpa [source] using ih

theorem flatMap_cleaned_copied (w : Bytes) : (w.map copied).flatMap cleaned = w := by
  induction w with
  | nil => rfl
  | cons c w ih => simpa [cleaned] using ih

end Cleaned

namespace Token

open Cleaned

/-- That a token of a source is the same as one of the cleaned text, and starts
where that one is located. -/
structure ComesFrom (anchors : List Anchor) (raw cleaned : Token) : Prop where
  kind : raw.kind = cleaned.kind
  lexeme : raw.lexeme = cleaned.lexeme
  start : raw.start = locate anchors cleaned.start.offset

/-- That behind some pieces a source and its cleaned text are tiled with the
same tokens. -/
def TiledAlike (s : Bytes) (before : List Piece) : Prop :=
  ∃ ts us, Tiles s (before.flatMap source).length ts ∧
  Tiles (ofSource s).text (before.flatMap cleaned).length us ∧
  List.Forall₂ (ComesFrom (ofSource s).anchors) ts us

variable {s : Bytes} {before ps : List Piece}

theorem drop_behind (h : Cuts s (before ++ ps)) :
    s.drop (before.flatMap source).length = ps.flatMap source ∧
      (ofSource s).text.drop (before.flatMap cleaned).length = ps.flatMap cleaned := by
  rw [text_ofSource h, flatMap_append, drop_left, ← h.source_eq, flatMap_append, drop_left]
  exact ⟨rfl, rfl⟩

/-- A piece that leaves nothing but blanks is passed over in both texts. -/
theorem tiledAlike_of_passable {p : Piece} (h : Cuts s (before ++ p :: ps))
    (hp : Passable (ps.flatMap source) p.source) (hp' : Passable (ps.flatMap cleaned) p.cleaned)
    (hrest : TiledAlike s (before ++ [p])) : TiledAlike s before := by
  obtain ⟨hsource, hcleaned⟩ := drop_behind h
  rw [flatMap_cons] at hsource hcleaned
  obtain ⟨ts, us, hts, hus, htokens⟩ := hrest
  simp only [flatMap_append, flatMap_singleton, length_append] at hts hus
  exact ⟨ts, us, hts.behind (passes_of_drop hsource hp),
    hus.behind (passes_of_drop hcleaned hp'), htokens⟩

section Reading

variable (hreturn : carriageReturn ∉ s)

include hreturn

theorem counted_behind (h : Cuts s (before ++ ps)) :
    Position.counted s (before.flatMap source).length =
      positionIn s (before.flatMap source).length := by
  refine (positionIn_eq_counted hreturn ?_).symm
  rw [← h.source_eq, flatMap_append, length_append]
  exact Nat.le_add_right _ _

/-- Behind all pieces both texts are at their end. -/
theorem tiledAlike_of_nil (h : Cuts s (before ++ [])) : TiledAlike s before := by
  have hfinish := counted_behind hreturn h
  rw [append_nil] at h
  rw [TiledAlike, ← text_ofSource h, h.source_eq]
  rw [h.source_eq] at hfinish
  refine ⟨_, _, .finish (.refl _ _), .finish (.refl _ _), .cons ⟨rfl, rfl, ?_⟩ .nil⟩
  exact hfinish.trans h.locate_finish.symm

/-- Copied bytes start with the same token in both texts, if none goes on behind
them. -/
theorem tiledAlike_of_copied {c : UInt8} {w : Bytes}
    (h : Cuts s (before ++ (.copied c :: (w.map .copied ++ ps)))) (hc : isSpace c = false)
    (hcomment : opensComment (c :: (w ++ ps.flatMap source)) = false)
    (hcomment' : opensComment (c :: (w ++ ps.flatMap cleaned)) = false)
    (hend : Starts separates (ps.flatMap source)) (hend' : Starts separates (ps.flatMap cleaned))
    (hrest : ∀ v w', v ≠ [] → v ++ w' = c :: w → TiledAlike s (before ++ v.map .copied)) :
    TiledAlike s before := by
  obtain ⟨hsource, hcleaned⟩ := drop_behind h
  rw [flatMap_cons, flatMap_append, flatMap_source_copied] at hsource
  rw [flatMap_cons, flatMap_append, flatMap_cleaned_copied] at hcleaned
  have hstart := (counted_behind hreturn h).trans
    (h.locate_standsAt ⟨before, _, rfl, rfl, rfl⟩ (by simp [cleaned])).symm
  obtain hlongest | ⟨-, hnone⟩ := classify_longest c w
  · obtain ⟨w', hw'⟩ := hlongest.front
    generalize (classify (c :: w)).1 = kind, (classify (c :: w)).2 = v at hlongest hw'
    have htile :=
      @isTile_of_longest s _ ⟨kind, v, _⟩ (hsource ▸ hlongest.append hend) (hsource ▸ hcomment) rfl
    have htile' :=
      @isTile_of_longest (ofSource s).text _ ⟨kind, v, _⟩ (hcleaned ▸ hlongest.append hend')
      (hcleaned ▸ hcomment') rfl
    obtain ⟨ts, us, hts, hus, htokens⟩ := hrest v w' hlongest.admits.ne_nil hw'
    simp only [flatMap_append, flatMap_source_copied, flatMap_cleaned_copied, length_append]
      at hts hus
    exact ⟨_, _, .token (.refl _ _) htile hts, .token (.refl _ _) htile' hus,
      .cons ⟨rfl, rfl, hstart⟩ htokens⟩
  · have hillegal := not_prefix_append hnone hend
    have hillegal' := not_prefix_append hnone hend'
    exact ⟨_, _, .illegal (.refl _ _) hsource hc hillegal,
      .illegal (.refl _ _) hcleaned hc hillegal', .cons ⟨rfl, rfl, hstart⟩ .nil⟩

theorem tiledAlike (h : Cuts s (before ++ ps)) (hclosed : Closed ps) : TiledAlike s before := by
  induction hn : ps.length using Nat.strong_induction_on generalizing before ps with
  | _ n ih =>
    have hpass {p : Piece} {rest : List Piece} (hps : ps = p :: rest)
        (hp : Passable (rest.flatMap source) p.source)
        (hp' : Passable (rest.flatMap cleaned) p.cleaned) :
        TiledAlike s before := by
      subst hps
      exact tiledAlike_of_passable h hp hp'
        (ih _ (by simp [← hn]) (by rwa [append_assoc]) hclosed.tail rfl)
    generalize hsource : ps.flatMap source = t
    have hcuts : Cuts t ps := hsource ▸ h.of_append
    have hreturn' : carriageReturn ∉ t :=
      fun hmem => hreturn (mem_of_mem_drop ((drop_behind h).1 ▸ hsource ▸ hmem))
    cases hcuts with
    | nil => exact tiledAlike_of_nil hreturn h
    | breakPair => exact absurd mem_cons_self hreturn'
    | @breakByte c _ _ hbreak =>
      obtain rfl : c = lineFeed := by
        refine head?_eq_lineFeed hreturn' ?_ c rfl
        rintro _ ⟨⟩
        exact hbreak
      exact hpass rfl (.blank rfl .nil) (.blank rfl .nil)
    | @lineComment body t ps hbody hend hrest =>
      have hline : ∀ c ∈ body, c ≠ lineFeed := by
        rintro _ hc rfl
        exact absurd (hbody _ hc) (by decide)
      have hnext := head?_eq_lineFeed (fun hmem => hreturn' (by simp [hmem])) hend
      exact hpass rfl
        (by simpa [source] using Passable.lineComment hline (hrest.source_eq ▸ hnext) .nil) .nil
    | blockComment hbody => exact hpass rfl (.blockComment hbody .nil) (.blank rfl .nil)
    | openComment => exact absurd (mem_singleton_self _) (hclosed _)
    | @copied c t ps hbreak hcomment hrest =>
      cases hc : isSpace c with
      | true => exact hpass rfl (.blank hc .nil) (.blank hc .nil)
      | false =>
        have hcomment' := hrest.opensComment_cleaned hcomment
        obtain ⟨w, after, rfl, hend, hend'⟩ := hrest.exists_run
        rw [← hrest.source_eq, flatMap_append, flatMap_source_copied] at hcomment
        rw [flatMap_append, flatMap_cleaned_copied] at hcomment'
        refine tiledAlike_of_copied hreturn h hc hcomment hcomment' hend hend' fun v w' hv hw => ?_
        -- A token takes at least one byte, so fewer pieces are left.
        have hpieces :
            .copied c :: (w.map copied ++ after) = v.map .copied ++ (w'.map .copied ++ after) := by
          rw [← append_assoc, ← map_append, hw, map_cons, cons_append]
        rw [hpieces] at h hclosed hn
        have hpos := length_pos_iff.mpr hv
        refine ih _ ?_ (by rwa [append_assoc])
          (fun body hbody => hclosed body (mem_append_right _ hbody)) rfl
        rw [length_append, length_map] at hn
        omega

end Reading

/-- Lexing does not depend on who drops the comments. A source that has no
carriage return and does not end inside a comment has the tokens of its cleaned
text, up to the end or to the first place where nothing can be read. Each starts
where the offset of the other is located. -/
theorem list_comesFrom_cleaned (hreturn : Bytes.carriageReturn ∉ s)
    (hclosed : Source.endsInComment s = false) :
    List.Forall₂ (ComesFrom (ofSource s).anchors) (list s) (list (ofSource s).text) := by
  obtain ⟨ps, hcuts⟩ := exists_cuts s
  obtain ⟨ts, us, hts, hus, htokens⟩ : TiledAlike s [] :=
    tiledAlike hreturn hcuts (hcuts.closed hclosed)
  rwa [hts.list_eq, hus.list_eq]

/-- Comments that touch names, numbers and operators, with signs of comments
inside them. -/
def touchingComments : Bytes := utf8 "a/* // */+=/*\n*/.5// /*\n*b/=c"

theorem list_comesFrom_touchingComments :
    List.Forall₂ (ComesFrom (ofSource touchingComments).anchors) (list touchingComments)
      (list (ofSource touchingComments).text) :=
  list_comesFrom_cleaned (by decide) (by decide +kernel)

end Token

end Eel
