import Eel.Proofs.Program.Acceptance
import Eel.Proofs.Program.Excerpts
import Eel.Proofs.Source.Spans

/-!
Where the errors of a program point.

An error of a function is found in the cleaned text: at a token that cannot
stand there, at what cannot be assigned, at a call or at its name. Its location
is that of the same byte in the source, and the excerpt marks it there.
-/

namespace Eel

open Cleaned Source List

namespace Cleaned

variable {s : Bytes} {ps : List Piece} {i o : Nat}

/-- That an offset of the cleaned text comes from one of the source: that of the
byte which is copied there, or the end from the end. -/
inductive Origin (s : Bytes) : Nat → Nat → Prop
  | copied {ps : List Piece} {c : UInt8} {i o : Nat} (hcuts : Cuts s ps)
      (hp : StandsAt ps (.copied c) i o) :
      Origin s i o
  | finish : Origin s (ofSource s).text.length s.length

theorem Cuts.not_isBreak {c : UInt8} (h : Cuts s ps) (hc : .copied c ∈ ps) :
    Bytes.isBreak c = false := by
  induction h with
  | nil => cases hc
  | copied hbreak _ _ ih =>
    rcases mem_cons.mp hc with heq | hc
    · cases heq
      exact hbreak
    · exact ih hc
  | breakPair _ ih | breakByte _ _ _ ih | lineComment _ _ _ ih | blockComment _ _ ih =>
    rcases mem_cons.mp hc with heq | hc
    · cases heq
    · exact ih hc
  | openComment => simp at hc

namespace Origin

theorem locate (h : Origin s i o) : Cleaned.locate (ofSource s).anchors i = positionIn s o := by
  cases h with
  | copied hcuts hp => exact hcuts.locate_standsAt hp (by simp [Piece.cleaned])
  | finish =>
    obtain ⟨ps, hcuts⟩ := exists_cuts s
    exact hcuts.locate_finish

/-- An origin is the end of the source or a byte inside a line. -/
theorem inside (h : Origin s i o) :
    o ≤ s.length ∧ ∀ c, s[o]? = some c → Bytes.isBreak c = false := by
  cases h with
  | @copied ps x _ _ hcuts hp =>
    have hget := (hcuts.copied_at hp).1
    obtain ⟨before, after, rfl, -, -⟩ := hp
    refine ⟨(List.getElem?_eq_some_iff.mp hget).1.le, fun c hc => ?_⟩
    obtain rfl := Option.some.inj (hget.symm.trans hc)
    exact hcuts.not_isBreak (by simp)
  | finish => exact ⟨le_rfl, by simp⟩

end Origin

/-- A byte of the cleaned text that is no blank has its origin. -/
theorem exists_origin {c : UInt8} (h : (ofSource s).text[i]? = some c)
    (hc : Token.isSpace c = false) : ∃ o, Origin s i o := by
  obtain ⟨ps, hcuts⟩ := exists_cuts s
  obtain ⟨o, hp⟩ := hcuts.standsAt_copied h hc
  exact ⟨o, .copied hcuts hp⟩

theorem exists_origin_of_fills {t : Token} {j : Nat} (h : t.Fills (ofSource s).text i j) :
    ∃ o, Origin s i o := by
  obtain ⟨c, w, hlexeme⟩ := exists_cons_of_ne_nil h.lexeme
  refine exists_origin ?_ (h.solid c (by simp [hlexeme]))
  rw [← head?_drop, h.stands, hlexeme]
  rfl

end Cleaned

/-- What an error is about starts with a byte of the source, or is its end. -/
theorem ParseError.Cause.StartsAt.exists_origin {s : Bytes} {i : Nat} {cause : ParseError.Cause}
    (h : cause.StartsAt (ofSource s).text i) : ∃ o, Origin s i o := by
  cases cause with
  | illegalByte c =>
    obtain ⟨t, hcloses, hkind⟩ := h
    rcases hcloses.ends with ⟨hfinish, -, -⟩ | ⟨b, -, hget, hsolid⟩
    · cases hkind.symm.trans hfinish
    · exact Cleaned.exists_origin hget hsolid
  | openComment => cases h
  | unexpected t =>
    rcases h with ⟨hcloses, hkind⟩ | ⟨j, hfills⟩
    · rcases hcloses.ends with ⟨-, -, rfl⟩ | ⟨b, hillegal, -⟩
      · exact ⟨_, .finish⟩
      · cases hkind.symm.trans hillegal
    · exact exists_origin_of_fills hfills
  | numberRange lexeme =>
    obtain ⟨t, j, hfills, -⟩ := h
    exact exists_origin_of_fills hfills
  | badTarget =>
    obtain ⟨levels, c, d, n, k, j, -, hnested, hstart, -⟩ := h
    obtain ⟨t, i', j', hfills, hstart'⟩ := hnested.framed.start
    obtain rfl : i = i' := by
      have hoffset := congrArg Position.offset (hstart.symm.trans hstart')
      rw [Tree.offset_positionIn, Tree.offset_positionIn] at hoffset
      omega
    exact exists_origin_of_fills hfills

variable {c : Call} {span : Span} {source : Source} {cause : Cause} {n : Node}

namespace Node

theorem mem_callsAll {body : List Node} : c ∈ callsAll body ↔ ∃ n ∈ body, c ∈ n.calls := by
  induction body with
  | nil => simp [callsAll]
  | cons n rest ih => simp [callsAll, ih]

/-- A call of a tree is the tree itself or one of a part. -/
theorem mem_calls (h : c ∈ n.calls) :
    n.callee? = some c.callee ∧ n.span = c.span ∨ ∃ m ∈ n.children, c ∈ m.calls := by
  cases n with
  | missing | ident | number => cases h
  | script | block => exact .inr (mem_callsAll.mp h)
  | binary | logical | assign =>
    rcases mem_append.mp h with h | h
    · exact .inr ⟨_, by simp [children], h⟩
    · exact .inr ⟨_, by simp [children], h⟩
  | unary op operand span => exact .inr ⟨operand, mem_singleton_self operand, h⟩
  | call =>
    rcases mem_cons.mp h with rfl | h
    · exact .inl ⟨rfl, rfl⟩
    · exact .inr (mem_callsAll.mp h)

/-- The calls of a tree and their names reach from token to token. -/
theorem Nested.calls {text : Bytes} (h : n.Nested text) :
    ∀ c ∈ n.calls, c.span.Framed text ∧ c.callee.span.Framed text := by
  induction h with
  | @intro n parts hparts framed callee _ _ _ ih =>
    intro c hc
    rcases mem_calls hc with ⟨hcallee, hspan⟩ | ⟨m, hm, hinner⟩
    · exact ⟨hspan ▸ framed, (callee _ hcallee).1⟩
    · cases hparts with
      | all => exact ih m hm c hinner
      | choice =>
        -- The branch that was not written is a number, so that no call is in it.
        simp only [children, mem_cons, not_mem_nil, or_false] at hm
        rcases hm with rfl | rfl | rfl
        · exact ih m (by simp) c hinner
        · exact ih m (by simp) c hinner
        · cases hinner

end Node

/-- A call is at fault for the number of its arguments, which its own span
shows, or for its name. -/
theorem Call.fault?_cases {cause : CompileError.Cause} (h : c.fault? = some (span, cause)) :
    (span = c.span ∧ ∃ wanted, c.args ≠ wanted ∧ cause = .arity c.callee.name wanted c.args) ∨
      span = c.callee.span ∧
      (cause = .unknownFunction c.callee.name ∨ cause = .privateFunction c.callee.name) := by
  unfold fault? at h
  split at h
  · split at h
    · next hargs =>
        cases h
        exact .inl ⟨rfl, _, hargs, rfl⟩
    · cases h
  · split at h
    · cases h
      exact .inr ⟨rfl, .inr rfl⟩
    · split at h
      · cases h
        exact .inr ⟨rfl, .inl rfl⟩
      · split at h
        · next hargs =>
            cases h
            exact .inl ⟨rfl, _, hargs, rfl⟩
        · cases h

namespace CompileError

variable {s : Bytes} {e : CompileError} {i : Nat}

/-- That what a cause is about starts at an offset of the cleaned text: what the
source does not parse for, a call with the wrong number of arguments, or the
name of a call that may not be called. -/
inductive Cause.StartsAt (s : Bytes) (i : Nat) : Cause → Prop
  | parse {error : ParseError} (hparse : Source.parse s = .error error)
      (h : error.cause.StartsAt (ofSource s).text i) : StartsAt s i (.parse error)
  | arity {source : Source} {c : Call} {wanted : Nat} (hparse : Source.parse s = .ok source)
      (hc : c ∈ source.calls)
      (hwanted : c.args ≠ wanted) (hstart : c.span.start = positionIn (ofSource s).text i) :
      StartsAt s i (.arity c.callee.name wanted c.args)
  | unknown {source : Source} {c : Call} (hparse : Source.parse s = .ok source)
      (hc : c ∈ source.calls)
      (hstart : c.callee.span.start = positionIn (ofSource s).text i) :
        StartsAt s i (.unknownFunction c.callee.name)
  | hidden {source : Source} {c : Call} (hparse : Source.parse s = .ok source)
      (hc : c ∈ source.calls)
      (hstart : c.callee.span.start = positionIn (ofSource s).text i) :
        StartsAt s i (.privateFunction c.callee.name)

/-- A fault of a call is located at the call or at its name, depending on what
is wrong. -/
theorem Cause.startsAt_fault? (hparse : Source.parse s = .ok source) (hc : c ∈ source.calls)
    (hfault : c.fault? = some (span, cause))
    (hstart : span.start = positionIn (ofSource s).text i) : cause.StartsAt s i := by
  obtain ⟨rfl, wanted, hwanted, rfl⟩ | ⟨rfl, rfl | rfl⟩ := Call.fault?_cases hfault
  · exact .arity hparse hc hwanted hstart
  · exact .unknown hparse hc hstart
  · exact .hidden hparse hc hstart

/-- An empty source is no error. -/
theorem Cause.StartsAt.source_ne_nil (h : cause.StartsAt s i) : s ≠ [] := by
  rintro rfl
  have hempty : (Source.parse []).toOption.map (·.calls) = some [] := by decide
  cases h with
  | parse hparse =>
    rw [hparse] at hempty
    cases hempty
  | arity hparse hc | unknown hparse hc | hidden hparse hc =>
    rw [hparse] at hempty
    simp only [Except.toOption, Option.map_some, Option.some.injEq] at hempty
    rw [hempty] at hc
    cases hc

/-- That an error points at what it is about: the place where that starts in the
source, in its line. -/
structure PointsAt (e : CompileError) (s : Bytes) (i o : Nat) (line : Bytes) : Prop where
  cause : e.cause.StartsAt s i
  origin : Origin s i o
  addresses : e.loc.Addresses s o line

theorem exists_pointsAt (hcause : e.cause.StartsAt s i) {o : Nat} (horigin : Origin s i o)
    (hplace : e.loc.line = (positionIn s o).line ∧ e.loc.column = (positionIn s o).column) :
    ∃ i o line, e.PointsAt s i o line := by
  obtain ⟨hle, hbreak⟩ := horigin.inside
  obtain ⟨line, haddresses⟩ := exists_addresses hle hbreak hplace
  exact ⟨i, o, line, hcause, horigin, haddresses⟩

/-- A source that does not parse is pointed at where what is wrong starts. -/
theorem pointsAt_of_parse {name : Bytes} {error : ParseError} (h : parse s = .error error) :
    ∃ i o line, (ofParseError name s error).PointsAt s i o line := by
  obtain ⟨error', hscript, rfl⟩ := parse_eq_error_iff.mp h
  obtain ⟨hfree, hreturn⟩ := ofSource_plain s
  obtain ⟨i, hstart, hcause, -⟩ := (Tree.parse_lays hfree hreturn).2 _ hscript
  obtain ⟨o, horigin⟩ := hcause.exists_origin
  refine exists_pointsAt (.parse h hcause) horigin ?_
  have hlocate : locate (ofSource s).anchors error'.start.offset = positionIn s o := by
    rw [hstart, Tree.offset_positionIn, horigin.locate]
  simp only [ofParseError, relocate, Loc.ofSpan, hlocate, and_self]

theorem pointsAt_of_fault? (hparse : parse s = .ok source) (hc : c ∈ source.calls)
    (hfault : c.fault? = some (span, e.cause)) (hloc : e.loc = source.locOf span)
    (hsome : e.loc.isNone = false) : ∃ i o line, e.PointsAt s i o line := by
  obtain ⟨hcleaned, hscript⟩ := parse_eq_ok hparse
  obtain ⟨hfree, hreturn⟩ := ofSource_plain s
  rw [hcleaned] at hscript
  obtain ⟨n, hn, hc'⟩ := Node.mem_callsAll.mp hc
  obtain ⟨hspan, hcallee⟩ := (((Tree.parse_lays hfree hreturn).1 _ hscript).nested n hn).calls c hc'
  have hframed : span.Framed (ofSource s).text := by
    obtain ⟨rfl, -⟩ | ⟨rfl, -⟩ := Call.fault?_cases hfault
    · exact hspan
    · exact hcallee
  obtain ⟨t, i, j, hfills, hstart⟩ := hframed.start
  obtain ⟨o, horigin⟩ := exists_origin_of_fills hfills
  refine exists_pointsAt (Cause.startsAt_fault? hparse hc hfault hstart) horigin ?_
  rw [locOf] at hloc
  split at hloc
  · rw [hloc] at hsome
    cases hsome
  · have hlocate : (source.locateSpan span).start = positionIn s o := by
      rw [Source.locateSpan, Cleaned.locateSpan, hcleaned, hstart, Tree.offset_positionIn,
        horigin.locate]
    simp only [hloc, Loc.ofSpan, hlocate, and_self]

/-- Every error with a location lies in a function, and points at what it is
about in the source of that. Excerpts mark it there: the line is right, and the
caret is under the byte exactly up to line 9999. -/
theorem caret_under_offender {o : Options} (h : compile o = .error e)
    (hloc : e.loc.isNone = false) :
    ∃ f ∈ o.functions, e.function = f.name ∧ e.source = f.source ∧
      ∃ i offset line, e.PointsAt f.source i offset line ∧
      ∀ before after, ∃ mark above below,
        e.Marks line (e.excerpt before after) mark above below := by
  have hmarks {f : FunctionDecl} (hsource : e.source = f.source)
      (hpoints : ∃ i offset line, e.PointsAt f.source i offset line) :
      ∃ i offset line, e.PointsAt f.source i offset line ∧
        ∀ before after, ∃ mark above below,
          e.Marks line (e.excerpt before after) mark above below := by
    obtain ⟨i, offset, line, hpoints⟩ := hpoints
    refine ⟨i, offset, line, hpoints, exists_marks ?_ (hsource ▸ hpoints.addresses)⟩
    rw [hsource]
    exact hpoints.cause.source_ne_nil
  cases compile_eq_error_iff.mp h with
  | declaration => cases hloc
  | @source before after f error _ hfunctions _ hparse =>
    exact ⟨f, by simp [hfunctions], rfl, rfl, hmarks rfl (pointsAt_of_parse hparse)⟩
  | @call before after f source calls calls' c span cause _ _ hfunctions _ hsource hcalls
    _ hfault =>
    exact ⟨f, by simp [hfunctions], rfl, rfl,
      hmarks rfl (pointsAt_of_fault? hsource (by simp [hcalls]) hfault rfl hloc)⟩

/-- One function with a source. -/
def single (source : Bytes) : Options := ⟨[⟨utf8 "p", []⟩], [⟨utf8 "f", utf8 "p", source⟩], true, 0⟩

/-- A call of an unknown function, behind a comment over two lines. -/
def strayCall : Options := single (utf8 "x = 1;\r\n/* y\r*/ y = foo(2);")

theorem strayCall_caret : ∃ e, compile strayCall = .error e ∧ e.loc = ⟨3, 8, 3, 11⟩ ∧
    ∃ f ∈ strayCall.functions, e.function = f.name ∧ e.source = f.source ∧
      ∃ i offset line, e.PointsAt f.source i offset line ∧
      ∀ before after, ∃ mark above below,
        e.Marks line (e.excerpt before after) mark above below := by
  have hloc : (failure? (compile strayCall)).map (·.loc) = some ⟨3, 8, 3, 11⟩ := by decide +kernel
  obtain ⟨e, he, hloc⟩ := Option.map_eq_some_iff.mp hloc
  have hcompile := failure?_eq_some_iff.mp he
  exact ⟨e, hcompile, hloc, caret_under_offender hcompile (by rw [hloc]; rfl)⟩

section Far

/-- A byte that starts no token, behind empty lines. -/
def farByte (n : Nat) : Bytes := List.replicate n Bytes.lineFeed ++ utf8 "@"

theorem cuts_farByte (n : Nat) :
    Cuts (farByte n) (List.replicate n (.lineBreak [Bytes.lineFeed]) ++ [.copied '@'.toUInt8]) := by
  induction n with
  | zero => exact .copied rfl rfl .nil
  | succ n ih => exact .breakByte rfl (fun h => absurd h (by decide)) ih

theorem text_farByte (n : Nat) : (ofSource (farByte n)).text = farByte n := by
  rw [text_ofSource (cuts_farByte n)]
  induction n with
  | zero => rfl
  | succ n ih => exact congrArg (Bytes.lineFeed :: ·) ih

theorem origin_farByte (n : Nat) : Origin (farByte n) n n :=
  .copied (cuts_farByte n) ⟨_, [], rfl, by simp [Piece.cleaned], by simp [Piece.source]⟩

theorem positionIn_farByte {n k : Nat} (h : k ≤ n) : positionIn (farByte n) k = ⟨k, k + 1, 1⟩ := by
  induction k with
  | zero => exact positionIn_zero _
  | succ k ih =>
    have hget : (farByte n)[k]? = some Bytes.lineFeed := by
      rw [farByte, getElem?_append_left (by simpa using h), getElem?_replicate, if_pos (by omega)]
    rw [positionIn_succ_break (by simp [endsBreak, hget]), ih (by omega)]
    push_cast
    rfl

theorem getElem?_linesOf_farByte (n : Nat) : (linesOf (farByte n))[n]? = some (utf8 "@") := by
  induction n with
  | zero => rfl
  | succ n ih =>
    have hlines : linesOf (farByte (n + 1)) = [] :: linesOf (farByte n) :=
      linesOf_break rfl fun h => absurd h (by decide)
    rw [hlines, getElem?_cons_succ, ih]

theorem parse_farByte (n : Nat) : ∃ e, parse (farByte n) = .error e ∧ e.start = ⟨n, n + 1, 1⟩ := by
  have hgap : Token.Passable (utf8 "@") (List.replicate n Bytes.lineFeed) := by
    induction n with
    | zero => exact .nil
    | succ n ih => exact .blank rfl ih
  have hdrop : (farByte n).drop n = utf8 "@" := drop_left' length_replicate
  have hpasses : Token.Passes (farByte n) 0 n := by
    refine ⟨List.replicate n Bytes.lineFeed, by simp, ?_, ?_⟩ <;> rw [hdrop]
    · rfl
    · exact hgap
  obtain hlongest | ⟨-, hnone⟩ := Token.classify_longest '@'.toUInt8 []
  · exact absurd hlongest.admits.isLast (by decide)
  have hlist := (Token.Tiles.illegal hpasses hdrop rfl hnone).list_eq
  obtain ⟨-, hreturn⟩ := ofSource_plain (farByte n)
  rw [text_farByte] at hreturn
  obtain ⟨e, he, hoffset⟩ :
      ∃ e, Script.parse (farByte n) = .error e ∧ e.start = positionIn (farByte n) n := by
    rw [Script.parse, hlist, positionIn_eq_counted hreturn (by simp [farByte])]
    exact ⟨_, rfl, rfl⟩
  refine ⟨relocate (ofSource (farByte n)).anchors e, ?_, ?_⟩
  · rw [parse, text_farByte, he]
  · rw [relocate, hoffset, Tree.offset_positionIn, (origin_farByte n).locate,
      positionIn_farByte le_rfl]

end Far

/-- In line 10000 the number takes one column more than the caret's gutter has,
so that the caret is one to the left. -/
theorem farByte_caret_beside :
    ∃ e, compile (single (farByte 9999)) = .error e ∧ e.loc.line = 10000 ∧ e.loc.column = 1 ∧
    ∀ before after, ∃ above below,
      e.excerpt before after = above ++ utf8 "10000 | @\n     | ^" ++ below := by
  obtain ⟨error, hparse, hstart⟩ := parse_farByte 9999
  have hcompile := compile_eq_error_iff.mpr
    (@Options.Fails.source (single (farByte 9999)) [] [] ⟨utf8 "f", utf8 "p", farByte 9999⟩
      error rfl rfl (by simp) hparse)
  refine ⟨_, hcompile, ?_⟩
  generalize he : ofParseError (utf8 "f") (farByte 9999) error = e
  have hsource : e.source = farByte 9999 := by rw [← he, ofParseError]
  have hloc : e.loc.line = 10000 ∧ e.loc.column = 1 := by
    rw [← he, ofParseError, Loc.ofSpan, hstart]
    exact ⟨rfl, rfl⟩
  refine ⟨hloc.1, hloc.2, fun before after => ?_⟩
  obtain ⟨hle, hbreak⟩ := (origin_farByte 9999).inside
  obtain ⟨line, haddresses⟩ :=
    exists_addresses hle hbreak (by rw [positionIn_farByte le_rfl]; exact hloc)
  obtain rfl : utf8 "@" = line := by
    have hget := haddresses.getLine
    rw [hloc.1, show ((10000 : Int) - 1).toNat = 9999 from rfl, getElem?_linesOf_farByte] at hget
    exact Option.some.inj hget
  have hne : e.source ≠ [] := by
    rw [hsource, farByte]
    exact append_ne_nil_of_right_ne_nil _ (by decide)
  obtain ⟨mark, above, below, htext, -, -, ⟨width, hmark⟩, -⟩ :=
    exists_marks hne (hsource ▸ haddresses) before after
  refine ⟨rows above, List.replicate width '~'.toUInt8 ++ utf8 "\n" ++ rows below, ?_⟩
  have hlabel :
      label 10000 ++ utf8 "@" ++ utf8 "\n" ++ gutter ++ utf8 "^" = utf8 "10000 | @\n     | ^" := by
    decide +kernel
  rw [htext, hmark, hloc.1, hloc.2, ← hlabel]
  simp only [append_assoc]
  rfl

end CompileError

end Eel
