import Eel.Proofs.Source.Incomplete
import Eel.Proofs.Tree.Numeral
import Eel.Proofs.Tree.Soundness
import Eel.Proofs.Tree.Writing

/-!
Trees printed and read again.

The printer sets parentheses by the kinds of nodes alone. Every node that is not
an operation between two operands is an operand for all of them, so its text can
stand wherever the printer puts it. A number below zero is printed with a sign,
and a sign is read as an operator.
-/

namespace Eel

open Double List

variable {body : List Node} {r : Rank}

namespace Node

mutual

/-- A tree with a sign before the magnitude in place of every negative
number. -/
def unsigned : Node → Node
  | missing => missing
  | script body span => script (unsignedAll body) span
  | block body span => block (unsignedAll body) span
  | binary op left right span => binary op left.unsigned right.unsigned span
  | logical op left right span => logical op left.unsigned right.unsigned span
  | unary op operand span => unary op operand.unsigned span
  | assign op target value span => assign op target.unsigned value.unsigned span
  | call callee args span => call callee (unsignedAll args) span
  | ident id => ident id
  | number value span =>
    if value.isNegative then unary .neg (number value.abs span) span else number value span

def unsignedAll : List Node → List Node
  | [] => []
  | n :: rest => n.unsigned :: unsignedAll rest

end

theorem unsignedAll_eq_map (body : List Node) : unsignedAll body = body.map unsigned := by
  induction body with
  | nil => rfl
  | cons n rest ih => rw [unsignedAll, ih, map_cons]

theorem printAll_eq_map (body : List Node) : printAll body = body.map print := by
  induction body with
  | nil => rfl
  | cons n rest ih => rw [printAll, ih, map_cons]

theorem isAssignable_unsigned_bare (n : Node) :
    Tree.isAssignable n.unsigned.bare = Tree.isAssignable n := by
  cases n with
  | number value span =>
    rw [unsigned]
    split <;> rfl
  | _ => rfl

theorem isCompound_bare (n : Node) : n.bare.isCompound = n.isCompound := by cases n <;> rfl

theorem isCompound_unsigned (n : Node) : n.unsigned.isCompound = n.isCompound := by
  cases n with
  | number value span =>
    rw [unsigned]
    split <;> rfl
  | _ => rfl

theorem printAll_map {f : Node → Node} (h : ∀ n ∈ body, (f n).print = n.print) :
    printAll (body.map f) = printAll body := by
  rw [printAll_eq_map, printAll_eq_map, map_map]
  exact map_congr_left h

/-- The text does not depend on where the nodes were read. -/
theorem print_bare (n : Node) : n.bare.print = n.print := by
  induction n using inductionOn with
  | missing | ident | number => rfl
  | script body span ih | block body span ih | call callee body span ih =>
    simp only [bare, print, bareAll_eq_map, printAll_map ih]
  | binary op left right span ihl ihr | logical op left right span ihl ihr =>
    simp only [bare, print, operandText, isCompound_bare, ihl, ihr]
  | unary op operand span ih => simp only [bare, print, operandText, isCompound_bare, ih]
  | assign op target value span iht _ ihv => simp only [bare, print, iht, ihv]

theorem printAll_bareAll (body : List Node) : printAll (bareAll body) = printAll body := by
  rw [bareAll_eq_map]
  exact printAll_map fun n _ => n.print_bare

/-- A number and its magnitude behind a sign are written alike. -/
theorem print_unsigned {n : Node} (h : n.isWellFormed = true) : n.unsigned.print = n.print := by
  induction n using inductionOn with
  | missing | script => cases h
  | ident => rfl
  | block body span ih | call callee body span ih =>
    simp only [isWellFormed, Bool.and_eq_true, areWellFormed_iff] at h
    simp only [unsigned, print, unsignedAll_eq_map, printAll_map fun n hn => ih n hn (h.2 n hn)]
  | binary op left right span ihl ihr | logical op left right span ihl ihr =>
    simp only [isWellFormed, Bool.and_eq_true] at h
    simp only [unsigned, print, operandText, isCompound_unsigned, ihl h.1.2, ihr h.2]
  | unary op operand span ih =>
    simp only [isWellFormed, Bool.and_eq_true] at h
    simp only [unsigned, print, operandText, isCompound_unsigned, ih h.2]
  | assign op target value span iht _ ihv =>
    simp only [isWellFormed, Bool.and_eq_true] at h
    simp only [unsigned, print, iht h.1.2, ihv h.2]
  | number x span =>
    rw [unsigned]
    split
    · next hsign =>
        change Symbol.minus.text ++ x.abs.text = x.text
        rw [text_abs h, text_of_isFinite h, if_pos hsign]
    · rfl

/-- Without negative numbers nothing is changed. -/
theorem unsigned_of_literals {n : Node} (h : ∀ x ∈ n.literals, x.isNegative = false) :
    n.unsigned = n := by
  have hbody {body : List Node}
      (ih : ∀ n ∈ body, (∀ x ∈ n.literals, x.isNegative = false) → n.unsigned = n)
      (h : ∀ x ∈ literalsAll body, x.isNegative = false) : unsignedAll body = body := by
    rw [unsignedAll_eq_map, map_congr_left (g := id), map_id]
    exact fun n hn => ih n hn fun x hx => h x (mem_literalsAll.mpr ⟨n, hn, hx⟩)
  induction n using inductionOn with
  | missing | ident => rfl
  | script body span ih | block body span ih | call callee body span ih => rw [unsigned, hbody ih h]
  | binary op left right span ihl ihr | logical op left right span ihl ihr
  | assign op left right span ihl _ ihr =>
    simp only [literals, forall_mem_append] at h
    rw [unsigned, ihl h.1, ihr h.2]
  | unary op operand span ih => rw [unsigned, ih h]
  | number x span => rw [unsigned, h x (by simp [literals]), if_neg (by simp)]

end Node

namespace Grammar

open Token Bytes

theorem exists_join (op : BinaryOp) (h : op.isProper = true) :
    ∃ (r : Rank) (s : Symbol), r.join? s = some (binary op) ∧ s.text = op.text := by
  cases op with
  | add => exact ⟨.additive, .plus, rfl, rfl⟩
  | sub => exact ⟨.additive, .minus, rfl, rfl⟩
  | mul => exact ⟨.multiplicative, .star, rfl, rfl⟩
  | div => exact ⟨.multiplicative, .slash, rfl, rfl⟩
  | rem => exact ⟨.multiplicative, .percent, rfl, rfl⟩
  | pow => exact ⟨.multiplicative, .caret, rfl, rfl⟩
  | bitAnd => exact ⟨.bitwise, .ampersand, rfl, rfl⟩
  | bitOr => exact ⟨.bitwise, .pipe, rfl, rfl⟩
  | eq => exact ⟨.comparison, .equalEqual, rfl, rfl⟩
  | ne => exact ⟨.comparison, .bangEqual, rfl, rfl⟩
  | lt => exact ⟨.comparison, .less, rfl, rfl⟩
  | gt => exact ⟨.comparison, .greater, rfl, rfl⟩
  | le => exact ⟨.comparison, .lessEqual, rfl, rfl⟩
  | ge => exact ⟨.comparison, .greaterEqual, rfl, rfl⟩
  | other => cases h

theorem exists_logical (op : LogicalOp) (h : op.isProper = true) :
    ∃ s : Symbol, Rank.logical.join? s = some (logical op) ∧ s.text = op.text := by
  cases op with
  | and => exact ⟨.andAnd, rfl, rfl⟩
  | or => exact ⟨.orOr, rfl, rfl⟩
  | other => cases h

theorem exists_sign (op : UnaryOp) (h : op.isProper = true) :
    ∃ s : Symbol, sign? s = some op ∧ s.text = op.text := by
  cases op with
  | neg => exact ⟨.minus, rfl, rfl⟩
  | plus => exact ⟨.plus, rfl, rfl⟩
  | not => exact ⟨.bang, rfl, rfl⟩
  | other => cases h

theorem exists_assigns (op : AssignOp) (h : op.isProper = true) :
    ∃ s : Symbol, assigns? s = some op ∧ s.text = op.text := by
  cases op with
  | set => exact ⟨.assign, rfl, rfl⟩
  | add => exact ⟨.plusAssign, rfl, rfl⟩
  | sub => exact ⟨.minusAssign, rfl, rfl⟩
  | mul => exact ⟨.starAssign, rfl, rfl⟩
  | div => exact ⟨.slashAssign, rfl, rfl⟩
  | rem => exact ⟨.percentAssign, rfl, rfl⟩
  | other => cases h

/-- What binds at one rank is an operand of every rank that binds less. -/
theorem Derives.logical_of_rank {ws : List Word} {n : Node} (h : Derives (.rank r) ws n) :
    Derives (.rank .logical) ws n := by
  cases r with
  | bitwise => exact .operand (.operand (.operand (.operand h)))
  | multiplicative => exact .operand (.operand (.operand h))
  | additive => exact .operand (.operand h)
  | comparison => exact .operand h
  | logical => exact h

/-- Two operands with an operator between them. -/
theorem Written.join {left right : Bytes} {t₁ t₂ : Node} {s : Symbol} {join : Node → Node → Node}
    (hjoin : r.join? s = some join) (hleft : Written .unary left t₁)
    (hright : Written .unary right t₂) :
    Written (.expr false) (Node.infixed left s.text right) (join t₁ t₂) := by
  refine Written.expr (hleft.infixed hright fun ws us hws hus => ?_)
  refine Derives.logical_of_rank (.join (hws.climb r) hjoin ?_)
  cases r with
  | bitwise => exact hus
  | multiplicative | additive | comparison | logical => exact hus.climb _

theorem follows_of_continuesName {c : UInt8} (h : continuesName c = true) : follows c = true := by
  have hne (d : UInt8) (hd : continuesName d = false) : c ≠ d := by
    rintro rfl
    rw [h] at hd
    cases hd
  have hpairs : pairs c = false := by
    simp only [pairs, Bool.or_eq_false_iff, beq_eq_false_iff_ne]
    exact ⟨⟨hne _ rfl, hne _ rfl⟩, hne _ rfl⟩
  simp only [follows, hpairs, Bool.not_false, Bool.true_and, Bool.and_eq_true, bne_iff_ne]
  exact ⟨hne _ rfl, hne _ rfl⟩

/-- A name as a word, and what it stands for before a parenthesis. -/
theorem exists_nameWord {name : Bytes} (h : isLowerName name = true) :
    ∃ w : Word, w.text = name ∧ w.isSpelled = true ∧ Starts follows name ∧
      callee? w = some { name := name } ∧ (name ≠ utf8 "if" → w = .name name) := by
  have hlower := lower_of_isLowerName h
  cases name with
  | nil => cases h
  | cons c rest =>
    simp only [isLowerName, Bool.and_eq_true] at h
    obtain ⟨⟨hc, hrest⟩, hupper⟩ := h
    have hall : (c :: rest).all continuesName = true := by
      simp [continuesName_of_startsName hc, hrest]
    have htake : (c :: rest).takeWhile continuesName = c :: rest :=
      takeWhile_eq_self_iff.mpr (all_eq_true.mp hall)
    have hclassify : classify (c :: rest) =
        (if isIfWord (c :: rest) then .ifWord else .identifier, c :: rest) := by
      rw [classify, if_pos hc]
      dsimp only
      rw [htake]
    have hif : isIfWord (c :: rest) = (c :: rest == utf8 "if") := by
      rw [isIfWord, ← lower_of_continuesName hall, hlower]
    have hstarts : Starts follows (c :: rest) :=
      .cons (follows_of_continuesName (continuesName_of_startsName hc)) _
    by_cases hname : c :: rest = utf8 "if"
    · refine ⟨.ifWord (c :: rest), rfl, ?_, hstarts, ?_, fun h => absurd hname h⟩
      · rw [hname]
        decide
      · rw [callee?, hlower]
    · refine ⟨.name (c :: rest), rfl, ?_, hstarts, ?_, fun _ => rfl⟩
      · simp [Word.isSpelled, Word.text, Word.kind, hclassify, hif, hname]
      · rw [callee?, hlower]

end Grammar

namespace Node

open Grammar

/-- That the text of a node is read as the node: in every place, as an operand
unless it needs parentheses, and as what a value is assigned to. -/
structure Printed (n : Node) : Prop where
  expr : Written (.expr false) n.print n.unsigned.bare
  unary : n.isCompound = false → Written .unary n.print n.unsigned.bare
  primary : Tree.isAssignable n = true → Written .primary n.print n.unsigned.bare

namespace Printed

variable {n : Node}

theorem of_unary (h : Written .unary n.print n.unsigned.bare) (hn : Tree.isAssignable n = false) :
    Printed n :=
  ⟨h.raise.expr, fun _ => h, by simp [hn]⟩

theorem of_primary (h : Written .primary n.print n.unsigned.bare) : Printed n := by
  have hunary : Written .unary n.print n.unsigned.bare := h.imp fun _ => .unsigned
  exact ⟨hunary.raise.expr, fun _ => hunary, fun _ => h⟩

theorem of_compound (h : Written (.expr false) n.print n.unsigned.bare) (hn : n.isCompound = true) :
    Printed n := by
  refine ⟨h, by simp [hn], fun hassignable => ?_⟩
  cases n with
  | binary | logical | assign => cases hassignable
  | _ => cases hn

/-- The text of a node as an operand. -/
theorem operand (h : Printed n) : Written .unary (operandText n n.print) n.unsigned.bare := by
  unfold operandText
  split
  · exact h.expr.sequence.group.imp fun _ => .unsigned
  · next hn => exact h.unary (by simpa using hn)

end Printed

/-- Expressions with their texts. -/
def parts (body : List Node) : List (Bytes × Node) := body.map fun n => (n.print, n.unsigned.bare)

theorem parts_fst (body : List Node) : (parts body).map (·.1) = printAll body := by
  simp [parts, printAll_eq_map]

theorem parts_snd (body : List Node) : (parts body).map (·.2) = bareAll (unsignedAll body) := by
  simp [parts, unsignedAll_eq_map, bareAll_eq_map]

theorem forall_parts {P : Bytes → Node → Prop} (h : ∀ n ∈ body, P n.print n.unsigned.bare) :
    ∀ p ∈ parts body, P p.1 p.2 := by
  intro p hp
  obtain ⟨n, hn, rfl⟩ := mem_map.mp hp
  exact h n hn

theorem printed_number {x : Double} (h : x.isFinite = true) (span : Span) :
    Printed (.number x span) := by
  obtain ⟨c, rest, htext, hdigit⟩ := exists_text_abs h
  have hstarts : Token.Starts follows x.abs.text := by
    rw [htext]
    exact .cons (follows_of_continuesName (Token.continuesName_of_isDigit hdigit)) _
  have hmagnitude : Written .unary x.abs.text (.number x.abs .none) :=
    .word (isSpelled_text_abs h) hstarts (.unsigned (.number (numberValue?_text_abs h)))
  refine .of_unary ?_ rfl
  cases hsign : x.isNegative with
  | true =>
    have hsigned : Written .unary (Symbol.minus.text ++ x.abs.text) _ := .sign rfl hmagnitude
    have hprint : print (.number x span) = Symbol.minus.text ++ x.abs.text := by
      rw [print, text_of_isFinite h, hsign, text_abs h]
      rfl
    rw [hprint, unsigned, if_pos hsign]
    exact hsigned
  | false =>
    rw [abs_of_isNegative hsign] at hmagnitude
    rw [unsigned, if_neg (by simp [hsign])]
    exact hmagnitude

/-- The text of a well-formed expression is read as the expression. -/
theorem printed {n : Node} (h : n.isWellFormed = true) : Printed n := by
  induction n using inductionOn with
  | missing => cases h
  | script => cases h
  | block body span ih =>
    simp only [isWellFormed, Bool.and_eq_true, decide_eq_true_eq, areWellFormed_iff] at h
    have hbody := forall_parts fun n hn => (ih n hn (h.2 n hn)).expr
    have hlength : 2 ≤ (bareAll (unsignedAll body)).length := by
      rw [bareAll_eq_map, unsignedAll_eq_map, length_map, length_map]
      exact h.1
    have htree :
        sequenceTree (bareAll (unsignedAll body)) = .block (bareAll (unsignedAll body)) .none := by
      revert hlength
      generalize bareAll (unsignedAll body) = trees
      rcases trees with _ | ⟨_, _ | ⟨_, _⟩⟩ <;> simp [sequenceTree]
    have hne : parts body ≠ [] := by
      rintro hnil
      rw [← parts_snd, hnil] at hlength
      cases hlength
    have hblock := Written.block hne hbody
    rw [parts_fst, parts_snd, htree] at hblock
    exact .of_primary hblock
  | binary op left right span ihl ihr =>
    simp only [isWellFormed, Bool.and_eq_true] at h
    obtain ⟨r, s, hjoin, htext⟩ := exists_join op h.1.1
    have hjoined := Written.join hjoin (ihl h.1.2).operand (ihr h.2).operand
    rw [htext] at hjoined
    exact .of_compound hjoined rfl
  | logical op left right span ihl ihr =>
    simp only [isWellFormed, Bool.and_eq_true] at h
    obtain ⟨s, hjoin, htext⟩ := exists_logical op h.1.1
    have hjoined := Written.join hjoin (ihl h.1.2).operand (ihr h.2).operand
    rw [htext] at hjoined
    exact .of_compound hjoined rfl
  | unary op operand span ih =>
    simp only [isWellFormed, Bool.and_eq_true] at h
    obtain ⟨s, hsign, htext⟩ := exists_sign op h.1
    have hsigned := Written.sign hsign (ih h.2).operand
    rw [htext] at hsigned
    exact .of_unary hsigned rfl
  | assign op target value span iht _ ihv =>
    simp only [isWellFormed, Bool.and_eq_true] at h
    obtain ⟨⟨⟨hop, hassignable⟩, htarget⟩, hvalue⟩ := h
    obtain ⟨s, hassigns, htext⟩ := exists_assigns op hop
    have hassigned :=
      ((iht htarget).primary hassignable).infixed (ihv hvalue).expr fun ws us hws hus =>
      Derives.assign hws (by rwa [isAssignable_unsigned_bare]) hassigns hus
    rw [htext] at hassigned
    exact .of_compound hassigned rfl
  | call callee args span ih =>
    simp only [isWellFormed, Bool.and_eq_true, areWellFormed_iff] at h
    obtain ⟨w, htext, hspelled, hstarts, hcallee, -⟩ := exists_nameWord h.1
    have hargs := forall_parts fun n hn => (ih n hn (h.2 n hn)).expr.sequence
    have hcall := Written.call hspelled (htext ▸ hstarts) hcallee hargs
    rw [parts_fst, parts_snd, htext] at hcall
    exact .of_primary hcall
  | ident id =>
    simp only [isWellFormed, Bool.and_eq_true, bne_iff_ne] at h
    obtain ⟨w, htext, hspelled, hstarts, -, hname⟩ := exists_nameWord h.1
    obtain rfl := hname h.2
    have hword := Written.word hspelled hstarts Derives.name
    rw [Token.lower_of_isLowerName h.1] at hword
    exact .of_primary hword
  | number value span => exact printed_number h span

/-- The texts of statements, each on a line of its own with a semicolon behind
it, are read as the statements. -/
theorem spells_statements (h : ∀ n ∈ body, Printed n) :
    ∃ ws, Grammar.Script ws (bareAll (unsignedAll body)) ∧
      Token.Spells (Bytes.join (utf8 "\n") ((printAll body).map (· ++ utf8 ";"))) ws := by
  induction body with
  | nil => exact ⟨[], .empty 0, .nil⟩
  | cons n body ih =>
    obtain ⟨us, hscript, hspells⟩ := ih fun m hm => h m (by simp [hm])
    obtain ⟨-, ws, hderives, hstatement⟩ := (h n (by simp)).expr
    have hclosed (r : Bytes) (hr : Token.Starts follows r) (hus : Token.Spells r us) :
        Token.Spells (n.print ++ (utf8 ";" ++ r)) (ws ++ .symbol .semicolon :: us) := by
      have hdelimits : Token.Starts delimits (utf8 ";" ++ r) := .cons rfl r
      exact hstatement _ _ hdelimits (@spells_symbol .semicolon _ _ hr hus)
    refine ⟨_, .cons hderives hscript.semicolon (.inr rfl), ?_⟩
    cases body with
    | nil => simpa [printAll, Bytes.join] using hclosed [] (.nil _) hspells
    | cons m body =>
      have hline : utf8 "\n" = [Bytes.lineFeed] := rfl
      simpa [printAll, Bytes.join, List.intercalate, hline]
        using hclosed _ (.cons rfl _) hspells.lineFeed

end Node

namespace Script

variable {t : Script}

theorem spells_print (h : t.isWellFormed = true) :
    ∃ ws, Grammar.Script ws (Node.bareAll (Node.unsignedAll t.body)) ∧
      Token.Spells t.toNode.print ws :=
  Node.spells_statements fun n hn => Node.printed (Node.areWellFormed_iff.mp h n hn)

/-- The text of a well-formed script is read as the script. -/
theorem exists_parse_print (h : t.isWellFormed = true) :
    ∃ r, Script.parse t.toNode.print = .ok r ∧
      Node.bareAll r.body = Node.bareAll (Node.unsignedAll t.body) := by
  obtain ⟨ws, hscript, hspells⟩ := spells_print h
  exact Tree.parse_of_spell hspells.spell hscript

/-- The text of a well-formed script is clean. -/
theorem cleaned_print (h : t.isWellFormed = true) :
    (Cleaned.ofSource t.toNode.print).text = t.toNode.print := by
  obtain ⟨ws, -, hspells⟩ := spells_print h
  obtain ⟨ps, hcuts, hcleaned⟩ := Cleaned.exists_cuts_of_commentFree hspells.free hspells.plain
  rw [Cleaned.text_ofSource hcuts, hcleaned]

theorem print_eq_of_bareAll {r : Script} (h : t.isWellFormed = true)
    (hr : Node.bareAll r.body = Node.bareAll (Node.unsignedAll t.body)) :
    r.toNode.print = t.toNode.print := by
  have hbody : Node.printAll r.body = Node.printAll t.body := by
    rw [← Node.printAll_bareAll, hr, Node.printAll_bareAll, Node.unsignedAll_eq_map]
    exact Node.printAll_map fun n hn => Node.print_unsigned (Node.areWellFormed_iff.mp h n hn)
  simp only [toNode, Node.print, hbody]

end Script

namespace Source

theorem parse_of_script {s : Bytes} {script : Script}
    (h : Script.parse (Cleaned.ofSource s).text = .ok script) :
    parse s = .ok ⟨s, Cleaned.ofSource s, script⟩ := by
  rw [parse_eq, h]

/-- Printing and reading undo each other. What is read is well formed and
without negative numbers. A well-formed script is read from its own text, with a
sign in front of every number that is negative, and its text is what printing
gives again and what cleaning leaves as it is. A source and the text of its
script hold the same script. -/
theorem print_parse_inverse :
    (∀ s source, parse s = .ok source →
      source.script.isWellFormed = true ∧
        (∀ x ∈ Node.literalsAll source.script.body, x.isNegative = false) ∧
        ∃ again, parse source.script.toNode.print = .ok again ∧
          Node.bareAll again.script.body = Node.bareAll source.script.body) ∧
      ∀ t : Script, t.isWellFormed = true →
        (Cleaned.ofSource t.toNode.print).text = t.toNode.print ∧
          ∃ r, Script.parse t.toNode.print = .ok r ∧
            Node.bareAll r.body = Node.bareAll (Node.unsignedAll t.body) ∧
            r.toNode.print = t.toNode.print := by
  constructor
  · intro s source hparse
    have hread := Script.isRead_of_parse (parse_eq_ok hparse).2
    have hwellFormed : source.script.isWellFormed = true :=
      Node.areWellFormed_iff.mpr fun n hn => (hread n hn).wellFormed
    have hliterals : ∀ x ∈ Node.literalsAll source.script.body, x.isNegative = false := by
      intro x hx
      obtain ⟨n, hn, hx⟩ := Node.mem_literalsAll.mp hx
      exact (hread n hn).literals x hx
    obtain ⟨r, hr, hbody⟩ := Script.exists_parse_print hwellFormed
    rw [← Script.cleaned_print hwellFormed] at hr
    refine ⟨hwellFormed, hliterals, _, parse_of_script hr, ?_⟩
    have hunsigned : Node.unsignedAll source.script.body = source.script.body := by
      rw [Node.unsignedAll_eq_map]
      exact (map_congr_left fun n hn => Node.unsigned_of_literals (hread n hn).literals).trans
        (map_id _)
    rw [hbody, hunsigned]
  · intro t h
    obtain ⟨r, hr, hbody⟩ := Script.exists_parse_print h
    exact ⟨Script.cleaned_print h, r, hr, hbody, Script.print_eq_of_bareAll h hbody⟩

/-- An assignment to a slot inside a sum, with a negative number and a negative
zero, behind a choice and a block. -/
def signedScript : Script where
  body := [
    .call ⟨utf8 "if", .none⟩ [.ident ⟨utf8 "x", .none⟩,
      .block [.number .one .none, .ident ⟨utf8 "y.z", .none⟩] .none] .none,
    .binary .sub (.number zero.neg .none)
      (.assign .add (.call ⟨utf8 "megabuf", .none⟩ [.number .negOne .none] .none)
        (.number .one .none) .none) .none]
  span := .none

/-- A comment, a line break of two bytes and a choice that leaves out a
branch. -/
def commentedSource : Bytes := utf8 "A = B ? /* no */ -1.5;\r\n"

theorem print_parse_inverse_signed :
    (signedScript.isWellFormed = true ∧ ∃ r, Script.parse signedScript.toNode.print = .ok r ∧
      Node.bareAll r.body = Node.bareAll (Node.unsignedAll signedScript.body)) ∧
      ∃ source again, parse commentedSource = .ok source ∧
        parse source.script.toNode.print = .ok again ∧
        Node.bareAll again.script.body = Node.bareAll source.script.body := by
  have hsigned : signedScript.isWellFormed = true := by decide
  have hread : (Script.parse (Cleaned.ofSource commentedSource).text).isOk = true := by
    decide +kernel
  obtain ⟨hsource, hscript⟩ := print_parse_inverse
  obtain ⟨-, r, hr, hbody, -⟩ := hscript signedScript hsigned
  cases hparse : Script.parse (Cleaned.ofSource commentedSource).text with
  | error e =>
    rw [hparse] at hread
    cases hread
  | ok script =>
    obtain ⟨-, -, again, hagain, hsame⟩ := hsource _ _ (parse_of_script hparse)
    exact ⟨⟨hsigned, r, hr, hbody⟩, _, again, parse_of_script hparse, hagain, hsame⟩

end Source

end Eel
