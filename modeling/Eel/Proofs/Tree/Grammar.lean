import Eel.Proofs.Tree.Words

/-!
The grammar of scripts.

The rules relate words to the tree that they stand for. They say nothing of how
the words are read: a form derives its words as a whole, the words of its parts
one after another. A choice may leave out its second branch. Whether an
expression ends with such a choice, which a colon behind it would complete, is
part of its form, and an expression that ends so is no first branch of a choice
with a second one. So every colon belongs to the nearest choice that is open.
-/

namespace Eel

open List

namespace Node

mutual

/-- A tree without the places where its nodes were read. -/
def bare : Node → Node
  | missing => missing
  | script body _ => script (bareAll body) .none
  | block body _ => block (bareAll body) .none
  | binary op left right _ => binary op left.bare right.bare .none
  | logical op left right _ => logical op left.bare right.bare .none
  | unary op operand _ => unary op operand.bare .none
  | assign op target value _ => assign op target.bare value.bare .none
  | call callee args _ => call ⟨callee.name, .none⟩ (bareAll args) .none
  | ident id => ident ⟨id.name, .none⟩
  | number value _ => number value .none

def bareAll : List Node → List Node
  | [] => []
  | n :: rest => n.bare :: bareAll rest

end

theorem bareAll_eq_map (body : List Node) : bareAll body = body.map bare := by
  induction body with
  | nil => rfl
  | cons n rest ih => rw [bareAll, ih, map_cons]

end Node

variable {body : List Node} {us : List Word} {f : Form}

namespace Grammar

variable {ws : List Word} {n : Node}

/-- Ranks of operators between two operands, from the one that binds most. -/
inductive Rank where
  | bitwise
  | multiplicative
  | additive
  | comparison
  | logical
deriving DecidableEq, Repr

/-- What words can stand for. -/
inductive Form where
  | primary
  | unary
  | rank (r : Rank)
  | choice (dangling : Bool)
  | expr (dangling : Bool)
  | sequence
deriving DecidableEq, Repr

def binary (op : BinaryOp) (left right : Node) : Node := .binary op left right .none

def logical (op : LogicalOp) (left right : Node) : Node := .logical op left right .none

namespace Rank

/-- The form of the operands. -/
def operand : Rank → Form
  | bitwise => .unary
  | multiplicative => .rank bitwise
  | additive => .rank multiplicative
  | comparison => .rank additive
  | logical => .rank comparison

/-- The node that an operator of a rank makes of its operands. -/
def join? : Rank → Symbol → Option (Node → Node → Node)
  | bitwise, .ampersand => some (binary .bitAnd)
  | bitwise, .pipe => some (binary .bitOr)
  | multiplicative, .star => some (binary .mul)
  | multiplicative, .slash => some (binary .div)
  | multiplicative, .percent => some (binary .rem)
  | multiplicative, .caret => some (binary .pow)
  | additive, .plus => some (binary .add)
  | additive, .minus => some (binary .sub)
  | comparison, .equalEqual => some (binary .eq)
  | comparison, .bangEqual => some (binary .ne)
  | comparison, .less => some (binary .lt)
  | comparison, .lessEqual => some (binary .le)
  | comparison, .greater => some (binary .gt)
  | comparison, .greaterEqual => some (binary .ge)
  | logical, .andAnd => some (Grammar.logical .and)
  | logical, .orOr => some (Grammar.logical .or)
  | _, _ => none

end Rank

def sign? : Symbol → Option UnaryOp
  | .minus => some .neg
  | .plus => some .plus
  | .bang => some .not
  | _ => none

def assigns? : Symbol → Option AssignOp
  | .assign => some .set
  | .plusAssign => some .add
  | .minusAssign => some .sub
  | .starAssign => some .mul
  | .slashAssign => some .div
  | .percentAssign => some .rem
  | _ => none

/-- The name that a word gives to a call. -/
def callee? : Word → Option Ident
  | .name lexeme | .ifWord lexeme => some { name := Text.lower lexeme }
  | _ => none

/-- Words with the tree that they stand for. -/
structure Phrase where
  words : List Word
  tree : Node
  dangling : Bool := false

/-- Phrases with a symbol between them. -/
def separated (s : Symbol) (parts : List Phrase) : List Word :=
  [Word.symbol s].intercalate (parts.map (·.words))

/-- A sequence of one expression is that expression. -/
def sequenceTree : List Node → Node
  | [n] => n
  | body => .block body .none

def chosen (test consequent alternate : Node) : Node :=
  .call { name := utf8 "if" } [test, consequent, alternate] .none

def trailing (semicolon : Bool) : List Word := if semicolon then [.symbol .semicolon] else []

/-- Words derived from a form, and the tree of the derivation. -/
inductive Derives : Form → List Word → Node → Prop
  | number {lexeme : Bytes} {value : Double} (h : Tree.numberValue? lexeme = some value) :
      Derives .primary [.number lexeme] (.number value .none)
  | name {lexeme : Bytes} : Derives .primary [.name lexeme] (.ident { name := Text.lower lexeme })
  | call {w : Word} {callee : Ident} {args : List Phrase} (hcallee : callee? w = some callee)
      (hargs : ∀ a ∈ args, Derives .sequence a.words a.tree) :
      Derives .primary (w :: .symbol .openParen :: (separated .comma args ++ [.symbol .closeParen]))
        (.call callee (args.map (·.tree)) .none)
  | group {ws : List Word} {n : Node} (h : Derives .sequence ws n) :
      Derives .primary (.symbol .openParen :: (ws ++ [.symbol .closeParen])) n
  | sign {s : Symbol} {op : UnaryOp} {ws : List Word} {n : Node} (hop : sign? s = some op)
      (h : Derives .unary ws n) : Derives .unary (.symbol s :: ws) (.unary op n .none)
  | unsigned {ws : List Word} {n : Node} (h : Derives .primary ws n) : Derives .unary ws n
  | operand {r : Rank} {ws : List Word} {n : Node} (h : Derives r.operand ws n) :
      Derives (.rank r) ws n
  | join {r : Rank} {s : Symbol} {join : Node → Node → Node} {ws us : List Word} {left right : Node}
      (hleft : Derives (.rank r) ws left) (hjoin : r.join? s = some join)
      (hright : Derives r.operand us right) :
      Derives (.rank r) (ws ++ .symbol s :: us) (join left right)
  | test {ws : List Word} {n : Node} (h : Derives (.rank .logical) ws n) :
      Derives (.choice false) ws n
  | half {ws us : List Word} {test consequent : Node} {d : Bool}
      (htest : Derives (.rank .logical) ws test)
      (hconsequent : Derives (.expr d) us consequent) :
      Derives (.choice true) (ws ++ .symbol .question :: us)
        (chosen test consequent (.number .zero .none))
  | full {ws us vs : List Word} {test consequent alternate : Node} {d : Bool}
      (htest : Derives (.rank .logical) ws test) (hconsequent : Derives (.expr false) us consequent)
      (halternate : Derives (.expr d) vs alternate) :
      Derives (.choice d) (ws ++ .symbol .question :: (us ++ .symbol .colon :: vs))
        (chosen test consequent alternate)
  | value {ws : List Word} {n : Node} {d : Bool} (h : Derives (.choice d) ws n) :
      Derives (.expr d) ws n
  | assign {s : Symbol} {op : AssignOp} {ws us : List Word} {target value : Node} {d : Bool}
      (htarget : Derives .primary ws target) (hassignable : Tree.isAssignable target = true)
      (hop : assigns? s = some op) (hvalue : Derives (.expr d) us value) :
      Derives (.expr d) (ws ++ .symbol s :: us) (.assign op target value .none)
  | sequence {parts : List Phrase} (hparts : parts ≠ [])
      (h : ∀ p ∈ parts, Derives (.expr p.dangling) p.words p.tree) (semicolon : Bool) :
      Derives .sequence (separated .semicolon parts ++ trailing semicolon)
        (sequenceTree (parts.map (·.tree)))

/-- An operand is a text of every rank. -/
theorem Derives.climb (h : Derives .unary ws n) (r : Rank) :
    Derives (.rank r) ws n := by
  have hbitwise : Derives (.rank .bitwise) ws n := .operand h
  have hmultiplicative : Derives (.rank .multiplicative) ws n := .operand hbitwise
  have hadditive : Derives (.rank .additive) ws n := .operand hmultiplicative
  have hcomparison : Derives (.rank .comparison) ws n := .operand hadditive
  cases r with
  | bitwise => exact hbitwise
  | multiplicative => exact hmultiplicative
  | additive => exact hadditive
  | comparison => exact hcomparison
  | logical => exact .operand hcomparison

def semicolons (count : Nat) : List Word := List.replicate count (.symbol .semicolon)

/-- Statements with semicolons between them and any number of semicolons
behind. -/
inductive Statements : List Word → List Node → Prop
  | last {ws : List Word} {n : Node} {d : Bool} (h : Derives (.expr d) ws n) (count : Nat) :
      Statements (ws ++ semicolons count) [n]
  | more {ws us : List Word} {n : Node} {body : List Node} {d : Bool} (h : Derives (.expr d) ws n)
      (count : Nat)
      (hrest : Statements us body) : Statements (ws ++ semicolons (count + 1) ++ us) (n :: body)

/-- The words of a whole script, and its statements. -/
inductive Script : List Word → List Node → Prop
  | empty (count : Nat) : Script (semicolons count) []
  | statements (count : Nat) {ws : List Word} {body : List Node} (h : Statements ws body) :
      Script (semicolons count ++ ws) body

/-- Whether a word can be the first one of an expression. -/
def startsOperand : Word → Bool
  | .name _ | .ifWord _ | .number _ => true
  | .symbol s => s == .openParen || (sign? s).isSome

theorem separated_cons_cons (s : Symbol) (p q : Phrase) (parts : List Phrase) :
    separated s (p :: q :: parts) = p.words ++ .symbol s :: separated s (q :: parts) := by
  simp [separated, List.intercalate]

theorem separated_cons (s : Symbol) (p : Phrase) (parts : List Phrase) :
    separated s (p :: parts) = p.words ++ parts.flatMap fun q => .symbol s :: q.words := by
  induction parts generalizing p with
  | nil => simp [separated]
  | cons q parts ih => rw [separated_cons_cons, ih q, flatMap_cons, cons_append]

theorem Derives.starts (h : Derives f ws n) :
    ∃ w rest, ws = w :: rest ∧ startsOperand w = true := by
  induction h with
  | number | name | group => exact ⟨_, _, rfl, rfl⟩
  | @call w _ _ hcallee =>
    refine ⟨_, _, rfl, ?_⟩
    cases w <;> first | rfl | cases hcallee
  | sign hop => exact ⟨_, _, rfl, by simp [startsOperand, hop]⟩
  | unsigned _ ih | operand _ ih | test _ ih | value _ ih => exact ih
  | join _ _ _ ih | half _ _ ih | full _ _ _ ih | assign _ _ _ _ ih =>
    obtain ⟨w, rest, rfl, hw⟩ := ih
    exact ⟨w, _, rfl, hw⟩
  | @sequence parts hparts _ semicolon ih =>
    obtain ⟨p, parts, rfl⟩ := exists_cons_of_ne_nil hparts
    obtain ⟨w, rest, hp, hw⟩ := ih p (by simp)
    rw [separated_cons, hp]
    exact ⟨w, _, rfl, hw⟩

theorem Rank.isAssignable_join {r : Rank} {s : Symbol} {join : Node → Node → Node}
    (h : r.join? s = some join) (left right : Node) :
    Tree.isAssignable (join left right) = false := by
  unfold Rank.join? at h
  split at h <;> cases h <;> rfl

/-- What can be assigned is derived without any operator. -/
theorem Derives.primary_of_isAssignable (h : Derives f ws n) (hn : Tree.isAssignable n = true) :
    f = .sequence ∨ (∃ d, f = .expr d) ∨ Derives .primary ws n := by
  induction h with
  | number h => exact .inr (.inr (.number h))
  | name => exact .inr (.inr .name)
  | call hcallee hargs => exact .inr (.inr (.call hcallee hargs))
  | group h => exact .inr (.inr (.group h))
  | sign | half | full => cases hn
  | unsigned h => exact .inr (.inr h)
  | @operand r _ _ h ih =>
    obtain hf | ⟨d, hf⟩ | h := ih hn
    · cases r <;> cases hf
    · cases r <;> cases hf
    · exact .inr (.inr h)
  | join _ hjoin =>
    rw [Rank.isAssignable_join hjoin] at hn
    cases hn
  | test _ ih => simpa using ih hn
  | value | assign => exact .inr (.inl ⟨_, rfl⟩)
  | sequence => exact .inl rfl

theorem Script.semicolon (h : Script us body) : Script (.symbol .semicolon :: us) body := by
  cases h with
  | empty count => exact .empty (count + 1)
  | statements count h => exact .statements (count + 1) h

/-- A statement in front of a script that starts with a semicolon or is
empty. -/
theorem Script.cons {d : Bool} (hn : Derives (.expr d) ws n) (h : Script us body)
    (hus : us = [] ∨ us.head? = some (.symbol .semicolon)) : Script (ws ++ us) (n :: body) := by
  cases h with
  | empty count => exact .statements 0 (.last hn count)
  | @statements count ws' _ h =>
    cases count with
    | zero =>
      have hstart : ∃ w rest, ws' = w :: rest ∧ startsOperand w = true := by
        cases h with
        | last h _ | more h _ _ =>
          obtain ⟨w, rest, rfl, hw⟩ := h.starts
          exact ⟨w, _, rfl, hw⟩
      obtain ⟨w, rest, rfl, hw⟩ := hstart
      rcases hus with hus | hus
      · cases hus
      · obtain rfl : w = .symbol .semicolon := by simpa [semicolons] using hus
        cases hw
    | succ count =>
      have hmore := Statements.more hn count h
      rw [append_assoc] at hmore
      exact .statements 0 hmore

end Grammar

end Eel
