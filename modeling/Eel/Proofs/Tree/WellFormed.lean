import Eel.Proofs.Bytes
import Eel.Tree.Parser
import Eel.Tree.Variables

/-!
Trees that have a source text.

Trees made by hand may hold nodes that no text stands for. A tree is well formed
when it holds none of them. What is read is well formed, and no number in it is
negative, since a sign is an operator.
-/

namespace Eel

open List

/-- Whether a text is a name in the form in which names are read. -/
def Token.isLowerName : Bytes → Bool
  | [] => false
  | c :: rest => startsName c && rest.all continuesName && (c :: rest).all (!Bytes.isUpper ·)

def BinaryOp.isProper : BinaryOp → Bool
  | other _ => false
  | _ => true

def LogicalOp.isProper : LogicalOp → Bool
  | other _ => false
  | _ => true

def UnaryOp.isProper : UnaryOp → Bool
  | other _ => false
  | _ => true

def AssignOp.isProper : AssignOp → Bool
  | other _ => false
  | _ => true

variable {body : List Node}

namespace Node

mutual

/-- Whether an expression has a source text. -/
def isWellFormed : Node → Bool
  | missing | script _ _ => false
  | block body _ => 2 ≤ body.length && areWellFormed body
  | binary op left right _ => op.isProper && left.isWellFormed && right.isWellFormed
  | logical op left right _ => op.isProper && left.isWellFormed && right.isWellFormed
  | unary op operand _ => op.isProper && operand.isWellFormed
  | assign op target value _ =>
    op.isProper && Tree.isAssignable target && target.isWellFormed && value.isWellFormed
  | call callee args _ => Token.isLowerName callee.name && areWellFormed args
  | ident id => Token.isLowerName id.name && id.name != utf8 "if"
  | number value _ => value.isFinite

def areWellFormed : List Node → Bool
  | [] => true
  | n :: rest => n.isWellFormed && areWellFormed rest

end

mutual

/-- The numbers that are written in a tree. -/
def literals : Node → List Double
  | missing | ident _ => []
  | script body _ | block body _ => literalsAll body
  | binary _ left right _ | logical _ left right _ => left.literals ++ right.literals
  | unary _ operand _ => operand.literals
  | assign _ target value _ => target.literals ++ value.literals
  | call _ args _ => literalsAll args
  | number value _ => [value]

def literalsAll : List Node → List Double
  | [] => []
  | n :: rest => n.literals ++ literalsAll rest

end

theorem areWellFormed_iff : areWellFormed body = true ↔ ∀ n ∈ body, n.isWellFormed = true := by
  induction body with
  | nil => simp [areWellFormed]
  | cons n rest ih => simp [areWellFormed, ih]

theorem mem_literalsAll {x : Double} : x ∈ literalsAll body ↔ ∃ n ∈ body, x ∈ n.literals := by
  induction body with
  | nil => simp [literalsAll]
  | cons n rest ih => simp [literalsAll, ih]

end Node

/-- Whether every statement has a source text. -/
def Script.isWellFormed (s : Script) : Bool := Node.areWellFormed s.body

namespace Token

/-- A name that is read is in the form that names are compared in. -/
theorem lower_of_isLowerName {s : Bytes} (h : isLowerName s = true) : Text.lower s = s := by
  cases s with
  | nil => rfl
  | cons c rest =>
    simp only [isLowerName, Bool.and_eq_true] at h
    obtain ⟨⟨hc, hrest⟩, hupper⟩ := h
    have hall : (c :: rest).all continuesName = true := by
      simp [continuesName_of_startsName hc, hrest]
    rw [lower_of_continuesName hall]
    conv_rhs => rw [← map_id (c :: rest)]
    refine map_congr_left fun d hd => Bytes.toLower_of_not_isUpper ?_
    simpa using all_eq_true.mp hupper d hd

end Token

namespace Node

/-- The arguments of a call. -/
def callArgs : Node → List Node
  | call _ args _ => args
  | _ => []

/-- Induction over trees. The arguments of an assigned slot count as parts of
the assignment too. -/
theorem inductionOn {P : Node → Prop} (n : Node) (missing : P .missing)
    (script : ∀ body span, (∀ n ∈ body, P n) → P (.script body span))
    (block : ∀ body span, (∀ n ∈ body, P n) → P (.block body span))
    (binary : ∀ op left right span, P left → P right → P (.binary op left right span))
    (logical : ∀ op left right span, P left → P right → P (.logical op left right span))
    (unary : ∀ op operand span, P operand → P (.unary op operand span))
    (assign : ∀ op target value span, P target → (∀ a ∈ target.callArgs, P a) → P value →
      P (.assign op target value span))
    (call : ∀ callee args span, (∀ a ∈ args, P a) → P (.call callee args span))
    (ident : ∀ id, P (.ident id)) (number : ∀ value span, P (.number value span)) : P n := by
  refine (Node.rec (motive_1 := fun n => P n ∧ ∀ a ∈ n.callArgs, P a)
    (motive_2 := fun body => ∀ n ∈ body, P n) ?_ ?_ ?_ ?_ ?_ ?_ ?_ ?_ ?_ ?_ ?_ ?_ n).1
  all_goals simp only [callArgs, not_mem_nil, false_imp_iff, implies_true, and_true,
    mem_cons, forall_eq_or_imp]
  · exact missing
  · exact script
  · exact block
  · exact fun op left right span hl hr => binary op left right span hl.1 hr.1
  · exact fun op left right span hl hr => logical op left right span hl.1 hr.1
  · exact fun op operand span h => unary op operand span h.1
  · exact fun op target value span ht hv => assign op target value span ht.1 ht.2 hv.1
  · exact fun callee args span h => ⟨call callee args span h, h⟩
  · exact ident
  · exact number
  · exact fun n rest hn hrest => ⟨hn.1, hrest⟩

theorem mem_mentionsAll {x : Ident} : x ∈ mentionsAll body ↔ ∃ n ∈ body, x ∈ n.mentions := by
  induction body with
  | nil => simp [mentionsAll]
  | cons n rest ih => simp [mentionsAll, ih]

/-- Variables of a well-formed tree have names that can be read. -/
theorem isLowerName_mentions {n : Node} (h : n.isWellFormed = true) :
    ∀ x ∈ n.mentions, Token.isLowerName x.name = true := by
  induction n using inductionOn with
  | missing | number => simp [mentions]
  | script => simp [isWellFormed] at h
  | block body span ih =>
    simp only [isWellFormed, Bool.and_eq_true, areWellFormed_iff] at h
    simp only [mentions, mem_mentionsAll]
    rintro x ⟨n, hn, hx⟩
    exact ih n hn (h.2 n hn) x hx
  | binary op left right span ihl ihr | logical op left right span ihl ihr =>
    simp only [isWellFormed, Bool.and_eq_true] at h
    simp only [mentions, mem_append]
    rintro x (hx | hx)
    · exact ihl h.1.2 x hx
    · exact ihr h.2 x hx
  | unary op operand span ih =>
    simp only [isWellFormed, Bool.and_eq_true] at h
    exact ih h.2
  | assign op target value span iht _ ihv =>
    simp only [isWellFormed, Bool.and_eq_true] at h
    simp only [mentions, mem_append]
    rintro x (hx | hx)
    · exact iht h.1.2 x hx
    · exact ihv h.2 x hx
  | call callee args span ih =>
    simp only [isWellFormed, Bool.and_eq_true, areWellFormed_iff] at h
    simp only [mentions, mem_mentionsAll]
    rintro x ⟨n, hn, hx⟩
    exact ih n hn (h.2 n hn) x hx
  | ident id =>
    simp only [isWellFormed, Bool.and_eq_true] at h
    simp only [mentions, mem_singleton, forall_eq]
    exact h.1

end Node

end Eel
