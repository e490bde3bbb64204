import AutoProperty.Proofs.Syntax.Grammar

/-! # The strength of operators

How strongly the binary operators bind, and what that means for a tree: no operand of a node
would have to be taken apart if the operators were read by their strength.
-/

namespace AutoProperty

/-- How strongly a binary operator binds. -/
def Kind.precedence? : Kind → Option Nat
  | .barBarToken => some 1
  | .ampersandAmpersandToken => some 2
  | .equalsEqualsToken | .exclamationEqualsToken => some 3
  | .lessThanToken | .greaterThanToken | .lessThanEqualsToken | .greaterThanEqualsToken => some 4
  | .plusToken | .minusToken => some 5
  | .asteriskToken | .slashToken | .percentToken => some 6
  | _ => none

/-- A node of the kind neither joins two operands nor sets tokens aside. -/
def Kind.isPlain (kind : Kind) : Bool :=
  kind != .binaryExpression && kind != .assignmentExpression && kind != .skippedTokens

/-- The levels begin with the operators of strength `least`, and each is one stronger than the
one before it. -/
def Leveled (least : Nat) : List (List Kind) → Prop
  | [] => True
  | operators :: stronger =>
    (∀ kind, kind ∈ operators ↔ kind.precedence? = some least) ∧ Leveled (least + 1) stronger

theorem leveled_binaryLevels : Leveled 1 Production.binaryLevels := by
  refine ⟨?_, ?_, ?_, ?_, ?_, ?_, trivial⟩ <;> intro kind <;> cases kind <;> decide

namespace Element

/-- The strength of the operator in a binary expression. -/
def precedence? : Element → Option Nat
  | node .binaryExpression [_, operator, _] => operator.kind.precedence?
  | _ => none

/-- The element can stand beside an operator that leaves it only operators at least as strong as
`least`. -/
structure Binds (least : Nat) (e : Element) : Prop where
  notAssignment : e.kind ≠ .assignmentExpression
  strong : e.kind = .binaryExpression → ∃ p, e.precedence? = some p ∧ least ≤ p

namespace Binds

variable {e : Element} {least : Nat}

theorem of_isPlain (h : e.kind.isPlain) (least : Nat) : e.Binds least := by
  simp only [Kind.isPlain, Bool.and_eq_true, bne_iff_ne] at h
  exact ⟨h.1.2, fun hkind => absurd hkind h.1.1⟩

theorem mono {weaker : Nat} (h : e.Binds least) (hle : weaker ≤ least) : e.Binds weaker := by
  refine ⟨h.notAssignment, fun hkind => ?_⟩
  obtain ⟨p, hp, hlt⟩ := h.strong hkind
  exact ⟨p, hp, Nat.le_trans hle hlt⟩

theorem binaryExpression {left operator right : Element}
    (h : operator.kind.precedence? = some least) :
    Binds least (.node .binaryExpression [left, operator, right]) :=
  ⟨nofun, fun _ => ⟨least, h, Nat.le_refl _⟩⟩

end Binds

/-- What stands on either side of an operator could stand there without parentheses: an operator
to the left is at least as strong and one to the right is stronger, and what is assigned to is
no assignment. -/
def Grouped (kind : Kind) (children : List Element) : Prop :=
  match kind with
  | .binaryExpression => ∃ left operator right p, children = [left, operator, right] ∧
      operator.kind.precedence? = some p ∧ left.Binds p ∧ right.Binds (p + 1)
  | .assignmentExpression => ∃ left operator right, children = [left, operator, right] ∧
      left.kind ≠ .assignmentExpression
  | _ => True

theorem Grouped.of_isPlain {kind : Kind} (h : kind.isPlain) (children : List Element) :
    Grouped kind children := by
  revert h
  cases kind <;> first | exact fun _ => trivial | exact fun h => absurd h (by decide)

/-- Every node in the element is grouped. -/
inductive IsGrouped : Element → Prop where
  | token (t : Token) : IsGrouped (.token t)
  | node {kind : Kind} {children : List Element} : Grouped kind children →
    (∀ e ∈ children, IsGrouped e) →
      IsGrouped (.node kind children)

namespace IsGrouped

variable {kind : Kind} {children : List Element}

theorem here (h : (Element.node kind children).IsGrouped) : Grouped kind children := by
  cases h with
  | node hgrouped _ => exact hgrouped

theorem child (h : (Element.node kind children).IsGrouped) {e : Element} (he : e ∈ children) :
    e.IsGrouped := by
  cases h with
  | node _ hall => exact hall e he

end IsGrouped

end Element

end AutoProperty
