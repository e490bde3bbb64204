import AutoProperty.Syntax.TypeName

/-! # Expressions

Expressions by strength of binding: assignment, which groups to the right, over six levels of binary
operators, which group to the left, over prefix operators, over calls and member accesses. How deep
expressions nest is bounded by a budget; where it is used up, a missing name stands in.
-/

namespace AutoProperty

namespace Production

def missingExpression : Production Element := do
  complain .expectedExpression
  return .node .identifierName [.token (.missing .identifierToken)]

def tooDeep : Production Element := do
  complain .nestingTooDeep
  missingExpression

def argumentList (expression : Production Element) : Production Element := do
  let opening ← expect .openParenToken
  let arguments ←
    if (← lookKind) == .closeParenToken then
      pure []
    else
      separated do return .node .argument [← expression]
  let closing ← expect .closeParenToken
  return .node .argumentList (opening :: arguments ++ [closing])

def isLiteral : Kind → Bool
  | .numericLiteralToken | .stringLiteralToken | .characterLiteralToken | .trueKeyword
  | .falseKeyword | .nullKeyword => true
  | _ => false

def singleTokenExpression? (kind : Kind) : Option Kind :=
  if kind == .identifierToken then some .identifierName
  else if isLiteral kind then some .literalExpression
  else if kind == .thisKeyword then some .thisExpression
  else if kind.isPredefinedType then some .predefinedType
  else none

/-- What follows `new`: a type and arguments. -/
def objectCreation (expression : Production Element) (new : Element) : Production Element := do
  let type ←
    if startsType (← lookKind) then
      pure [← type]
    else do
      complain .expectedTypeAfterNew
      pure []
  let arguments ←
    if (← lookKind) == .openParenToken then
      pure [← argumentList expression]
    else do
      complain .expectedArgumentList
      pure []
  return .node .objectCreationExpression (new :: type ++ arguments)

/-- An expression that no operator takes apart, if one is ahead. -/
def primary? (expression : Production Element) : Production (Option Element) := do
  match singleTokenExpression? (← lookKind) with
  | some kind => return (← takeIf? fun _ => true).map fun taken => .node kind [taken]
  | none =>
    match ← take? .newKeyword with
    | some new => return some (← objectCreation expression new)
    | none =>
      match ← take? .openParenToken with
      | some opening =>
        let inner ← expression
        return some (.node .parenthesizedExpression [opening, inner, ← expect .closeParenToken])
      | none => return none

def isStep (kind : Kind) : Bool :=
  kind == .plusPlusToken || kind == .minusMinusToken

/-- What can follow an expression to make another: a member, arguments, or a step up or down. -/
def postfixPart (expression : Production Element) (inner : Element) :
    Production (Option Element) := do
  match ← take? .dotToken with
  | some dot => return some (.node .memberAccessExpression [inner, dot, ← simpleName])
  | none =>
    if (← lookKind) == .openParenToken then
      return some (.node .invocationExpression [inner, ← argumentList expression])
    else
      match ← takeIf? isStep with
      | some step => return some (.node .postfixUnaryExpression [inner, step])
      | none => return none

def operand (expression : Production Element) : Production Element := do
  match ← primary? expression with
  | some inner => iterate (postfixPart expression) inner
  | none => missingExpression

def isPrefixOperator (kind : Kind) : Bool :=
  kind == .exclamationToken || kind == .minusToken || kind == .plusToken || isStep kind

/-- The binary operators by how strongly they bind, the weakest first. -/
def binaryLevels : List (List Kind) :=
  [[.barBarToken],
   [.ampersandAmpersandToken],
   [.equalsEqualsToken, .exclamationEqualsToken],
   [.lessThanToken, .greaterThanToken, .lessThanEqualsToken, .greaterThanEqualsToken],
   [.plusToken, .minusToken],
   [.asteriskToken, .slashToken, .percentToken]]

/-- Operands with operators of the given levels between them. Operators of one level group to the
left, and those of later levels bind more strongly. -/
def binary (operand : Production Element) : List (List Kind) → Production Element
  | [] => operand
  | operators :: stronger => do
    iterate (fun left => do
      match ← takeIf? operators.contains with
      | some operator =>
        return some (.node .binaryExpression [left, operator, ← binary operand stronger])
      | none => return none) (← binary operand stronger)

def isAssignment (kind : Kind) : Bool :=
  kind == .equalsToken || kind == .plusEqualsToken || kind == .minusEqualsToken

/-- An assignment, or what could stand on its left; `right` reads its right side. -/
def assignment (operand right : Production Element) : Production Element := do
  let left ← binary operand binaryLevels
  match ← takeIf? isAssignment with
  | some operator => return .node .assignmentExpression [left, operator, ← right]
  | none => return left

/-- An operand, perhaps with prefix operators; `prefixed` reads one that has them. -/
def unaryOr (prefixed expression : Production Element) : Production Element := do
  if isPrefixOperator (← lookKind) then
    prefixed
  else
    operand expression

def prefixUnary (operand : Production Element) : Production Element := do
  match ← takeIf? isPrefixOperator with
  | some operator => return .node .prefixUnaryExpression [operator, ← operand]
  | none => operand

mutual

def expression : Nat → Production Element
  | 0 => tooDeep
  | budget + 1 => assignment (unary budget) (expression budget)

/-- An operand of binary operators. Each prefix operator takes one from the budget. -/
def unary : Nat → Production Element
  | 0 => unaryOr tooDeep tooDeep
  | budget + 1 =>
    unaryOr (prefixUnary (unary budget)) (assignment (unary budget) (expression budget))

end

end Production

end AutoProperty
