import AutoProperty.Syntax.Expression

/-! # Statements

Blocks and the statements in them. Statements share one nesting budget with the expressions they
hold.
-/

namespace AutoProperty

namespace Production

/-- An initial value: `=` and an expression. -/
def equalsValue? (expression : Production Element) : Production (List Element) := do
  match ← take? .equalsToken with
  | some equals => return [.node .equalsValueClause [equals, ← expression]]
  | none => return []

def declarator (expression : Production Element) : Production Element := do
  let name ← expect .identifierToken
  return .node .variableDeclarator (name :: (← equalsValue? expression))

def variableDeclaration (expression : Production Element) (type : Element) :
    Production Element := do
  return .node .variableDeclaration (type :: (← separated (declarator expression)))

def block (statement : Production (List Element)) : Production Element := do
  let opening ← expect .openBraceToken
  let statements ← itemsBefore (· == .closeBraceToken) do
    let (made, moved) ← progress statement
    if moved then
      return made
    else
      return made ++ (← skip .expectedStatement)
  return .node .block (opening :: statements ++ [← expect .closeBraceToken])

/-- The statement of a condition. If there is none, an empty one stands in. -/
def embedded (statement : Production (List Element)) : Production (List Element) := do
  let (made, moved) ← progress statement
  if moved then
    return made
  else
    complain .expectedEmbeddedStatement
    return made ++ [.node .emptyStatement [.token (.missing .semicolonToken)]]

/-- What follows `if`: a condition, a statement, and perhaps another one behind `else`. -/
def conditional (statement : Production (List Element)) (expression : Production Element)
    (keyword : Element) : Production Element := do
  let opening ← expect .openParenToken
  let condition ← expression
  let closing ← expect .closeParenToken
  let consequence ← embedded statement
  let alternative ←
    match ← take? .elseKeyword with
    | some keyword => pure [Element.node .elseClause (keyword :: (← embedded statement))]
    | none => pure []
  return .node .ifStatement
    ([keyword, opening, condition, closing] ++ consequence ++ alternative)

/-- What follows `return`. -/
def returned (expression : Production Element) (keyword : Element) : Production Element := do
  let value ←
    if (← lookKind) == .semicolonToken then
      pure []
    else
      pure [← expression]
  return .node .returnStatement (keyword :: value ++ [← expect .semicolonToken])

def localDeclaration (expression : Production Element) : Production Element := do
  let declaration ← variableDeclaration expression (← type)
  return .node .localDeclarationStatement [declaration, ← expect .semicolonToken]

/-- An expression as a statement. If no token could be read, the semicolon is not asked for. -/
def expressionStatement (expression : Production Element) : Production Element := do
  let (value, moved) ← progress expression
  if moved then
    return .node .expressionStatement [value, ← expect .semicolonToken]
  else
    return .node .expressionStatement [value]

/-- A statement by the token it starts with. At the end of a block there is none. -/
def statementOf (statement : Production (List Element)) (expression : Production Element) :
    Production (List Element) := do
  match ← take? .semicolonToken with
  | some semicolon => return [.node .emptyStatement [semicolon]]
  | none =>
  match ← take? .returnKeyword with
  | some keyword => return [← returned expression keyword]
  | none =>
  match ← take? .ifKeyword with
  | some keyword => return [← conditional statement expression keyword]
  | none =>
  let ahead ← look
  if kindAt 0 ahead == .openBraceToken then
    return [← block statement]
  else if startsLocalDeclaration ahead then
    return [← localDeclaration expression]
  else if kindAt 0 ahead == .closeBraceToken || ahead.isEmpty then
    return []
  else
    return [← expressionStatement expression]

/-- A statement that may nest as deep as the budget says. Beyond that, a token is set aside. -/
def statement : Nat → Production (List Element)
  | 0 => do
    complain .nestingTooDeep
    skip .statementNesting
  | budget + 1 => statementOf (statement budget) (expression budget)

end Production

end AutoProperty
