import AutoProperty.Syntax.Statement

/-! # Declarations

Members, types and namespaces. What a member is shows only behind its modifiers and its type, so
those are read first and then put into the node that fits.
-/

namespace AutoProperty

namespace Production

/-- How deep statements and expressions may nest within a member. -/
def nestingLimit : Nat := 256

def memberExpression : Production Element :=
  expression nestingLimit

def memberBlock : Production Element :=
  block (statement nestingLimit)

/-- The next token as a modifier. `partial` is one only in front of a type or `void`. -/
def modifierKind? (ahead : List Lexeme) : Option Kind :=
  let kind := kindAt 0 ahead
  let follower := kindAt 1 ahead
  if kind.isModifier then
    some kind
  else if kind == .identifierToken && ahead.head?.map Lexeme.text == some "partial" &&
      (follower == .classKeyword || follower == .structKeyword || follower == .voidKeyword) then
    some .partialKeyword
  else
    none

/-- Any number of tokens, each under the kind that `choose` gives it. -/
def takeAll (choose : List Lexeme → Option Kind) : Production (List Element) :=
  iterate (fun taken => do return (← takeAs? choose).map (taken ++ [·])) []

def arrowBody? : Production (Option (List Element)) := do
  match ← take? .equalsGreaterThanToken with
  | some arrow =>
    let clause := Element.node .arrowExpressionClause [arrow, ← memberExpression]
    return some [clause, ← expect .semicolonToken]
  | none => return none

/-- The body of a method or an accessor: a block, a value behind an arrow, or just a semicolon. -/
def body : Production (List Element) := do
  match ← arrowBody? with
  | some parts => return parts
  | none =>
    if (← lookKind) == .openBraceToken then
      return [← memberBlock]
    else
      return [← expect .semicolonToken]

def parameter : Production Element := do
  let type ←
    if startsType (← lookKind) then
      pure [← type]
    else do
      complain .expectedParameterType
      pure []
  return .node .parameter (type ++ [← expect .identifierToken])

def parameterList : Production Element := do
  let opening ← expect .openParenToken
  let parameters ←
    if (← lookKind) == .closeParenToken then
      pure []
    else
      separated parameter
  return .node .parameterList (opening :: parameters ++ [← expect .closeParenToken])

def accessorOf? (word : String) : Option (Kind × Kind) :=
  match word with
  | "get" => some (.getAccessorDeclaration, .getKeyword)
  | "set" => some (.setAccessorDeclaration, .setKeyword)
  | "init" => some (.initAccessorDeclaration, .initKeyword)
  | _ => none

def accessorAhead? (ahead : List Lexeme) : Option (Kind × Kind) :=
  match ahead.dropWhile (·.kind.isAccessibility) with
  | [] => none
  | word :: _ => if word.kind == .identifierToken then accessorOf? word.text else none

/-- The next token as a keyword that limits who may use a member. -/
def accessibilityKind? (ahead : List Lexeme) : Option Kind :=
  if (kindAt 0 ahead).isAccessibility then some (kindAt 0 ahead) else none

/-- The accessor that was found ahead. Without one, a token is set aside. -/
def accessorFound : Option (Kind × Kind) → Production (List Element)
  | none => skip .expectedAccessor
  | some (kind, keywordKind) => do
    let modifiers ← takeAll accessibilityKind?
    let keyword ← takeAs? fun _ => some keywordKind
    return [.node kind (modifiers ++ keyword.toList ++ (← body))]

def accessor : Production (List Element) := do
  accessorFound (accessorAhead? (← look))

def accessorList : Production Element := do
  let opening ← expect .openBraceToken
  let accessors ← itemsBefore (· == .closeBraceToken) accessor
  return .node .accessorList (opening :: accessors ++ [← expect .closeBraceToken])

/-- What follows the name of a property with accessors: the list of them, and perhaps an initial
value. -/
def accessorBody : Production (List Element) := do
  let accessors ← accessorList
  match ← take? .equalsToken with
  | some equals =>
    let clause := Element.node .equalsValueClause [equals, ← memberExpression]
    return [accessors, clause, ← expect .semicolonToken]
  | none => return [accessors]

def methodBody : Production (List Element) := do
  let parameters ← parameterList
  return parameters :: (← body)

/-- A member behind its modifiers and its type, by what follows its name. Everything that is neither
a method nor a property is a field. -/
def memberFollowedBy (follower : Kind) (modifiers : List Element) (type : Element) :
    Production Element := do
  match follower with
  | .openParenToken =>
    let name ← expect .identifierToken
    return .node .methodDeclaration (modifiers ++ [type, name] ++ (← methodBody))
  | .openBraceToken =>
    let name ← expect .identifierToken
    return .node .propertyDeclaration (modifiers ++ [type, name] ++ (← accessorBody))
  | .equalsGreaterThanToken =>
    let name ← expect .identifierToken
    return .node .propertyDeclaration
      (modifiers ++ [type, name] ++ ((← arrowBody?).getD []))
  | _ =>
    let declaration ← variableDeclaration memberExpression type
    return .node .fieldDeclaration (modifiers ++ [declaration, ← expect .semicolonToken])

def followerAhead (ahead : List Lexeme) : Kind :=
  if kindAt 0 ahead == .identifierToken then kindAt 1 ahead else .badToken

def typedMember (modifiers : List Element) (type : Element) : Production Element := do
  memberFollowedBy (followerAhead (← look)) modifiers type

def typeDeclarationKind (keyword : Element) : Kind :=
  if keyword.kind == .classKeyword then .classDeclaration else .structDeclaration

/-- A type behind its modifiers and its keyword; `member` reads what it holds. -/
def typeDeclaration (member : Production (List Element)) (modifiers : List Element)
    (keyword : Element) : Production Element := do
  let name ← expect .identifierToken
  let opening ← expect .openBraceToken
  let members ← itemsBefore (· == .closeBraceToken) member
  let closing ← expect .closeBraceToken
  let semicolon ← take? .semicolonToken
  return .node (typeDeclarationKind keyword)
    (modifiers ++ [keyword, name, opening] ++ members ++ closing :: semicolon.toList)

/-- A member behind its modifiers; `nested` reads the members of a type in it. -/
def modifiedMember (nested : Production (List Element)) (modifiers : List Element) :
    Production (List Element) := do
  match ← takeIf? fun kind => kind == .classKeyword || kind == .structKeyword with
  | some keyword => return [← typeDeclaration nested modifiers keyword]
  | none =>
    let ahead ← look
    if kindAt 0 ahead == .identifierToken && kindAt 1 ahead == .openParenToken then
      let name ← expect .identifierToken
      return [.node .constructorDeclaration (modifiers ++ name :: (← methodBody))]
    else if startsType (kindAt 0 ahead) then
      return [← typedMember modifiers (← type)]
    else if modifiers.isEmpty then
      skip .expectedMember
    else
      complain .modifiersWithoutMember
      return [.node .skippedTokens modifiers]

/-- A member of a type or a namespace; `nested` reads the members of a type in it. -/
def memberOf (nested : Production (List Element)) : Production (List Element) := do
  modifiedMember nested (← takeAll modifierKind?)

/-- A member whose types nest at most as deep as the budget says. -/
def member : Nat → Production (List Element)
  | 0 => skip .expectedMember
  | budget + 1 => memberOf (member budget)

/-- What follows `using`. -/
def usingDirective (keyword : Element) : Production Element := do
  let name ← name
  return .node .usingDirective [keyword, name, ← expect .semicolonToken]

/-- What follows `namespace`: members in braces, or a semicolon and all members to the end. -/
def namespaceDeclaration (member : Production (List Element)) (keyword : Element) :
    Production Element := do
  let name ← name
  match ← take? .semicolonToken with
  | some semicolon =>
    let members ← itemsBefore (fun _ => false) member
    return .node .fileScopedNamespaceDeclaration ([keyword, name, semicolon] ++ members)
  | none =>
    let opening ← expect .openBraceToken
    let members ← itemsBefore (· == .closeBraceToken) member
    return .node .namespaceDeclaration
      ([keyword, name, opening] ++ members ++ [← expect .closeBraceToken])

/-- A member of a namespace or of the whole text, with the same budget for types and namespaces. -/
def namespaceMember : Nat → Production (List Element)
  | 0 => skip .expectedMember
  | budget + 1 => do
    match ← take? .namespaceKeyword with
    | some keyword => return [← namespaceDeclaration (namespaceMember budget) keyword]
    | none =>
      match ← take? .usingKeyword with
      | some keyword => return [← usingDirective keyword]
      | none => member (budget + 1)

/-- All members of a text. Each level of nesting takes a token, so the number of tokens bounds the
levels. -/
def allMembers : Production (List Element) := do
  let ahead ← look
  itemsBefore (fun _ => false) (namespaceMember ahead.length)

end Production

end AutoProperty
