import AutoProperty.Syntax.Production

/-! # Names and types

Qualified names, and types: a built-in type or a name, then any number of `?` and `[]`. Reading from
left to right, each further part wraps what was read before it.
-/

namespace AutoProperty

namespace Production

def startsType (kind : Kind) : Bool :=
  kind.isPredefinedType || kind == .identifierToken

def simpleName : Production Element := do
  return .node .identifierName [← expect .identifierToken]

/-- A further part of a qualified name: a point with an identifier right behind it. -/
def nameSuffix (qualifier : Element) : Production (Option Element) := do
  if kindAt 1 (← look) != .identifierToken then
    return none
  match ← take? .dotToken with
  | some dot => return some (.node .qualifiedName [qualifier, dot, ← simpleName])
  | none => return none

/-- An identifier, or several with points between them. -/
def name : Production Element := do
  iterate nameSuffix (← simpleName)

/-- What can follow a type to make another: a question mark, or a pair of brackets. -/
def typeSuffix (inner : Element) : Production (Option Element) := do
  match ← take? .questionToken with
  | some question => return some (.node .nullableType [inner, question])
  | none =>
    if kindAt 1 (← look) != .closeBracketToken then
      return none
    match ← take? .openBracketToken with
    | some opening =>
      return some (.node .arrayType [inner, opening, ← expect .closeBracketToken])
    | none => return none

def type : Production Element := do
  let base ←
    match ← takeIf? Kind.isPredefinedType with
    | some keyword => pure (Element.node .predefinedType [keyword])
    | none => name
  iterate typeSuffix base

/-- What is left behind the further parts of a qualified name. -/
def afterNameSuffixes : List Lexeme → List Lexeme
  | dot :: word :: rest =>
    if dot.kind == .dotToken && word.kind == .identifierToken then
      afterNameSuffixes rest
    else
      dot :: word :: rest
  | ahead => ahead

/-- What is left behind question marks and pairs of brackets. -/
def afterTypeSuffixes : List Lexeme → List Lexeme
  | [] => []
  | first :: rest =>
    if first.kind == .questionToken then
      afterTypeSuffixes rest
    else
      match rest with
      | [] => [first]
      | second :: rest =>
        if first.kind == .openBracketToken && second.kind == .closeBracketToken then
          afterTypeSuffixes rest
        else
          first :: second :: rest

def afterType? : List Lexeme → Option (List Lexeme)
  | [] => none
  | first :: rest =>
    if first.kind.isPredefinedType then
      some (afterTypeSuffixes rest)
    else if first.kind == .identifierToken then
      some (afterTypeSuffixes (afterNameSuffixes rest))
    else
      none

/-- A declaration of locals is ahead: a type, an identifier, and then `=`, `;` or `,`. -/
def startsLocalDeclaration (ahead : List Lexeme) : Bool :=
  match afterType? ahead with
  | some (word :: next :: _) =>
    word.kind == .identifierToken &&
      (next.kind == .equalsToken || next.kind == .semicolonToken || next.kind == .commaToken)
  | _ => false

end Production

end AutoProperty
