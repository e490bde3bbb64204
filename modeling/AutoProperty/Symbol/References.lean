import AutoProperty.Symbol.Compilation

/-! # References

Where a symbol is declared and mentioned throughout a project, and which names might mention it but
are not bound to one symbol.
-/

namespace AutoProperty

/-- A place that writes the name of a symbol. -/
structure Reference where
  document : DocumentId
  /-- The place of the name. -/
  span : Span
  isDeclaration : Bool
deriving DecidableEq

def isExpressionContext : Kind → Bool
  | .memberAccessExpression | .invocationExpression | .assignmentExpression | .binaryExpression
  | .prefixUnaryExpression | .postfixUnaryExpression | .parenthesizedExpression | .argument
  | .equalsValueClause | .arrowExpressionClause | .returnStatement | .expressionStatement
  | .ifStatement => true
  | _ => false

def TokenFocus.isExpressionName (f : TokenFocus) : Bool :=
  f.leaf.kind == .identifierToken &&
    match f.above with
    | name :: context :: _ => name.kind == .identifierName && isExpressionContext context.kind
    | _ => false

namespace Compilation

/-- Does not come behind another reference: not in a later document, nor further down in the same
one. -/
def precedes (c : Compilation) (a b : Reference) : Bool :=
  match compare (c.documentOrder a.document) (c.documentOrder b.document) with
  | .lt => true
  | .eq => a.span.start ≤ b.span.start
  | .gt => false

/-- Puts a reference in front of the first one that it comes before. -/
def insertInOrder (c : Compilation) (r : Reference) : List Reference → List Reference
  | [] => [r]
  | other :: others =>
    if c.precedes r other then r :: other :: others else other :: c.insertInOrder r others

/-- The references in order. Those at one place stay as they were. -/
def inOrder (c : Compilation) (references : List Reference) : List Reference :=
  references.foldr c.insertInOrder []

/-- The names that refer to a symbol and to no other. They come as they lie in the table of
bindings, not in the order of the text. -/
def mentions (c : Compilation) (id : SymbolId) : List Reference :=
  c.table.boundPlaces.filterMap fun place =>
    if c.table.single? place == some id then do
      let tree ← c.tree? place.document
      let f ← tree.tokens[place.index]?
      return ⟨place.document, f.leaf.span, false⟩
    else
      none

/-- The declarations of a symbol and what mentions it, in document order and each of them once. -/
def arrange (c : Compilation) (s : Symbol) (mentions : List Reference) : List Reference :=
  let declarations := s.data.declarations.map fun d =>
    (⟨d.place.document, d.nameSpan, true⟩ : Reference)
  (c.inOrder (declarations ++ mentions)).eraseReps

/-- Every declaration of a symbol and every name that refers to it alone, in document order. A
symbol of another compilation is looked for by its key. -/
def references (c : Compilation) (s : Symbol) : List Reference :=
  match c.resolve? s with
  | none => []
  | some s => c.arrange s (c.mentions s.id)

/-- The names spelled `name` in expressions that refer to nothing or to several symbols. -/
def unresolvedReferences (c : Compilation) (name : String) : List Reference :=
  c.documents.flatMap fun (document, tree) =>
    tree.tokens.filterMap fun f =>
      if f.isExpressionName && f.leaf.text == name &&
          (c.table.single? ⟨document, f.leaf.index⟩).isNone then
        some ⟨document, f.leaf.span, false⟩
      else
        none

end Compilation

end AutoProperty
