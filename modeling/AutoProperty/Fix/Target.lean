import AutoProperty.Fix.Error

/-! # Targets

A target is a declaration that the fix works on: a field's declarator or a property. It is found
from a place in the source, and, once the trees have changed, again by the key of its symbol.
-/

namespace AutoProperty

structure Location where
  document : DocumentId
  span : Span
deriving DecidableEq

/-- A declaration and the symbol it declares, in one compilation. -/
structure Target where
  role : Role
  document : DocumentId
  node : NodeId
  /-- The place of the declaration without the trivia at its ends. -/
  span : Span
  symbol : Symbol

/-- What is left of a target when the trees change. -/
structure TargetKey where
  role : Role
  document : DocumentId
  key : Key

def Target.stable (t : Target) : TargetKey :=
  ⟨t.role, t.document, t.symbol.key⟩

namespace Compilation

/-- The innermost declaration around a place that has the role. -/
def locate (c : Compilation) (role : Role) (location : Location) : Except FixError Target := do
  let some tree := c.tree? location.document
    | throw (.missingDocument location.document)
  let some node := tree.covering? location.span role.declarationKind
    | throw (.unexpectedSyntax location.document location.span role.declarationKind)
  match c.declared? location.document (tree.nodeId node) with
  | some symbol =>
    if symbol.kind ≠ role.symbolKind then
      throw (.missingSymbol role location.document location.span)
    return ⟨role, location.document, tree.nodeId node, node.span, symbol⟩
  | none => throw (.missingSymbol role location.document location.span)

def relocate (c : Compilation) (stable : TargetKey) : Except FixError Target := do
  if (c.tree? stable.document).isNone then
    throw (.missingDocument stable.document)
  let some symbol := c.symbolByKey? stable.key
    | throw (.lostSymbol stable.role stable.key)
  let found? := do
    let declaration ← symbol.data.declarations.head?
    let tree ← c.tree? declaration.place.document
    let focus ← tree.node? ⟨tree.id, declaration.place.index⟩
    return (⟨stable.role, declaration.place.document, tree.nodeId focus.node, focus.node.span,
      symbol⟩ : Target)
  match found? with
  | some target => return target
  | none => throw (.missingDeclaration stable.role stable.key)

end Compilation

/-- Accepts a reference that means `property` of the compilation `c`: that is what the fix
wants. All other references are left to the ordinary check. -/
def acceptProperty (property : Symbol) (c : Compilation) : Judge := fun candidates _ =>
  let meansProperty := candidates.any fun candidate =>
    candidate.kind == .property && (c.symbolByKey? candidate.key).any (·.same property)
  if meansProperty then .noConflict else .byDefault

end AutoProperty
