import AutoProperty.Fix.AutoAccessor
import AutoProperty.Fix.Target
import AutoProperty.Syntax.Elastic

/-! # Splice

The splice takes the field out of its document and makes the property automatic. In one document
both edits are one batch; in two documents both trees are edited before either document changes.
-/

namespace AutoProperty

/-- The choices that a user of the fix has. -/
structure FixOptions where
  /-- Put the initializer of the field behind the property. -/
  moveInitializer : Bool := true
  /-- Tidy the blank lines that the field leaves behind. -/
  format : Bool := true
deriving DecidableEq

inductive SplicePath where
  | sameDocument | crossDocument
deriving DecidableEq

/-- What goes away with the field, and what the field starts with. -/
structure FieldRemoval where
  target : NodeId
  initializer? : Option Node

/-- The directives that pair with something outside the field are kept, and the place is marked for
tidying. -/
def fieldKeep : KeepOptions :=
  { directives := true, marker := true }

/-- The expression behind the `=` of a declarator. -/
def initializerOf? (declarator : PlacedNode) : Option Node := do
  let clause ← declarator.child? .equalsValueClause
  let expression ← clause.childNodes.head?
  return expression.node

/-- A lone declarator takes its field declaration with it; one of several goes alone. -/
def FieldRemoval.plan (tree : Tree) (field : Target) : Except FixError FieldRemoval := do
  let unexpected := FixError.unexpectedSyntax field.document field.span
  let some focus := (tree.node? field.node).filter (·.node.kind == .variableDeclarator)
    | throw (unexpected .variableDeclarator)
  let some declaration := focus.above[0]?.filter (·.kind == .variableDeclaration)
    | throw (unexpected .variableDeclaration)
  let some whole := focus.above[1]?.filter (·.kind == .fieldDeclaration)
    | throw (unexpected .fieldDeclaration)
  let isAlone := (declaration.childrenOf .variableDeclarator).length ≤ 1
  return {
    target := if isAlone then tree.nodeId whole else field.node
    initializer? := initializerOf? focus.node }

def propertyReplacement (tree : Tree) (property : Target) (initializer? : Option Node) :
    Except FixError Node := do
  let unexpected := FixError.unexpectedSyntax property.document property.span
  let some focus := (tree.node? property.node).filter (·.node.kind == .propertyDeclaration)
    | throw (unexpected .propertyDeclaration)
  let some replacement := focus.node.node.autoProperty? initializer?
    | throw (unexpected .accessorList)
  return replacement

/-- The root that edits make of a tree, tidied if the options say so. -/
def FixOptions.edited (options : FixOptions) (tree : Tree) (edits : List Edit) :
    Except FixError Node := do
  let root ← (EditBatch.apply ⟨tree.id, edits⟩ tree).mapError .edit
  return if options.format then root.collapseElastic else root

namespace Solution

/-- The tree of a document in a compilation, which must be the one that the solution has. -/
def currentTree (s : Solution) (c : Compilation) (id : DocumentId) : Except FixError Tree := do
  let some tree := c.tree? id | throw (.missingDocument id)
  let some document := s.document? id | throw (.missingDocument id)
  if document.tree.id ≠ tree.id then
    throw (.edit (.staleNode document.tree.id tree.id))
  return tree

def splicedRoots (s : Solution) (c : Compilation) (field property : Target)
    (options : FixOptions) : Except FixError (List (DocumentId × Node)) := do
  let fieldTree ← s.currentTree c field.document
  let propertyTree ← s.currentTree c property.document
  let removal ← FieldRemoval.plan fieldTree field
  let initializer? := if options.moveInitializer then removal.initializer? else none
  let replacement ← propertyReplacement propertyTree property initializer?
  let remove := Edit.remove removal.target fieldKeep
  let replace := Edit.replace property.node replacement
  if field.document = property.document then
    return [(field.document, ← options.edited fieldTree [remove, replace])]
  else
    return [(field.document, ← options.edited fieldTree [remove]),
      (property.document, ← options.edited propertyTree [replace])]

def setRoots (s : Solution) : List (DocumentId × Node) → SolutionM Solution
  | [] => return s
  | (id, root) :: roots => do
    let s ← s.setRoot id root
    s.setRoots roots

/-- Joins the field and the property. Both must come from the compilation, and the solution must
still have its trees. -/
def splice (s : Solution) (c : Compilation) (field property : Target) (options : FixOptions) :
    ExceptT FixError StoreM (Solution × SplicePath) := do
  let roots ← ExceptT.mk (pure (s.splicedRoots c field property options))
  let next ← ExceptT.adapt .solution (s.setRoots roots)
  return (next, if field.document = property.document then .sameDocument else .crossDocument)

end Solution

end AutoProperty
