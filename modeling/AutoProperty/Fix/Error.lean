import AutoProperty.Syntax.Edit
import AutoProperty.Workspace.Rename

/-! # Errors of the fix

Everything that can stop the fix. Some errors mean that the fix was asked for something that
makes no sense, such as a place without a field; the others are ordinary, such as a rename that
would change what a name means.
-/

namespace AutoProperty

/-- The two declarations that the fix joins into one. -/
inductive Role where
  | field | property
deriving DecidableEq

namespace Role

def name : Role → String
  | field => "field"
  | property => "property"

def declarationKind : Role → Kind
  | field => .variableDeclarator
  | property => .propertyDeclaration

def symbolKind : Role → SymbolKind
  | field => .field
  | property => .property

end Role

inductive FixError where
  | unsupportedDiagnostic (id : String)
  | missingDocument (document : DocumentId)
  /-- The place does not lie in a node of the expected kind. -/
  | unexpectedSyntax (document : DocumentId) (span : Span) (expected : Kind)
  | missingSymbol (role : Role) (document : DocumentId) (span : Span)
  /-- The symbol was not found again after the rename. -/
  | lostSymbol (role : Role) (key : Key)
  | missingDeclaration (role : Role) (key : Key)
  | projectMismatch (field property : ProjectId)
  | rename (error : RenameError)
  | edit (error : EditError)
  | solution (error : SolutionError)
  | cancelled

namespace FixError

def message : FixError → String
  | unsupportedDiagnostic id => "diagnostic `" ++ id ++ "` is not handled by this fix"
  | missingDocument document => "document " ++ document.display ++ " is not part of the solution"
  | unexpectedSyntax document span expected =>
    "expected " ++ expected.name ++ " at " ++ document.display ++ span.display
  | missingSymbol role document span =>
    "no " ++ role.name ++ " symbol declared at " ++ document.display ++ span.display
  | lostSymbol role key =>
    role.name ++ " `" ++ key.display ++ "` could not be found after the rename"
  | missingDeclaration role key =>
    role.name ++ " `" ++ key.display ++ "` has no declaring syntax"
  | projectMismatch field property =>
    "field is in " ++ field.display ++ " but property is in " ++ property.display
  | rename error => error.message
  | edit error => error.message
  | solution error => error.message
  | cancelled => "fix cancelled"

/-- The error means that what the fix was given does not fit together. -/
def isContractViolation : FixError → Bool
  | unsupportedDiagnostic _ | rename _ | cancelled => false
  | _ => true

end FixError

end AutoProperty
