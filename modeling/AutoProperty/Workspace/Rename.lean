import AutoProperty.Symbol.References
import AutoProperty.Syntax.Identifier
import AutoProperty.Text.Replace
import AutoProperty.Workspace.Solution

/-! # Rename

A rename gives another name to the references of a symbol that its options keep, binds the
result and checks that every renamed reference still means what it meant. The options may judge
a reference themselves: a caller can accept a changed meaning that it wants.
-/

namespace AutoProperty

/-! ## Options and errors -/

/-- What a judge says about one renamed reference. -/
inductive Verdict where
  | noConflict
  | conflict
  /-- The reference must mean the renamed symbol and nothing else. -/
  | byDefault
deriving DecidableEq

/-- Judges the symbols that a renamed reference means in the new compilation. -/
abbrev Judge := List Symbol → Compilation → Verdict

structure RenameOptions where
  /-- The references to rename. -/
  keeps : Reference → Bool := fun _ => true
  judge? : Option Judge := none

def RenameOptions.verdict (options : RenameOptions) (candidates : List Symbol) (c : Compilation) :
    Verdict :=
  match options.judge? with
  | some judge => judge candidates c
  | none => .byDefault

inductive ConflictKind where
  /-- A renamed reference means something else, or several symbols. -/
  | reference
  /-- The type already has a member with the new name. -/
  | declaration
  /-- A name spelled like the symbol refers to nothing, or to several symbols. -/
  | unresolved
deriving DecidableEq

structure RenameConflict where
  kind : ConflictKind
  document : DocumentId
  /-- The place in the renamed text, or, for an unresolved name, in the text as it was. -/
  span : Span
  /-- What the name refers to, or the members that have the name already. -/
  candidates : List Key
deriving DecidableEq

def ConflictKind.title : ConflictKind → String
  | reference => "reference"
  | declaration => "declaration"
  | unresolved => "unresolved name"

def RenameConflict.display (c : RenameConflict) : String :=
  let place := c.kind.title ++ " conflict at " ++ c.document.display ++ c.span.display
  if c.candidates.isEmpty then
    place
  else
    place ++ " (binds to " ++ ", ".intercalate (c.candidates.map Key.display) ++ ")"

inductive RenameError where
  | invalidName (name : String)
  | unknownSymbol (key : Key)
  | conflicts (found : List RenameConflict)
  | cancelled
  | solution (error : SolutionError)
deriving DecidableEq

def RenameError.message : RenameError → String
  | invalidName name => "`" ++ name ++ "` is not a valid identifier"
  | unknownSymbol key => "symbol `" ++ key.display ++ "` is not declared in the solution"
  | conflicts found =>
    "rename would introduce " ++ toString found.length ++ " conflict(s)"
  | cancelled => "rename cancelled"
  | solution error => error.message

abbrev RenameM := ExceptT RenameError StoreM

/-- Work on a solution as a part of a rename. -/
def SolutionM.inRename {α : Type} (work : SolutionM α) : RenameM α :=
  ExceptT.adapt .solution work

/-! ## Conflicts -/

/-- Names that might mean the symbol, but would not be renamed. -/
def unresolvedConflicts (c : Compilation) (name : String) : List RenameConflict :=
  (c.unresolvedReferences name).map fun r => ⟨.unresolved, r.document, r.span, []⟩

def clashingMembers (c : Compilation) (s : Symbol) (name : String) : List Symbol :=
  if s.kind.isMember then
    match c.containingType? s with
    | some type => (c.membersNamed type name).filter (!·.same s)
    | none => []
  else
    []

/-- One conflict for each renamed declaration, if the type has the new name already. -/
def declarationConflicts (c : Compilation) (s : Symbol) (name : String)
    (renamed : List Reference) : List RenameConflict :=
  match clashingMembers c s name with
  | [] => []
  | clashing =>
    (renamed.filter (·.isDeclaration)).map fun r =>
      ⟨.declaration, r.document, r.span.wrapped, clashing.map Symbol.key⟩

/-- What a renamed reference means; nothing if no token covers just that place. -/
def candidatesAt (c : Compilation) (r : Reference) : List Symbol :=
  let token? := (c.tree? r.document).bind fun tree =>
    (tree.tokenAt? r.span.start).map fun f => f.leaf
  match token? with
  | some leaf => if leaf.span = r.span then c.boundAt r.document leaf.index else []
  | none => []

def isExpected (expected? : Option Symbol) : List Symbol → Bool
  | [candidate] => expected?.any candidate.same
  | _ => false

/-- The renamed references that no longer mean `expected?`, unless the options accept them. -/
def referenceConflicts (options : RenameOptions) (c : Compilation) (expected? : Option Symbol)
    (renamed : List Reference) : List RenameConflict :=
  (renamed.filter (!·.isDeclaration)).filterMap fun r =>
    let candidates := candidatesAt c r
    let inConflict :=
      match options.verdict candidates c with
      | .noConflict => false
      | .conflict => true
      | .byDefault => !isExpected expected? candidates
    if inConflict then
      some ⟨.reference, r.document, r.span.wrapped, candidates.map Symbol.key⟩
    else
      none

/-! ## The rename -/

/-- References of one document after another; the documents come in the order of their first
reference. -/
def groupByDocument (references : List Reference) : List (DocumentId × List Reference) :=
  let documents := (references.map (·.document)).eraseDups
  documents.map fun d => (d, references.filter (·.document == d))

/-- Renames references document by document. With the new solution come the references at their new
places. -/
def renameDocuments (name : String) (s : Solution) :
    List (DocumentId × List Reference) → RenameM (Solution × List Reference)
  | [] => return (s, [])
  | (id, references) :: groups => do
    match s.document? id with
    | none => throw (.solution (.unknownDocument id))
    | some document =>
      let (text, places) := replaceSpans document.text (references.map (·.span)) name
      let renamed := (references.zip places).filterMap fun (r, place?) =>
        place?.map fun place => { r with span := place }
      let s ← (s.setText id text).inRename
      let (s, others) ← renameDocuments name s groups
      return (s, renamed ++ others)

/-- Renames a symbol and gives the new solution. The symbol may come from an older compilation:
it is looked for by its key. A rename to the name that the symbol has changes nothing. -/
def Solution.rename (s : Solution) (symbol : Symbol) (name : String) (options : RenameOptions)
    (cancelled : Bool) : RenameM Solution := do
  if !isIdentifier name then
    throw (.invalidName name)
  if cancelled then
    throw .cancelled
  let unknown := RenameError.unknownSymbol symbol.key
  let some declaration := symbol.data.declarations.head? | throw unknown
  let some project := s.projectOf? declaration.place.document | throw unknown
  let c ← (s.compilation project).inRename
  let some symbol := c.symbolByKey? symbol.key | throw unknown
  if symbol.name = name then
    return s
  match unresolvedConflicts c symbol.name with
  | [] =>
    let kept := (c.references symbol).filter options.keeps
    let (next, renamed) ← renameDocuments name s (groupByDocument kept)
    let isRenamed := renamed.any (·.isDeclaration)
    let d ← (next.compilation project).inRename
    let expected? := d.symbolByKey? (if isRenamed then symbol.key.renamed name else symbol.key)
    match declarationConflicts c symbol name renamed ++
        referenceConflicts options d expected? renamed with
    | [] => return next
    | found => throw (.conflicts found)
  | found => throw (.conflicts found)

end AutoProperty
