import AutoProperty.Fix.Splice

/-! # The fix

A field and the property around it become one automatic property. Both are located, the field is
renamed to the name of the property wherever it is used, both are found again by their keys, and the
splice joins them. A name that now refers to the property is what the rename is for, so it is no
conflict. The solution that is given never changes: each stage makes a new one or fails.

What the stages need of their surroundings are services, so a host can supply its own.
-/

namespace AutoProperty

/-- What the fix asks of its surroundings. -/
structure Services (m : Type → Type) where
  /-- Whether the work is to stop. -/
  isCancelled : m Bool
  compilation : Solution → ProjectId → ExceptT FixError m Compilation
  rename : Solution → Symbol → String → RenameOptions → ExceptT RenameError m Solution

def Services.workspace (cancelled : Bool) : Services StoreM where
  isCancelled := pure cancelled
  compilation s project := ExceptT.adapt .solution (s.compilation project)
  rename s symbol name options := s.rename symbol name options cancelled

/-- What an analyzer found: a property that only wraps a field. -/
structure Finding where
  id : String
  /-- Anywhere in the property; usually its name. -/
  property : Location
  /-- Anywhere in the declarator of the field; usually its name. -/
  field : Location
  equivalenceKey : String

namespace Finding

def handledId : String := "PF0032"

def defaultEquivalenceKey : String := "UseAutoProperty"

def ofLocations (property field : Location) : Finding :=
  ⟨handledId, property, field, defaultEquivalenceKey⟩

def isHandled (f : Finding) : Bool :=
  f.id == handledId

end Finding

/-- An offer to apply the fix. -/
structure CodeAction where
  title : String
  equivalenceKey : String

def Finding.action? (f : Finding) : Option CodeAction :=
  if f.isHandled then some ⟨"Use auto property", f.equivalenceKey⟩ else none

/-- The two declarations in a solution, before the rename and again after it. -/
structure Pair where
  solution : Solution
  compilation : Compilation
  field : Target
  property : Target

/-- The solution after the rename. Handles from before it mean nothing here; only keys do. -/
structure RenamedPair where
  solution : Solution
  field : TargetKey
  property : TargetKey

/-- The references that the rename is to keep: all but those at the declaration of the field. -/
def outside (field : Target) (r : Reference) : Bool :=
  !(r.document == field.document && r.span.touches field.span)

section Stages

variable {m : Type → Type} [Monad m]

def Services.checkCancelled (services : Services m) : ExceptT FixError m Unit := do
  if ← services.isCancelled then
    throw .cancelled

def Solution.ownerOf (s : Solution) (document : DocumentId) : ExceptT FixError m ProjectId :=
  match s.projectOf? document with
  | some project => pure project
  | none => throw (.missingDocument document)

/-- Finds both declarations. They must be in one project. -/
def Services.locatePair (services : Services m) (s : Solution) (f : Finding) :
    ExceptT FixError m Pair := do
  services.checkCancelled
  let fieldProject ← s.ownerOf f.field.document
  let propertyProject ← s.ownerOf f.property.document
  if fieldProject ≠ propertyProject then
    throw (.projectMismatch fieldProject propertyProject)
  let c ← services.compilation s fieldProject
  services.checkCancelled
  let field ← ExceptT.mk (pure (c.locate .field f.field))
  let property ← ExceptT.mk (pure (c.locate .property f.property))
  return ⟨s, c, field, property⟩

/-- Renames the field to the name of the property everywhere but at its own declaration, which must
be left for the splice. -/
def Services.renameField (services : Services m) (pair : Pair) : ExceptT FixError m RenamedPair :=
  do
  services.checkCancelled
  let options : RenameOptions :=
    { keeps := outside pair.field
      judge? := some (acceptProperty pair.property.symbol pair.compilation) }
  let failure : RenameError → FixError
    | .cancelled => .cancelled
    | e => .rename e
  let solution ← ExceptT.adapt failure
    (services.rename pair.solution pair.field.symbol pair.property.symbol.name options)
  return ⟨solution, pair.field.stable, pair.property.stable⟩

def Services.relocatePair (services : Services m) (pair : RenamedPair) : ExceptT FixError m Pair :=
  do
  services.checkCancelled
  let fieldProject ← pair.solution.ownerOf pair.field.document
  let c ← services.compilation pair.solution fieldProject
  let propertyProject ← pair.solution.ownerOf pair.property.document
  if propertyProject ≠ c.project then
    throw (.projectMismatch c.project propertyProject)
  services.checkCancelled
  let field ← ExceptT.mk (pure (c.relocate pair.field))
  let property ← ExceptT.mk (pure (c.relocate pair.property))
  return ⟨pair.solution, c, field, property⟩

end Stages

def Pair.splice (pair : Pair) (options : FixOptions) :
    ExceptT FixError StoreM (Solution × SplicePath) :=
  pair.solution.splice pair.compilation pair.field pair.property options

structure FixOutcome where
  solution : Solution
  path : SplicePath
  /-- The documents whose text differs from what was given. -/
  changed : List DocumentId

def Solution.applyFix {m : Type → Type} [Monad m] [MonadLiftT StoreM m] (s : Solution)
    (services : Services m) (f : Finding) (options : FixOptions) :
    ExceptT FixError m FixOutcome := do
  if !f.isHandled then
    throw (.unsupportedDiagnostic f.id)
  let located ← services.locatePair s f
  let renamed ← services.renameField located
  let pair ← services.relocatePair renamed
  let (solution, path) ← ExceptT.mk (liftM (m := StoreM) (pair.splice options).run)
  return ⟨solution, path, solution.changedSince s⟩

end AutoProperty
