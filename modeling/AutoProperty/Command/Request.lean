import AutoProperty.Command.Arguments
import AutoProperty.Command.Report
import AutoProperty.Command.Settings
import AutoProperty.Fix.Transaction

/-! # Requests

A request is one run of the command with all paths made absolute. The files are the documents of one
project, the fix is applied to it, and the report holds the files that changed.
-/

namespace AutoProperty

structure Request where
  /-- The file of the field first, then that of the property, then all others, each once. -/
  files : List String
  property : SourcePosition
  field : SourcePosition
  options : FixOptions

def SourcePosition.seenFrom (p : SourcePosition) (directory : String) : SourcePosition :=
  { p with file := Path.normalize directory p.file }

/-- The request that arguments and settings make in a directory. A switch wins over the settings. -/
def Request.ofArguments (arguments : Arguments) (settings : Settings) (directory : String) :
    Request :=
  let property := arguments.property.seenFrom directory
  let field := arguments.field.seenFrom directory
  let others := (settings.files ++ arguments.files).map (Path.normalize directory)
  { files := (field.file :: property.file :: others).eraseDups
    property, field
    options := {
      moveInitializer := settings.fix.moveInitializer && !arguments.noMoveInitializer
      format := settings.fix.format && !arguments.noFormat } }

/-- Why a run fails. -/
inductive RunError where
  | unreadable (path : String) (error : FileError)
  | unwritable (path : String) (error : FileError)
  | notInProject (path : String)
  | pastEnd (position : SourcePosition)
  | solution (error : SolutionError)
  /-- The rename of the field would change what names mean; each conflict comes with its file. -/
  | conflicts (field : SourcePosition) (found : List (String × RenameConflict))
  | fix (property : SourcePosition) (error : FixError)

/-- The files of a request as the documents of one project. -/
structure LoadedProject where
  solution : Solution
  documents : List (String × DocumentId)

namespace LoadedProject

def addFiles (project : ProjectId) (loaded : LoadedProject) :
    List (String × String) → SolutionM LoadedProject
  | [] => return loaded
  | (path, text) :: files => do
    let (solution, id) ← loaded.solution.addDocument project path text
    addFiles project ⟨solution, loaded.documents ++ [(path, id)]⟩ files

def ofFiles (files : List (String × String)) : SolutionM LoadedProject := do
  let (solution, project) ← Solution.empty.addProject "propfix"
  addFiles project ⟨solution, []⟩ files

/-- The path of a document; a document without one is shown by its number. -/
def pathOf (loaded : LoadedProject) (id : DocumentId) : String :=
  match loaded.documents.find? (·.2 == id) with
  | some (path, _) => path
  | none => id.display

/-- The place that a position means, as an empty span. -/
def location (loaded : LoadedProject) (position : SourcePosition) : Except RunError Location := do
  let some id := loaded.documents.lookup position.file | throw (.notInProject position.file)
  let some document := loaded.solution.document? id | throw (.notInProject position.file)
  match document.lines.offset? ⟨position.line - 1, position.column - 1⟩ with
  | some offset => return ⟨id, ⟨offset, offset⟩⟩
  | none => throw (.pastEnd position)

end LoadedProject

def Request.fixFailure (request : Request) (loaded : LoadedProject) : FixError → RunError
  | .rename (.conflicts found) =>
    .conflicts request.field (found.map fun c => (loaded.pathOf c.document, c))
  | e => .fix request.property e

def Request.reportOn (request : Request) (cancelled : Bool) (files : List (String × String)) :
    ExceptT RunError StoreM Report := do
  let loaded ← ExceptT.adapt .solution (LoadedProject.ofFiles files)
  let property ← ExceptT.mk (pure (loaded.location request.property))
  let field ← ExceptT.mk (pure (loaded.location request.field))
  let outcome ← ExceptT.adapt (request.fixFailure loaded) (loaded.solution.applyFix
    (.workspace cancelled) (.ofLocations property field) request.options)
  let changed := outcome.changed.filterMap fun id =>
    (outcome.solution.document? id).map fun d => ⟨loaded.pathOf id, d.text⟩
  return ⟨outcome.path, changed⟩

section

variable {m : Type → Type} [Monad m]

def Files.readAll (files : Files m) : List String → ExceptT RunError m (List (String × String))
  | [] => return []
  | path :: paths => do
    match ← files.read path with
    | .error e => throw (.unreadable path e)
    | .ok text => return (path, text) :: (← files.readAll paths)

def Request.run (request : Request) (files : Files m) (cancelled : Bool) :
    ExceptT RunError m Report := do
  let sources ← files.readAll request.files
  ExceptT.mk (pure ((request.reportOn cancelled sources).run.run .empty).1)

def Files.writeAll (files : Files m) : List ChangedFile → ExceptT RunError m Unit
  | [] => return
  | file :: rest => do
    match ← files.write file.path file.text with
    | .error e => throw (.unwritable file.path e)
    | .ok () => files.writeAll rest

end

end AutoProperty
