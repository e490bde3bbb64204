import AutoProperty.Command.Files
import AutoProperty.Command.Path
import AutoProperty.Fix.Splice
import AutoProperty.Json5.Reader

/-! # Settings

The settings file of a project: options of the fix and further source files, in JSON5. The
nearest one above the working directory counts, unless one is named.
-/

namespace AutoProperty

structure Settings where
  fix : FixOptions := {}
  /-- Further source files, seen from the directory of the settings file. -/
  files : List String := []
deriving DecidableEq

namespace Settings

def fileName : String := "propfix.json"

/-- Reads a value if it is there; else it is the default. -/
def read? {α : Type} (reader : Json5.Value → Option α) (default : α) :
    Option Json5.Value → Option α
  | some value => reader value
  | none => some default

def options? (value : Json5.Value) : Option FixOptions := do
  match ← value.record? ["moveInitializer", "format"] with
  | [moveInitializer, format] =>
    return {
      moveInitializer := ← read? Json5.Value.boolean? true moveInitializer
      format := ← read? Json5.Value.boolean? true format }
  | _ => none

def texts? (value : Json5.Value) : Option (List String) := do
  (← value.array?).mapM Json5.Value.string?

def ofValue? (value : Json5.Value) : Option Settings := do
  match ← value.record? ["fix", "files"] with
  | [fix, files] =>
    return {
      fix := ← read? options? {} fix
      files := ← read? texts? [] files }
  | _ => none

def parse? (text : String) : Option Settings := do
  ofValue? (← Json5.parse? text)

def parseFailure : String := "failed to parse propfix.json"

/-- The settings with all files seen from `directory`. -/
def seenFrom (settings : Settings) (directory : String) : Settings :=
  { settings with files := settings.files.map (Path.join directory) }

end Settings

inductive SettingsError where
  | unreadable (path : String) (error : FileError)
  | malformed (path : String)

section

variable {m : Type → Type} [Monad m]

def Files.loadSettings (files : Files m) (path : String) : ExceptT SettingsError m Settings := do
  match ← files.read path with
  | .error e => throw (.unreadable path e)
  | .ok text =>
    match Settings.parse? text with
    | some settings => return settings.seenFrom (Path.parent path)
    | none => throw (.malformed path)

def Files.firstFile (files : Files m) : List String → m (Option String)
  | [] => return none
  | path :: paths => do
    if ← files.isFile path then
      return some path
    else
      files.firstFile paths

/-- The settings that count in a directory: those of the named file, else of the nearest one, else
the defaults. -/
def Files.settings (files : Files m) (named? : Option String) (directory : String) :
    ExceptT SettingsError m Settings := do
  let path? ← match named? with
    | some path => pure (some (Path.join directory path))
    | none =>
      files.firstFile ((Path.ancestors directory).map (Path.join · Settings.fileName))
  match path? with
  | some path => files.loadSettings path
  | none => return {}

end

end AutoProperty
