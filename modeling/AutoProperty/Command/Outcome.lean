import AutoProperty.Command.Request

/-! # Outcomes

What the command shows in the end, and how its errors read: a chain of causes, the outermost first.
-/

namespace AutoProperty

/-- A link in a chain of causes. -/
inductive Cause where
  | message (text : String)
  | file (error : FileError)
  /-- The text of a settings file breaks the rules of its format. -/
  | malformedSettings

def SettingsError.chain : SettingsError → List Cause
  | unreadable path error => [.message ("failed to read config: " ++ path), .file error]
  | malformed path =>
    [.message ("failed to parse config: " ++ path), .message Settings.parseFailure,
      .malformedSettings]

def RunError.chain : RunError → List Cause
  | unreadable path error => [.message ("failed to read source file: " ++ path), .file error]
  | unwritable path error => [.message ("failed to write " ++ path), .file error]
  | notInProject path => [.message (path ++ " is not part of the project")]
  | pastEnd position => [.message (position.display ++ " is past the end of the file")]
  | solution error => [.message error.message]
  | conflicts field found =>
    let lines := found.map fun (path, conflict) => "  " ++ path ++ ": " ++ conflict.display
    [.message ("renaming the field at " ++ field.display ++
      " would change what existing code refers to:\n" ++ "\n".intercalate lines)]
  | fix property error =>
    [.message ("cannot use an auto property at " ++ property.display), .message error.message]

namespace Cause

def text : Cause → String
  | message text => text
  | file .notFound => "No such file or directory"
  | file .notADirectory => "Not a directory"
  | file .isADirectory => "Is a directory"
  | file (.other reason) => reason
  | malformedSettings => "the text is not JSON5, or a field has the wrong type"

/-- An error as it is shown: the outermost cause, and below it the others, numbered if there are
several. -/
def describe : List Cause → String
  | [] => "Error"
  | outer :: causes =>
    let below := match causes with
      | [] => ""
      | [cause] => "

Caused by:
    " ++ cause.text
      | causes => "

Caused by:" ++ String.join (causes.zipIdx.map fun (cause, i) =>
          "
    " ++ toString i ++ ": " ++ cause.text)
    "Error: " ++ outer.text ++ below

end Cause

/-- What is shown if the arguments are refused. -/
def ArgumentError.text : ArgumentError → String
  | missingRequiredArgument => "error: --property and --field are required"
  | valueValidation error => "error: invalid position: " ++ error.message
  | invalidValue => "error: an option or a file lacks its value"
  | argumentConflict => "error: an option is given twice, or --json together with --write"
  | tooManyValues => "error: a value is given to an option that takes none"
  | unknownArgument => "error: unexpected argument"
  | displayHelp =>
    "Turn a field-backed property into an auto-property\n\n" ++
      "Usage: propfix [OPTIONS] --property <PROPERTY> --field <FIELD> [FILES]..."
  | displayVersion => "propfix"

/-- Only help and the version are no failures. -/
def ArgumentError.isFailure : ArgumentError → Bool
  | displayHelp | displayVersion => false
  | _ => true

/-- Text for one of the two streams that the command writes to. -/
inductive Output where
  | stdout (text : String)
  | stderr (text : String)

/-- Shows a report, or writes the changed files and sums up. `color` tells whether the stream takes
colours. -/
def Arguments.finish {m : Type → Type} [Monad m] (arguments : Arguments) (files : Files m)
    (color : Bool) (report : Report) : ExceptT RunError m Output := do
  if arguments.json then
    return .stdout report.json
  else if arguments.write then
    files.writeAll report.changed
    return .stderr (report.summary color)
  else
    return .stdout (report.render color)

end AutoProperty
