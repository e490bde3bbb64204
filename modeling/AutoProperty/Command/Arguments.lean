import AutoProperty.Command.SourcePosition

/-! # Arguments

Reading the arguments of the command from left to right. An option without an attached value waits
for the next argument, and its value is looked at only when the next option or file begins or the
arguments end; an unknown option in between is reported first.
-/

namespace AutoProperty

structure Arguments where
  property : SourcePosition
  field : SourcePosition
  /-- Write changed files instead of printing them. -/
  write : Bool
  json : Bool
  config? : Option String
  noFormat : Bool
  noMoveInitializer : Bool
  /-- Further files of the project. -/
  files : List String

/-- Why arguments are refused, or what is to be shown instead of a run. -/
inductive ArgumentError where
  | missingRequiredArgument
  | valueValidation (error : SourcePositionError)
  | invalidValue
  | argumentConflict
  | tooManyValues
  | unknownArgument
  | displayHelp
  | displayVersion
deriving DecidableEq

/-- Options without a value. -/
inductive Switch where
  | write | json | noFormat | noMoveInitializer | help | version
deriving DecidableEq

/-- Options with a value. -/
inductive Setting where
  | property | field | config
deriving DecidableEq

inductive OptionName where
  | switch (s : Switch)
  | setting (s : Setting)

namespace OptionName

def ofLong? : String → Option OptionName
  | "property" => some (.setting .property)
  | "field" => some (.setting .field)
  | "config" => some (.setting .config)
  | "write" => some (.switch .write)
  | "json" => some (.switch .json)
  | "no-format" => some (.switch .noFormat)
  | "no-move-initializer" => some (.switch .noMoveInitializer)
  | "help" => some (.switch .help)
  | "version" => some (.switch .version)
  | _ => none

def ofLetter? : Char → Option OptionName
  | 'c' => some (.setting .config)
  | 'w' => some (.switch .write)
  | 'h' => some (.switch .help)
  | 'V' => some (.switch .version)
  | _ => none

end OptionName

/-- What has been read but not looked at. -/
inductive Pending where
  | nothing
  | value (setting : Setting) (text? : Option String)
  | files (texts : List String)

/-- The arguments read so far. -/
structure ArgumentState where
  switches : List Switch
  property? : Option SourcePosition
  field? : Option SourcePosition
  config? : Option String
  files : List String
  pending : Pending
  /-- A `--` has been read: all that follows are files. -/
  onlyFiles : Bool

namespace ArgumentState

def start : ArgumentState := ⟨[], none, none, none, [], .nothing, false⟩

def isSet (s : ArgumentState) : Setting → Bool
  | .property => s.property?.isSome
  | .field => s.field?.isSome
  | .config => s.config?.isSome

def checkPath (text : String) : Except ArgumentError String :=
  if text.isEmpty then .error .invalidValue else .ok text

/-- Takes the value of an option that has not been given yet. -/
def setValue (s : ArgumentState) (setting : Setting) (text : String) :
    Except ArgumentError ArgumentState := do
  if s.isSet setting then
    throw .argumentConflict
  match setting with
  | .property =>
    return { s with property? := some (← (SourcePosition.parse text).mapError .valueValidation) }
  | .field =>
    return { s with field? := some (← (SourcePosition.parse text).mapError .valueValidation) }
  | .config => return { s with config? := some (← checkPath text) }

def resolve (s : ArgumentState) : Except ArgumentError ArgumentState := do
  let cleared := { s with pending := .nothing }
  match s.pending with
  | .nothing => return s
  | .value _ none => throw .invalidValue
  | .value setting (some text) => cleared.setValue setting text
  | .files texts => return { cleared with files := s.files ++ (← texts.mapM checkPath) }

def setSwitch (s : ArgumentState) (switch : Switch) : Except ArgumentError ArgumentState := do
  let s ← s.resolve
  match switch with
  | .help => throw .displayHelp
  | .version => throw .displayVersion
  | switch =>
    if s.switches.contains switch then
      throw .argumentConflict
    return { s with switches := switch :: s.switches }

def takeSetting (s : ArgumentState) (setting : Setting) (attached? : Option String) :
    Except ArgumentError ArgumentState := do
  let s ← s.resolve
  match attached? with
  | some text => s.setValue setting text
  | none => return { s with pending := .value setting none }

def takeFile (s : ArgumentState) (text : String) : Except ArgumentError ArgumentState := do
  match s.pending with
  | .files texts => return { s with pending := .files (texts ++ [text]) }
  | _ =>
    let s ← s.resolve
    return { s with pending := .files [text] }

/-- Takes what follows `--`: a name, and a value behind `=`. -/
def takeLong (s : ArgumentState) (body : List Char) : Except ArgumentError ArgumentState :=
  let name := String.ofList (body.takeWhile (· != '='))
  let attached? := match body.dropWhile (· != '=') with
    | [] => none
    | _ :: value => some (String.ofList value)
  match OptionName.ofLong? name, attached? with
  | none, _ => .error .unknownArgument
  | some (.switch _), some _ => .error .tooManyValues
  | some (.switch switch), none => s.setSwitch switch
  | some (.setting setting), attached? => s.takeSetting setting attached?

/-- Takes letters behind one `-`. What follows the letter of an option with a value is the value. -/
def takeLetters (s : ArgumentState) : List Char → Except ArgumentError ArgumentState
  | [] => .ok s
  | c :: cs =>
    match OptionName.ofLetter? c with
    | none => .error .unknownArgument
    | some (.switch switch) => do
      let s ← s.setSwitch switch
      s.takeLetters cs
    | some (.setting setting) =>
      let attached? := match cs with
        | [] => none
        | '=' :: value => some (String.ofList value)
        | value => some (String.ofList value)
      s.takeSetting setting attached?

def take (s : ArgumentState) (text : String) : Except ArgumentError ArgumentState :=
  if s.onlyFiles then
    s.takeFile text
  else
    match text.toList with
    | ['-', '-'] => .ok { s with onlyFiles := true }
    | '-' :: '-' :: body => s.takeLong body
    | '-' :: c :: cs => s.takeLetters (c :: cs)
    | _ =>
      match s.pending with
      | .value setting none => .ok { s with pending := .value setting (some text) }
      | _ => s.takeFile text

def finish (s : ArgumentState) : Except ArgumentError Arguments := do
  let s ← s.resolve
  let has (switch : Switch) : Bool := s.switches.contains switch
  if has .json && has .write then
    throw .argumentConflict
  let some property := s.property? | throw .missingRequiredArgument
  let some field := s.field? | throw .missingRequiredArgument
  return {
    property, field
    write := has .write
    json := has .json
    config? := s.config?
    noFormat := has .noFormat
    noMoveInitializer := has .noMoveInitializer
    files := s.files }

end ArgumentState

def Arguments.parse (texts : List String) : Except ArgumentError Arguments := do
  let s ← texts.foldlM ArgumentState.take .start
  s.finish

end AutoProperty
