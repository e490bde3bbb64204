import AutoProperty.Text.Unicode.Blank

/-! # Log settings

How a setting for the log is read. A bare level is a level for this program alone.
-/

namespace AutoProperty

inductive LogFormat where
  | text | tree | json
deriving DecidableEq

/-- The form of log lines that a setting names, whatever the case of its letters. -/
def LogFormat.parse (setting : String) : LogFormat :=
  match setting.toList.map Char.toLower with
  | ['t', 'r', 'e', 'e'] => .tree
  | ['j', 's', 'o', 'n'] => .json
  | _ => .text

/-- The parts of the program that write to the log. -/
def logTargets : List String :=
  ["propfix", "propfix_cli", "propfix_codefix", "propfix_workspace", "propfix_semantic",
    "propfix_syntax"]

/-- The directives of a log setting. A bare level counts for this program, and warnings for all
else; a setting with targets or several levels stays as it is. -/
def logDirectives (setting : String) : String :=
  let cs := trimBlanks setting.toList
  let level := String.ofList cs
  if cs.isEmpty || cs.any fun c => c == '=' || c == ',' then
    level
  else
    ",".intercalate ("warn" :: logTargets.map (· ++ "=" ++ level))

end AutoProperty
