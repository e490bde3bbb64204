import AutoProperty.Fix.Splice

/-! # Reports

What a run of the command says about the files it changed: their texts under headers, one line, or
JSON.
-/

namespace AutoProperty

structure ChangedFile where
  path : String
  text : String

structure Report where
  path : SplicePath
  changed : List ChangedFile

/-! ## Text -/

def colourReset : List Char := "\x1b[0m".toList

/-- Puts `style` behind every reset inside a text, so that the colour goes on. -/
def restyle (style : List Char) : List Char → List Char
  | '\x1b' :: '[' :: '0' :: 'm' :: cs => colourReset ++ style ++ restyle style cs
  | c :: cs => c :: restyle style cs
  | [] => []

def styled (style : String) (color : Bool) (text : String) : String :=
  if color then
    String.ofList (style.toList ++ restyle style.toList text.toList ++ colourReset)
  else
    text

def endLine (text : String) : String :=
  if text.toList.getLast? == some '\n' then text else text ++ "\n"

namespace Report

def renderFile (color : Bool) (file : ChangedFile) : String :=
  styled "\x1b[1;36m" color ("==> " ++ file.path ++ " <==") ++ "\n" ++ endLine file.text

/-- All changed files, with an empty line between them. -/
def render (color : Bool) (report : Report) : String :=
  match report.changed with
  | [] => "no changes\n"
  | files => "\n".intercalate (files.map (renderFile color))

def summary (color : Bool) (report : Report) : String :=
  let scope := match report.path with
    | .sameDocument => "field and property in one file"
    | .crossDocument => "field and property in separate files"
  let count := report.changed.length
  let files := if count = 1 then "file" else "files"
  styled "\x1b[32m" color
    ("updated " ++ toString count ++ " " ++ files ++ " (" ++ scope ++ ")")

/-! ## JSON -/

def hexDigit (n : Nat) : Char :=
  Nat.digitChar n

def jsonChar (c : Char) : List Char :=
  match c with
  | '"' => ['\\', '"']
  | '\\' => ['\\', '\\']
  | '\n' => ['\\', 'n']
  | '\r' => ['\\', 'r']
  | '\t' => ['\\', 't']
  | '\x08' => ['\\', 'b']
  | '\x0c' => ['\\', 'f']
  | c =>
    if c.toNat < 0x20 then
      ['\\', 'u', '0', '0', hexDigit (c.toNat / 16), hexDigit (c.toNat % 16)]
    else
      [c]

def jsonString (text : String) : String :=
  String.ofList ('"' :: text.toList.flatMap jsonChar ++ ['"'])

def jsonFile (file : ChangedFile) : String :=
  "    \x7b\n      \"path\": " ++ jsonString file.path ++ ",\n      \"text\": " ++
    jsonString file.text ++ "\n    \x7d"

def json (report : Report) : String :=
  let path := match report.path with
    | .sameDocument => "sameDocument"
    | .crossDocument => "crossDocument"
  let changed := match report.changed with
    | [] => "[]"
    | files => "[\n" ++ ",\n".intercalate (files.map jsonFile) ++ "\n  ]"
  "\x7b\n  \"splicePath\": " ++ jsonString path ++ ",\n  \"changed\": " ++ changed ++ "\n\x7d"

end Report

end AutoProperty
