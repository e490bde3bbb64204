/-! # Source positions

A position in a file as editors show it: `file:line:column`, both numbers counted from one.
-/

namespace AutoProperty

structure SourcePosition where
  file : String
  line : Nat
  column : Nat
deriving DecidableEq

inductive SourcePositionError where
  | notAPosition (text : String)
  | missingFile (text : String)
  | badLine (text : String)
  | badColumn (text : String)
deriving DecidableEq

def SourcePositionError.message : SourcePositionError → String
  | notAPosition text => "expected <file>:<line>:<column>, got `" ++ text ++ "`"
  | missingFile text => "missing file name in `" ++ text ++ "`"
  | badLine text => "line must be a positive number, got `" ++ text ++ "`"
  | badColumn text => "column must be a positive number, got `" ++ text ++ "`"

def splitLastColon? (cs : List Char) : Option (List Char × List Char) :=
  match cs.reverse.dropWhile (· != ':') with
  | [] => none
  | _ :: before => some (before.reverse, (cs.reverse.takeWhile (· != ':')).reverse)

/-- A positive number below 2³². A plus sign and leading zeros are allowed. -/
def positiveNumber? (cs : List Char) : Option Nat :=
  let digits := match cs with
    | '+' :: digits => digits
    | digits => digits
  let value := digits.foldl (fun n c => n * 10 + (c.toNat - 48)) 0
  if !digits.isEmpty && digits.all Char.isDigit && 0 < value && value < .pow 2 32 then
    some value
  else
    none

namespace SourcePosition

/-- Reads a position. It is split from the right, so the name of the file may hold colons. -/
def parse (text : String) : Except SourcePositionError SourcePosition := do
  let some (rest, column) := splitLastColon? text.toList | throw (.notAPosition text)
  let some (file, line) := splitLastColon? rest | throw (.notAPosition text)
  if file.isEmpty then
    throw (.missingFile text)
  let some lineNumber := positiveNumber? line | throw (.badLine (String.ofList line))
  let some columnNumber := positiveNumber? column | throw (.badColumn (String.ofList column))
  return ⟨String.ofList file, lineNumber, columnNumber⟩

def display (p : SourcePosition) : String :=
  p.file ++ ":" ++ toString p.line ++ ":" ++ toString p.column

end SourcePosition

end AutoProperty
