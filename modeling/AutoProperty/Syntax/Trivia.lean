import AutoProperty.Text.Bytes
import AutoProperty.Text.Unicode.Blank

/-! # Trivia

Trivia is the text between tokens: blanks, line breaks, comments and directives. Elastic trivia has
no text; it marks a place that a layout pass may tidy.
-/

namespace AutoProperty

/-- What a directive line says. -/
inductive DirectiveKind where
  | ifBegin | elifBranch | elseBranch | ifEnd | regionBegin | regionEnd | other
deriving DecidableEq

namespace DirectiveKind

def name : DirectiveKind → String
  | ifBegin => "If"
  | elifBranch => "Elif"
  | elseBranch => "Else"
  | ifEnd => "EndIf"
  | regionBegin => "Region"
  | regionEnd => "EndRegion"
  | other => "Other"

def ofWord (word : String) : DirectiveKind :=
  match word with
  | "if" => ifBegin
  | "elif" => elifBranch
  | "else" => elseBranch
  | "endif" => ifEnd
  | "region" => regionBegin
  | "endregion" => regionEnd
  | _ => other

/-- Reads the kind off a directive line: blanks, number signs and blanks again are skipped, and the
ASCII letters that follow are the word that counts. -/
def classify (text : String) : DirectiveKind :=
  let body := trimBlankStart ((trimBlankStart text.toList).dropWhile (· == '#'))
  ofWord (String.ofList (body.takeWhile Char.isAlpha))

end DirectiveKind

inductive TriviaKind where
  | whitespace
  | endOfLine
  | singleLineComment
  | multiLineComment
  | directive (kind : DirectiveKind)
  | elastic
deriving DecidableEq

def TriviaKind.name : TriviaKind → String
  | whitespace => "Whitespace"
  | endOfLine => "EndOfLine"
  | singleLineComment => "SingleLineComment"
  | multiLineComment => "MultiLineComment"
  | directive kind => "Directive:" ++ kind.name
  | elastic => "Elastic"

/-- A piece of text between tokens. -/
structure Trivia where
  kind : TriviaKind
  text : String
deriving DecidableEq

namespace Trivia

/-- A directive line, of the kind its text says. -/
def directive (text : String) : Trivia :=
  ⟨.directive (.classify text), text⟩

def space : Trivia := ⟨.whitespace, " "⟩

/-- The mark for the layout pass. -/
def elastic : Trivia := ⟨.elastic, ""⟩

def isElastic (t : Trivia) : Bool :=
  t.kind == .elastic

def isEndOfLine (t : Trivia) : Bool :=
  t.kind == .endOfLine

def isDirective (t : Trivia) : Bool :=
  match t.kind with
  | .directive _ => true
  | _ => false

def isComment (t : Trivia) : Bool :=
  t.kind == .singleLineComment || t.kind == .multiLineComment

end Trivia

def triviaText (trivia : List Trivia) : List Char :=
  trivia.flatMap (·.text.toList)

end AutoProperty
