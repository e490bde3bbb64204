import AutoProperty.Syntax.Element

/-! # Elastic trivia

Edits leave elastic marks where they took something out. This pass takes the marks away and, in
front of the tokens that had one, tidies blank lines: none right behind an opening brace or in front
of a closing one, and at most one elsewhere. Other tokens stay as they are.
-/

namespace AutoProperty

/-- How far the trivia in front of a token has been read. -/
structure LineState where
  /-- The blanks on the current line, which go away if the line does. -/
  line : List Trivia
  /-- Nothing but blanks stands on the current line. -/
  atLineStart : Bool
  /-- Blank lines since the last comment or directive. -/
  blankLines : Nat

/-- The trivia without elastic marks and with few blank lines: at most one, or none if `suppress`
says so. -/
def collapseLeading (suppress : Bool) (state : LineState) : List Trivia → List Trivia
  | [] => state.line
  | t :: ts =>
    match t.kind with
    | .elastic => collapseLeading suppress state ts
    | .whitespace => collapseLeading suppress { state with line := state.line ++ [t] } ts
    | .endOfLine =>
      let blankLines := if state.atLineStart then state.blankLines + 1 else state.blankLines
      let dropped := state.atLineStart && (suppress || blankLines > 1)
      (if dropped then [] else state.line ++ [t]) ++
        collapseLeading suppress ⟨[], true, blankLines⟩ ts
    | .directive _ => state.line ++ t :: collapseLeading suppress ⟨[], true, 0⟩ ts
    | .singleLineComment | .multiLineComment =>
      state.line ++ t :: collapseLeading suppress ⟨[], false, 0⟩ ts

namespace Token

def isMarked (t : Token) : Bool :=
  t.leading.any Trivia.isElastic || t.trailing.any Trivia.isElastic

/-- The token tidied, behind the token `previous?`. -/
def collapse (previous? : Option Token) (t : Token) : Token :=
  if t.isMarked then
    let atLineStart := previous?.all fun p => p.trailing.getLast?.any Trivia.isEndOfLine
    let suppress :=
      previous?.any (·.kind == .openBraceToken) || t.kind == .closeBraceToken
    { t with
      leading := collapseLeading suppress ⟨[], atLineStart, 0⟩ t.leading
      trailing := t.trailing.filter (!·.isElastic) }
  else
    t

end Token

namespace Element

mutual

def collapse (previous? : Option Token) : Element → Element × Option Token
  | token t =>
    let made := t.collapse previous?
    (token made, if made.isMissing then previous? else some made)
  | node kind children =>
    let (made, previous?) := collapseAll previous? children
    (node kind made, previous?)

def collapseAll (previous? : Option Token) : List Element → List Element × Option Token
  | [] => ([], previous?)
  | e :: es =>
    let (first, previous?) := e.collapse previous?
    let (others, previous?) := collapseAll previous? es
    (first :: others, previous?)

end

end Element

def Node.collapseElastic (n : Node) : Node :=
  { n with children := (Element.collapseAll none n.children).1 }

end AutoProperty
