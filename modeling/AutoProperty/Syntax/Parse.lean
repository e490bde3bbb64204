import AutoProperty.Syntax.Member
import AutoProperty.Syntax.Scanner
import AutoProperty.Text.Span

/-! # Parsing a text

Every text has a tree: its members, and the token for its end. What does not fit is reported beside
the tree and never lost from it.
-/

namespace AutoProperty

/-- A message about a place in a text. -/
structure Diagnostic where
  span : Span
  message : String
deriving DecidableEq

/-- The tokens with the offsets of their texts; `offset` is where the first of them begins. -/
def placeTokens (offset : Nat) : List Token → List Lexeme
  | [] => []
  | t :: ts => ⟨offset + t.leadingLength, t⟩ :: placeTokens (offset + t.fullLength) ts

/-- The tree of a text, and what is wrong with the text. -/
structure ParsedText where
  root : Node
  diagnostics : List Diagnostic

/-- A problem as a diagnostic, in a text whose end lies at `final`. -/
def Problem.diagnostic (final : Nat) (p : Problem) : Diagnostic :=
  match p.found? with
  | some l => ⟨.ofLength l.start l.token.textLength, p.complaint.message⟩
  | none => ⟨.ofLength final 0, p.complaint.message⟩

/-- The tree of a text. -/
def parse (text : String) : ParsedText :=
  let scanned := scan text
  let parsed := Production.allMembers (placeTokens 0 scanned.tokens)
  let final := byteLength (tokensText scanned.tokens) + scanned.final.leadingLength
  { root := ⟨.compilationUnit, parsed.value ++ [.token scanned.final]⟩
    diagnostics := parsed.problems.map (·.diagnostic final) }

end AutoProperty
