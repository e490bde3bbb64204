import AutoProperty.Syntax.Kind
import AutoProperty.Text.Unicode.Digit

/-! # Identifiers

Which names can be given to a symbol. The rule is wider than what the scanner takes for one token:
letters and digits of every script are allowed.
-/

namespace AutoProperty

def isIdentifierStart (c : Char) : Bool :=
  c == '_' || isAlphabetic c

def isIdentifierPart (c : Char) : Bool :=
  isIdentifierStart c || isNumeric c

/-- A name that can be used as it is: a letter or an underscore, then letters, underscores and
numbers, and no reserved keyword. -/
def isIdentifier (name : String) : Bool :=
  match name.toList with
  | [] => false
  | c :: cs =>
    isIdentifierStart c && cs.all isIdentifierPart && (Kind.ofReservedWord? name).isNone

end AutoProperty
