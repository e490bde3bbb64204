import AutoProperty.Syntax.Parse

/-! # Looking ahead by places

Whether a declaration of locals is ahead, found out by counting places. The tokens of the text
stay as they are, and the token that stands for the end of the text is at every place behind
them.
-/

namespace AutoProperty

/-- The tokens of a text and a place among them. The tokens have text, and the one behind them
stands for the end. -/
structure TokenCursor where
  tokens : List Token
  final : Token
  place : Nat
  written : ∀ t ∈ tokens, t.text ≠ ""
  ended : final.kind = .endOfFileToken

namespace TokenCursor

variable (c : TokenCursor)

def ahead : List Lexeme :=
  (placeTokens 0 c.tokens).drop c.place

/-- The kind of the token `n` places ahead. Places behind the last token count as the last one. -/
def kindAt (n : Nat) : Kind :=
  let all := c.tokens ++ [c.final]
  (all[min (c.place + n) (all.length - 1)]?.map Token.kind).getD .endOfFileToken

theorem kindAt_eq (n : Nat) :
    c.kindAt n = (c.tokens[c.place + n]?.map Token.kind).getD .endOfFileToken := by
  show ((c.tokens ++ [c.final])[min (c.place + n) ((c.tokens ++ [c.final]).length - 1)]?.map
    Token.kind).getD _ = _
  rw [List.length_append, List.length_singleton, Nat.add_sub_cancel]
  obtain hlt | hle := Nat.lt_or_ge (c.place + n) c.tokens.length
  · rw [Nat.min_eq_left (Nat.le_of_lt hlt), List.getElem?_append_left hlt]
  · rw [Nat.min_eq_right hle, List.getElem?_concat_length, List.getElem?_eq_none hle]
    exact c.ended

/-- Only tokens of the text are not of the kind for its end. -/
theorem lt_of_kindAt {c : TokenCursor} {n : Nat} (h : c.kindAt n ≠ .endOfFileToken) :
    c.place + n < c.tokens.length := by
  refine Nat.lt_of_not_le fun hge => h ?_
  rw [kindAt_eq, List.getElem?_eq_none hge]
  rfl

def nameEnd (n : Nat) : Nat :=
  if c.kindAt n = .dotToken ∧ c.kindAt (n + 1) = .identifierToken then nameEnd (n + 2) else n
termination_by c.tokens.length - (c.place + n)
decreasing_by
  rename_i h
  have := lt_of_kindAt (c := c) (n := n) (by rw [h.1]; decide)
  omega

/-- The place behind question marks and pairs of brackets. -/
def suffixEnd (n : Nat) : Nat :=
  if c.kindAt n = .questionToken then
    suffixEnd (n + 1)
  else if c.kindAt n = .openBracketToken ∧ c.kindAt (n + 1) = .closeBracketToken then
    suffixEnd (n + 2)
  else
    n
termination_by c.tokens.length - (c.place + n)
decreasing_by
  · rename_i h
    have := lt_of_kindAt (c := c) (n := n) (by rw [h]; decide)
    omega
  · rename_i h
    have := lt_of_kindAt (c := c) (n := n) (by rw [h.1]; decide)
    omega

def typeEnd? : Option Nat :=
  if (c.kindAt 0).isPredefinedType then
    some (c.suffixEnd 1)
  else if c.kindAt 0 = .identifierToken then
    some (c.suffixEnd (c.nameEnd 1))
  else
    none

/-- A declaration of locals is ahead: a type, an identifier, and then `=`, `;` or `,`. -/
def startsLocalDeclaration : Bool :=
  match c.typeEnd? with
  | some n => c.kindAt n == .identifierToken &&
      (c.kindAt (n + 1) == .equalsToken || c.kindAt (n + 1) == .semicolonToken || c.kindAt
        (n + 1) == .commaToken)
  | none => false

end TokenCursor

end AutoProperty
