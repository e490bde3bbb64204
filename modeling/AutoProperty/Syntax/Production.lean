import AutoProperty.Syntax.Element

/-! # Productions

A production reads tokens and gives what it made of them. It never fails: where the text does not
fit it complains, and stands in a missing token or sets a token aside. The end of the text is an
empty list of tokens ahead.
-/

namespace AutoProperty

/-- A token ahead, with the offset of its text. -/
structure Lexeme where
  start : Nat
  token : Token

namespace Lexeme

def kind (l : Lexeme) : Kind := l.token.kind

def text (l : Lexeme) : String := l.token.text

end Lexeme

/-- What a production objects to. -/
inductive Complaint where
  | expectedToken (wanted found : Kind)
  | expectedMember (found : Kind)
  | modifiersWithoutMember
  | expectedAccessor (found : Kind)
  | expectedParameterType
  | expectedTypeAfterNew
  | expectedArgumentList
  | expectedExpression
  | expectedStatement (found : Kind)
  | expectedEmbeddedStatement
  | nestingTooDeep
  | statementNesting (found : Kind)
deriving DecidableEq

def Complaint.message : Complaint → String
  | expectedToken wanted found => "expected " ++ wanted.name ++ ", found " ++ found.name
  | expectedMember found => "expected member declaration, found " ++ found.name
  | modifiersWithoutMember => "expected member declaration"
  | expectedAccessor found => "expected 'get', 'set' or 'init', found " ++ found.name
  | expectedParameterType => "expected parameter type"
  | expectedTypeAfterNew => "expected type after 'new'"
  | expectedArgumentList => "expected argument list"
  | expectedExpression => "expected expression"
  | expectedStatement found => "expected statement, found " ++ found.name
  | expectedEmbeddedStatement => "expected statement"
  | nestingTooDeep => "nesting too deep"
  | statementNesting found => "statement nesting limit reached, found " ++ found.name

/-- A complaint and the token that was ahead, if it was not the end of the text. -/
structure Problem where
  found? : Option Lexeme
  complaint : Complaint

/-- The outcome of a production: what it made, the tokens it left, and its complaints in order. -/
structure Parsed (α : Type) where
  value : α
  rest : List Lexeme
  problems : List Problem

/-- Reads from the tokens ahead. -/
def Production (α : Type) : Type :=
  List Lexeme → Parsed α

namespace Production

instance : Monad Production where
  pure value := fun ahead => ⟨value, ahead, []⟩
  bind p f := fun ahead =>
    let first := p ahead
    let second := f first.value first.rest
    ⟨second.value, second.rest, first.problems ++ second.problems⟩

/-- The kind of the token `n` places ahead. -/
def kindAt (n : Nat) (ahead : List Lexeme) : Kind :=
  (ahead[n]?.map Lexeme.kind).getD .endOfFileToken

def look : Production (List Lexeme) :=
  fun ahead => ⟨ahead, ahead, []⟩

def lookKind : Production Kind :=
  fun ahead => ⟨kindAt 0 ahead, ahead, []⟩

/-- Objects to the next token. -/
def complain (complaint : Complaint) : Production Unit :=
  fun ahead => ⟨(), ahead, [⟨ahead.head?, complaint⟩]⟩

/-- Objects to the next token and names what it is. -/
def complainFound (complaint : Kind → Complaint) : Production Unit :=
  fun ahead => complain (complaint (kindAt 0 ahead)) ahead

/-- Takes the next token, under the kind that `choose` gives it. -/
def takeAs? (choose : List Lexeme → Option Kind) : Production (Option Element) :=
  fun ahead =>
    match ahead, choose ahead with
    | l :: rest, some kind => ⟨some (.token { l.token with kind }), rest, []⟩
    | ahead, _ => ⟨none, ahead, []⟩

def takeIf? (wanted : Kind → Bool) : Production (Option Element) :=
  takeAs? fun ahead => if wanted (kindAt 0 ahead) then some (kindAt 0 ahead) else none

def take? (kind : Kind) : Production (Option Element) :=
  takeIf? (· == kind)

/-- Takes a token of the given kind, or stands in a missing one and complains. -/
def expect (kind : Kind) : Production Element := do
  match ← take? kind with
  | some taken => return taken
  | none =>
    complainFound (.expectedToken kind)
    return .token (.missing kind)

/-- Complains about the next token and sets it aside. At the end of the text it only complains. -/
def skip (complaint : Kind → Complaint) : Production (List Element) := do
  complainFound complaint
  match ← takeIf? fun _ => true with
  | some taken => return [.node .skippedTokens [taken]]
  | none => return []

/-- Runs a production and says whether it took any token. -/
def progress (p : Production α) : Production (α × Bool) :=
  fun ahead =>
    let first := p ahead
    ⟨(first.value, first.rest.length < ahead.length), first.rest, first.problems⟩

/-- Repeats `step` on the value made so far, until it declines or takes no token. -/
def iterate (step : α → Production (Option α)) (value : α) : Production α := fun ahead =>
  let first := step value ahead
  match first.value with
  | none => ⟨value, first.rest, first.problems⟩
  | some next =>
    if first.rest.length < ahead.length then
      let others := iterate step next first.rest
      ⟨others.value, others.rest, first.problems ++ others.problems⟩
    else
      ⟨next, first.rest, first.problems⟩
termination_by ahead => ahead.length

/-- Items up to the end of the text, or up to a token of a kind that ends them. -/
def itemsBefore (stop : Kind → Bool) (item : Production (List Element)) :
    Production (List Element) :=
  iterate (fun items ahead =>
    if ahead.isEmpty || stop (kindAt 0 ahead) then
      ⟨none, ahead, []⟩
    else
      let next := item ahead
      ⟨some (items ++ next.value), next.rest, next.problems⟩) []

def separated (item : Production Element) : Production (List Element) := do
  let first ← item
  iterate (fun items => do
    match ← take? .commaToken with
    | some comma => return some (items ++ [comma, ← item])
    | none => return none) [first]

end Production

end AutoProperty
