import AutoProperty.Symbol.Table
import AutoProperty.Syntax.Placed

/-! # Looking names up

A simple name means a local or a parameter, else the implicit value of a setter, else a member of
the type around it or of one of the types around that, else a type. A written type is searched for
from the inside outwards, and last by its simple name alone if only one type has it.
-/

namespace AutoProperty

def present? (token? : Option PlacedToken) : Option PlacedToken :=
  token?.filter (!·.text.isEmpty)

namespace PlacedNode

def name? (n : PlacedNode) : Option PlacedToken :=
  present? n.identifier?

def type? (n : PlacedNode) : Option PlacedNode :=
  n.childNodes.find? (·.kind.isType)

def typeText? (n : PlacedNode) : Option String :=
  n.type?.map compactText

def identifiers (n : PlacedNode) : List PlacedToken :=
  n.tokens.filter fun t => t.kind == .identifierToken && !t.text.isEmpty

/-- The last part of a written type, which names the type. -/
def lastIdentifier? (n : PlacedNode) : Option PlacedToken :=
  n.identifiers.getLast?

def referenceName? (n : PlacedNode) : Option PlacedToken :=
  match n.kind with
  | .identifierName => n.name?
  | .memberAccessExpression => n.childNodes.getLast?.bind name?
  | _ => none

end PlacedNode

def simpleTypeName (text : List Char) : String :=
  String.ofList (text.reverse.takeWhile (· != '.')).reverse

namespace SymbolTable

/-- The type that a written name means, seen from a symbol. Question marks at the end are ignored;
arrays mean no type. -/
def resolveType? (t : SymbolTable) (text : String) (from? : Option SymbolId) : Option SymbolId :=
  let name := (text.toList.reverse.dropWhile (· == '?')).reverse
  if name.isEmpty || name.getLast? == some ']' then
    none
  else
    let within := (t.outward from?).findSome? fun scope =>
      t.find? (t.childKey (some scope) .namedType (String.ofList name))
    within <|> t.find? ⟨.namedType, String.ofList name⟩ <|>
      match t.typesNamed (simpleTypeName name) with
      | [id] => some id
      | _ => none

/-- The members of a type with a name. Where a number of arguments is given, methods with as many
parameters win. -/
def lookupMember (t : SymbolTable) (type : SymbolId) (name : String) (arity? : Option Nat) :
    List SymbolId :=
  let named := t.membersNamed type name
  match arity? with
  | none => named
  | some arity =>
    let matching := named.filter fun id =>
      (t.data? id).any fun data => data.kind == .method && data.arity == arity
    if matching.isEmpty then named else matching

/-- The type of what a symbol stands for: a type stands for itself, a namespace has none, and all
else has the type it is declared with. -/
def typeOfSymbol? (t : SymbolTable) (id : SymbolId) : Option SymbolId := do
  let data ← t.data? id
  match data.kind with
  | .namedType => return id
  | .nameSpace => none
  | _ =>
    let written ← data.typeName?
    let scope? := (t.outward data.container?).find? fun c =>
      t.kind? c == some .namedType || t.kind? c == some .nameSpace
    t.resolveType? written scope?

/-- How many parentheses may stand around an expression whose type is asked for. -/
def receiverDepth : Nat := 65

/-- The type of an expression in a document, once the names in it are bound. `this?` is the type
around it; at most `depth` layers of parentheses are seen through. -/
def typeOf? (t : SymbolTable) (document : DocumentId) (this? : Option SymbolId) :
    (depth : Nat) → PlacedNode → Option SymbolId
  | 0, _ => none
  | depth + 1, n => do
    let single? (token : PlacedToken) := t.single? ⟨document, token.index⟩
    match n.kind with
    | .identifierName | .memberAccessExpression =>
      t.typeOfSymbol? (← single? (← n.referenceName?))
    | .invocationExpression =>
      t.typeOfSymbol? (← single? (← (← n.childNodes.head?).referenceName?))
    | .thisExpression => this?
    | .objectCreationExpression => single? (← (← n.type?).lastIdentifier?)
    | .parenthesizedExpression => t.typeOf? document this? depth (← n.childNodes.head?)
    | _ => none

end SymbolTable

end AutoProperty
