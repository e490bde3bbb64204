/-! # Symbol keys

A key names a symbol by its kind and by the path of names that leads to it, so it can find the
symbol again in any later state of the source. Methods carry the number of their parameters in the
path and locals their number among locals of one name.
-/

namespace AutoProperty

inductive SymbolKind where
  | nameSpace | namedType | field | property | method | parameter | localVariable
deriving DecidableEq

namespace SymbolKind

def all : List SymbolKind :=
  [nameSpace, namedType, field, property, method, parameter, localVariable]

def name : SymbolKind → String
  | nameSpace => "Namespace"
  | namedType => "NamedType"
  | field => "Field"
  | property => "Property"
  | method => "Method"
  | parameter => "Parameter"
  | localVariable => "Local"

def letter : SymbolKind → Char
  | nameSpace => 'N'
  | namedType => 'T'
  | field => 'F'
  | property => 'P'
  | method => 'M'
  | parameter => 'A'
  | localVariable => 'L'

def ofName? (name : String) : Option SymbolKind :=
  all.find? (·.name == name)

def ofLetter? (letter : Char) : Option SymbolKind :=
  all.find? (·.letter == letter)

def isMember : SymbolKind → Bool
  | field | property | method => true
  | _ => false

end SymbolKind

structure Key where
  kind : SymbolKind
  /-- The names on the way to the symbol and its own, with points between them. -/
  path : String
deriving DecidableEq

structure KeyError where
  text : String
deriving DecidableEq

def KeyError.message (e : KeyError) : String :=
  "malformed symbol key `" ++ e.text ++ "`"

namespace Key

def display (key : Key) : String :=
  String.ofList (key.kind.letter :: ':' :: key.path.toList)

/-- Reads a written key. The path must not be empty. -/
def parse (text : String) : Except KeyError Key :=
  match text.toList with
  | letter :: ':' :: c :: cs =>
    match SymbolKind.ofLetter? letter with
    | some kind => .ok ⟨kind, String.ofList (c :: cs)⟩
    | none => .error ⟨text⟩
  | _ => .error ⟨text⟩

def child (key : Key) (kind : SymbolKind) (name : String) : Key :=
  if key.path.isEmpty then ⟨kind, name⟩ else ⟨kind, key.path ++ "." ++ name⟩

def splitPath (path : List Char) : List Char × List Char :=
  let last := path.reverse.takeWhile (· != '.')
  ((path.reverse.dropWhile (· != '.')).reverse, last.reverse)

/-- The key that the symbol has under another name. What follows the name, such as the number of
parameters, stays. -/
def renamed (key : Key) (name : String) : Key :=
  let (before, last) := splitPath key.path.toList
  let suffix := last.dropWhile fun c => c != '(' && c != '#'
  { key with path := String.ofList (before ++ name.toList ++ suffix) }

end Key

end AutoProperty
