import AutoProperty.Symbol.Lookup
import AutoProperty.Syntax.Tree

/-! # Declaring symbols

The first pass over a project puts every namespace, type, member and parameter into the table.
Namespaces and types that are declared in several places become one symbol; members do not, and
later ones of the same name get numbered keys.
-/

namespace AutoProperty

namespace SymbolTable

def declaration (document : DocumentId) (n : PlacedNode) (name : PlacedToken) : Declaration :=
  ⟨⟨document, n.index⟩, name.span⟩

/-- Declares the parts of the name of a namespace, each inside the one before, and gives the
innermost. -/
def declareSegments (t : SymbolTable) (document : DocumentId) (n : PlacedNode)
    (container? : Option SymbolId) : List PlacedToken → Option SymbolId × SymbolTable
  | [] => (container?, t)
  | segment :: segments =>
    let (id, t) := t.merge
      { kind := .nameSpace, name := segment.text, container? := container?, typeName? := none,
        arity := 0, key := t.childKey container? .nameSpace segment.text,
        declarations := [declaration document n segment] }
    t.declareSegments document n (some id) segments

/-- Declares a namespace and gives what contains its members. Without a name they belong to what is
around it. -/
def declareNamespace (t : SymbolTable) (document : DocumentId) (n : PlacedNode)
    (container? : Option SymbolId) : Option SymbolId × SymbolTable :=
  let isName (c : PlacedNode) : Bool := c.kind == .identifierName || c.kind == .qualifiedName
  match n.childNodes.find? isName with
  | none => (container?, t)
  | some name =>
    let (innermost?, t) := t.declareSegments document n container? name.identifiers
    match innermost? with
    | some id => (some id, t.declare ⟨document, n.index⟩ id)
    | none => (none, t)

/-- Declares a type; none if it has no name. -/
def declareType? (t : SymbolTable) (document : DocumentId) (n : PlacedNode)
    (container? : Option SymbolId) : Option (SymbolId × SymbolTable) :=
  n.name?.map fun name =>
    let (id, t) := t.merge
      { kind := .namedType, name := name.text, container? := container?, typeName? := none,
        arity := 0, key := t.childKey container? .namedType name.text,
        declarations := [declaration document n name] }
    (id, t.declare ⟨document, n.index⟩ id)

/-- Declares a symbol that cannot be merged with another, under the name at a token. -/
def declareMember (t : SymbolTable) (document : DocumentId) (n : PlacedNode)
    (container? : Option SymbolId) (kind : SymbolKind) (name : PlacedToken)
    (typeName? : Option String) : SymbolTable :=
  let (id, t) := t.add
    { kind, name := name.text, container? := container?, typeName? := typeName?, arity := 0,
      key := t.childKey container? kind name.text,
      declarations := [declaration document n name] }
  t.declare ⟨document, n.index⟩ id

/-- Declares the fields of a field declaration. Those without a name are left out. -/
def declareFields (t : SymbolTable) (document : DocumentId) (n : PlacedNode)
    (container? : Option SymbolId) : SymbolTable :=
  match n.child? .variableDeclaration with
  | none => t
  | some declaration =>
    (declaration.childrenOf .variableDeclarator).foldl (fun t declarator =>
      match declarator.name? with
      | some name =>
        t.declareMember document declarator container? .field name declaration.typeText?
      | none => t) t

def declareProperty (t : SymbolTable) (document : DocumentId) (n : PlacedNode)
    (container? : Option SymbolId) : SymbolTable :=
  match n.name? with
  | some name => t.declareMember document n container? .property name n.typeText?
  | none => t

def parametersOf (n : PlacedNode) : List PlacedNode :=
  ((n.child? .parameterList).map (·.childrenOf .parameter)).getD []

def constructorName : String := ".ctor"

def declareMethod (t : SymbolTable) (document : DocumentId) (n : PlacedNode)
    (container? : Option SymbolId) : SymbolTable :=
  match n.name? with
  | none => t
  | some nameToken =>
    let isConstructor := n.kind == .constructorDeclaration
    let name := if isConstructor then constructorName else nameToken.text
    let parameters := parametersOf n
    let arity := parameters.length
    let (id, t) := t.add
      { kind := .method, name, container? := container?,
        typeName? := if isConstructor then none else n.typeText?, arity,
        key := t.childKey container? .method (name ++ "(" ++ toString arity ++ ")"),
        declarations := [declaration document n nameToken] }
    let t := t.declare ⟨document, n.index⟩ id
    parameters.foldl (fun t parameter =>
      match parameter.name? with
      | some name =>
        t.declareMember document parameter (some id) .parameter name parameter.typeText?
      | none => t) t

mutual

/-- Declares everything in an element. Members are declared only inside a type. -/
def declareElement (t : SymbolTable) (document : DocumentId) (container? : Option SymbolId) :
    Placed → SymbolTable
  | .token _ => t
  | .node info children =>
    let n : PlacedNode := ⟨info, children⟩
    let inType := container?.any t.isType
    match info.kind with
    | .namespaceDeclaration | .fileScopedNamespaceDeclaration =>
      let (inner?, t) := t.declareNamespace document n container?
      t.declareAll document inner? children
    | .classDeclaration | .structDeclaration =>
      match t.declareType? document n container? with
      | some (id, t) => t.declareAll document (some id) children
      | none => t
    | .fieldDeclaration => if inType then t.declareFields document n container? else t
    | .propertyDeclaration => if inType then t.declareProperty document n container? else t
    | .methodDeclaration | .constructorDeclaration =>
      if inType then t.declareMethod document n container? else t
    | _ => t

/-- Declares everything in elements, one after another. -/
def declareAll (t : SymbolTable) (document : DocumentId) (container? : Option SymbolId) :
    List Placed → SymbolTable
  | [] => t
  | p :: rest => (t.declareElement document container? p).declareAll document container? rest

end

def declareDocument (t : SymbolTable) (document : DocumentId) (tree : Tree) : SymbolTable :=
  t.declareAll document none tree.top.children

end SymbolTable

end AutoProperty
