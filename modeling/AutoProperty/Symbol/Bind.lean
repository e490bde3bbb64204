import AutoProperty.Symbol.Declare

/-! # Binding names

The second pass goes through the bodies of all members. It declares the locals as it meets them and
notes for each name token what the name refers to. A local is in scope from behind its declarator to
the end of its block.
-/

namespace AutoProperty

/-- Where a body stands. -/
structure BodyContext where
  document : DocumentId
  type? : Option SymbolId
  member? : Option SymbolId
  /-- Inside an accessor that assigns, where `value` means what is assigned. -/
  implicitValue : Bool := false

/-- The names in scope, in frames from the innermost, each with the latest name first. -/
abbrev Scopes := List (List (String × SymbolId))

/-- What changes while a body is bound. -/
structure BodyState where
  table : SymbolTable
  scopes : Scopes := []
  /-- The names of all locals of the member so far. -/
  locals : List String := []

/-- The local or parameter that a name means. -/
def Scopes.find? (scopes : Scopes) (name : String) : Option SymbolId :=
  scopes.findSome? (·.lookup name)

/-- Adds a name to the innermost frame, if there is one. -/
def Scopes.insert (scopes : Scopes) (name : String) (id : SymbolId) : Scopes :=
  match scopes with
  | [] => []
  | frame :: outer => ((name, id) :: frame) :: outer

def implicitValueName : String := "value"

/-- The word in place of a type that lets the initial value decide. -/
def inferredTypeName : String := "var"

/-- What a simple name refers to. -/
def lookupSimple (ctx : BodyContext) (state : BodyState) (name : String) (arity? : Option Nat) :
    List SymbolId :=
  match state.scopes.find? name with
  | some id => [id]
  | none =>
    if ctx.implicitValue && name == implicitValueName then
      []
    else
      let t := state.table
      let types := (t.outward ctx.type?).takeWhile t.isType
      let found := types.map fun type => t.lookupMember type name arity?
      match found.find? (!·.isEmpty) with
      | some candidates => candidates
      | none => (t.resolveType? name ctx.type?).toList

/-- Binds inside a body. -/
abbrev Binding := StateM BodyState Unit

namespace Binding

/-- Notes what the name at a token refers to. -/
def record (ctx : BodyContext) (token : PlacedToken) (candidates : List SymbolId) : Binding :=
  modify fun s => { s with table := s.table.bind ⟨ctx.document, token.index⟩ candidates }

def inFrame (inner : Binding) : Binding := do
  modify fun s => { s with scopes := [] :: s.scopes }
  inner
  modify fun s => { s with scopes := s.scopes.tail }

mutual

/-- The name in a written type: what is left without question marks and brackets. -/
def namedType? : Placed → Option PlacedNode
  | .token _ => none
  | .node info children =>
    match info.kind with
    | .nullableType | .arrayType => firstNamedType? children
    | .identifierName | .qualifiedName => some ⟨info, children⟩
    | _ => none

def firstNamedType? : List Placed → Option PlacedNode
  | [] => none
  | .token _ :: rest => firstNamedType? rest
  | .node info children :: _ => namedType? (.node info children)

end

def type (ctx : BodyContext) (n : PlacedNode) : Binding := do
  match namedType? n.placed with
  | none => pure ()
  | some name =>
    match name.lastIdentifier? with
    | none => pure ()
    | some token =>
      let s ← get
      record ctx token (s.table.resolveType? name.compactText ctx.type?).toList

/-- Binds a simple name; `arity?` is the number of arguments if it is called. -/
def simpleName (ctx : BodyContext) (n : PlacedNode) (arity? : Option Nat) : Binding := do
  match n.name? with
  | none => pure ()
  | some token => record ctx token (lookupSimple ctx (← get) token.text arity?)

/-- Binds the name behind the point of a member access, once the receiver is bound. -/
def memberName (ctx : BodyContext) (n : PlacedNode) (arity? : Option Nat) : Binding := do
  match n.childNodes with
  | [] | [_] => pure ()
  | receiver :: names =>
    match names.getLast?.bind PlacedNode.name? with
    | none => pure ()
    | some token =>
      let t := (← get).table
      let candidates :=
        match t.typeOf? ctx.document ctx.type? SymbolTable.receiverDepth receiver with
        | some type => t.lookupMember type token.text arity?
        | none => []
      record ctx token candidates

def argumentCount (n : PlacedNode) : Nat :=
  ((n.child? .argumentList).map fun list => (list.childrenOf .argument).length).getD 0

/-- The type of a local as its declaration gives it. -/
inductive LocalType where
  | written (text? : Option String)
  | inferred

/-- How a declaration of locals gives their type, once its written type is bound. The word for an
inferred type is an ordinary type where it names one. -/
def localType (ctx : BodyContext) (t : SymbolTable) (declaration : PlacedNode) : LocalType :=
  let names := declaration.type?.bind PlacedNode.lastIdentifier?
  if declaration.typeText? == some inferredTypeName &&
      names.any fun token => (t.bound ⟨ctx.document, token.index⟩).isEmpty then
    .inferred
  else
    .written declaration.typeText?

/-- The type name that a local gets. An inferred type goes by its path, which means the same from
everywhere. -/
def localTypeName? (ctx : BodyContext) (t : SymbolTable) (declarator : PlacedNode) :
    LocalType → Option String
  | .written text? => text?
  | .inferred => do
    let value ← (← declarator.child? .equalsValueClause).childNodes.head?
    let type ← t.typeOf? ctx.document ctx.type? SymbolTable.receiverDepth value
    return (← t.data? type).key.path

/-- Declares a local at its declarator, once its initial value is bound. -/
def declareLocal (ctx : BodyContext) (type : LocalType) (n : PlacedNode) : Binding := do
  match n.name? with
  | none => pure ()
  | some name =>
    modify fun s =>
      let ordinal := s.locals.count name.text
      let container? := ctx.member? <|> ctx.type?
      let (id, table) := s.table.add
        { kind := .localVariable, name := name.text, container? := container?,
          typeName? := localTypeName? ctx s.table n type, arity := 0,
          key := s.table.childKey container? .localVariable
            (name.text ++ "#" ++ toString ordinal),
          declarations := [SymbolTable.declaration ctx.document n name] }
      { table := table.declare ⟨ctx.document, n.index⟩ id
        scopes := s.scopes.insert name.text id
        locals := name.text :: s.locals }

mutual

/-- Binds an element of a body; `arity?` is the number of arguments if it is called. -/
def element (ctx : BodyContext) (arity? : Option Nat) : Placed → Binding
  | .token _ => pure ()
  | .node info children => do
    let n : PlacedNode := ⟨info, children⟩
    match info.kind with
    | .block => inFrame (elements ctx false children)
    | .localDeclarationStatement => localDeclaration ctx children
    | .identifierName => simpleName ctx n arity?
    | .memberAccessExpression =>
      first ctx none (fun _ => true) children
      memberName ctx n arity?
    | .invocationExpression =>
      if n.childNodes.head?.all (·.kind != .argumentList) then
        first ctx (some (argumentCount n)) (fun _ => true) children
      first ctx none (· == .argumentList) children
    | .objectCreationExpression => elements ctx true children
    | _ => elements ctx false children

/-- Binds elements one after another. If `types` says so, those that are types are bound as such. -/
def elements (ctx : BodyContext) (types : Bool) : List Placed → Binding
  | [] => pure ()
  | .token _ :: rest => elements ctx types rest
  | .node info children :: rest => do
    if types && info.kind.isType then
      type ctx ⟨info, children⟩
    else
      element ctx none (.node info children)
    elements ctx types rest

def first (ctx : BodyContext) (arity? : Option Nat) (wanted : Kind → Bool) :
    List Placed → Binding
  | [] => pure ()
  | .token _ :: rest => first ctx arity? wanted rest
  | .node info children :: rest =>
    if wanted info.kind then
      element ctx arity? (.node info children)
    else
      first ctx arity? wanted rest

def localDeclaration (ctx : BodyContext) : List Placed → Binding
  | [] => pure ()
  | .token _ :: rest => localDeclaration ctx rest
  | .node info children :: rest => do
    if info.kind == .variableDeclaration then
      let declaration : PlacedNode := ⟨info, children⟩
      match declaration.type? with
      | some written => type ctx written
      | none => pure ()
      declarators ctx (localType ctx (← get).table declaration) children
    else
      localDeclaration ctx rest

/-- Binds declarators in order: first the initial value, then the local. -/
def declarators (ctx : BodyContext) (type : LocalType) : List Placed → Binding
  | [] => pure ()
  | .token _ :: rest => declarators ctx type rest
  | .node info children :: rest => do
    if info.kind == .variableDeclarator then
      first ctx none (· == .equalsValueClause) children
      declareLocal ctx type ⟨info, children⟩
    declarators ctx type rest

end

def node (ctx : BodyContext) (n : PlacedNode) : Binding :=
  element ctx none n.placed

/-- Binds a list of fields: their type and their initial values. -/
def fields (ctx : BodyContext) (declaration : PlacedNode) : Binding :=
  declaration.childNodes.forM fun part =>
    if part.kind.isType then
      type ctx part
    else
      match part.child? .equalsValueClause with
      | some value => node ctx value
      | none => pure ()

def parameterTypes (ctx : BodyContext) (list : PlacedNode) : Binding :=
  list.childNodes.forM fun parameter =>
    match parameter.type? with
    | some written => type ctx written
    | none => pure ()

def accessor (ctx : BodyContext) (n : PlacedNode) : Binding :=
  let assigns := n.kind == .setAccessorDeclaration || n.kind == .initAccessorDeclaration
  inFrame (n.childNodes.forM (node { ctx with implicitValue := assigns }))

def memberParts (ctx : BodyContext) (member : PlacedNode) : Binding :=
  member.childNodes.forM fun part =>
    if part.kind.isType then
      type ctx part
    else
      match part.kind with
      | .variableDeclaration => fields ctx part
      | .parameterList => parameterTypes ctx part
      | .accessorList => part.childNodes.forM (accessor ctx)
      | _ => node ctx part

end Binding

namespace SymbolTable

def parameterFrame (t : SymbolTable) (document : DocumentId) (method : PlacedNode) :
    List (String × SymbolId) :=
  let parameters := ((method.child? .parameterList).map PlacedNode.childNodes).getD []
  let entries := parameters.filterMap fun p => do
    let id ← t.declared? ⟨document, p.index⟩
    return ((← t.data? id).name, id)
  entries.reverse

/-- Binds a member; `frames` are the names in scope from the start. -/
def bindMember (t : SymbolTable) (ctx : BodyContext) (frames : Scopes) (member : PlacedNode) :
    SymbolTable :=
  ((Binding.memberParts ctx member).run { table := t, scopes := frames }).2.table

mutual

/-- Binds everything in an element; `type?` is the type around it. -/
def bindElement (t : SymbolTable) (document : DocumentId) (type? : Option SymbolId) :
    Placed → SymbolTable
  | .token _ => t
  | .node info children =>
    let n : PlacedNode := ⟨info, children⟩
    let own? := t.declared? ⟨document, info.index⟩
    match info.kind with
    | .namespaceDeclaration | .fileScopedNamespaceDeclaration =>
      t.bindAll document type? children
    | .classDeclaration | .structDeclaration => t.bindAll document own? children
    | .fieldDeclaration => t.bindMember { document, type?, member? := none } [] n
    | .propertyDeclaration => t.bindMember { document, type?, member? := own? } [] n
    | .methodDeclaration | .constructorDeclaration =>
      t.bindMember { document, type?, member? := own? } [t.parameterFrame document n] n
    | _ => t

/-- Binds everything in elements, one after another. -/
def bindAll (t : SymbolTable) (document : DocumentId) (type? : Option SymbolId) :
    List Placed → SymbolTable
  | [] => t
  | p :: rest => (t.bindElement document type? p).bindAll document type? rest

end

def bindDocument (t : SymbolTable) (document : DocumentId) (tree : Tree) : SymbolTable :=
  t.bindAll document none tree.top.children

end SymbolTable

end AutoProperty
