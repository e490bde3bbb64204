import AutoProperty.Symbol.Bind

/-! # Compilations

A compilation is a project with all its names bound. Symbols handed out carry the identity of their
compilation: one from another compilation is never equal to one from here, and is found again by its
key.
-/

namespace AutoProperty

/-- Tells compilations apart. -/
structure CompilationId where
  stamp : Nat
deriving DecidableEq

structure Compilation where
  id : CompilationId
  project : ProjectId
  documents : List (DocumentId × Tree)
  table : SymbolTable

/-- A symbol of a particular compilation. -/
structure Symbol where
  compilation : CompilationId
  id : SymbolId
  data : SymbolData

namespace Symbol

def same (a b : Symbol) : Bool :=
  a.compilation == b.compilation && a.id == b.id

def kind (s : Symbol) : SymbolKind := s.data.kind

def name (s : Symbol) : String := s.data.name

def key (s : Symbol) : Key := s.data.key

end Symbol

/-- The table over some documents: everything is declared before any name is bound. -/
def SymbolTable.build (documents : List (DocumentId × Tree)) : SymbolTable :=
  let declared := documents.foldl (fun t d => t.declareDocument d.1 d.2) .empty
  documents.foldl (fun t d => t.bindDocument d.1 d.2) declared

namespace Compilation

/-- Binds all documents of a project together. -/
def build (id : CompilationId) (project : ProjectId) (documents : List (DocumentId × Tree)) :
    Compilation :=
  ⟨id, project, documents, .build documents⟩

def tree? (c : Compilation) (document : DocumentId) : Option Tree :=
  c.documents.lookup document

/-- The place of a document in the project; documents of other projects come last. -/
def documentOrder (c : Compilation) (document : DocumentId) : Nat :=
  (c.documents.findIdx? (·.1 == document)).getD c.documents.length

def symbol? (c : Compilation) (id : SymbolId) : Option Symbol :=
  (c.table.data? id).map (⟨c.id, id, ·⟩)

def symbols (c : Compilation) : List Symbol :=
  c.table.symbols.zipIdx.map fun (data, i) => ⟨c.id, ⟨i⟩, data⟩

def symbolByKey? (c : Compilation) (key : Key) : Option Symbol :=
  (c.table.find? key).bind c.symbol?

/-- A symbol as this compilation knows it: itself, or, from another compilation, by its key. -/
def resolve? (c : Compilation) (s : Symbol) : Option Symbol :=
  if s.compilation = c.id then some s else c.symbolByKey? s.key

def declaredAt? (c : Compilation) (document : DocumentId) (index : Nat) : Option Symbol :=
  (c.table.declared? ⟨document, index⟩).bind c.symbol?

def boundAt (c : Compilation) (document : DocumentId) (index : Nat) : List Symbol :=
  (c.table.bound ⟨document, index⟩).filterMap c.symbol?

/-- The symbol that a node declares; none if the handle is not of the document's tree. -/
def declared? (c : Compilation) (document : DocumentId) (node : NodeId) : Option Symbol := do
  let tree ← c.tree? document
  guard (node.tree = tree.id)
  c.declaredAt? document node.index

/-- The symbols that a token refers to; none if the handle is not of the document's tree. -/
def bound (c : Compilation) (document : DocumentId) (token : TokenId) : List Symbol :=
  match c.tree? document with
  | some tree => if token.tree = tree.id then c.boundAt document token.index else []
  | none => []

def containingType? (c : Compilation) (s : Symbol) : Option Symbol :=
  (c.table.containingType? s.data).bind c.symbol?

def members (c : Compilation) (type : Symbol) : List Symbol :=
  if type.compilation = c.id then (c.table.members type.id).filterMap c.symbol? else []

def membersNamed (c : Compilation) (type : Symbol) (name : String) : List Symbol :=
  (c.members type).filter (·.name == name)

end Compilation

/-- What a name refers to: one symbol, several candidates, or nothing. -/
structure SymbolInfo where
  symbol? : Option Symbol
  candidates : List Symbol

namespace SymbolInfo

def ofSymbols : List Symbol → SymbolInfo
  | [s] => ⟨some s, []⟩
  | candidates => ⟨none, candidates⟩

def isEmpty (i : SymbolInfo) : Bool :=
  i.symbol?.isNone && i.candidates.isEmpty

def all (i : SymbolInfo) : List Symbol :=
  match i.symbol? with
  | some s => [s]
  | none => i.candidates

end SymbolInfo

/-- What the name at an offset of a document refers to; none if the document is unknown. -/
def Compilation.infoAt? (c : Compilation) (document : DocumentId) (offset : Nat) :
    Option SymbolInfo := do
  let tree ← c.tree? document
  return .ofSymbols (((tree.tokenAt? offset).map fun f =>
    c.bound document (tree.tokenId f.leaf)).getD [])

end AutoProperty
