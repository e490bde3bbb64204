import AutoProperty.Symbol.Compilation
import AutoProperty.Text.Lines

/-! # Solutions

A solution is a snapshot of all projects and documents. An edit makes a new snapshot and leaves
the old one as it was. Each state of a project has a place in a store that all snapshots share;
a document that is added or replaced puts the project in a new state, whose place is empty. The
compilation of a state is built under an identity of its own on the first request, and kept in
the place of the state for all later requests.
-/

namespace AutoProperty

structure Document where
  id : DocumentId
  project : ProjectId
  name : String
  tree : Tree

namespace Document

def text (d : Document) : String :=
  d.tree.text

def lines (d : Document) : Lines :=
  .ofText d.text

end Document

/-- A state of a project: the place where the store keeps its compilation. -/
structure StateId where
  stamp : Nat
deriving DecidableEq

structure Project where
  id : ProjectId
  name : String
  /-- The documents in the order in which they were added. -/
  documents : List DocumentId
  state : StateId

structure Solution where
  /-- The number of edits that led here. -/
  version : Nat
  projects : List Project
  documents : List Document
  /-- The numbers that the next project and the next document get. -/
  nextProject : Nat
  nextDocument : Nat

/-- Why an edit of a solution is refused, or why a compilation cannot be had. -/
inductive SolutionError where
  | unknownDocument (document : DocumentId)
  | unknownProject (project : ProjectId)
  | duplicateDocument (project : ProjectId) (name : String)
deriving DecidableEq

def SolutionError.message : SolutionError → String
  | unknownDocument document => "document " ++ document.display ++ " is not part of the solution"
  | unknownProject project => "project " ++ project.display ++ " is not part of the solution"
  | duplicateDocument project name =>
    "a document named `" ++ name ++ "` already exists in " ++ project.display

/-- What all snapshots share: the compilations built so far, each in the place of its state, and
what comes next as the identity of a tree or a state, and as that of a compilation. -/
structure Store where
  nextStamp : Nat
  nextCompilation : Nat
  compilations : List (StateId × Compilation)

namespace Store

def empty : Store := ⟨0, 0, []⟩

def find? (store : Store) (state : StateId) : Option Compilation :=
  store.compilations.lookup state

def keep (store : Store) (state : StateId) (c : Compilation) : Store :=
  { store with compilations := (state, c) :: store.compilations }

end Store

abbrev StoreM := StateM Store

/-- Work on snapshots that may be refused. What was built before a refusal stays in the store. -/
abbrev SolutionM := ExceptT SolutionError StoreM

/-- An identity that no tree and no state has yet. -/
def freshStamp : StoreM Nat :=
  modifyGet fun store => (store.nextStamp, { store with nextStamp := store.nextStamp + 1 })

/-- An identity that no compilation has yet. -/
def freshCompilation : StoreM CompilationId :=
  modifyGet fun store =>
    (⟨store.nextCompilation⟩, { store with nextCompilation := store.nextCompilation + 1 })

namespace Solution

def empty : Solution := ⟨0, [], [], 0, 0⟩

def displayVersion (s : Solution) : String :=
  "v" ++ toString s.version

/-! ## Lookup -/

def project? (s : Solution) (id : ProjectId) : Option Project :=
  s.projects.find? (·.id == id)

def document? (s : Solution) (id : DocumentId) : Option Document :=
  s.documents.find? (·.id == id)

def documentNamed? (s : Solution) (name : String) : Option Document :=
  s.documents.find? (·.name == name)

def projectOf? (s : Solution) (document : DocumentId) : Option ProjectId :=
  (s.document? document).map (·.project)

def trees (s : Solution) (project : Project) : List (DocumentId × Tree) :=
  project.documents.filterMap fun id => (s.document? id).map fun d => (id, d.tree)

/-! ## Compilations -/

/-- The compilation of a project: the one in the place of its state, or a new one that goes
there. -/
def compilation (s : Solution) (project : ProjectId) : SolutionM Compilation := do
  match s.project? project with
  | none => throw (.unknownProject project)
  | some state =>
    match (← get).find? state.state with
    | some c => return c
    | none =>
      let c := Compilation.build (← freshCompilation) project (s.trees state)
      modify (·.keep state.state c)
      return c

def compilationFor (s : Solution) (document : DocumentId) : SolutionM Compilation :=
  match s.projectOf? document with
  | some project => s.compilation project
  | none => throw (.unknownDocument document)

/-! ## Edits -/

def addProject (s : Solution) (name : String) : StoreM (Solution × ProjectId) := do
  let id : ProjectId := ⟨s.nextProject⟩
  let state : StateId := ⟨← freshStamp⟩
  return ({ s with
    version := s.version + 1
    projects := s.projects ++ [⟨id, name, [], state⟩]
    nextProject := s.nextProject + 1 }, id)

/-- A new state of one project, with `documents` as its documents. -/
def renewProject (s : Solution) (id : ProjectId) (state : StateId)
    (documents : List DocumentId → List DocumentId) : List Project :=
  s.projects.map fun project =>
    if project.id = id then
      { project with documents := documents project.documents, state }
    else
      project

/-- Adds a document to a project that has none of that name. -/
def addDocument (s : Solution) (project : ProjectId) (name text : String) :
    SolutionM (Solution × DocumentId) := do
  match s.project? project with
  | none => throw (.unknownProject project)
  | some state =>
    if state.documents.any fun id => (s.document? id).any (·.name == name) then
      throw (.duplicateDocument project name)
    let id : DocumentId := ⟨s.nextDocument⟩
    let tree := Tree.ofText ⟨← freshStamp⟩ text
    let renewed : StateId := ⟨← freshStamp⟩
    return ({ s with
      version := s.version + 1
      projects := s.renewProject project renewed (· ++ [id])
      documents := s.documents ++ [⟨id, project, name, tree⟩]
      nextDocument := s.nextDocument + 1 }, id)

/-- Gives a document another tree, made under a fresh identity. -/
def replaceTree (s : Solution) (id : DocumentId) (tree : TreeId → Tree) :
    SolutionM Solution := do
  match s.document? id with
  | none => throw (.unknownDocument id)
  | some document =>
    let tree := tree ⟨← freshStamp⟩
    let renewed : StateId := ⟨← freshStamp⟩
    return { s with
      version := s.version + 1
      projects := s.renewProject document.project renewed (·)
      documents := s.documents.map fun d => if d.id = id then { d with tree } else d }

def setText (s : Solution) (id : DocumentId) (text : String) : SolutionM Solution :=
  s.replaceTree id (Tree.ofText · text)

/-- Gives a document another root, which is taken as it is. -/
def setRoot (s : Solution) (id : DocumentId) (root : Node) : SolutionM Solution :=
  s.replaceTree id (Tree.ofRoot · root)

/-! ## Comparison -/

/-- The documents that `old` lacks or has with another text, in order. -/
def changedSince (s old : Solution) : List DocumentId :=
  (s.documents.filter fun d => (old.document? d.id).all (·.text != d.text)).map (·.id)

end Solution

end AutoProperty
