/-! # Files

What the command asks of a file system, and a file system in memory. In memory a path is
followed part by part, so `..` leaves only a directory that exists.
-/

namespace AutoProperty

/-- Why a file cannot be read or written. -/
inductive FileError where
  | notFound
  | notADirectory
  | isADirectory
  | other (message : String)

/-- Access to files by absolute paths. -/
structure Files (m : Type → Type) where
  isFile : String → m Bool
  read : String → m (Except FileError String)
  write : String → String → m (Except FileError Unit)

/-- Directories and files in memory, by the names that lead to them. -/
structure FileTree where
  directories : List (List String)
  files : List (List String × String)

namespace FileTree

def empty : FileTree := ⟨[], []⟩

def hasDirectory (t : FileTree) (place : List String) : Bool :=
  place.isEmpty || t.directories.contains place

def text? (t : FileTree) (place : List String) : Option String :=
  t.files.lookup place

def addDirectory (t : FileTree) (place : List String) : FileTree :=
  let around := (List.range (place.length + 1)).map place.take
  { t with directories := t.directories ++ around.filter (!t.hasDirectory ·) }

def put (t : FileTree) (place : List String) (text : String) : FileTree :=
  let t := t.addDirectory place.dropLast
  { t with files := (place, text) :: t.files.filter (·.1 != place) }

/-- The names in a path. A slash at the end stands for the directory itself. -/
def names (path : String) : List String :=
  let all := (path.splitOn "/").filter (· != "")
  if path.toList.getLast? == some '/' then all ++ ["."] else all

def follow (t : FileTree) (directory : List String) : List String → Except FileError (List String)
  | [] => .ok directory
  | "." :: names => t.follow directory names
  | ".." :: names => t.follow directory.dropLast names
  | name :: names =>
    let place := directory ++ [name]
    if t.hasDirectory place then
      t.follow place names
    else if (t.text? place).isNone then
      .error .notFound
    else if names.isEmpty then
      .ok place
    else
      .error .notADirectory

def read (t : FileTree) (path : String) : Except FileError String := do
  let place ← t.follow [] (names path)
  match t.text? place with
  | some text => return text
  | none => throw .isADirectory

/-- The tree with another text at a path, where a file must be already. -/
def write (t : FileTree) (path text : String) : Except FileError FileTree := do
  let place ← t.follow [] (names path)
  if (t.text? place).isNone then
    throw .isADirectory
  return t.put place text

def fileSystem : Files (StateM FileTree) where
  isFile path := return (← get).read path |>.isOk
  read path := return (← get).read path
  write path text := do
    match (← get).write path text with
    | .ok t => set t; return .ok ()
    | .error e => return .error e

end FileTree

end AutoProperty
