/-! # Paths

Paths as text, with slashes between their parts. Two paths of one file need not be equal: what `..`
means depends on the directories that there are, so it is never taken out.
-/

namespace AutoProperty

namespace Path

def parts (path : String) : List String :=
  (path.splitOn "/").filter fun part => part != "" && part != "."

def isAbsolute (path : String) : Bool :=
  path.toList.head? == some '/'

/-- A path as it is meant in a directory. An absolute path stands for itself. -/
def join (directory path : String) : String :=
  if isAbsolute path then
    path
  else if directory.toList.getLast? == some '/' then
    directory ++ path
  else
    directory ++ "/" ++ path

def ofParts (parts : List String) : String :=
  "/" ++ "/".intercalate parts

def normalize (directory path : String) : String :=
  ofParts (parts (join directory path))

def parent (path : String) : String :=
  ofParts (parts path).dropLast

def ancestors (directory : String) : List String :=
  let all := parts directory
  (List.range (all.length + 1)).map fun n => ofParts (all.take (all.length - n))

end Path

end AutoProperty
