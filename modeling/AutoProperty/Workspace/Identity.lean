/-! # Documents and projects by number

A document or a project keeps its number through every change of its content.
-/

namespace AutoProperty

structure DocumentId where
  number : Nat
deriving DecidableEq, Inhabited

structure ProjectId where
  number : Nat
deriving DecidableEq, Inhabited

def DocumentId.display (id : DocumentId) : String :=
  "doc#" ++ toString id.number

def ProjectId.display (id : ProjectId) : String :=
  "project#" ++ toString id.number

end AutoProperty
