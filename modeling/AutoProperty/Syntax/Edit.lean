import AutoProperty.Syntax.Directive
import AutoProperty.Syntax.Tree

/-! # Edits

A batch of edits removes and replaces nodes of one tree, all at once. Trivia that has to outlive a
removed node is carried forward to the next token that is left. A batch is refused as a whole if it
was made for another tree, if it touches the root, or if two of its edits touch each other.
-/

namespace AutoProperty

/-- What is kept of a node that is removed. -/
structure KeepOptions where
  /-- The trivia in front of the node. -/
  leading : Bool := false
  /-- The trivia behind the node. -/
  trailing : Bool := false
  /-- Directives whose group reaches beyond the node. -/
  directives : Bool := false
  /-- A mark for the layout pass. -/
  marker : Bool := false
deriving DecidableEq

inductive Edit where
  | remove (node : NodeId) (keep : KeepOptions)
  | replace (node : NodeId) (replacement : Node)

def Edit.node : Edit → NodeId
  | remove node _ => node
  | replace node _ => node

structure EditBatch where
  tree : TreeId
  edits : List Edit

/-- Why a batch is refused. -/
inductive EditError where
  | staleNode (expected found : TreeId)
  | overlappingEdit (kind : Kind)
  | rootEdit
deriving DecidableEq

def TreeId.display (id : TreeId) : String :=
  "tree#" ++ toString id.stamp

def EditError.message : EditError → String
  | staleNode expected found =>
    "stale node: edit targets " ++ found.display ++ ", tree is " ++ expected.display
  | overlappingEdit kind => "overlapping edits on " ++ kind.name
  | rootEdit => "invalid edit: the root node cannot be edited"

/-- Checks edits one after another. `seen` holds the nodes of the edits before. -/
def checkEdits (tree : Tree) (seen : List Nat) : List Edit → Except EditError (List Focus)
  | [] => .ok []
  | edit :: edits =>
    match tree.node? edit.node with
    | none => .error (.staleNode tree.id edit.node.tree)
    | some focus =>
      if focus.parent?.isNone then
        .error .rootEdit
      else if seen.contains focus.node.index then
        .error (.overlappingEdit focus.node.kind)
      else
        (checkEdits tree (focus.node.index :: seen) edits).map (focus :: ·)

def nested? (foci : List Focus) : Option Focus :=
  let edited := foci.map (·.node.index)
  foci.find? fun f => f.above.any fun n => edited.contains n.index

/-- The lists whose elements have commas between them. -/
def isSeparatedList (kind : Kind) : Bool :=
  kind == .variableDeclaration || kind == .parameterList || kind == .argumentList

def commaAt? (n : PlacedNode) (i : Nat) : Option PlacedToken := do
  let token ← (← n.children[i]?).token?
  guard (token.kind == .commaToken)
  return token

/-- The comma that goes away with an element of a separated list: the one behind it, or, behind the
last element, the one before. -/
def separator? (f : Focus) : Option PlacedToken := do
  let parent ← f.parent?
  guard (isSeparatedList parent.kind)
  let i ← f.indexInParent?
  commaAt? parent (i + 1) <|> (if i = 0 then none else commaAt? parent (i - 1))

/-- What happens to the nodes and tokens of a tree, by their numbers. -/
structure EditPlan where
  edits : List (Nat × Edit)
  dropped : List Nat

namespace EditPlan

def edit? (plan : EditPlan) (n : NodeInfo) : Option Edit :=
  plan.edits.lookup n.index

def drops (plan : EditPlan) (t : PlacedToken) : Bool :=
  plan.dropped.contains t.index

end EditPlan

/-- The trivia of a token, in front of it and behind it. -/
def Token.trivia (t : Token) : List Trivia :=
  t.leading ++ t.trailing

/-- The unbalanced directives among the trivia of tokens. The first `skipped` pieces of trivia count
for the balance, but are not given. -/
def keptDirectives (skipped : Nat) (tokens : List Token) : List Trivia :=
  let trivia := tokens.flatMap Token.trivia
  (unbalancedDirectives trivia).filterMap fun i => if i < skipped then none else trivia[i]?

/-- The trivia that outlives removed tokens. -/
def carried (keep : KeepOptions) (tokens : List Token) : List Trivia :=
  match tokens.head?, tokens.getLast? with
  | some first, some last =>
    (if keep.leading then first.leading else []) ++
      (if keep.directives then
        keptDirectives (if keep.leading then first.leading.length else 0) tokens else []) ++
      (if keep.trailing then last.trailing else []) ++
      (if keep.marker then [.elastic] else [])
  | _, _ => []

/-- Puts carried trivia in front of the first token of a node. A node without tokens leaves it. -/
def receive (pending : List Trivia) (n : Node) : Node × List Trivia :=
  match Element.mapFirstOf? (Token.prepend pending) n.children with
  | some children => ({ n with children }, [])
  | none => (n, pending)

namespace EditPlan

mutual

/-- Rebuilds an element. `pending` is the trivia carried so far; with the element, if it is left,
comes what is carried on. -/
def rebuild (plan : EditPlan) (pending : List Trivia) : Placed → Option Element × List Trivia
  | .token t =>
    if plan.drops t then
      (none, pending ++ t.token.trivia.filter Trivia.isDirective)
    else
      (some (.token (t.token.prepend pending)), [])
  | .node info children =>
    match plan.edit? info with
    | some (.remove _ keep) =>
      (none, pending ++ carried keep ((Placed.tokensOf children).map (·.token)))
    | some (.replace _ replacement) =>
      let (made, pending) := receive pending replacement
      (some made.element, pending)
    | none =>
      let (made, pending) := plan.rebuildAll pending children
      (some (.node info.kind made), pending)

def rebuildAll (plan : EditPlan) (pending : List Trivia) :
    List Placed → List Element × List Trivia
  | [] => ([], pending)
  | p :: ps =>
    let (made, pending) := plan.rebuild pending p
    let (others, pending) := plan.rebuildAll pending ps
    (made.toList ++ others, pending)

end

def ofFoci (edits : List Edit) (foci : List Focus) : EditPlan :=
  let paired := edits.zip foci
  { edits := paired.map fun (edit, f) => (f.node.index, edit)
    dropped := paired.filterMap fun
      | (.remove .., f) => (separator? f).map (·.index)
      | (.replace .., _) => none }

end EditPlan

namespace EditBatch

def apply (batch : EditBatch) (tree : Tree) : Except EditError Node := do
  if batch.tree ≠ tree.id then
    throw (.staleNode tree.id batch.tree)
  let foci ← checkEdits tree [] batch.edits
  match nested? foci with
  | some f => throw (.overlappingEdit f.node.kind)
  | none =>
    let plan := EditPlan.ofFoci batch.edits foci
    return ⟨tree.root.kind, (plan.rebuildAll [] tree.top.children).1⟩

end EditBatch

end AutoProperty
