import AutoProperty.Syntax.Parse
import AutoProperty.Syntax.Placed

/-! # Trees

A tree is a root node under an identity of its own. Handles to nodes and tokens carry that
identity, so a handle from one tree never finds anything in another. Where its nodes and tokens
lie is worked out once, when the tree is made.
-/

namespace AutoProperty

/-- Tells trees apart. -/
structure TreeId where
  stamp : Nat
deriving DecidableEq

/-- A node of a particular tree, by its number. -/
structure NodeId where
  tree : TreeId
  index : Nat
deriving DecidableEq

/-- A token of a particular tree, by its number. -/
structure TokenId where
  tree : TreeId
  index : Nat
deriving DecidableEq

/-- A node with the nodes around it, the innermost first. -/
structure Focus where
  node : PlacedNode
  above : List PlacedNode

/-- A token with the nodes around it, the innermost first. -/
structure TokenFocus where
  leaf : PlacedToken
  above : List PlacedNode

namespace Focus

def ancestors (f : Focus) : List PlacedNode :=
  f.node :: f.above

def parent? (f : Focus) : Option PlacedNode :=
  f.above.head?

def indexInParent? (f : Focus) : Option Nat := do
  let parent ← f.parent?
  parent.children.findIdx? fun child => child.node?.any (·.index == f.node.index)

end Focus

namespace Placed

mutual

/-- The nodes of an element in preorder, each with the nodes around it. -/
def foci (above : List PlacedNode) : Placed → List Focus
  | token _ => []
  | node info children => ⟨⟨info, children⟩, above⟩ :: fociOf (⟨info, children⟩ :: above) children

def fociOf (above : List PlacedNode) : List Placed → List Focus
  | [] => []
  | p :: ps => p.foci above ++ fociOf above ps

end

mutual

/-- The tokens of an element in text order, each with the nodes around it. -/
def tokenFoci (above : List PlacedNode) : Placed → List TokenFocus
  | token t => [⟨t, above⟩]
  | node info children => tokenFociOf (⟨info, children⟩ :: above) children

def tokenFociOf (above : List PlacedNode) : List Placed → List TokenFocus
  | [] => []
  | p :: ps => p.tokenFoci above ++ tokenFociOf above ps

end

end Placed

/-- The places of everything in a tree: all nodes in preorder and all tokens in text order. -/
structure Layout where
  top : PlacedNode
  nodes : List Focus
  tokens : List TokenFocus

def Layout.ofRoot (root : Node) : Layout :=
  let top := root.place
  ⟨top, top.placed.foci [], top.placed.tokenFoci []⟩

structure Tree where
  id : TreeId
  root : Node
  diagnostics : List Diagnostic
  layout : { layout : Layout // layout = .ofRoot root } := ⟨.ofRoot root, rfl⟩

namespace Tree

def ofRoot (id : TreeId) (root : Node) : Tree :=
  { id, root, diagnostics := [] }

def ofText (id : TreeId) (text : String) : Tree :=
  let parsed := parse text
  { id, root := parsed.root, diagnostics := parsed.diagnostics }

def text (t : Tree) : String :=
  t.root.text

def top (t : Tree) : PlacedNode :=
  t.layout.val.top

def nodes (t : Tree) : List Focus :=
  t.layout.val.nodes

def tokens (t : Tree) : List TokenFocus :=
  t.layout.val.tokens

theorem top_eq (t : Tree) : t.top = t.root.place := by
  rw [top, t.layout.property, Layout.ofRoot]

theorem nodes_eq (t : Tree) : t.nodes = t.top.placed.foci [] := by
  rw [nodes, top, t.layout.property, Layout.ofRoot]

theorem tokens_eq (t : Tree) : t.tokens = t.top.placed.tokenFoci [] := by
  rw [tokens, top, t.layout.property, Layout.ofRoot]

/-- The node that a handle means; none if the handle belongs to another tree. -/
def node? (t : Tree) (id : NodeId) : Option Focus :=
  if id.tree = t.id then t.nodes[id.index]? else none

/-- The token that a handle means; none if the handle belongs to another tree. -/
def token? (t : Tree) (id : TokenId) : Option TokenFocus :=
  if id.tree = t.id then t.tokens[id.index]? else none

def nodeId (t : Tree) (n : PlacedNode) : NodeId :=
  ⟨t.id, n.index⟩

def tokenId (t : Tree) (leaf : PlacedToken) : TokenId :=
  ⟨t.id, leaf.index⟩

def textOf (t : Tree) (n : PlacedNode) : String :=
  (n.span.slice? t.text).getD ""

/-- The token around an offset, trivia included. Offsets at the end of the text and beyond give the
last token. -/
def tokenAt? (t : Tree) (offset : Nat) : Option TokenFocus :=
  let tokens := t.tokens
  (tokens.find? fun f => offset < f.leaf.full.stop) <|> tokens.getLast?

/-- The innermost node of a kind that covers a span. -/
def covering? (t : Tree) (span : Span) (kind : Kind) : Option PlacedNode := do
  let token ← t.tokenAt? span.start
  token.above.find? fun n => n.kind == kind && n.span.covers span

end Tree

end AutoProperty
