import AutoProperty.Syntax.Element
import AutoProperty.Text.Quoted
import AutoProperty.Text.Span

/-! # Elements with places

A placed element knows where it lies in the text of its tree and which number it has there. Nodes
are numbered in preorder, tokens in text order, both from zero.
-/

namespace AutoProperty

/-- A token with its number and the offset at which its leading trivia begins. -/
structure PlacedToken where
  index : Nat
  start : Nat
  token : Token

/-- The number, kind and place of a node. The extent reaches from the text of its first token to the
text of its last one; a node without tokens has none. -/
structure NodeInfo where
  index : Nat
  kind : Kind
  full : Span
  extent? : Option Span

inductive Placed where
  | token (leaf : PlacedToken)
  | node (info : NodeInfo) (children : List Placed)

/-- A placed node apart from the elements around it. -/
structure PlacedNode where
  info : NodeInfo
  children : List Placed

namespace PlacedToken

def kind (t : PlacedToken) : Kind := t.token.kind

def text (t : PlacedToken) : String := t.token.text

def full (t : PlacedToken) : Span :=
  .ofLength t.start t.token.fullLength

def span (t : PlacedToken) : Span :=
  .ofLength (t.start + t.token.leadingLength) t.token.textLength

def display (t : PlacedToken) : String :=
  t.kind.name ++ "@" ++ t.span.display ++ " " ++ quote t.text

end PlacedToken

namespace Placed

def kind : Placed → Kind
  | token t => t.kind
  | node info _ => info.kind

def token? : Placed → Option PlacedToken
  | token t => some t
  | node _ _ => none

def node? : Placed → Option PlacedNode
  | token _ => none
  | node info children => some ⟨info, children⟩

def extent? : Placed → Option Span
  | token t => some t.span
  | node info _ => info.extent?

mutual

def element : Placed → Element
  | token t => .token t.token
  | node info children => .node info.kind (elementsOf children)

def elementsOf : List Placed → List Element
  | [] => []
  | p :: ps => p.element :: elementsOf ps

end

mutual

def tokens : Placed → List PlacedToken
  | token t => [t]
  | node _ children => tokensOf children

def tokensOf : List Placed → List PlacedToken
  | [] => []
  | p :: ps => p.tokens ++ tokensOf ps

end

mutual

def nodes : Placed → List PlacedNode
  | token _ => []
  | node info children => ⟨info, children⟩ :: nodesOf children

def nodesOf : List Placed → List PlacedNode
  | [] => []
  | p :: ps => p.nodes ++ nodesOf ps

end

/-- The extent of elements that lie side by side. -/
def extentOf? (ps : List Placed) : Option Span := do
  let first ← ps.findSome? extent?
  let last ← ps.reverse.findSome? extent?
  return ⟨first.start, last.stop⟩

end Placed

namespace PlacedNode

def index (n : PlacedNode) : Nat := n.info.index

def kind (n : PlacedNode) : Kind := n.info.kind

def full (n : PlacedNode) : Span := n.info.full

/-- The place of the node without the trivia at its ends. A node without tokens is empty and lies
where it begins. -/
def span (n : PlacedNode) : Span :=
  n.info.extent?.getD ⟨n.info.full.start, n.info.full.start⟩

def placed (n : PlacedNode) : Placed :=
  .node n.info n.children

def node (n : PlacedNode) : Node :=
  ⟨n.kind, Placed.elementsOf n.children⟩

def childNodes (n : PlacedNode) : List PlacedNode :=
  n.children.filterMap Placed.node?

def childTokens (n : PlacedNode) : List PlacedToken :=
  n.children.filterMap Placed.token?

def child? (n : PlacedNode) (kind : Kind) : Option PlacedNode :=
  n.childNodes.find? (·.kind == kind)

def childrenOf (n : PlacedNode) (kind : Kind) : List PlacedNode :=
  n.childNodes.filter (·.kind == kind)

def childToken? (n : PlacedNode) (kind : Kind) : Option PlacedToken :=
  n.childTokens.find? (·.kind == kind)

/-- The identifier that a declaration or a simple name carries itself. -/
def identifier? (n : PlacedNode) : Option PlacedToken :=
  n.childToken? .identifierToken

def tokens (n : PlacedNode) : List PlacedToken :=
  Placed.tokensOf n.children

def descendants (n : PlacedNode) : List PlacedNode :=
  n.placed.nodes

def compactText (n : PlacedNode) : String :=
  String.join (n.tokens.map (·.text))

def display (n : PlacedNode) : String :=
  n.kind.name ++ "@" ++ n.span.display

end PlacedNode

/-- The numbers and the offset that the next element gets. -/
structure Cursor where
  node : Nat
  token : Nat
  offset : Nat

def Cursor.start : Cursor := ⟨0, 0, 0⟩

namespace Element

mutual

/-- Places an element, and gives where the next one goes. -/
def place (c : Cursor) : Element → Placed × Cursor
  | token t =>
    (.token ⟨c.token, c.offset, t⟩,
      { c with token := c.token + 1, offset := c.offset + t.fullLength })
  | node kind children =>
    let (placed, after) := placeAll { c with node := c.node + 1 } children
    (.node ⟨c.node, kind, ⟨c.offset, after.offset⟩, Placed.extentOf? placed⟩ placed, after)

/-- Places elements side by side. -/
def placeAll (c : Cursor) : List Element → List Placed × Cursor
  | [] => ([], c)
  | e :: es =>
    let (first, c) := e.place c
    let (others, c) := placeAll c es
    (first :: others, c)

end

end Element

def Node.place (n : Node) : PlacedNode :=
  let (children, after) := Element.placeAll { Cursor.start with node := 1 } n.children
  ⟨⟨0, n.kind, ⟨0, after.offset⟩, Placed.extentOf? children⟩, children⟩

end AutoProperty
