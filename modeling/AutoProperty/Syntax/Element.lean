import AutoProperty.Syntax.Token

/-! # Elements of a source tree

A tree without positions: a node has a kind and its children in text order, and its leaves are
tokens. What a tree spells is the text of its tokens, so a tree can be taken apart and put together
anywhere.
-/

namespace AutoProperty

inductive Element where
  | token (token : Token)
  | node (kind : Kind) (children : List Element)

/-- A node apart from the elements around it. -/
structure Node where
  kind : Kind
  children : List Element

namespace Element

def kind : Element → Kind
  | token t => t.kind
  | node kind _ => kind

def token? : Element → Option Token
  | token t => some t
  | node _ _ => none

def node? : Element → Option Node
  | token _ => none
  | node kind children => some ⟨kind, children⟩

mutual

def tokens : Element → List Token
  | token t => [t]
  | node _ children => tokensOf children

/-- The tokens of a sequence of elements in text order. -/
def tokensOf : List Element → List Token
  | [] => []
  | e :: es => e.tokens ++ tokensOf es

end

@[simp]
theorem tokensOf_append (as bs : List Element) :
    tokensOf (as ++ bs) = tokensOf as ++ tokensOf bs := by
  induction as with
  | nil => rfl
  | cons a as ih => simp [tokensOf, ih]

def fullLength (e : Element) : Nat :=
  byteLength (tokensText e.tokens)

def firstToken? (e : Element) : Option Token :=
  e.tokens.head?

def lastToken? (e : Element) : Option Token :=
  e.tokens.getLast?

mutual

def mapFirst? (f : Token → Token) : Element → Option Element
  | token t => some (token (f t))
  | node kind children => (mapFirstOf? f children).map (node kind)

/-- The elements with the first token among them changed, if there is any. -/
def mapFirstOf? (f : Token → Token) : List Element → Option (List Element)
  | [] => none
  | e :: es =>
    match e.mapFirst? f with
    | some e' => some (e' :: es)
    | none => (mapFirstOf? f es).map (e :: ·)

end

mutual

def mapLast? (f : Token → Token) : Element → Option Element
  | token t => some (token (f t))
  | node kind children => (mapLastOf? f children).map (node kind)

/-- The elements with the last token among them changed, if there is any. -/
def mapLastOf? (f : Token → Token) : List Element → Option (List Element)
  | [] => none
  | e :: es =>
    match mapLastOf? f es with
    | some es' => some (e :: es')
    | none => (e.mapLast? f).map (· :: es)

end

end Element

namespace Node

def element (n : Node) : Element :=
  .node n.kind n.children

def tokens (n : Node) : List Token :=
  Element.tokensOf n.children

def text (n : Node) : String :=
  String.ofList (tokensText n.tokens)

def fullLength (n : Node) : Nat :=
  n.element.fullLength

def firstToken? (n : Node) : Option Token :=
  n.tokens.head?

def lastToken? (n : Node) : Option Token :=
  n.tokens.getLast?

/-- The node with its first token changed; a node without tokens stays as it is. -/
def mapFirstToken (f : Token → Token) (n : Node) : Node :=
  { n with children := (Element.mapFirstOf? f n.children).getD n.children }

/-- The node with its last token changed; a node without tokens stays as it is. -/
def mapLastToken (f : Token → Token) (n : Node) : Node :=
  { n with children := (Element.mapLastOf? f n.children).getD n.children }

end Node

end AutoProperty
