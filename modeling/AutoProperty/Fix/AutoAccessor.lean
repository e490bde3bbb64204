import AutoProperty.Syntax.Element

/-! # Automatic accessors

A property becomes automatic by taking the bodies out of its accessors, or by putting `{ get; }` in
the place of an expression body. An initializer may be put behind the accessors.
-/

namespace AutoProperty

namespace Token

def withLeading (trivia : List Trivia) (t : Token) : Token :=
  { t with leading := trivia }

def withTrailing (trivia : List Trivia) (t : Token) : Token :=
  { t with trailing := trivia }

end Token

/-- The trivia behind an element; none behind an element without tokens. -/
def Element.trailing (e : Element) : List Trivia :=
  (e.lastToken?.map (·.trailing)).getD []

def isAccessorHead (kind : Kind) : Bool :=
  kind.isAccessibility || kind == .getKeyword || kind == .setKeyword || kind == .initKeyword

def Element.accessorHead? : Element → Option Token
  | .token t => if isAccessorHead t.kind then some t else none
  | .node _ _ => none

/-- An accessor without a body ends with its head or with one semicolon. -/
def isBodiless : List Element → Bool
  | [] => true
  | [e] => e.kind == .semicolonToken
  | _ => false

def headComments (keyword : Token) : List Trivia :=
  match keyword.trailing.filter Trivia.isComment with
  | [] => []
  | comments => .space :: comments

/-- The line break that must follow `comments` if they end in a line comment and `after` brings
none. -/
def breakBetween (comments after : List Trivia) : List Trivia :=
  if comments.getLast?.any (·.kind == .singleLineComment) && !after.any Trivia.isEndOfLine then
    [⟨.endOfLine, "\n"⟩]
  else
    []

/-- An accessor with a semicolon in place of its body. The keyword's comments go behind the
semicolon, followed by the trivia that stood behind the body. -/
def stripAccessor (kind : Kind) (children : List Element) : Element :=
  let head := children.filterMap Element.accessorHead?
  let body := children.filter (·.accessorHead?.isNone)
  if isBodiless body then
    .node kind children
  else
    let after := (body.getLast?.map Element.trailing).getD []
    let comments := (head.getLast?.map headComments).getD []
    let kept := head.dropLast ++ (head.getLast?.map (Token.withTrailing [])).toList
    let semicolon := (Token.fixed .semicolonToken).withTrailing
      (comments ++ breakBetween comments after ++ after)
    .node kind (kept.map Element.token ++ [.token semicolon])

def stripListElement : Element → Element
  | .token t => .token t
  | .node kind children =>
    if kind.isAccessor then stripAccessor kind children else .node kind children

/-- `{ get; }`, with a blank in front if wanted. -/
def getterOnly (spaceBefore : Bool) (trailing : List Trivia) : Element :=
  .node .accessorList
    [ .token ⟨.openBraceToken, "\x7b", if spaceBefore then [.space] else [], [.space]⟩,
      .node .getAccessorDeclaration
        [ .token (Token.fixed .getKeyword),
          .token ((Token.fixed .semicolonToken).withTrailing [.space]) ],
      .token ((Token.fixed .closeBraceToken).withTrailing trailing) ]

/-- The trivia that an expression body takes over from the semicolon behind it, and the elements
that are left. -/
def takeSemicolon : List Element → List Trivia × List Element
  | .token t :: es => if t.kind = .semicolonToken then (t.trailing, es) else ([], .token t :: es)
  | es => ([], es)

theorem length_takeSemicolon (es : List Element) : (takeSemicolon es).2.length ≤ es.length := by
  unfold takeSemicolon
  split
  · split <;> simp
  · simp

/-- Makes the bodies among the children of a property automatic. `before?` is the element in
front. -/
def stripBodies (before? : Option Element) : List Element → List Element
  | [] => []
  | .node .accessorList children :: es =>
    let list := Element.node .accessorList (children.map stripListElement)
    list :: stripBodies (some list) es
  | e :: es =>
    if e.kind = .arrowExpressionClause then
      let spaceBefore := (before?.bind Element.lastToken?).any (·.trailing.isEmpty)
      let list := getterOnly spaceBefore (takeSemicolon es).1
      list :: stripBodies (some list) (takeSemicolon es).2
    else
      e :: stripBodies (some e) es
termination_by es => es.length
decreasing_by
  all_goals simp only [List.length_cons]
  · omega
  · have := length_takeSemicolon es
    omega
  · omega

/-- ` = ` and an expression without the trivia at its ends. -/
def initializerClause (expression : Node) : Element :=
  let expression := (expression.mapFirstToken (·.withLeading [])).mapLastToken (·.withTrailing [])
  .node .equalsValueClause
    [ .token ⟨.equalsToken, "=", [.space], [.space]⟩, expression.element ]

/-- Puts an initializer and a semicolon behind an accessor list that stands last. The trivia behind
the list goes behind the semicolon. -/
def withInitializer (expression : Node) (children : List Element) : List Element :=
  match children.getLast? with
  | some (.node .accessorList inner) =>
    let list : Node := ⟨.accessorList, inner⟩
    children.dropLast ++
      [ (list.mapLastToken (·.withTrailing [])).element,
        initializerClause expression,
        .token ((Token.fixed .semicolonToken).withTrailing list.element.trailing) ]
  | _ => children

namespace Node

def hasChild (n : Node) (kind : Kind) : Bool :=
  n.children.any fun e => e.node?.any (·.kind == kind)

/-- The property has accessors or an expression body to make automatic. An accessor list that is a
mere token cannot be. -/
def hasBody (property : Node) : Bool :=
  property.children.any (fun e => e.kind == .accessorList || e.kind == .arrowExpressionClause) &&
    property.children.all fun e => e.kind != .accessorList || e.node?.isSome

/-- The property with automatic accessors, and with an initializer if one is given and the property
has none. Nothing if the property has no body. -/
def autoProperty? (property : Node) (initializer? : Option Node) : Option Node :=
  if property.hasBody then
    let children := stripBodies none property.children
    match initializer? with
    | some expression =>
      if property.hasChild .equalsValueClause then
        some { property with children }
      else
        some { property with children := withInitializer expression children }
    | none => some { property with children }
  else
    none

end Node

end AutoProperty
