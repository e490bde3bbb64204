import AutoProperty.Proofs.Syntax.Reading

/-! # The shapes of nodes

Which kinds of children a node can have, in which order. An element conforms if this holds at every
node in it. A missing token counts as a token of the kind it stands for, so every tree of a text
conforms, whatever the text is.
-/

namespace AutoProperty

namespace Kind

def isExpression : Kind → Bool
  | .identifierName | .literalExpression | .thisExpression | .predefinedType
  | .objectCreationExpression | .parenthesizedExpression | .memberAccessExpression
  | .invocationExpression | .postfixUnaryExpression | .prefixUnaryExpression | .binaryExpression
  | .assignmentExpression => true
  | _ => false

def isName : Kind → Bool
  | .identifierName | .qualifiedName => true
  | _ => false

def isStatement : Kind → Bool
  | .block | .emptyStatement | .returnStatement | .ifStatement | .localDeclarationStatement
  | .expressionStatement | .skippedTokens => true
  | _ => false

/-- What a type can hold. -/
def isTypeMember : Kind → Bool
  | .fieldDeclaration | .propertyDeclaration | .methodDeclaration | .constructorDeclaration
  | .classDeclaration | .structDeclaration | .skippedTokens => true
  | _ => false

/-- What a namespace or a whole text can hold. -/
def isNamespaceMember : Kind → Bool
  | .namespaceDeclaration | .fileScopedNamespaceDeclaration | .usingDirective => true
  | kind => kind.isTypeMember

/-- The kind of keyword that an accessor of a kind has. -/
def accessorKeyword : Kind → Kind
  | .getAccessorDeclaration => .getKeyword
  | .setAccessorDeclaration => .setKeyword
  | _ => .initKeyword

end Kind

/-- One item or more, with single commas between them. -/
inductive Separated (item : Kind) : List Kind → Prop where
  | one : Separated item [item]
  | snoc {kinds : List Kind} : Separated item kinds → Separated item (kinds ++ [.commaToken, item])

/-- No item, or some with single commas between them. -/
def Listed (item : Kind) (kinds : List Kind) : Prop :=
  kinds = [] ∨ Separated item kinds

/-- The body of a method or an accessor. -/
def IsBody (kinds : List Kind) : Prop :=
  kinds = [.block] ∨ kinds = [.arrowExpressionClause, .semicolonToken] ∨ kinds = [.semicolonToken]

/-- What follows the name of a property. -/
def IsPropertyBody (kinds : List Kind) : Prop :=
  kinds = [.accessorList] ∨ kinds = [.accessorList, .equalsValueClause, .semicolonToken] ∨
    kinds = [.arrowExpressionClause, .semicolonToken]

/-- The kinds of children that a node of a kind has. -/
def ChildrenFit (kind : Kind) (kinds : List Kind) : Prop :=
  match kind with
  | .identifierName => kinds = [.identifierToken]
  | .qualifiedName => ∃ q : Kind, q.isName ∧ kinds = [q, .dotToken, .identifierName]
  | .predefinedType => ∃ k : Kind, k.isPredefinedType ∧ kinds = [k]
  | .nullableType => ∃ t : Kind, t.isType ∧ kinds = [t, .questionToken]
  | .arrayType => ∃ t : Kind, t.isType ∧ kinds = [t, .openBracketToken, .closeBracketToken]
  | .literalExpression => ∃ k : Kind, Production.isLiteral k ∧ kinds = [k]
  | .thisExpression => kinds = [.thisKeyword]
  | .objectCreationExpression => ∃ types arguments : List Kind,
      (types = [] ∨ ∃ t : Kind, t.isType ∧ types = [t]) ∧
      (arguments = [] ∨ arguments = [.argumentList]) ∧
      kinds = .newKeyword :: types ++ arguments
  | .parenthesizedExpression => ∃ e : Kind, e.isExpression ∧
      kinds = [.openParenToken, e, .closeParenToken]
  | .memberAccessExpression => ∃ e : Kind, e.isExpression ∧ kinds = [e, .dotToken, .identifierName]
  | .invocationExpression => ∃ e : Kind, e.isExpression ∧ kinds = [e, .argumentList]
  | .postfixUnaryExpression =>
    ∃ e op : Kind, e.isExpression ∧ Production.isStep op ∧ kinds = [e, op]
  | .prefixUnaryExpression => ∃ op e : Kind, Production.isPrefixOperator op ∧ e.isExpression ∧
      kinds = [op, e]
  | .binaryExpression => ∃ a op b : Kind, a.isExpression ∧ op ∈ Production.binaryLevels.flatten ∧
      b.isExpression ∧ kinds = [a, op, b]
  | .assignmentExpression => ∃ a op b : Kind, a.isExpression ∧ Production.isAssignment op ∧
      b.isExpression ∧ kinds = [a, op, b]
  | .argumentList => ∃ arguments : List Kind, Listed .argument arguments ∧
      kinds = .openParenToken :: arguments ++ [.closeParenToken]
  | .argument => ∃ e : Kind, e.isExpression ∧ kinds = [e]
  | .equalsValueClause => ∃ e : Kind, e.isExpression ∧ kinds = [.equalsToken, e]
  | .arrowExpressionClause => ∃ e : Kind, e.isExpression ∧ kinds = [.equalsGreaterThanToken, e]
  | .variableDeclarator =>
    kinds = [.identifierToken] ∨ kinds = [.identifierToken, .equalsValueClause]
  | .variableDeclaration => ∃ (t : Kind) (declarators : List Kind), t.isType ∧
      Separated .variableDeclarator declarators ∧ kinds = t :: declarators
  | .block => ∃ statements : List Kind, (∀ k ∈ statements, k.isStatement) ∧
      kinds = .openBraceToken :: statements ++ [.closeBraceToken]
  | .emptyStatement => kinds = [.semicolonToken]
  | .returnStatement =>
    ∃ values : List Kind, (values = [] ∨ ∃ e : Kind, e.isExpression ∧ values = [e]) ∧
      kinds = .returnKeyword :: values ++ [.semicolonToken]
  | .ifStatement => ∃ (e : Kind) (statements : List Kind), e.isExpression ∧
      (∀ k ∈ statements, k.isStatement ∨ k = .elseClause) ∧
      kinds = [.ifKeyword, .openParenToken, e, .closeParenToken] ++ statements
  | .elseClause => ∃ statements : List Kind, (∀ k ∈ statements, k.isStatement) ∧
      kinds = .elseKeyword :: statements
  | .localDeclarationStatement => kinds = [.variableDeclaration, .semicolonToken]
  | .expressionStatement =>
    ∃ e : Kind, e.isExpression ∧ (kinds = [e, .semicolonToken] ∨ kinds = [e])
  | .skippedTokens => kinds ≠ [] ∧ ∀ k ∈ kinds, k.isToken
  | .parameter => ∃ types : List Kind, (types = [] ∨ ∃ t : Kind, t.isType ∧ types = [t]) ∧
      kinds = types ++ [.identifierToken]
  | .parameterList => ∃ parameters : List Kind, Listed .parameter parameters ∧
      kinds = .openParenToken :: parameters ++ [.closeParenToken]
  | .getAccessorDeclaration | .setAccessorDeclaration | .initAccessorDeclaration =>
      ∃ modifiers body : List Kind, (∀ k ∈ modifiers, k.isAccessibility) ∧ IsBody body ∧
        kinds = modifiers ++ kind.accessorKeyword :: body
  | .accessorList => ∃ accessors : List Kind,
      (∀ k ∈ accessors, k.isAccessor ∨ k = .skippedTokens) ∧
      kinds = .openBraceToken :: accessors ++ [.closeBraceToken]
  | .propertyDeclaration => ∃ (modifiers : List Kind) (t : Kind) (body : List Kind),
      (∀ k ∈ modifiers, k.isModifier) ∧ t.isType ∧ IsPropertyBody body ∧
      kinds = modifiers ++ [t, .identifierToken] ++ body
  | .fieldDeclaration => ∃ modifiers : List Kind, (∀ k ∈ modifiers, k.isModifier) ∧
      kinds = modifiers ++ [.variableDeclaration, .semicolonToken]
  | .methodDeclaration => ∃ (modifiers : List Kind) (t : Kind) (body : List Kind),
      (∀ k ∈ modifiers, k.isModifier) ∧ t.isType ∧ IsBody body ∧
      kinds = modifiers ++ [t, .identifierToken, .parameterList] ++ body
  | .constructorDeclaration => ∃ modifiers body : List Kind, (∀ k ∈ modifiers, k.isModifier) ∧
      IsBody body ∧ kinds = modifiers ++ [.identifierToken, .parameterList] ++ body
  | .classDeclaration | .structDeclaration => ∃ (modifiers : List Kind) (keyword : Kind)
      (members ends : List Kind), (∀ k ∈ modifiers, k.isModifier) ∧
      (keyword = .classKeyword ∨ keyword = .structKeyword) ∧ (∀ k ∈ members, k.isTypeMember) ∧
      (ends = [] ∨ ends = [.semicolonToken]) ∧
      kinds = modifiers ++ [keyword, .identifierToken, .openBraceToken] ++ members ++
        .closeBraceToken :: ends
  | .usingDirective => ∃ n : Kind, n.isName ∧ kinds = [.usingKeyword, n, .semicolonToken]
  | .namespaceDeclaration => ∃ (n : Kind) (members : List Kind), n.isName ∧
      (∀ k ∈ members, k.isNamespaceMember) ∧
      kinds = [.namespaceKeyword, n, .openBraceToken] ++ members ++ [.closeBraceToken]
  | .fileScopedNamespaceDeclaration => ∃ (n : Kind) (members : List Kind), n.isName ∧
      (∀ k ∈ members, k.isNamespaceMember) ∧
      kinds = [.namespaceKeyword, n, .semicolonToken] ++ members
  | .compilationUnit => ∃ members : List Kind, (∀ k ∈ members, k.isNamespaceMember) ∧
      kinds = members ++ [.endOfFileToken]
  | _ => False

/-- Every node has a child. -/
theorem ChildrenFit.ne_nil {kind : Kind} {kinds : List Kind} (h : ChildrenFit kind kinds) :
    kinds ≠ [] := by
  rintro rfl
  cases kind <;> simp [ChildrenFit, IsBody] at h

@[simp]
theorem Element.kind_token (t : Token) : (Element.token t).kind = t.kind := rfl

@[simp]
theorem Element.kind_node (kind : Kind) (children : List Element) :
    (Element.node kind children).kind = kind := rfl

/-- Every node in the element has the children that fit it. -/
inductive Element.Conforms : Element → Prop where
  | token {t : Token} : t.kind.isToken → Conforms (.token t)
  | node {kind : Kind} {children : List Element} : kind.isNode →
      ChildrenFit kind (children.map Element.kind) → (∀ e ∈ children, Conforms e) →
      Conforms (.node kind children)

namespace Element.Conforms

theorem fit {kind : Kind} {children : List Element} (h : (Element.node kind children).Conforms) :
    ChildrenFit kind (children.map Element.kind) := by
  cases h with
  | node _ hfit _ => exact hfit

theorem child {kind : Kind} {children : List Element} (h : (Element.node kind children).Conforms)
    {e : Element} (he : e ∈ children) : e.Conforms := by
  cases h with
  | node _ _ hall => exact hall e he

/-- Every conforming element has a token, if only a missing one. -/
theorem tokens_ne_nil {e : Element} (h : e.Conforms) : e.tokens ≠ [] := by
  induction h with
  | token => exact List.cons_ne_nil _ _
  | @node kind children _ hfit _ ih =>
    have hne : children ≠ [] := by
      rintro rfl
      exact hfit.ne_nil rfl
    obtain ⟨e, es, rfl⟩ := List.exists_cons_of_ne_nil hne
    exact List.append_ne_nil_of_left_ne_nil (ih e List.mem_cons_self) _

/-- An element of a node's kind is a node. -/
theorem eq_node {e : Element} (h : e.Conforms) (hkind : e.kind.isNode) :
    ∃ children, e = Element.node e.kind children := by
  cases h with
  | @token t ht =>
    simp only [Element.kind] at hkind
    simp [Kind.isNode, ht] at hkind
  | @node kind children => exact ⟨children, rfl⟩

/-- An element of a token's kind is a token. -/
theorem eq_token {e : Element} (h : e.Conforms) (hkind : e.kind.isToken) :
    ∃ t : Token, e = Element.token t ∧ t.kind = e.kind := by
  cases h with
  | @token t => exact ⟨t, rfl, rfl⟩
  | @node kind children hnode =>
    simp only [Element.kind] at hkind
    simp [Kind.isNode, hkind] at hnode

end Element.Conforms

/-! ## Rows of elements -/

/-- Elements that lie side by side: each conforms, and together they spell what was taken. -/
structure Row (used : List Lexeme) (es : List Element) : Prop where
  conforms : ∀ e ∈ es, e.Conforms
  spells : Spells (Element.tokensOf es) used

namespace Row

theorem nil : Row [] [] :=
  ⟨nofun, .nil⟩

theorem append {used more : List Lexeme} {es fs : List Element} (h : Row used es)
    (h' : Row more fs) : Row (used ++ more) (es ++ fs) where
  conforms e he := (List.mem_append.mp he).elim (h.conforms e) (h'.conforms e)
  spells := by
    rw [Element.tokensOf_append]
    exact h.spells.append h'.spells

/-- A missing token stands in a row without anything taken for it. -/
theorem missing {kind : Kind} (h : kind.canBeMissing) : Row [] [.token (.missing kind)] where
  conforms e he := by
    rw [List.mem_singleton.mp he]
    exact .token (Kind.isToken_of_canBeMissing h)
  spells := .missing kind h .nil

theorem taken {l : Lexeme} {kind : Kind} (htoken : kind.isToken)
    (hkind : kind = l.kind ∨ l.kind = .identifierToken ∧ kind.isContextual) :
    Row [l] [.token { l.token with kind }] where
  conforms e he := by
    rw [List.mem_singleton.mp he]
    exact .token htoken
  spells := .single ⟨kind, rfl, hkind⟩

/-- The children of a node make a row of the node itself. -/
theorem node {used : List Lexeme} {kind : Kind} {children : List Element} (h : Row used children)
    (hnode : kind.isNode) (hfit : ChildrenFit kind (children.map Element.kind)) :
    Row used [.node kind children] where
  conforms e he := by
    rw [List.mem_singleton.mp he]
    exact .node hnode hfit h.conforms
  spells := by
    simpa [Element.tokensOf, Element.tokens] using h.spells

end Row

/-- A conforming element whose kind is as `P` says, and which spells what was taken for it. -/
def Makes (P : Kind → Prop) (used : List Lexeme) (e : Element) : Prop :=
  P e.kind ∧ Row used [e]

/-- Conforming elements whose kinds are as `P` says, and which spell what was taken for them. -/
def MakesAll (P : List Kind → Prop) (used : List Lexeme) (es : List Element) : Prop :=
  P (es.map Element.kind) ∧ Row used es

theorem Makes.imp {P Q : Kind → Prop} {used : List Lexeme} {e : Element} (h : Makes P used e)
    (hpq : P e.kind → Q e.kind) : Makes Q used e :=
  ⟨hpq h.1, h.2⟩

theorem MakesAll.nil {P : List Kind → Prop} (h : P []) : MakesAll P [] [] :=
  ⟨h, .nil⟩

/-- A node over a row of children. -/
theorem Row.makes {P : Kind → Prop} {used : List Lexeme} {kind : Kind} {children : List Element}
    (h : Row used children) (hnode : kind.isNode)
    (hfit : ChildrenFit kind (children.map Element.kind)) (hp : P kind) :
    Makes P used (.node kind children) :=
  ⟨hp, h.node hnode hfit⟩

end AutoProperty
