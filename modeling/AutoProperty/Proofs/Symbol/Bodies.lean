import AutoProperty.Proofs.Symbol.Declared
import AutoProperty.Proofs.Syntax.Reparsing
import AutoProperty.Proofs.Syntax.Sites
import AutoProperty.Symbol.Bind

/-! # The parts of bodies

Which nodes stand in the bodies and initial values of members. Among them a simple name stands
only where an expression is wanted; the names of types stand apart.
-/

namespace AutoProperty

def Kind.isBodyPart (kind : Kind) : Bool :=
  kind.isExpression || kind.isStatement ||
    match kind with
    | .argumentList | .argument | .equalsValueClause | .arrowExpressionClause | .elseClause => true
    | _ => false

theorem isNode_of_isType {kind : Kind} (h : kind.isType) : kind.isNode := by
  cases kind <;> first | rfl | exact absurd h Bool.false_ne_true

theorem isNode_of_isExpression {kind : Kind} (h : kind.isExpression) : kind.isNode := by
  cases kind <;> first | rfl | exact absurd h Bool.false_ne_true

theorem ne_identifierName_of_isStatement {kind : Kind} (h : kind.isStatement) :
    kind ≠ .identifierName := by
  rintro rfl
  exact Bool.false_ne_true h

theorem isToken_of_mem_binaryLevels {kind : Kind} (h : kind ∈ Production.binaryLevels.flatten) :
    kind.isToken := by
  revert kind
  decide

def FitsBody (parent child : Kind) : Prop :=
  child.isToken ∨ child.isBodyPart ∧ (child = .identifierName → isExpressionContext parent)

theorem FitsBody.token {parent child : Kind} (h : child.isToken) : FitsBody parent child :=
  .inl h

theorem FitsBody.expression {parent child : Kind} (h : child.isExpression)
    (hparent : isExpressionContext parent) : FitsBody parent child :=
  .inr ⟨by simp [Kind.isBodyPart, h], fun _ => hparent⟩

theorem FitsBody.statement {parent child : Kind} (h : child.isStatement) : FitsBody parent child :=
  .inr ⟨by simp [Kind.isBodyPart, h], fun heq => absurd heq (ne_identifierName_of_isStatement h)⟩

theorem FitsBody.argumentList {parent child : Kind} (h : child = .argumentList) :
    FitsBody parent child := by
  subst h
  exact .inr ⟨rfl, fun heq => absurd heq (by decide)⟩

/-- A list with commas holds nothing but items and commas. -/
theorem mem_of_separated {item kind : Kind} {kinds : List Kind} (h : Separated item kinds)
    (hmem : kind ∈ kinds) : kind = item ∨ kind = .commaToken := by
  induction h with
  | one => exact .inl (List.mem_singleton.mp hmem)
  | snoc _ ih =>
    obtain hmem | hmem := List.mem_append.mp hmem
    · exact ih hmem
    · simp only [List.mem_cons, List.not_mem_nil, or_false] at hmem
      exact hmem.symm

theorem mem_of_listed {item kind : Kind} {kinds : List Kind} (h : Listed item kinds)
    (hmem : kind ∈ kinds) : kind = item ∨ kind = .commaToken := by
  obtain rfl | h := h
  · exact absurd hmem List.not_mem_nil
  · exact mem_of_separated h hmem

theorem isToken_of_isLiteral {kind : Kind} (h : Production.isLiteral kind) : kind.isToken := by
  cases kind <;> first | rfl | exact absurd h Bool.false_ne_true

theorem isToken_of_isAccessibility {kind : Kind} (h : kind.isAccessibility) : kind.isToken := by
  cases kind <;> first | rfl | exact absurd h Bool.false_ne_true

theorem isToken_of_isPredefinedType {kind : Kind} (h : kind.isPredefinedType) : kind.isToken := by
  cases kind <;> first | rfl | exact absurd h Bool.false_ne_true

theorem isToken_of_isStep {kind : Kind} (h : Production.isStep kind) : kind.isToken := by
  simp only [Production.isStep, Bool.or_eq_true, beq_iff_eq] at h
  obtain rfl | rfl := h <;> rfl

theorem isToken_of_isPrefixOperator {kind : Kind} (h : Production.isPrefixOperator kind) :
    kind.isToken := by
  simp only [Production.isPrefixOperator, Bool.or_eq_true, beq_iff_eq] at h
  obtain ((rfl | rfl) | rfl) | h := h
  · rfl
  · rfl
  · rfl
  · exact isToken_of_isStep h

theorem isToken_of_isAssignment {kind : Kind} (h : Production.isAssignment kind) :
    kind.isToken := by
  simp only [Production.isAssignment, Bool.or_eq_true, beq_iff_eq] at h
  obtain (rfl | rfl) | rfl := h <;> rfl

/-- The parts of an expression are expressions, except in the creation of objects. -/
theorem fitsExpression {parent : Kind} {kinds : List Kind} (hfit : ChildrenFit parent kinds)
    (h : parent.isExpression) (hnew : parent ≠ .objectCreationExpression) :
    ∀ child ∈ kinds, FitsBody parent child := by
  cases parent <;> first | exact absurd h Bool.false_ne_true | skip
  case identifierName =>
    obtain rfl := hfit
    exact List.forall_mem_singleton.mpr (.token rfl)
  case literalExpression =>
    obtain ⟨k, hk, rfl⟩ := hfit
    exact List.forall_mem_singleton.mpr (.token (isToken_of_isLiteral hk))
  case thisExpression =>
    obtain rfl := hfit
    exact List.forall_mem_singleton.mpr (.token rfl)
  case predefinedType =>
    obtain ⟨k, hk, rfl⟩ := hfit
    exact List.forall_mem_singleton.mpr (.token (isToken_of_isPredefinedType hk))
  case objectCreationExpression => exact absurd rfl hnew
  case parenthesizedExpression =>
    obtain ⟨e, he, rfl⟩ := hfit
    simp only [List.forall_mem_cons, List.not_mem_nil, false_imp_iff, implies_true, and_true]
    exact ⟨.token rfl, .expression he rfl, .token rfl⟩
  case memberAccessExpression =>
    obtain ⟨e, he, rfl⟩ := hfit
    simp only [List.forall_mem_cons, List.not_mem_nil, false_imp_iff, implies_true, and_true]
    exact ⟨.expression he rfl, .token rfl, .expression rfl rfl⟩
  case invocationExpression =>
    obtain ⟨e, he, rfl⟩ := hfit
    simp only [List.forall_mem_cons, List.not_mem_nil, false_imp_iff, implies_true, and_true]
    exact ⟨.expression he rfl, .argumentList rfl⟩
  case postfixUnaryExpression =>
    obtain ⟨e, op, he, hop, rfl⟩ := hfit
    simp only [List.forall_mem_cons, List.not_mem_nil, false_imp_iff, implies_true, and_true]
    exact ⟨.expression he rfl, .token (isToken_of_isStep hop)⟩
  case prefixUnaryExpression =>
    obtain ⟨op, e, hop, he, rfl⟩ := hfit
    simp only [List.forall_mem_cons, List.not_mem_nil, false_imp_iff, implies_true, and_true]
    exact ⟨.token (isToken_of_isPrefixOperator hop), .expression he rfl⟩
  case binaryExpression =>
    obtain ⟨a, op, b, ha, hop, hb, rfl⟩ := hfit
    simp only [List.forall_mem_cons, List.not_mem_nil, false_imp_iff, implies_true, and_true]
    exact ⟨.expression ha rfl, .token (isToken_of_mem_binaryLevels hop), .expression hb rfl⟩
  case assignmentExpression =>
    obtain ⟨a, op, b, ha, hop, hb, rfl⟩ := hfit
    simp only [List.forall_mem_cons, List.not_mem_nil, false_imp_iff, implies_true, and_true]
    exact ⟨.expression ha rfl, .token (isToken_of_isAssignment hop), .expression hb rfl⟩

/-- In a list of arguments, all parts that are no tokens are arguments. -/
theorem fitsArgumentList {kinds : List Kind} (hfit : ChildrenFit .argumentList kinds) :
    ∀ child ∈ kinds, FitsBody .argumentList child := by
  obtain ⟨arguments, harguments, rfl⟩ := hfit
  intro child hmem
  simp only [List.cons_append, List.mem_cons, List.mem_append, List.not_mem_nil, or_false] at hmem
  obtain rfl | hmem | rfl := hmem
  · exact .token rfl
  · obtain rfl | rfl := mem_of_listed harguments hmem
    · exact .inr ⟨rfl, nofun⟩
    · exact .token rfl
  · exact .token rfl

/-- The parts of a statement are statements and expressions, except in the declaration of locals. -/
theorem fitsStatement {parent : Kind} {kinds : List Kind} (hfit : ChildrenFit parent kinds)
    (h : parent.isStatement) (hlocal : parent ≠ .localDeclarationStatement) :
    ∀ child ∈ kinds, FitsBody parent child := by
  cases parent <;> first | exact absurd h Bool.false_ne_true | skip
  case block =>
    obtain ⟨statements, hstatements, rfl⟩ := hfit
    intro child hmem
    simp only [List.cons_append, List.mem_cons, List.mem_append, List.not_mem_nil, or_false] at hmem
    obtain rfl | hmem | rfl := hmem
    · exact .token rfl
    · exact .statement (hstatements child hmem)
    · exact .token rfl
  case localDeclarationStatement => exact absurd rfl hlocal
  case emptyStatement =>
    obtain rfl := hfit
    exact List.forall_mem_singleton.mpr (.token rfl)
  case returnStatement =>
    obtain ⟨values, hvalues, rfl⟩ := hfit
    intro child hmem
    simp only [List.cons_append, List.mem_cons, List.mem_append, List.not_mem_nil, or_false] at hmem
    obtain rfl | hmem | rfl := hmem
    · exact .token rfl
    · obtain rfl | ⟨e, he, rfl⟩ := hvalues
      · exact absurd hmem List.not_mem_nil
      · exact List.mem_singleton.mp hmem ▸ .expression he rfl
    · exact .token rfl
  case ifStatement =>
    obtain ⟨e, statements, he, hstatements, rfl⟩ := hfit
    intro child hmem
    simp only [List.cons_append, List.nil_append, List.mem_cons] at hmem
    obtain rfl | rfl | rfl | rfl | hmem := hmem
    · exact .token rfl
    · exact .token rfl
    · exact .expression he rfl
    · exact .token rfl
    · obtain h | rfl := hstatements child hmem
      · exact .statement h
      · exact .inr ⟨rfl, nofun⟩
  case expressionStatement =>
    obtain ⟨e, he, rfl | rfl⟩ := hfit
    · simp only [List.forall_mem_cons, List.not_mem_nil, false_imp_iff, implies_true, and_true]
      exact ⟨.expression he rfl, .token rfl⟩
    · exact List.forall_mem_singleton.mpr (.expression he rfl)
  case skippedTokens => exact fun child hmem => .token (hfit.2 child hmem)

/-- Within a body, names of types stand in the creation of objects and the declarations of
locals only. -/
theorem fitsBody {parent : Kind} {kinds : List Kind} (hfit : ChildrenFit parent kinds)
    (h : parent.isBodyPart) (hnew : parent ≠ .objectCreationExpression)
    (hlocal : parent ≠ .localDeclarationStatement) : ∀ child ∈ kinds, FitsBody parent child := by
  simp only [Kind.isBodyPart, Bool.or_eq_true, or_assoc] at h
  obtain hexpression | hstatement | hpart := h
  · exact fitsExpression hfit hexpression hnew
  · exact fitsStatement hfit hstatement hlocal
  cases parent <;> first | exact absurd hpart Bool.false_ne_true | skip
  case argumentList => exact fitsArgumentList hfit
  case argument =>
    obtain ⟨e, he, rfl⟩ := hfit
    exact List.forall_mem_singleton.mpr (.expression he rfl)
  case equalsValueClause =>
    obtain ⟨e, he, rfl⟩ := hfit
    simp only [List.forall_mem_cons, List.not_mem_nil, false_imp_iff, implies_true, and_true]
    exact ⟨.token rfl, .expression he rfl⟩
  case arrowExpressionClause =>
    obtain ⟨e, he, rfl⟩ := hfit
    simp only [List.forall_mem_cons, List.not_mem_nil, false_imp_iff, implies_true, and_true]
    exact ⟨.token rfl, .expression he rfl⟩
  case elseClause =>
    obtain ⟨statements, hstatements, rfl⟩ := hfit
    intro child hmem
    obtain rfl | hmem := List.mem_cons.mp hmem
    · exact .token rfl
    · exact .statement (hstatements child hmem)

/-- The creation of an object names a type, and holds nothing else but tokens and arguments. -/
theorem fitsCreation {kinds : List Kind} (hfit : ChildrenFit .objectCreationExpression kinds) :
    ∀ child ∈ kinds, child.isType ∨ ¬child.isType ∧ FitsBody .objectCreationExpression child := by
  obtain ⟨types, arguments, htypes, harguments, rfl⟩ := hfit
  intro child hmem
  simp only [List.cons_append, List.mem_cons, List.mem_append] at hmem
  obtain rfl | htype | hlist := hmem
  · exact .inr ⟨by decide, .token rfl⟩
  · obtain rfl | ⟨t, ht, rfl⟩ := htypes
    · exact absurd htype List.not_mem_nil
    · exact .inl (List.mem_singleton.mp htype ▸ ht)
  · obtain rfl | rfl := harguments
    · exact absurd hlist List.not_mem_nil
    · obtain rfl := List.mem_singleton.mp hlist
      exact .inr ⟨by decide, .argumentList rfl⟩

/-! ## The names of expressions and of types -/

theorem isExpressionName_of {a : PlacedToken} {n m : PlacedNode} {above : List PlacedNode}
    (ha : a.kind = .identifierToken) (hn : n.kind = .identifierName)
    (hm : isExpressionContext m.kind) : (⟨a, n :: m :: above⟩ : TokenFocus).isExpressionName := by
  simp [TokenFocus.isExpressionName, ha, hn, hm]

/-- A token of another kind than an identifier cannot be renamed. -/
theorem not_isRenamable_of_kind {above : List PlacedNode} {leaf : PlacedToken}
    (hkind : leaf.kind ≠ .identifierToken) :
    ∀ f ∈ (Placed.token leaf).tokenFoci above, ¬f.IsRenamable := by
  intro f hf hrenamable
  rw [Placed.tokenFoci, List.mem_singleton] at hf
  exact hkind (by simpa [hf] using hrenamable.kind_eq)

/-- A written type is made of types and of tokens, and of identifiers only where it is a simple
name. -/
theorem isType_or_isToken {parent : Kind} {kinds : List Kind} (hfit : ChildrenFit parent kinds)
    (htype : parent.isType) (hname : parent ≠ .identifierName) :
    ∀ kind ∈ kinds, kind.isType ∨ kind.isToken ∧ kind ≠ .identifierToken := by
  cases parent <;> first | exact absurd htype Bool.false_ne_true | skip
  case identifierName => exact absurd rfl hname
  case predefinedType =>
    obtain ⟨k, hk, rfl⟩ := hfit
    refine List.forall_mem_singleton.mpr (.inr ⟨isToken_of_isPredefinedType hk, ?_⟩)
    rintro rfl
    exact absurd hk Bool.false_ne_true
  case nullableType =>
    obtain ⟨k, hk, rfl⟩ := hfit
    exact List.forall_mem_cons.mpr ⟨.inl hk, List.forall_mem_singleton.mpr (.inr ⟨rfl, nofun⟩)⟩
  case arrayType =>
    obtain ⟨k, hk, rfl⟩ := hfit
    exact List.forall_mem_cons.mpr ⟨.inl hk, List.forall_mem_cons.mpr
      ⟨.inr ⟨rfl, nofun⟩, List.forall_mem_singleton.mpr (.inr ⟨rfl, nofun⟩)⟩⟩
  case qualifiedName =>
    obtain ⟨k, hk, rfl⟩ := hfit
    have hname : k.isType := by
      simp only [Kind.isName] at hk
      split at hk <;> first | rfl | exact absurd hk Bool.false_ne_true
    exact List.forall_mem_cons.mpr ⟨.inl hname, List.forall_mem_cons.mpr
      ⟨.inr ⟨rfl, nofun⟩, List.forall_mem_singleton.mpr (.inl rfl)⟩⟩

/-- No part of a written type can be renamed, as long as the type does not stand as an
expression. -/
theorem not_isRenamable_of_isType {tree : Tree} {m : PlacedNode} {above : List PlacedNode}
    {p : Placed} (h : Placed.Sited tree (m :: above) [p]) (htype : p.kind.isType)
    (hm : ¬isExpressionContext m.kind) : ∀ f ∈ p.tokenFoci (m :: above), ¬f.IsRenamable := by
  match p with
  | .token leaf =>
    refine not_isRenamable_of_kind fun heq => ?_
    rw [show (Placed.token leaf).kind = .identifierToken from heq] at htype
    exact Bool.false_ne_true htype
  | .node info children =>
    intro f hf hrenamable
    rw [Placed.tokenFoci] at hf
    obtain ⟨q, hq, hf⟩ := Placed.exists_of_mem_tokenFociOf hf
    have hsited := h.children.mem hq
    by_cases hname : info.kind = .identifierName
    · have hfit := h.fit
      rw [hname] at hfit
      have hkind : q.kind = .identifierToken := by
        have hmem := @List.mem_map_of_mem _ _ _ _ Placed.kind hq
        rwa [show children.map Placed.kind = [.identifierToken] from hfit, List.mem_singleton]
          at hmem
      obtain ⟨leaf, rfl⟩ := hsited.exists_token (by rw [hkind]; rfl)
      rw [Placed.tokenFoci, List.mem_singleton] at hf
      rw [hf] at hrenamable
      exact hm (hrenamable.context_kind hname)
    · obtain hchild | ⟨htoken, hne⟩ :=
        isType_or_isToken h.fit htype hname q.kind (List.mem_map_of_mem hq)
      · have hcontext : ¬isExpressionContext (PlacedNode.mk info children).kind := by
          change info.kind.isType at htype
          show ¬isExpressionContext info.kind
          cases hkind : info.kind <;> simp [hkind, Kind.isType, isExpressionContext] at htype ⊢
        exact not_isRenamable_of_isType hsited hchild hcontext f hf hrenamable
      · obtain ⟨leaf, rfl⟩ := hsited.exists_token htoken
        exact not_isRenamable_of_kind hne f hf hrenamable
termination_by sizeOf p
decreasing_by
  simp only [Placed.node.sizeOf_spec]
  have := List.sizeOf_lt_of_mem hq
  omega

/-! ## The parts of members -/

def Kind.isBodyRoot : Kind → Bool
  | .block | .arrowExpressionClause | .equalsValueClause => true
  | _ => false

theorem FitsBody.root {parent child : Kind} (h : child.isBodyRoot) : FitsBody parent child := by
  cases child <;> first | exact absurd h Bool.false_ne_true | exact .inr ⟨rfl, nofun⟩

/-- What can stand among the parts of a member. -/
def Kind.isPart (kind : Kind) : Bool :=
  kind.isToken || kind.isType || kind.isBodyRoot ||
    match kind with
    | .variableDeclaration | .parameterList | .accessorList => true
    | _ => false

theorem isBodyRoot_of_isPart {kind : Kind} (h : kind.isPart) (htoken : ¬kind.isToken)
    (htype : ¬kind.isType)
    (hlist : kind ≠ .variableDeclaration ∧ kind ≠ .parameterList ∧ kind ≠ .accessorList) :
    kind.isBodyRoot := by
  obtain ⟨hfields, hparameters, haccessors⟩ := hlist
  simp only [Kind.isPart, htoken, htype, Bool.false_or, Bool.or_eq_true] at h
  obtain h | h := h
  · exact h
  · exact absurd h Bool.false_ne_true

theorem isPart_of_isToken {kind : Kind} (h : kind.isToken) : kind.isPart := by
  simp [Kind.isPart, h]

theorem isPart_of_isBody {kinds : List Kind} (h : IsBody kinds) : ∀ kind ∈ kinds, kind.isPart := by
  obtain rfl | rfl | rfl := h <;> decide

theorem isPart_of_isPropertyBody {kinds : List Kind} (h : IsPropertyBody kinds) :
    ∀ kind ∈ kinds, kind.isPart := by
  obtain rfl | rfl | rfl := h <;> decide

/-- The children of a member are tokens, types, bodies, or the lists it declares things in. -/
theorem isPart {parent : Kind} {kinds : List Kind} (hfit : ChildrenFit parent kinds)
    (h : parent.hasParts) : ∀ kind ∈ kinds, kind.isPart := by
  have hmodifier {modifiers : List Kind} (hmodifiers : ∀ k ∈ modifiers, k.isModifier) :
      ∀ k ∈ modifiers, k.isPart :=
    fun k hk => isPart_of_isToken (Kind.isToken_of_isModifier (hmodifiers k hk))
  cases parent <;> first | exact absurd h Bool.false_ne_true | skip
  case fieldDeclaration =>
    obtain ⟨modifiers, hmodifiers, rfl⟩ := hfit
    exact List.forall_mem_append.mpr ⟨hmodifier hmodifiers, by decide⟩
  case propertyDeclaration =>
    obtain ⟨modifiers, t, body, hmodifiers, ht, hbody, rfl⟩ := hfit
    refine List.forall_mem_append.mpr ⟨List.forall_mem_append.mpr ⟨hmodifier hmodifiers, ?_⟩, ?_⟩
    · exact List.forall_mem_cons.mpr ⟨by simp [Kind.isPart, ht], by decide⟩
    · exact isPart_of_isPropertyBody hbody
  case methodDeclaration =>
    obtain ⟨modifiers, t, body, hmodifiers, ht, hbody, rfl⟩ := hfit
    refine List.forall_mem_append.mpr ⟨List.forall_mem_append.mpr ⟨hmodifier hmodifiers, ?_⟩, ?_⟩
    · exact List.forall_mem_cons.mpr ⟨by simp [Kind.isPart, ht], by decide⟩
    · exact isPart_of_isBody hbody
  case constructorDeclaration =>
    obtain ⟨modifiers, body, hmodifiers, hbody, rfl⟩ := hfit
    refine List.forall_mem_append.mpr ⟨List.forall_mem_append.mpr ⟨hmodifier hmodifiers, by decide⟩,
      ?_⟩
    exact isPart_of_isBody hbody

/-- Accessors stand between the braces of an accessor list, and tokens that could not be read. -/
theorem isAccessor_or {kinds : List Kind} (hfit : ChildrenFit .accessorList kinds) :
    ∀ kind ∈ kinds, kind.isToken ∨ kind.isAccessor ∨ kind = .skippedTokens := by
  obtain ⟨accessors, haccessors, rfl⟩ := hfit
  refine List.forall_mem_cons.mpr ⟨.inl rfl, List.forall_mem_append.mpr ⟨?_, ?_⟩⟩
  · exact fun kind hkind => .inr (haccessors kind hkind)
  · exact List.forall_mem_singleton.mpr (.inl rfl)

/-- Apart from its tokens, an accessor holds a body only. -/
theorem isBody_of_accessor {parent : Kind} {kinds : List Kind} (hfit : ChildrenFit parent kinds)
    (h : parent.isAccessor) :
    ∀ kind ∈ kinds, kind.isToken ∨ kind = .block ∨ kind = .arrowExpressionClause := by
  have hfit : ∃ modifiers body : List Kind, (∀ k ∈ modifiers, k.isAccessibility) ∧ IsBody body ∧
      kinds = modifiers ++ parent.accessorKeyword :: body := by
    cases parent <;> first | exact absurd h Bool.false_ne_true | exact hfit
  obtain ⟨modifiers, body, hmodifiers, hbody, rfl⟩ := hfit
  refine List.forall_mem_append.mpr ⟨fun k hk => .inl ?_, List.forall_mem_cons.mpr ⟨.inl ?_, ?_⟩⟩
  · exact isToken_of_isAccessibility (hmodifiers k hk)
  · cases parent <;> first | exact absurd h Bool.false_ne_true | rfl
  · obtain rfl | rfl | rfl := hbody <;> decide

/-- What an accessor holds apart from tokens is the root of a body. -/
theorem isBodyRoot_of_accessor {parent : Kind} {kinds : List Kind} (hfit : ChildrenFit parent kinds)
    (h : parent.isAccessor ∨ parent = .skippedTokens) :
    ∀ kind ∈ kinds, kind.isToken ∨ kind.isBodyRoot := by
  obtain h | rfl := h
  · intro kind hkind
    obtain htoken | rfl | rfl := isBody_of_accessor hfit h kind hkind
    · exact .inl htoken
    · exact .inr rfl
    · exact .inr rfl
  · exact fun kind hkind => .inl (hfit.2 kind hkind)

theorem isPropertyPart_or {kinds : List Kind} (hfit : ChildrenFit .propertyDeclaration kinds) :
    ∀ kind ∈ kinds, kind.isToken ∨ kind.isType ∨ kind = .accessorList ∨ kind = .equalsValueClause ∨
      kind = .arrowExpressionClause := by
  obtain ⟨modifiers, t, body, hmodifiers, ht, hbody, rfl⟩ := hfit
  refine List.forall_mem_append.mpr
    ⟨List.forall_mem_append.mpr ⟨fun k hk => .inl (Kind.isToken_of_isModifier (hmodifiers k hk)),
      ?_⟩, ?_⟩
  · exact List.forall_mem_cons.mpr ⟨.inr (.inl ht), by decide⟩
  · obtain rfl | rfl | rfl := hbody <;> decide

theorem isParameter_or {kinds : List Kind} (hfit : ChildrenFit .parameterList kinds) :
    ∀ kind ∈ kinds, kind.isToken ∨ kind = .parameter := by
  obtain ⟨parameters, hparameters, rfl⟩ := hfit
  refine List.forall_mem_cons.mpr ⟨.inl rfl, List.forall_mem_append.mpr ⟨fun kind hkind => ?_, ?_⟩⟩
  · obtain rfl | rfl := mem_of_listed hparameters hkind
    · exact .inr rfl
    · exact .inl rfl
  · exact List.forall_mem_singleton.mpr (.inl rfl)

/-! ## Shapes in place -/

section Shapes

variable {tree : Tree} {above : List PlacedNode} {info : NodeInfo} {children : List Placed}

/-- The elements have the kinds that are listed. -/
theorem exists_of_map_kind {ps : List Placed} {kind : Kind} {kinds : List Kind}
    (h : ps.map Placed.kind = kind :: kinds) :
    ∃ p rest, ps = p :: rest ∧ p.kind = kind ∧ rest.map Placed.kind = kinds := by
  obtain ⟨p, rest, rfl, hp, hrest⟩ := List.map_eq_cons_iff.mp h
  exact ⟨p, rest, rfl, hp, hrest⟩

namespace Placed.Sited

theorem kind_of_mem_parameterList {list p : PlacedNode} (h : Sited tree above [list.placed])
    (hkind : list.kind = .parameterList) (hp : p.placed ∈ list.children) : p.kind = .parameter := by
  have hfit : ChildrenFit list.kind (list.children.map Placed.kind) := h.fit
  rw [hkind] at hfit
  exact (isParameter_or hfit p.kind (List.mem_map_of_mem hp)).resolve_left
    (h.children.mem hp).not_isToken

theorem exists_name (h : Sited tree above [.node info children])
    (hkind : info.kind = .identifierName) :
    ∃ a : PlacedToken, children = [.token a] ∧ a.kind = .identifierToken := by
  have hfit := h.fit
  rw [hkind] at hfit
  obtain ⟨p, _, rfl, hp, hnil⟩ := exists_of_map_kind hfit
  obtain rfl := List.map_eq_nil_iff.mp hnil
  obtain ⟨a, rfl⟩ := h.children.exists_token (by rw [hp]; rfl)
  exact ⟨a, rfl, hp⟩

/-- A member access has a receiver, a point and a name. -/
theorem exists_memberAccess (h : Sited tree above [.node info children])
    (hkind : info.kind = .memberAccessExpression) :
    ∃ (receiver : PlacedNode) (dot : PlacedToken) (nameInfo : NodeInfo) (a : PlacedToken),
      children = [receiver.placed, .token dot, .node nameInfo [.token a]] ∧
      receiver.kind.isExpression ∧ nameInfo.kind = .identifierName ∧ a.kind = .identifierToken := by
  have hfit := h.fit
  rw [hkind] at hfit
  obtain ⟨e, he, hfit⟩ := hfit
  obtain ⟨p, _, rfl, hp, hfit⟩ := exists_of_map_kind hfit
  obtain ⟨q, _, rfl, hq, hfit⟩ := exists_of_map_kind hfit
  obtain ⟨r, _, rfl, hr, hnil⟩ := exists_of_map_kind hfit
  obtain rfl := List.map_eq_nil_iff.mp hnil
  obtain ⟨receiver, rfl⟩ :=
    h.children.head.exists_node (by rw [hp]; exact isNode_of_isExpression he)
  obtain ⟨dot, rfl⟩ := h.children.tail.head.exists_token (by rw [hq]; rfl)
  obtain ⟨⟨nameInfo, nameChildren⟩, rfl⟩ := h.children.tail.tail.head.exists_node (by rw [hr]; rfl)
  obtain ⟨a, rfl, ha⟩ := h.children.tail.tail.head.exists_name hr
  exact ⟨receiver, dot, nameInfo, a, rfl, (congrArg Kind.isExpression hp).trans he, hr, ha⟩

/-- A call has something that is called, and arguments. -/
theorem exists_invocation (h : Sited tree above [.node info children])
    (hkind : info.kind = .invocationExpression) :
    ∃ called arguments : PlacedNode, children = [called.placed, arguments.placed] ∧
      called.kind.isExpression ∧ arguments.kind = .argumentList := by
  have hfit := h.fit
  rw [hkind] at hfit
  obtain ⟨e, he, hfit⟩ := hfit
  obtain ⟨p, _, rfl, hp, hfit⟩ := exists_of_map_kind hfit
  obtain ⟨q, _, rfl, hq, hnil⟩ := exists_of_map_kind hfit
  obtain rfl := List.map_eq_nil_iff.mp hnil
  obtain ⟨called, rfl⟩ := h.children.head.exists_node (by rw [hp]; exact isNode_of_isExpression he)
  obtain ⟨arguments, rfl⟩ := h.children.tail.head.exists_node (by rw [hq]; rfl)
  exact ⟨called, arguments, rfl, (congrArg Kind.isExpression hp).trans he, hq⟩

/-- A declaration of locals ends in a semicolon. -/
theorem exists_localDeclaration (h : Sited tree above [.node info children])
    (hkind : info.kind = .localDeclarationStatement) :
    ∃ (declaration : PlacedNode) (semicolon : PlacedToken),
      children = [declaration.placed, .token semicolon] ∧
      declaration.kind = .variableDeclaration := by
  have hfit := h.fit
  rw [hkind] at hfit
  obtain ⟨p, _, rfl, hp, hfit⟩ := exists_of_map_kind hfit
  obtain ⟨q, _, rfl, hq, hnil⟩ := exists_of_map_kind hfit
  obtain rfl := List.map_eq_nil_iff.mp hnil
  obtain ⟨declaration, rfl⟩ := h.children.head.exists_node (by rw [hp]; rfl)
  obtain ⟨semicolon, rfl⟩ := h.children.tail.head.exists_token (by rw [hq]; rfl)
  exact ⟨declaration, semicolon, rfl, hp⟩

/-- A declarator begins with its name. -/
theorem exists_declarator (h : Sited tree above [.node info children])
    (hkind : info.kind = .variableDeclarator) :
    ∃ (name : PlacedToken) (value : List Placed), children = .token name :: value ∧
      name.kind = .identifierToken := by
  have hfit := h.fit
  rw [hkind] at hfit
  obtain ⟨p, value, rfl, hp⟩ : ∃ p value, children = p :: value ∧ p.kind = .identifierToken := by
    obtain hfit | hfit := hfit
    · obtain ⟨p, value, hchildren, hp, _⟩ := exists_of_map_kind hfit
      exact ⟨p, value, hchildren, hp⟩
    · obtain ⟨p, value, hchildren, hp, _⟩ := exists_of_map_kind hfit
      exact ⟨p, value, hchildren, hp⟩
  obtain ⟨name, rfl⟩ := h.children.head.exists_token (by rw [hp]; rfl)
  exact ⟨name, value, rfl, hp⟩

/-- A type stands before the declarators of a declaration. -/
theorem exists_variableDeclaration (h : Sited tree above [.node info children])
    (hkind : info.kind = .variableDeclaration) :
    ∃ (written : PlacedNode) (declarators : List Placed), children = written.placed :: declarators ∧
      written.kind.isType ∧ ∀ p ∈ declarators, p.kind = .variableDeclarator ∨
      p.kind = .commaToken := by
  have hfit := h.fit
  rw [hkind] at hfit
  obtain ⟨t, kinds, ht, hkinds, hfit⟩ := hfit
  obtain ⟨p, declarators, rfl, hp, hrest⟩ := exists_of_map_kind hfit
  obtain ⟨written, rfl⟩ := h.children.head.exists_node (by rw [hp]; exact isNode_of_isType ht)
  refine ⟨written, declarators, rfl, (congrArg Kind.isType hp).trans ht, fun p hp => ?_⟩
  exact mem_of_separated hkinds (hrest ▸ List.mem_map_of_mem hp)

end Placed.Sited

end Shapes

end AutoProperty
