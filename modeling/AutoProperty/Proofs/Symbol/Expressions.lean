import Mathlib.Data.List.Induction
import AutoProperty.Proofs.Symbol.Bodies

/-! # Where expressions stand

Wherever a parsed tree has a simple name, it is a written type or a part of one, or it names a
namespace, or it is an expression. Nothing in the head of a scope is an expression.
-/

namespace AutoProperty

/-- A name below such a node is a written type, or a part of one, or that of a namespace. -/
def Kind.holdsNames : Kind → Bool
  | .qualifiedName | .nullableType | .arrayType | .objectCreationExpression
  | .variableDeclaration | .parameter | .propertyDeclaration | .methodDeclaration
  | .usingDirective | .namespaceDeclaration | .fileScopedNamespaceDeclaration => true
  | _ => false

/-- The token is an identifier that stands alone as an expression, or behind the point of one. -/
def TokenFocus.NamesExpression (f : TokenFocus) : Prop :=
  f.leaf.kind = .identifierToken ∧ ∃ name context above, f.above = name :: context :: above ∧
    name.kind = .identifierName ∧ ¬context.kind.holdsNames

theorem Kind.not_holdsNames {kind : Kind} (h : isExpressionContext kind) : ¬kind.holdsNames := by
  cases kind <;> first | exact absurd h Bool.false_ne_true | exact Bool.false_ne_true

/-- A type holds members behind its head, which is made of tokens. -/
theorem isTypeMember_or {kinds : List Kind} (hfit : ChildrenFit .classDeclaration kinds) :
    ∀ kind ∈ kinds, kind.isToken ∨ kind.isTypeMember := by
  obtain ⟨modifiers, keyword, members, ends, hmodifiers, hkeyword, hmembers, hends, rfl⟩ := hfit
  simp only [List.forall_mem_append, List.forall_mem_cons]
  refine ⟨⟨⟨fun k hk => .inl (Kind.isToken_of_isModifier (hmodifiers k hk)), ?_, .inl rfl, .inl rfl,
    nofun⟩, fun k hk => .inr (hmembers k hk)⟩, .inl rfl, ?_⟩
  · obtain rfl | rfl := hkeyword <;> exact .inl rfl
  · obtain rfl | rfl := hends
    · nofun
    · exact List.forall_mem_singleton.mpr (.inl rfl)

/-- A namespace holds members behind its head, in which its name stands. -/
theorem isNamespaceMember_or {parent : Kind} {kinds : List Kind} (hfit : ChildrenFit parent kinds)
    (h : parent = .namespaceDeclaration ∨ parent = .fileScopedNamespaceDeclaration) :
    ∀ kind ∈ kinds, kind.isToken ∨ kind.isName ∨ kind.isNamespaceMember := by
  obtain rfl | rfl := h
  · obtain ⟨name, members, hname, hmembers, rfl⟩ := hfit
    simp only [List.forall_mem_append, List.forall_mem_cons]
    exact ⟨⟨⟨.inl rfl, .inr (.inl hname), .inl rfl, nofun⟩,
      fun k hk => .inr (.inr (hmembers k hk))⟩, .inl rfl, nofun⟩
  · obtain ⟨name, members, hname, hmembers, rfl⟩ := hfit
    simp only [List.forall_mem_append, List.forall_mem_cons]
    exact ⟨⟨.inl rfl, .inr (.inl hname), .inl rfl, nofun⟩, fun k hk => .inr (.inr (hmembers k hk))⟩

/-- A simple name stands where a type or a namespace is named, or where an expression is wanted. -/
theorem isExpressionContext_of_not_holdsNames {parent : Kind} {kinds : List Kind}
    (hfit : ChildrenFit parent kinds) (hmem : .identifierName ∈ kinds) (h : ¬parent.holdsNames) :
    isExpressionContext parent := by
  by_cases hlocal : parent = .localDeclarationStatement
  · rw [hlocal] at hfit
    obtain rfl := hfit
    exact absurd hmem (by decide)
  by_cases hbody : parent.isBodyPart
  · have hnew : parent ≠ .objectCreationExpression := by
      rintro rfl
      exact h rfl
    obtain htoken | ⟨_, hcontext⟩ := fitsBody hfit hbody hnew hlocal _ hmem
    · exact absurd htoken (by decide)
    · exact hcontext rfl
  exfalso
  cases parent <;> first | exact hfit | exact h rfl | exact hbody rfl | skip
  case variableDeclarator => obtain rfl | rfl := hfit <;> exact absurd hmem (by decide)
  case parameterList => exact absurd (isParameter_or hfit _ hmem) (by decide)
  case accessorList => exact absurd (isAccessor_or hfit _ hmem) (by decide)
  case getAccessorDeclaration =>
    exact absurd (isBodyRoot_of_accessor hfit (.inl rfl) _ hmem) (by decide)
  case setAccessorDeclaration =>
    exact absurd (isBodyRoot_of_accessor hfit (.inl rfl) _ hmem) (by decide)
  case initAccessorDeclaration =>
    exact absurd (isBodyRoot_of_accessor hfit (.inl rfl) _ hmem) (by decide)
  case fieldDeclaration =>
    obtain ⟨modifiers, hmodifiers, rfl⟩ := hfit
    obtain hmem | hmem := List.mem_append.mp hmem
    · exact Bool.false_ne_true (hmodifiers _ hmem)
    · exact absurd hmem (by decide)
  case constructorDeclaration =>
    obtain ⟨modifiers, body, hmodifiers, hbody, rfl⟩ := hfit
    obtain hmem | hmem := List.mem_append.mp hmem
    · obtain hmem | hmem := List.mem_append.mp hmem
      · exact Bool.false_ne_true (hmodifiers _ hmem)
      · exact absurd hmem (by decide)
    · obtain rfl | rfl | rfl := hbody <;> exact absurd hmem (by decide)
  case classDeclaration => exact absurd (isTypeMember_or hfit _ hmem) (by decide)
  case structDeclaration => exact absurd (isTypeMember_or hfit _ hmem) (by decide)
  case compilationUnit =>
    obtain ⟨members, hmembers, rfl⟩ := hfit
    obtain hmem | hmem := List.mem_append.mp hmem
    · exact Bool.false_ne_true (hmembers _ hmem)
    · exact absurd hmem (by decide)

/-! ## The heads of scopes -/

/-- What stands in scopes apart from other scopes and from members, with all that it is made of. -/
def Kind.isHeadPart : Kind → Bool
  | .identifierName | .qualifiedName | .usingDirective | .skippedTokens => true
  | _ => false

/-- What stands in a scope is a scope or a member, or belongs to its head. -/
theorem isHeadPart_of_isScope {parent kind : Kind} {kinds : List Kind}
    (hfit : ChildrenFit parent kinds) (h : parent.isScope) (hmem : kind ∈ kinds)
    (hnode : ¬kind.isToken) (hscope : ¬kind.isScope) (hparts : ¬kind.hasParts) :
    kind.isHeadPart := by
  have htype (h : kind.isTypeMember) : kind.isHeadPart := by
    cases kind <;> first
      | rfl | exact absurd h Bool.false_ne_true | exact absurd rfl hscope | exact absurd rfl hparts
  have hnamespace (h : kind.isName ∨ kind.isNamespaceMember) : kind.isHeadPart := by
    cases kind <;> first
      | rfl | exact absurd h (by decide) | exact absurd rfl hscope | exact absurd rfl hparts
  cases parent <;> first | exact absurd h Bool.false_ne_true | skip
  case classDeclaration => exact htype ((isTypeMember_or hfit kind hmem).resolve_left hnode)
  case structDeclaration => exact htype ((isTypeMember_or hfit kind hmem).resolve_left hnode)
  case namespaceDeclaration =>
    exact hnamespace ((isNamespaceMember_or hfit (.inl rfl) kind hmem).resolve_left hnode)
  case fileScopedNamespaceDeclaration =>
    exact hnamespace ((isNamespaceMember_or hfit (.inr rfl) kind hmem).resolve_left hnode)

/-- The parts of a head hold nothing but parts of a head. -/
theorem isHeadPart_of_isHeadPart {parent kind : Kind} {kinds : List Kind}
    (hfit : ChildrenFit parent kinds) (h : parent.isHeadPart) (hmem : kind ∈ kinds)
    (hnode : ¬kind.isToken) : kind.isHeadPart := by
  have hname (h : kind.isName) : kind.isHeadPart := by
    cases kind <;> first | rfl | exact absurd h Bool.false_ne_true
  cases parent <;> first | exact absurd h Bool.false_ne_true | skip
  case identifierName =>
    obtain rfl := hfit
    exact absurd (List.mem_singleton.mp hmem ▸ rfl) hnode
  case qualifiedName =>
    obtain ⟨q, hq, rfl⟩ := hfit
    simp only [List.mem_cons, List.not_mem_nil, or_false] at hmem
    obtain rfl | rfl | rfl := hmem
    · exact hname hq
    · exact absurd rfl hnode
    · rfl
  case usingDirective =>
    obtain ⟨n, hn, rfl⟩ := hfit
    simp only [List.mem_cons, List.not_mem_nil, or_false] at hmem
    obtain rfl | rfl | rfl := hmem
    · exact absurd rfl hnode
    · exact hname hn
    · exact absurd rfl hnode
  case skippedTokens => exact absurd (hfit.2 kind hmem) hnode

theorem Kind.not_isExpressionContext {kind : Kind} (h : kind.isHeadPart ∨ kind.isScope) :
    ¬isExpressionContext kind := by
  cases kind <;> first | exact Bool.false_ne_true | exact absurd h (by decide)

/-! ## Trees -/

/-- The node around the name of an expression is one that wants an expression. -/
theorem TokenFocus.exists_of_isExpressionName {f : TokenFocus} (h : f.isExpressionName) :
    ∃ name context above, f.above = name :: context :: above ∧ name.kind = .identifierName ∧
      isExpressionContext context.kind := by
  rw [isExpressionName, Bool.and_eq_true] at h
  obtain ⟨_, h⟩ := h
  split at h
  next name context above habove =>
    rw [Bool.and_eq_true, beq_iff_eq] at h
    exact ⟨name, context, above, habove, h⟩
  next => exact absurd h Bool.false_ne_true

namespace Tree

variable {t : Tree} (hconforms : t.root.element.Conforms)
include hconforms

/-- A child that is a node has a kind that fits its parent. -/
theorem childrenFit_of_mem {n m : PlacedNode} {above : List PlacedNode}
    (h : ⟨n, m :: above⟩ ∈ t.nodes) :
    ChildrenFit m.kind (m.children.map Placed.kind) ∧ n.kind ∈ m.children.map Placed.kind ∧
      ¬n.kind.isToken := by
  have hparent : ⟨m, above⟩ ∈ t.nodes := mem_nodes_of_above_cons h rfl
  have hfit := conforms_of_mem hconforms hparent
  have hchild := conforms_of_mem hconforms h
  dsimp only at hfit hchild
  rw [PlacedNode.placed, Placed.element] at hfit hchild
  refine ⟨?_, List.mem_map_of_mem (PlacedNode.mem_childNodes.mp (mem_childNodes_of_mem h)),
    fun htoken => ?_⟩
  · rw [← Placed.map_kind_elementsOf]
    exact hfit.fit
  · cases hchild with
    | node hnode => simp [Kind.isNode, show n.info.kind.isToken = true from htoken] at hnode

/-- The parts of a head are made of parts of a head. -/
theorem isHeadPart_of_mem (inner : List PlacedNode) {outer : List PlacedNode} {m : PlacedNode}
    (hm : m.kind.isHeadPart) {f : TokenFocus} (hf : f ∈ t.tokens)
    (habove : f.above = inner ++ m :: outer) : ∀ n ∈ inner, n.kind.isHeadPart := by
  induction inner using List.reverseRecOn generalizing m outer with
  | nil => nofun
  | append_singleton inner c ih =>
    rw [List.append_assoc, List.singleton_append] at habove
    obtain ⟨hfit, hmem, hnode⟩ := childrenFit_of_mem hconforms (mem_nodes_of_above_token hf habove)
    have hc := isHeadPart_of_isHeadPart hfit hm hmem hnode
    exact List.forall_mem_append.mpr ⟨ih hc habove, List.forall_mem_singleton.mpr hc⟩

/-- No expression stands in the head of a scope. -/
theorem not_isExpressionName_of_inHead {f : TokenFocus} (hf : f ∈ t.tokens) (h : f.InHead) :
    ¬f.isExpressionName := by
  obtain ⟨inner, scope, outer, habove, hscope, -, hlast⟩ := h
  have hinner : ∀ n ∈ inner, n.kind.isHeadPart := by
    obtain rfl | ⟨front, c, rfl⟩ := List.eq_nil_or_concat inner
    · nofun
    · rw [List.concat_eq_append] at habove hlast ⊢
      obtain ⟨hnotScope, hnotParts⟩ := hlast c List.getLast?_concat
      rw [List.append_assoc, List.singleton_append] at habove
      obtain ⟨hfit, hmem, hnode⟩ :=
        childrenFit_of_mem hconforms (mem_nodes_of_above_token hf habove)
      have hc := isHeadPart_of_isScope hfit hscope hmem hnode hnotScope hnotParts
      have hfront := isHeadPart_of_mem hconforms front hc hf habove
      exact List.forall_mem_append.mpr ⟨hfront, List.forall_mem_singleton.mpr hc⟩
  intro hname
  obtain ⟨name, context, above, habove', hkind, hcontext⟩ :=
    TokenFocus.exists_of_isExpressionName hname
  rw [habove] at habove'
  match inner, habove' with
  | [], habove' =>
    obtain ⟨rfl, _⟩ := List.cons.inj habove'
    rw [hkind] at hscope
    exact Bool.false_ne_true hscope
  | [_], habove' =>
    obtain ⟨rfl, _⟩ := List.cons.inj (List.cons.inj habove').2
    exact Kind.not_isExpressionContext (.inr hscope) hcontext
  | _ :: n :: inner, habove' =>
    obtain ⟨rfl, _⟩ := List.cons.inj (List.cons.inj habove').2
    exact Kind.not_isExpressionContext (.inl (hinner _ (List.mem_cons_of_mem _ List.mem_cons_self)))
      hcontext

/-- In a parsed tree these are the names of expressions. -/
theorem isExpressionName_iff {f : TokenFocus} (hf : f ∈ t.tokens) :
    f.isExpressionName ↔ f.NamesExpression := by
  constructor
  · intro h
    obtain ⟨name, context, above, habove, hkind, hcontext⟩ :=
      TokenFocus.exists_of_isExpressionName h
    exact ⟨TokenFocus.IsRenamable.kind_eq (.inl h), name, context, above, habove, hkind,
      Kind.not_holdsNames hcontext⟩
  · rintro ⟨hleaf, name, context, above, habove, hkind, hcontext⟩
    obtain ⟨hfit, hmem, _⟩ :=
      childrenFit_of_mem hconforms
        (mem_nodes_of_above_token hf (habove.trans (List.nil_append _).symm))
    obtain ⟨leaf, _⟩ := f
    obtain rfl := habove
    exact isExpressionName_of hleaf hkind
      (isExpressionContext_of_not_holdsNames hfit (hkind ▸ hmem) hcontext)

end Tree

end AutoProperty
