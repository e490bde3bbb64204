import AutoProperty.Proofs.Symbol.Expressions
import AutoProperty.Proofs.Syntax.Layouts

/-! # The locals of blocks

Which locals stand right in a block, rather than in a block within it. Expressions hold no
statements, so none of these locals stands in another one, and they come in the order of their
numbers.
-/

namespace AutoProperty

/-- Expressions, what holds them together, and the types that are written in them. -/
def Kind.isValuePart (kind : Kind) : Bool :=
  kind.isExpression || kind.isType ||
    match kind with
    | .argumentList | .argument | .equalsValueClause | .arrowExpressionClause => true
    | _ => false

theorem isValuePart_of_isExpression {kind : Kind} (h : kind.isExpression) : kind.isValuePart := by
  simp [Kind.isValuePart, h]

theorem isValuePart_of_isType {kind : Kind} (h : kind.isType) : kind.isValuePart := by
  simp [Kind.isValuePart, h]

theorem isType_of_isName {kind : Kind} (h : kind.isName) : kind.isType := by
  cases kind <;> first | rfl | exact absurd h Bool.false_ne_true

/-- Expressions are made of tokens, expressions and types. -/
theorem isValuePart_or {parent : Kind} {kinds : List Kind} (hfit : ChildrenFit parent kinds)
    (h : parent.isValuePart) : ∀ kind ∈ kinds, kind.isToken ∨ kind.isValuePart := by
  have hexpression {kind : Kind} (h : kind.isExpression) : kind.isToken ∨ kind.isValuePart :=
    .inr (isValuePart_of_isExpression h)
  have htype {kind : Kind} (h : kind.isType) : kind.isToken ∨ kind.isValuePart :=
    .inr (isValuePart_of_isType h)
  cases parent <;> first | exact absurd h Bool.false_ne_true | skip
  case identifierName | thisExpression =>
    obtain rfl := hfit
    exact List.forall_mem_singleton.mpr (.inl rfl)
  case qualifiedName =>
    obtain ⟨q, hq, rfl⟩ := hfit
    simpa using ⟨htype (isType_of_isName hq), .inl rfl, .inr rfl⟩
  case predefinedType =>
    obtain ⟨k, hk, rfl⟩ := hfit
    exact List.forall_mem_singleton.mpr (.inl (isToken_of_isPredefinedType hk))
  case nullableType =>
    obtain ⟨k, hk, rfl⟩ := hfit
    simpa using ⟨htype hk, .inl rfl⟩
  case arrayType =>
    obtain ⟨k, hk, rfl⟩ := hfit
    simpa using ⟨htype hk, .inl rfl, .inl rfl⟩
  case literalExpression =>
    obtain ⟨k, hk, rfl⟩ := hfit
    exact List.forall_mem_singleton.mpr (.inl (isToken_of_isLiteral hk))
  case objectCreationExpression =>
    obtain ⟨types, arguments, htypes, harguments, rfl⟩ := hfit
    intro kind hkind
    simp only [List.cons_append, List.mem_cons, List.mem_append] at hkind
    rcases hkind with rfl | hkind | hkind
    · exact .inl rfl
    · rcases htypes with rfl | ⟨t, ht, rfl⟩
      · simp at hkind
      · exact htype (List.mem_singleton.mp hkind ▸ ht)
    · rcases harguments with rfl | rfl
      · simp at hkind
      · exact List.mem_singleton.mp hkind ▸ .inr rfl
  case parenthesizedExpression =>
    obtain ⟨e, he, rfl⟩ := hfit
    simpa using ⟨.inl rfl, hexpression he, .inl rfl⟩
  case memberAccessExpression =>
    obtain ⟨e, he, rfl⟩ := hfit
    simpa using ⟨hexpression he, .inl rfl, .inr rfl⟩
  case invocationExpression =>
    obtain ⟨e, he, rfl⟩ := hfit
    simpa using ⟨hexpression he, .inr rfl⟩
  case postfixUnaryExpression =>
    obtain ⟨e, op, he, hop, rfl⟩ := hfit
    simpa using ⟨hexpression he, .inl (isToken_of_isStep hop)⟩
  case prefixUnaryExpression =>
    obtain ⟨op, e, hop, he, rfl⟩ := hfit
    simpa using ⟨.inl (isToken_of_isPrefixOperator hop), hexpression he⟩
  case binaryExpression =>
    obtain ⟨a, op, b, ha, hop, hb, rfl⟩ := hfit
    simpa using ⟨hexpression ha, .inl (isToken_of_mem_binaryLevels hop), hexpression hb⟩
  case assignmentExpression =>
    obtain ⟨a, op, b, ha, hop, hb, rfl⟩ := hfit
    simpa using ⟨hexpression ha, .inl (isToken_of_isAssignment hop), hexpression hb⟩
  case argumentList =>
    obtain ⟨arguments, harguments, rfl⟩ := hfit
    intro kind hkind
    simp only [List.cons_append, List.mem_cons, List.mem_append, List.not_mem_nil, or_false]
      at hkind
    rcases hkind with rfl | hkind | rfl
    · exact .inl rfl
    · rcases mem_of_listed harguments hkind with rfl | rfl
      · exact .inr rfl
      · exact .inl rfl
    · exact .inl rfl
  case argument =>
    obtain ⟨e, he, rfl⟩ := hfit
    exact List.forall_mem_singleton.mpr (hexpression he)
  case equalsValueClause | arrowExpressionClause =>
    obtain ⟨e, he, rfl⟩ := hfit
    simpa using ⟨.inl rfl, hexpression he⟩

/-- A declarator is made of its name and perhaps a value. -/
theorem isValuePart_of_declarator {kinds : List Kind}
    (hfit : ChildrenFit .variableDeclarator kinds) :
    ∀ kind ∈ kinds, kind.isToken ∨ kind.isValuePart := by
  rcases hfit with rfl | rfl <;> decide

namespace Placed

/-- A node within some elements is within one of them. -/
theorem exists_of_mem_fociOf {above : List PlacedNode} {ps : List Placed} {f : Focus}
    (h : f ∈ fociOf above ps) : ∃ p ∈ ps, f ∈ p.foci above := by
  induction ps with
  | nil => simp [fociOf] at h
  | cons p ps ih =>
    rcases List.mem_append.mp h with h | h
    · exact ⟨p, List.mem_cons_self, h⟩
    · obtain ⟨q, hq, hf⟩ := ih h
      exact ⟨q, List.mem_cons_of_mem p hq, hf⟩

/-- All nodes in an expression are parts of expressions. -/
theorem isValuePart_of_mem_foci {tree : Tree} {above : List PlacedNode} {p : Placed}
    (h : Sited tree above [p]) (hkind : p.kind.isToken ∨ p.kind.isValuePart) {f : Focus}
    (hf : f ∈ p.foci above) : f.node.kind.isValuePart := by
  match p with
  | .token _ => simp [foci] at hf
  | .node info children =>
    have hvalue : info.kind.isValuePart := by
      refine hkind.resolve_left fun htoken => ?_
      obtain ⟨_, hleaf⟩ := h.exists_token htoken
      cases hleaf
    rcases List.mem_cons.mp hf with rfl | hf
    · exact hvalue
    · obtain ⟨q, hq, hf⟩ := exists_of_mem_fociOf hf
      exact isValuePart_of_mem_foci (h.children.mem hq)
        (isValuePart_or h.fit hvalue _ (List.mem_map_of_mem hq)) hf
termination_by sizeOf p
decreasing_by
  simp only [Placed.node.sizeOf_spec]
  have := List.sizeOf_lt_of_mem hq
  omega

end Placed

/-- A declarator is a name, or a name and its value. -/
theorem Placed.Sited.exists_declaratorValue {tree : Tree} {above : List PlacedNode}
    {info : NodeInfo} {children : List Placed} (h : Sited tree above [.node info children])
    (hkind : info.kind = .variableDeclarator) :
    (∃ name, children = [.token name]) ∨ ∃ (name : PlacedToken) (clause : PlacedNode),
      children = [.token name, clause.placed] ∧ clause.kind = .equalsValueClause := by
  have hfit := h.fit
  rw [hkind] at hfit
  rcases hfit with hfit | hfit
  · obtain ⟨p, _, rfl, hp, hnil⟩ := exists_of_map_kind hfit
    obtain rfl := List.map_eq_nil_iff.mp hnil
    obtain ⟨name, rfl⟩ := h.children.head.exists_token (by rw [hp]; rfl)
    exact .inl ⟨name, rfl⟩
  · obtain ⟨p, _, rfl, hp, hrest⟩ := exists_of_map_kind hfit
    obtain ⟨q, _, rfl, hq, hnil⟩ := exists_of_map_kind hrest
    obtain rfl := List.map_eq_nil_iff.mp hnil
    obtain ⟨name, rfl⟩ := h.children.head.exists_token (by rw [hp]; rfl)
    obtain ⟨clause, rfl⟩ := h.children.tail.head.exists_node (by rw [hq]; rfl)
    exact .inr ⟨name, clause, rfl, hq⟩

/-! ## Locals in elements -/

def PlacedNode.namedDeclarators (n : PlacedNode) : List PlacedNode :=
  (n.childrenOf .variableDeclarator).filter (·.name?.isSome)

theorem PlacedNode.mem_namedDeclarators {n g : PlacedNode} :
    g ∈ n.namedDeclarators ↔ g ∈ n.childNodes ∧ g.kind = .variableDeclarator ∧ g.name?.isSome := by
  simp [namedDeclarators, childrenOf, and_comm]

namespace Placed

mutual

/-- The declarators of the locals in an element, in text order, apart from those in blocks
within it. -/
def locals : Placed → List PlacedNode
  | .token _ => []
  | .node info children =>
    match info.kind with
    | .block => []
    | .localDeclarationStatement =>
      ((PlacedNode.mk info children).childrenOf .variableDeclaration).flatMap
        PlacedNode.namedDeclarators
    | _ => localsOf children

def localsOf : List Placed → List PlacedNode
  | [] => []
  | p :: ps => p.locals ++ localsOf ps

end

variable {above : List PlacedNode} {g : PlacedNode}

theorem locals_block {info : NodeInfo} (children : List Placed) (h : info.kind = .block) :
    (Placed.node info children).locals = [] := by
  rw [locals, h]

theorem locals_localDeclaration {info : NodeInfo} (children : List Placed)
    (h : info.kind = .localDeclarationStatement) :
    (Placed.node info children).locals =
      ((PlacedNode.mk info children).childrenOf .variableDeclaration).flatMap
        PlacedNode.namedDeclarators := by
  rw [locals, h]

theorem locals_other {info : NodeInfo} (children : List Placed) (hblock : info.kind ≠ .block)
    (hlocal : info.kind ≠ .localDeclarationStatement) :
    (Placed.node info children).locals = localsOf children := by
  rw [locals]
  split
  next h => exact absurd h hblock
  next h => exact absurd h hlocal
  next => rfl

mutual

/-- A local of an element is declared in it, in no block within it. -/
theorem exists_focus_of_mem_locals (above : List PlacedNode) (p : Placed) (h : g ∈ p.locals) :
    g.name?.isSome ∧ ∃ inner, ⟨g, inner ++ above⟩ ∈ p.foci above ∧
      Focus.IsLocal ⟨g, inner ++ above⟩ ∧ ∀ n ∈ inner, n.kind ≠ .block := by
  match p with
  | .token _ => simp [locals] at h
  | .node info children =>
    let n : PlacedNode := ⟨info, children⟩
    by_cases hblock : info.kind = .block
    · simp [locals_block children hblock] at h
    by_cases hlocal : info.kind = .localDeclarationStatement
    · rw [locals_localDeclaration children hlocal] at h
      obtain ⟨declaration, hdeclaration, hg⟩ := List.mem_flatMap.mp h
      obtain ⟨hdeclaration, hdeclarationKind⟩ := List.mem_filter.mp hdeclaration
      obtain ⟨hchild, hkind, hname⟩ := PlacedNode.mem_namedDeclarators.mp hg
      have hfocus : ⟨g, [declaration, n] ++ above⟩ ∈ fociOf (n :: above) children :=
        PlacedNode.foci_subset hdeclaration (PlacedNode.focus_mem hchild)
      refine ⟨hname, [declaration, n], List.mem_cons_of_mem _ hfocus,
        ⟨hkind, declaration, n, above, rfl, hlocal⟩, ?_⟩
      simp [eq_of_beq hdeclarationKind, show n.kind = _ from hlocal]
    · rw [locals_other children hblock hlocal] at h
      obtain ⟨hname, inner, hfocus, hisLocal, hinner⟩ :=
        exists_focus_of_mem_localsOf (n :: above) children h
      rw [List.append_cons] at hfocus hisLocal
      refine ⟨hname, inner ++ [n], List.mem_cons_of_mem _ hfocus, hisLocal, ?_⟩
      exact List.forall_mem_append.mpr ⟨hinner, List.forall_mem_singleton.mpr hblock⟩

/-- A local stands below declarations only, in no block but the one asked for. -/
theorem exists_focus_of_mem_localsOf (above : List PlacedNode) (ps : List Placed)
    (h : g ∈ localsOf ps) :
    g.name?.isSome ∧ ∃ inner, ⟨g, inner ++ above⟩ ∈ fociOf above ps ∧
      Focus.IsLocal ⟨g, inner ++ above⟩ ∧ ∀ n ∈ inner, n.kind ≠ .block := by
  match ps with
  | [] => simp [localsOf] at h
  | p :: ps =>
    rcases List.mem_append.mp h with h | h
    · obtain ⟨hname, inner, hfocus, hrest⟩ := exists_focus_of_mem_locals above p h
      exact ⟨hname, inner, List.mem_append_left _ hfocus, hrest⟩
    · obtain ⟨hname, inner, hfocus, hrest⟩ := exists_focus_of_mem_localsOf above ps h
      exact ⟨hname, inner, List.mem_append_right _ hfocus, hrest⟩

end

/-- Expressions hold no locals. -/
theorem locals_eq_nil {tree : Tree} {p : Placed} (h : Sited tree above [p])
    (hkind : p.kind.isToken ∨ p.kind.isValuePart) : p.locals = [] := by
  refine List.eq_nil_iff_forall_not_mem.mpr fun g hg => ?_
  obtain ⟨_, inner, hfocus, ⟨hdeclarator, _⟩, _⟩ := exists_focus_of_mem_locals above p hg
  have hvalue := isValuePart_of_mem_foci h hkind hfocus
  rw [hdeclarator] at hvalue
  exact Bool.false_ne_true hvalue

/-- The local is declared right in the declaration that the statement consists of. -/
theorem mem_namedDeclarators_of_focus {tree : Tree} {info : NodeInfo} {children : List Placed}
    (h : Sited tree above [.node info children]) (hkind : info.kind = .localDeclarationStatement)
    {f : Focus} (hf : f ∈ fociOf (⟨info, children⟩ :: above) children)
    (hdeclarator : f.node.kind = .variableDeclarator) (hname : f.node.name?.isSome) :
    f.node ∈ (Placed.node info children).locals := by
  rw [locals_localDeclaration children hkind]
  obtain ⟨declaration, semicolon, rfl, hdeclaration⟩ := h.exists_localDeclaration hkind
  have hsited := h.children.head
  obtain ⟨written, declarators, hchildren, hwritten, hdeclarators⟩ :=
    hsited.exists_variableDeclaration hdeclaration
  have hnotValue (hvalue : f.node.kind.isValuePart) : False := by
    rw [hdeclarator] at hvalue
    exact Bool.false_ne_true hvalue
  refine List.mem_flatMap.mpr
    ⟨declaration, ?_, PlacedNode.mem_namedDeclarators.mpr ⟨?_, hdeclarator, hname⟩⟩
  · exact List.mem_filter.mpr ⟨PlacedNode.mem_childNodes.mpr List.mem_cons_self,
      beq_iff_eq.mpr hdeclaration⟩
  obtain ⟨p, hp, hf⟩ := exists_of_mem_fociOf hf
  rcases List.mem_cons.mp hp with rfl | hp
  swap
  · obtain rfl := List.mem_singleton.mp hp
    simp [foci] at hf
  rcases List.mem_cons.mp hf with rfl | hf
  · rw [show declaration.kind = _ from hdeclaration] at hdeclarator
    cases hdeclarator
  obtain ⟨q, hq, hf⟩ := exists_of_mem_fociOf hf
  have hsited := hsited.children.mem hq
  rw [hchildren] at hq
  rcases List.mem_cons.mp hq with rfl | hq
  · exact (hnotValue
      (isValuePart_of_mem_foci hsited (.inr (isValuePart_of_isType hwritten)) hf)).elim
  rcases hdeclarators q hq with hqKind | hqKind
  swap
  · obtain ⟨comma, rfl⟩ := hsited.exists_token (by rw [hqKind]; rfl)
    simp [foci] at hf
  obtain ⟨n, rfl⟩ := hsited.exists_node (by rw [hqKind]; rfl)
  rcases List.mem_cons.mp hf with rfl | hf
  · refine PlacedNode.mem_childNodes.mpr ?_
    rw [hchildren]
    exact List.mem_cons_of_mem _ hq
  -- What stands in a declarator is its value.
  obtain ⟨r, hr, hf⟩ := exists_of_mem_fociOf hf
  have hfit := hsited.fit
  rw [show n.info.kind = _ from hqKind] at hfit
  have hvalue := isValuePart_of_declarator hfit _ (List.mem_map_of_mem hr)
  exact (hnotValue (isValuePart_of_mem_foci (hsited.children.mem hr) hvalue hf)).elim

mutual

/-- A local that is declared in an element, in no block within it, is one of the locals of the
element. -/
theorem mem_locals_of_focus {tree : Tree} {above middle : List PlacedNode}
    {declaration statement : PlacedNode} {f : Focus} (p : Placed) (h : Sited tree above [p])
    (hf : f ∈ p.foci above) (hdeclarator : f.node.kind = .variableDeclarator)
    (hname : f.node.name?.isSome) (hstatement : statement.kind = .localDeclarationStatement)
    (habove : f.above = declaration :: statement :: middle ++ above)
    (hblock : ∀ n ∈ declaration :: statement :: middle, n.kind ≠ .block) : f.node ∈ p.locals := by
  match p with
  | .token _ => simp [foci] at hf
  | .node info children =>
    rcases List.mem_cons.mp hf with rfl | hf
    · exact absurd (congrArg List.length habove) (by simp; omega)
    obtain ⟨inner, hinner⟩ := exists_outerOf children hf
    have heq : inner ++ [⟨info, children⟩] = declaration :: statement :: middle := by
      rw [habove, List.append_cons] at hinner
      exact (List.append_cancel_right hinner).symm
    have hnot : info.kind ≠ .block :=
      hblock ⟨info, children⟩ (heq ▸ List.mem_append_right _ (List.mem_singleton_self _))
    by_cases hlocal : info.kind = .localDeclarationStatement
    · exact mem_namedDeclarators_of_focus h hlocal hf hdeclarator hname
    rw [locals_other children hnot hlocal]
    -- The statement stands in the element, which is another one.
    match inner, heq with
    | [], heq => cases heq
    | [_], heq =>
      obtain ⟨_, hrest⟩ := List.cons.inj heq
      obtain ⟨rfl, _⟩ := List.cons.inj hrest
      exact absurd hstatement hlocal
    | d :: s :: inner, heq =>
      obtain ⟨rfl, hrest⟩ := List.cons.inj heq
      obtain ⟨rfl, rfl⟩ := List.cons.inj hrest
      refine mem_localsOf_of_focus children h.children hf hdeclarator hname hstatement hinner
        fun n hn => hblock n ?_
      exact List.mem_append_left [_] hn

theorem mem_localsOf_of_focus {tree : Tree} {above middle : List PlacedNode}
    {declaration statement : PlacedNode} {f : Focus} (ps : List Placed) (h : Sited tree above ps)
    (hf : f ∈ fociOf above ps) (hdeclarator : f.node.kind = .variableDeclarator)
    (hname : f.node.name?.isSome) (hstatement : statement.kind = .localDeclarationStatement)
    (habove : f.above = declaration :: statement :: middle ++ above)
    (hblock : ∀ n ∈ declaration :: statement :: middle, n.kind ≠ .block) :
    f.node ∈ localsOf ps := by
  match ps with
  | [] => simp [fociOf] at hf
  | p :: ps =>
    rcases List.mem_append.mp hf with hf | hf
    · exact List.mem_append_left _
        (mem_locals_of_focus p h.head hf hdeclarator hname hstatement habove hblock)
    · exact List.mem_append_right _
        (mem_localsOf_of_focus ps h.tail hf hdeclarator hname hstatement habove hblock)

end

/-- The declarators of a declaration are among its nodes, in order. -/
theorem namedDeclarators_sublist (info : NodeInfo) (ps : List Placed) :
    (((PlacedNode.mk info ps).childrenOf .variableDeclaration).flatMap
      PlacedNode.namedDeclarators).Sublist (nodesOf ps) := by
  have hdeclaration (n : PlacedNode) : n.namedDeclarators.Sublist n.placed.nodes :=
    ((List.filter_sublist.trans List.filter_sublist).trans n.childNodes_sublist).cons n
  rw [← nodesOf_filterMap_node? ps, PlacedNode.childrenOf, PlacedNode.childNodes]
  induction ps.filterMap node? with
  | nil => exact .slnil
  | cons n ns ih =>
    rw [List.filter_cons]
    split
    · exact (hdeclaration n).append ih
    · exact ih.trans (List.sublist_append_right _ _)

mutual

/-- The locals of an element are among its nodes, in order. -/
theorem locals_sublist (p : Placed) : p.locals.Sublist p.nodes := by
  match p with
  | .token _ => exact .slnil
  | .node info children =>
    rw [nodes]
    apply List.Sublist.cons
    by_cases hblock : info.kind = .block
    · simp [locals_block children hblock]
    by_cases hlocal : info.kind = .localDeclarationStatement
    · rw [locals_localDeclaration children hlocal]
      exact namedDeclarators_sublist info children
    · rw [locals_other children hblock hlocal]
      exact localsOf_sublist children

/-- The locals come in preorder. -/
theorem localsOf_sublist (ps : List Placed) : (localsOf ps).Sublist (nodesOf ps) := by
  match ps with
  | [] => exact .slnil
  | p :: ps => exact (locals_sublist p).append (localsOf_sublist ps)

end

theorem leaf_mem_tokensOf {ps : List Placed} {f : TokenFocus} (h : f ∈ tokenFociOf above ps) :
    f.leaf ∈ tokensOf ps := by
  rw [← leaf_tokenFociOf above]
  exact List.mem_map_of_mem h

/-- The tokens of a node in the elements are tokens of the elements. -/
theorem tokens_of_mem_fociOf {ps : List Placed} {f : Focus} (h : f ∈ fociOf above ps) :
    f.node.tokens ⊆ tokensOf ps := by
  intro leaf hleaf
  rw [PlacedNode.tokens, ← leaf_tokenFociOf (f.node :: f.above)] at hleaf
  obtain ⟨l, hl, rfl⟩ := List.mem_map.mp hleaf
  exact leaf_mem_tokensOf (tokenFociOf_of_mem_fociOf ps h hl)

end Placed

/-! ## Locals in blocks -/

def Focus.HasBlock (f block : Focus) : Prop :=
  block.node.kind = .block ∧ ∃ inner, f.above = inner ++ block.ancestors ∧ ∀ n ∈ inner,
    n.kind ≠ .block

/-- The local has a name, and the block is the innermost one around it. -/
structure Focus.IsLocalOf (f block : Focus) : Prop where
  isLocal : f.IsLocal
  name : f.node.name?.isSome
  block : f.HasBlock block

namespace Tree

variable {t : Tree} (hconforms : t.root.element.Conforms) {block : Focus}
include hconforms

/-- Every node of a tree is sited in it. -/
theorem sited_of_mem {f : Focus} (hf : f ∈ t.nodes) : Placed.Sited t f.above [f.node.placed] where
  conforms p hp := by
    rw [List.mem_singleton.mp hp]
    exact conforms_of_mem hconforms hf
  nodes g hg := by
    rw [Placed.fociOf, Placed.fociOf, List.append_nil] at hg
    rw [nodes_eq] at hf ⊢
    rcases List.mem_cons.mp hg with rfl | hg
    · exact hf
    · exact Placed.foci_of_mem_foci _ hf hg
  tokens g hg := by
    rw [Placed.tokenFociOf, Placed.tokenFociOf, List.append_nil] at hg
    rw [nodes_eq] at hf
    rw [tokens_eq]
    exact Placed.tokenFoci_of_mem_foci _ hf hg

/-- The locals of a block, in its statements but not in the blocks in them. -/
theorem mem_locals_iff (hblock : block ∈ t.nodes) (hkind : block.node.kind = .block)
    {g : PlacedNode} :
    g ∈ Placed.localsOf block.node.children ↔
      ∃ above, ⟨g, above⟩ ∈ t.nodes ∧ Focus.IsLocalOf ⟨g, above⟩ block := by
  have hsited := (sited_of_mem hconforms hblock).children
  constructor
  · intro h
    obtain ⟨hname, inner, hfocus, hlocal, hinner⟩ :=
      Placed.exists_focus_of_mem_localsOf block.ancestors _ h
    exact ⟨_, hsited.nodes hfocus, hlocal, hname, hkind, inner, rfl, hinner⟩
  · rintro ⟨above, hg, ⟨hdeclarator, declaration, statement, rest, habove, hstatement⟩, hname, _,
      inner, hinner, hblocks⟩
    obtain rfl : above = _ := hinner
    -- Neither the declaration nor the statement around the local is the block.
    match inner, habove with
    | [], _ =>
      obtain ⟨hfit, hmem, _⟩ := childrenFit_of_mem hconforms hg
      rw [hkind] at hfit
      obtain ⟨statements, hstatements, heq⟩ := hfit
      rw [heq, show g.kind = _ from hdeclarator] at hmem
      have hmem : Kind.variableDeclarator ∈ statements := by simpa using hmem
      exact absurd (hstatements _ hmem) Bool.false_ne_true
    | [_], habove =>
      obtain ⟨rfl, _⟩ := List.cons.inj (List.cons.inj habove).2
      exact absurd (hkind.symm.trans hstatement) (by decide)
    | d :: s :: middle, habove =>
      obtain ⟨rfl, hrest⟩ := List.cons.inj habove
      obtain ⟨rfl, _⟩ := List.cons.inj hrest
      have hancestors : Focus.ancestors ⟨g, d :: s :: middle ++ block.ancestors⟩ =
          (g :: d :: s :: middle) ++ block.ancestors := rfl
      rcases List.mem_cons.mp (mem_foci_of_ancestors hg hancestors) with heq | hfocus
      · exact absurd (congrArg (fun f => f.above.length) heq) (by simp [Focus.ancestors]; omega)
      · exact Placed.mem_localsOf_of_focus _ hsited hfocus hdeclarator hname hstatement rfl hblocks

omit hconforms in
/-- The locals of a node come in the order of their numbers. -/
theorem pairwise_locals {f : Focus} (hf : f ∈ t.nodes) :
    (Placed.localsOf f.node.children).Pairwise (·.index < ·.index) := by
  have hsorted := List.pairwise_map.mp (sorted_descendants hf)
  exact hsorted.sublist ((Placed.localsOf_sublist _).cons _)

end Tree

end AutoProperty
