import AutoProperty.Proofs.Fix.SplicedDocuments
import AutoProperty.Proofs.Syntax.Adjacency

/-! # Names that touch a field

A name in an expression stands behind the name of its member, or behind the sign in front of a
value. So there is always something between the declarator of a field and a name outside of it,
and a name that touches the declarator stands in it.
-/

namespace AutoProperty

variable {tree : Tree} {f h : Focus} {g : TokenFocus} {b : PlacedToken}

/-! ## What names in expressions stand behind -/

def Focus.OpensWith (f : Focus) (b : PlacedToken) : Prop :=
  b.text ≠ "" ∧ ∃ before after, f.node.children = before ++ .token b :: after ∧
    ∀ g ∈ Placed.tokenFociOf f.ancestors (before ++ [.token b]), ¬g.isExpressionName

theorem Tree.isIn_of_above {inner : List PlacedNode} (hf : f ∈ tree.nodes) (hg : g ∈ tree.tokens)
    (habove : g.above = inner ++ f.ancestors) : g.leaf ∈ f.node.tokens := by
  refine (isIn_token_iff hf hg).mp (List.any_eq_true.mpr ⟨f.node, ?_, beq_self_eq_true _⟩)
  rw [habove]
  exact List.mem_append_right _ List.mem_cons_self

theorem Focus.OpensWith.mem (h : f.OpensWith b) : b ∈ f.node.tokens := by
  obtain ⟨_, before, after, hchildren, _⟩ := h
  rw [PlacedNode.tokens, hchildren, Placed.tokensOf_append]
  exact List.mem_append_right _ List.mem_cons_self

/-- In preorder, what a node opens with comes before the names inside of it. -/
theorem Focus.OpensWith.index_lt (h : f.OpensWith b) (hf : f ∈ tree.nodes) (hg : g ∈ tree.tokens)
    (hname : g.isExpressionName) (hmem : g.leaf ∈ f.node.tokens) : b.index < g.leaf.index := by
  obtain ⟨_, before, after, hchildren, hnone⟩ := h
  have hchildren : f.node.children = (before ++ [.token b]) ++ after := by
    rw [hchildren, List.append_assoc, List.singleton_append]
  obtain ⟨g', hg', hleaf, inner, habove⟩ := Tree.exists_tokenFocus hf hmem
  obtain rfl := Tree.eq_of_index hg' hg (congrArg _ hleaf)
  have hfocus : g' ∈ Placed.tokenFociOf f.ancestors f.node.children :=
    Tree.mem_tokenFoci_of_above hg habove
  rw [hchildren, Placed.tokenFociOf_append] at hfocus
  have hafter := (List.mem_append.mp hfocus).resolve_left fun hfront => hnone g' hfront hname
  have hsorted := Tree.sorted_tokens_of_node hf
  rw [PlacedNode.tokens, hchildren, Placed.tokensOf_append, List.map_append, List.pairwise_append]
    at hsorted
  refine hsorted.2.2 _ (List.mem_map_of_mem ?_) _
    (List.mem_map_of_mem (Placed.leaf_mem_tokensOf hafter))
  rw [Placed.tokensOf_append]
  exact List.mem_append_right _ (List.mem_singleton_self b)

theorem TokenFocus.isExpressionName.parent_kind {parent : PlacedNode} {above : List PlacedNode}
    (h : g.isExpressionName) (habove : g.above = parent :: above) :
    parent.kind = .identifierName := by
  simp only [isExpressionName, Bool.and_eq_true, habove] at h
  cases above with
  | nil => exact absurd h.2 Bool.false_ne_true
  | cons context above => exact beq_iff_eq.mp (Bool.and_eq_true_iff.mp h.2).1

/-- No names in expressions are among tokens and types, as long as these do not stand as
expressions. -/
theorem Tree.not_isExpressionName_of_mem (hconforms : tree.root.element.Conforms)
    (hf : f ∈ tree.nodes) (hcontext : ¬isExpressionContext f.node.kind)
    (hname : f.node.kind ≠ .identifierName) {ps qs : List Placed}
    (hchildren : f.node.children = ps ++ qs) (hkinds : ∀ p ∈ ps, p.kind.isToken ∨ p.kind.isType) :
    ∀ g ∈ Placed.tokenFociOf f.ancestors ps, ¬g.isExpressionName := by
  intro g hg hexpression
  obtain ⟨p, hp, hg⟩ := Placed.exists_of_mem_tokenFociOf hg
  have hsited : Placed.Sited tree f.ancestors [p] := by
    have hall : Placed.Sited tree f.ancestors f.node.children :=
      (sited_of_mem hconforms hf).children
    exact hall.mem (hchildren ▸ List.mem_append_left _ hp)
  obtain htoken | htype := hkinds p hp
  · obtain ⟨leaf, rfl⟩ := hsited.exists_token htoken
    rw [Placed.tokenFoci, List.mem_singleton] at hg
    exact hname (TokenFocus.isExpressionName.parent_kind hexpression (congrArg _ hg))
  · exact not_isRenamable_of_isType hsited htype hcontext g hg (.inl hexpression)

/-- A method or a property is opened by its name. -/
theorem Tree.exists_opensWith {text : String} (ht : tree.root = (parse text).root)
    (hf : f ∈ tree.nodes) (hparts : f.node.kind.hasParts)
    (hfield : f.node.kind ≠ .fieldDeclaration) : ∃ b, f.OpensWith b := by
  have hconforms : tree.root.element.Conforms := ht ▸ conforms_parse text
  have habove := areScopes hconforms (congrArg Node.kind ht) hf (.inr hparts)
  have hnames := namesMembers ht hf habove
  rw [PlacedNode.placed, Placed.element] at hnames
  cases hnames with
  | node hname _ =>
  obtain ⟨before, token, after, helements, hkind, htext, hbefore⟩ := hname hparts hfield
  obtain ⟨front, back, hchildren, rfl, hback⟩ := Placed.exists_of_elementsOf_append helements
  obtain ⟨q, back, rfl, hq, _⟩ := Placed.exists_of_elementsOf_cons hback
  obtain ⟨b, rfl, rfl⟩ := Placed.exists_of_token hq
  refine ⟨b, htext, front, back, hchildren, ?_⟩
  have hmember : ¬isExpressionContext f.node.kind ∧ f.node.kind ≠ .identifierName := by
    revert hparts
    cases f.node.kind <;> decide
  have hsplit : f.node.children = (front ++ [.token b]) ++ back :=
    hchildren.trans (List.append_cons ..)
  refine not_isExpressionName_of_mem hconforms hf hmember.1 hmember.2 hsplit ?_
  -- What stands in front of the first identifier of a member is its modifiers and its type.
  have hheads : ∃ heads rest, f.node.children.map Placed.kind = heads ++ .identifierToken :: rest ∧
      .identifierToken ∉ heads ∧
      ∀ kind ∈ heads, kind.isToken ∨ kind.isType := by
    have hfit : ChildrenFit f.node.kind (f.node.children.map Placed.kind) :=
      (sited_of_mem hconforms hf).fit
    have hmodifiers {kinds : List Kind} (h : ∀ k ∈ kinds, k.isModifier) : .identifierToken ∉ kinds ∧
        ∀ k ∈ kinds, k.isToken ∨ k.isType :=
      ⟨fun hmem => absurd (h _ hmem) (by decide),
        fun k hk => .inl (Kind.isToken_of_isModifier (h k hk))⟩
    have htyped {kinds : List Kind} (h : ∀ k ∈ kinds, k.isModifier) {type : Kind}
        (htype : type.isType) :
        .identifierToken ∉ kinds ++ [type] ∧ ∀ k ∈ kinds ++ [type], k.isToken ∨ k.isType := by
      obtain ⟨hnot, hall⟩ := hmodifiers h
      refine ⟨?_, List.forall_mem_append.mpr ⟨hall, List.forall_mem_singleton.mpr (.inr htype)⟩⟩
      rw [List.mem_append, List.mem_singleton, not_or]
      exact ⟨hnot, fun heq => absurd (heq ▸ htype) (by decide)⟩
    cases hk : f.node.kind <;> rw [hk] at hfit hparts hfield <;> first
      | exact absurd hparts Bool.false_ne_true | exact absurd rfl hfield | skip
    case propertyDeclaration =>
      obtain ⟨modifiers, type, body, hmods, htype, _, hkinds⟩ := hfit
      exact ⟨modifiers ++ [type], body, by rw [hkinds]; simp, htyped hmods htype⟩
    case methodDeclaration =>
      obtain ⟨modifiers, type, body, hmods, htype, _, hkinds⟩ := hfit
      exact ⟨modifiers ++ [type], .parameterList :: body, by rw [hkinds]; simp, htyped hmods htype⟩
    case constructorDeclaration =>
      obtain ⟨modifiers, body, hmods, _, hkinds⟩ := hfit
      exact ⟨modifiers, .parameterList :: body, by rw [hkinds]; simp, hmodifiers hmods⟩
  obtain ⟨heads, rest, hkinds, hnot, hall⟩ := hheads
  have hfront : .identifierToken ∉ front.map Placed.kind := by
    intro hmem
    obtain ⟨p, hp, hpkind⟩ := List.mem_map.mp hmem
    refine hbefore p.element ?_ (by rw [Placed.kind_element, hpkind])
    rw [Placed.elementsOf_eq_map]
    exact List.mem_map_of_mem hp
  have hsplit {heads rest : List Kind} (h : .identifierToken ∉ heads) :
      (heads ++ .identifierToken :: rest).takeWhile (· != .identifierToken) = heads := by
    rw [List.takeWhile_append_of_pos, List.takeWhile_cons_of_neg (by decide), List.append_nil]
    rintro kind hmem
    exact bne_iff_ne.mpr (ne_of_mem_of_not_mem hmem h)
  have hbkind : (Placed.token b).kind = .identifierToken := hkind
  have hheads := congrArg (List.takeWhile (· != .identifierToken)) hkinds
  rw [hchildren, List.map_append, List.map_cons, hbkind, hsplit hfront, hsplit hnot] at hheads
  subst hheads
  refine List.forall_mem_append.mpr ⟨fun p hp => hall _ (List.mem_map_of_mem hp),
    List.forall_mem_singleton.mpr (.inl ?_)⟩
  rw [hbkind]
  rfl

/-! ## Values of fields -/

/-- A name in an expression within a declaration of fields stands in the value of one of them. -/
theorem Tree.exists_value_above (hconforms : tree.root.element.Conforms) (hg : g ∈ tree.tokens)
    (hname : g.isExpressionName) {inner outer : List PlacedNode} {m : PlacedNode}
    (habove : g.above = inner ++ m :: outer) (hkind : m.kind = .fieldDeclaration) :
    ∃ rest e d v, inner = rest ++ [e, d, v] ∧ e.kind = .equalsValueClause ∧
      d.kind = .variableDeclarator ∧ v.kind = .variableDeclaration := by
  -- Each step goes from a node around the name to the next one further in.
  have hstep {inner outer : List PlacedNode} {m : PlacedNode}
      (habove : g.above = inner ++ m :: outer) (hkind : m.kind ≠ .identifierName) :
      ∃ rest n, inner = rest ++ [n] ∧ ⟨n, m :: outer⟩ ∈ tree.nodes ∧
      g.above = rest ++ n :: m :: outer ∧
        ChildrenFit m.kind (m.children.map Placed.kind) ∧ n.kind ∈ m.children.map Placed.kind ∧
        ¬n.kind.isToken := by
    rcases List.eq_nil_or_concat' inner with rfl | ⟨rest, n, rfl⟩
    · exact absurd (TokenFocus.isExpressionName.parent_kind hname habove) hkind
    · have habove : g.above = rest ++ n :: m :: outer := by
        rw [habove, List.append_assoc, List.singleton_append]
      have hn := mem_nodes_of_above_token hg habove
      have hm := mem_nodes_of_above_cons hn rfl
      obtain ⟨hfit, hmem, _⟩ := childrenFit_of_mem hconforms hn
      have hsited := sited_of_mem hconforms hn
      exact ⟨rest, n, rfl, hn, habove, hfit, hmem, hsited.not_isToken⟩
  obtain ⟨rest, v, rfl, _, habove, hfit, hmem, htoken⟩ := hstep habove (by rw [hkind]; decide)
  have hv : v.kind = .variableDeclaration := by
    rw [hkind] at hfit
    obtain ⟨modifiers, hmodifiers, hkinds⟩ := hfit
    rw [hkinds] at hmem
    simp only [List.mem_append, List.mem_cons, List.not_mem_nil, or_false] at hmem
    obtain hmem | hmem | hmem := hmem
    · exact absurd (Kind.isToken_of_isModifier (hmodifiers _ hmem)) htoken
    · exact hmem
    · exact absurd (by rw [hmem]; rfl) htoken
  obtain ⟨rest, d, rfl, hdmem, habove, hfit, hmem, htoken⟩ := hstep habove (by rw [hv]; decide)
  have hd : d.kind = .variableDeclarator := by
    rw [hv] at hfit
    obtain ⟨type, declarators, htype, hdeclarators, hkinds⟩ := hfit
    rw [hkinds] at hmem
    obtain rfl | hmem := List.mem_cons.mp hmem
    · have hfocus := mem_tokenFoci_of_above (f := ⟨d, v :: m :: outer⟩) hg habove
      exact absurd (.inl hname)
        (not_isRenamable_of_isType (sited_of_mem hconforms hdmem) htype (by rw [hv]; decide) g
          hfocus)
    · exact (mem_of_separated hdeclarators hmem).resolve_right fun hcomma =>
        htoken (by rw [hcomma]; rfl)
  obtain ⟨rest, e, rfl, _, habove, hfit, hmem, htoken⟩ := hstep habove (by rw [hd]; decide)
  have he : e.kind = .equalsValueClause := by
    rw [hd] at hfit
    obtain hkinds | hkinds :=
      hfit <;> rw [hkinds] at hmem <;> simp only [List.mem_cons, List.not_mem_nil, or_false] at hmem
    · exact absurd (by rw [hmem]; rfl) htoken
    · exact hmem.resolve_left fun htext => htoken (by rw [htext]; rfl)
  exact ⟨rest, e, d, v, by simp, he, hd, hv⟩

/-- A value is opened by its sign. -/
theorem Tree.opensWith_value {text : String} (ht : tree.root = (parse text).root)
    (hf : f ∈ tree.nodes) (hkind : f.node.kind = .equalsValueClause) : ∃ b, f.OpensWith b := by
  have hconforms : tree.root.element.Conforms := ht ▸ conforms_parse text
  have hsited := sited_of_mem hconforms hf
  have hfit : ChildrenFit f.node.kind (f.node.children.map Placed.kind) := hsited.fit
  rw [hkind] at hfit
  obtain ⟨expression, _, hkinds⟩ := hfit
  obtain ⟨p, ps, hchildren, hp, _⟩ := List.map_eq_cons_iff.mp hkinds
  have hall : Placed.Sited tree f.ancestors f.node.children := hsited.children
  rw [hchildren] at hall
  obtain ⟨b, rfl⟩ := hall.head.exists_token (by rw [hp]; rfl)
  refine ⟨b, text_ne_of_equals ht hall.head.tokenFocus_mem hp, [], ps, hchildren, ?_⟩
  intro g hg hname
  obtain rfl := List.mem_singleton.mp hg
  have hcontext := TokenFocus.isExpressionName.parent_kind hname rfl
  rw [hkind] at hcontext
  cases hcontext

/-! ## Names beside a field -/

/-- A declarator begins with its name. -/
theorem Tree.head?_tokens_of_declarator (hconforms : tree.root.element.Conforms)
    (hf : f ∈ tree.nodes) (hkind : f.node.kind = .variableDeclarator) {name : PlacedToken}
    (hname : f.node.name? = some name) : f.node.tokens.head? = some name := by
  have hsited := sited_of_mem hconforms hf
  have hfit : ChildrenFit f.node.kind (f.node.children.map Placed.kind) := hsited.fit
  rw [hkind] at hfit
  have hall : Placed.Sited tree f.ancestors f.node.children := hsited.children
  obtain ⟨first, rest, hchildren, hfirst⟩ : ∃ first rest, f.node.children = .token first :: rest ∧
      first.kind = .identifierToken := by
    obtain ⟨kinds, hkinds⟩ : ∃ kinds,
        f.node.children.map Placed.kind = .identifierToken :: kinds := by
      obtain hkinds | hkinds := hfit
      · exact ⟨_, hkinds⟩
      · exact ⟨_, hkinds⟩
    obtain ⟨p, ps, hchildren, hp, _⟩ := List.map_eq_cons_iff.mp hkinds
    rw [hchildren] at hall
    obtain ⟨first, rfl⟩ := hall.head.exists_token (by rw [hp]; rfl)
    exact ⟨first, ps, hchildren, hp⟩
  have hidentifier : f.node.identifier? = some first := by
    rw [PlacedNode.identifier?, PlacedNode.childToken?, PlacedNode.childTokens, hchildren]
    exact List.find?_cons_of_pos (beq_iff_eq.mpr hfirst)
  rw [PlacedNode.name?, hidentifier] at hname
  rw [PlacedNode.tokens, hchildren, ← (Option.filter_eq_some_iff.mp hname).1]
  rfl

section Field

variable {text : String} (ht : tree.root = (parse text).root) (hf : f ∈ tree.nodes)
  (hfield : f.IsField) (hg : g ∈ tree.tokens) (hname : g.isExpressionName) (hmember : g.InMember)
include ht hf hfield hg hname hmember

/-- What opens a node other than the declarator stands between the declarator and a name outside
of it. -/
theorem Tree.exists_opened (hout : g.leaf ∉ f.node.tokens) :
    ∃ h ∈ tree.nodes, ∃ b, h.OpensWith b ∧ g.leaf ∈ h.node.tokens ∧ f.node ∉ h.ancestors ∧
      h.node ∉ f.ancestors := by
  have hconforms : tree.root.element.Conforms := ht ▸ conforms_parse text
  have hroot : tree.root.kind = .compilationUnit := congrArg Node.kind ht
  obtain ⟨hkind, declaration, field, scopes, habove, hdeclaration, hfieldKind, hscopes⟩ := hfield
  obtain ⟨inner, member, outer, haboveName, hparts, houter⟩ := hmember
  have hmem := mem_nodes_of_above_token hg haboveName
  have houterKinds : ∀ n ∈ outer, n.kind.isScope ∨ n.kind = .compilationUnit :=
    houter.isScope_or hroot hmem (List.nil_append _).symm
  have hscopeKinds : ∀ n ∈ scopes, n.kind.isScope ∨ n.kind = .compilationUnit :=
    hscopes.isScope_or hroot hf (show f.above = [declaration, field] ++ scopes from habove)
  have hnot {n : PlacedNode} (hn : n.kind.isScope ∨ n.kind = .compilationUnit) : n.kind ≠
      .variableDeclarator ∧
      n.kind ≠ .equalsValueClause ∧ ¬n.kind.hasParts := by
    revert hn
    cases n.kind <;> decide
  by_cases hmemberKind : member.kind = .fieldDeclaration
  · obtain ⟨rest, e, d, v, rfl, he, hd, hv⟩ :=
      exists_value_above hconforms hg hname haboveName hmemberKind
    have haboveValue : g.above = rest ++ e :: d :: v :: member :: outer := by
      rw [haboveName, List.append_assoc]; rfl
    have hvalue := mem_nodes_of_above_token hg haboveValue
    obtain ⟨b, hb⟩ := opensWith_value ht hvalue he
    refine ⟨_, hvalue, b, hb, isIn_of_above hvalue hg haboveValue, fun hin => ?_, fun hin => ?_⟩
    · simp only [Focus.ancestors, List.mem_cons] at hin
      obtain heq | heq | heq | heq | hin := hin
      · rw [heq, he] at hkind
        cases hkind
      · refine hout ?_
        have hdeclarator : ⟨d, v :: member :: outer⟩ ∈ tree.nodes :=
          mem_nodes_of_above_cons hvalue rfl
        rw [heq]
        have hinner : g.above = (rest ++ [e]) ++ d :: v :: member :: outer := by
          rw [haboveValue, List.append_assoc]; rfl
        exact isIn_of_above hdeclarator hg hinner
      · rw [heq, hv] at hkind
        cases hkind
      · rw [heq, hmemberKind] at hkind
        cases hkind
      · exact (hnot (houterKinds _ hin)).1 hkind
    · simp only [Focus.ancestors, habove, List.mem_cons] at hin
      obtain heq | heq | heq | hin := hin
      · rw [heq, hkind] at he
        cases he
      · rw [heq, hdeclaration] at he
        cases he
      · rw [heq, hfieldKind] at he
        cases he
      · exact (hnot (hscopeKinds _ hin)).2.1 he
  · obtain ⟨b, hb⟩ := exists_opensWith ht hmem hparts hmemberKind
    refine ⟨_, hmem, b, hb, isIn_of_above hmem hg haboveName, fun hin => ?_, fun hin => ?_⟩
    · simp only [Focus.ancestors, List.mem_cons] at hin
      obtain heq | hin := hin
      · rw [← heq, hkind] at hparts
        cases hparts
      · exact (hnot (houterKinds _ hin)).1 hkind
    · simp only [Focus.ancestors, habove, List.mem_cons] at hin
      obtain heq | heq | heq | hin := hin
      · rw [heq, hkind] at hparts
        cases hparts
      · rw [heq, hdeclaration] at hparts
        cases hparts
      · exact hmemberKind (heq ▸ hfieldKind)
      · exact (hnot (hscopeKinds _ hin)).2.2 hparts

/-- A name that touches the declarator of a field stands in it. -/
theorem Tree.mem_tokens_of_touches {name : PlacedToken} (hfieldName : f.node.name? = some name)
    (htext : g.leaf.text ≠ "") (htouches : g.leaf.span.touches f.node.span) :
    g.leaf ∈ f.node.tokens := by
  by_contra hout
  obtain ⟨h, hh, b, hb, hmem, hapart, hapart'⟩ := exists_opened ht hf hfield hg hname hmember hout
  -- The declarator reaches from the name of the field to some last token.
  have hfirst := head?_tokens_of_declarator (ht ▸ conforms_parse text) hf hfield.1 hfieldName
  have hnameMem := List.mem_of_head? hfirst
  have hlast := List.getLast?_eq_some_getLast (List.ne_nil_of_mem hnameMem)
  have hlastMem := List.mem_of_getLast? hlast
  rw [span_eq_of_tokens hf hfirst hlast] at htouches
  simp only [Span.touches, Bool.and_eq_true, decide_eq_true_eq] at htouches
  obtain ⟨gn, hgn, rfl, _⟩ := exists_tokenFocus hf hnameMem
  obtain ⟨gl, hgl, hglast, _⟩ := exists_tokenFocus hf hlastMem
  rw [← hglast] at htouches hlastMem
  obtain hlt | hge := Nat.lt_or_ge g.leaf.index gn.leaf.index
  · obtain ⟨_, hidentifier, hpresent⟩ := PlacedNode.name?_mem hfieldName
    have hbefore := stop_le_start_of_index hg hgn hlt
    exact stop_ne_start_of_identifiers ht hg hgn (TokenFocus.IsRenamable.kind_eq (.inl hname))
      hidentifier htext hpresent (by omega)
  · have hbehind : gl.leaf.index < g.leaf.index := by
      by_contra hle
      exact hout (mem_tokens_of_between hf hg hnameMem hlastMem hge (Nat.le_of_not_lt hle))
    -- What opens the node of the name is between the declarator and the name.
    obtain ⟨gb, hgb, rfl, _⟩ := exists_tokenFocus hh hb.mem
    have hfront :=
      stop_le_start_of_index hgl hgb
        (index_lt_of_apart hf hh hapart hapart' hlastMem hmem hb.mem hbehind)
    have hback := stop_le_start_of_index hgb hg (hb.index_lt hh hg hname hmem)
    have hlength := PlacedToken.textLength_pos hb.1
    have hspan := (PlacedToken.span_le gb.leaf).2.1
    omega

end Field

end AutoProperty
