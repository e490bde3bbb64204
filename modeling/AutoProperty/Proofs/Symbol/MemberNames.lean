import AutoProperty.Proofs.Symbol.Locals
import AutoProperty.Proofs.Syntax.ParsedTrees

/-! # Members and their names

Members stand in types and namespaces only, and a method or a property that was parsed always
has a name. A member is read as one only where a name is ahead, so its name cannot be missing as
those of types and fields can.
-/

namespace AutoProperty

/-! ## Where members stand -/

namespace Kind

/-- The root, what stands around members, and the members themselves. -/
def isOuter (kind : Kind) : Bool :=
  kind == .compilationUnit || kind.isScope || kind.hasParts

variable {kind : Kind}

theorem isOuter_of_isToken (h : kind.isToken) : kind.isOuter = false := by
  revert h
  cases kind <;> decide

theorem isOuter_of_isValuePart (h : kind.isValuePart) : kind.isOuter = false := by
  revert h
  cases kind <;> decide

theorem isOuter_of_isStatement (h : kind.isStatement) : kind.isOuter = false := by
  revert h
  cases kind <;> decide

theorem isOuter_of_isPart (h : kind.isPart) : kind.isOuter = false := by
  revert h
  cases kind <;> decide

theorem isOuter_of_isBodyRoot (h : kind.isBodyRoot) : kind.isOuter = false := by
  revert h
  cases kind <;> decide

end Kind

/-- What is neither the root nor a scope holds no members. -/
theorem isOuter_eq_false {parent : Kind} {kinds : List Kind} (hfit : ChildrenFit parent kinds)
    (hunit : parent ≠ .compilationUnit) (hscope : ¬parent.isScope) :
    ∀ kind ∈ kinds, kind.isOuter = false := by
  have hvalues (h : parent.isValuePart) : ∀ kind ∈ kinds, kind.isOuter = false := fun kind hkind =>
    (isValuePart_or hfit h kind hkind).elim Kind.isOuter_of_isToken Kind.isOuter_of_isValuePart
  have hparts (h : parent.hasParts) : ∀ kind ∈ kinds, kind.isOuter = false := fun kind hkind =>
    Kind.isOuter_of_isPart (isPart hfit h kind hkind)
  have hroots (h : parent.isAccessor ∨ parent = .skippedTokens) : ∀ kind ∈ kinds,
      kind.isOuter = false := fun kind hkind =>
    (isBodyRoot_of_accessor hfit h kind hkind).elim Kind.isOuter_of_isToken
      Kind.isOuter_of_isBodyRoot
  have hexpression {kind : Kind} (h : kind.isExpression) : kind.isOuter = false :=
    Kind.isOuter_of_isValuePart (isValuePart_of_isExpression h)
  have htype {kind : Kind} (h : kind.isType) : kind.isOuter = false :=
    Kind.isOuter_of_isValuePart (isValuePart_of_isType h)
  cases parent <;> first
    | exact hvalues rfl | exact hparts rfl | exact hroots (.inl rfl) | exact hroots (.inr rfl)
    | exact absurd rfl hunit |
    exact absurd rfl hscope | exact absurd hfit not_false | skip
  case usingDirective =>
    obtain ⟨n, hn, rfl⟩ := hfit
    simpa using ⟨by decide, htype (isType_of_isName hn), by decide⟩
  case variableDeclaration =>
    obtain ⟨t, declarators, ht, hdeclarators, rfl⟩ := hfit
    refine List.forall_mem_cons.mpr ⟨htype ht, fun kind hkind => ?_⟩
    obtain rfl | rfl := mem_of_separated hdeclarators hkind <;> decide
  case variableDeclarator =>
    intro kind hkind
    exact (isValuePart_of_declarator hfit kind hkind).elim Kind.isOuter_of_isToken
      Kind.isOuter_of_isValuePart
  case accessorList =>
    intro kind hkind
    obtain htoken | haccessor | rfl := isAccessor_or hfit kind hkind
    · exact Kind.isOuter_of_isToken htoken
    · revert haccessor
      cases kind <;> decide
    · decide
  case parameterList =>
    intro kind hkind
    obtain htoken | rfl := isParameter_or hfit kind hkind
    · exact Kind.isOuter_of_isToken htoken
    · decide
  case parameter =>
    obtain ⟨types, htypes, rfl⟩ := hfit
    refine List.forall_mem_append.mpr ⟨?_, by decide⟩
    obtain rfl | ⟨t, ht, rfl⟩ := htypes
    · exact List.forall_mem_nil _
    · exact List.forall_mem_singleton.mpr (htype ht)
  case block =>
    obtain ⟨statements, hstatements, rfl⟩ := hfit
    refine List.forall_mem_cons.mpr
      ⟨by decide, List.forall_mem_append.mpr ⟨fun kind hkind => ?_, by decide⟩⟩
    exact Kind.isOuter_of_isStatement (hstatements kind hkind)
  case returnStatement =>
    obtain ⟨values, hvalue, rfl⟩ := hfit
    refine List.forall_mem_cons.mpr ⟨by decide, List.forall_mem_append.mpr ⟨?_, by decide⟩⟩
    obtain rfl | ⟨e, he, rfl⟩ := hvalue
    · exact List.forall_mem_nil _
    · exact List.forall_mem_singleton.mpr (hexpression he)
  case localDeclarationStatement =>
    obtain rfl := hfit
    decide
  case expressionStatement =>
    obtain ⟨e, he, rfl | rfl⟩ := hfit
    · simpa using ⟨hexpression he, by decide⟩
    · exact List.forall_mem_singleton.mpr (hexpression he)
  case ifStatement =>
    obtain ⟨e, statements, he, hstatements, rfl⟩ := hfit
    refine List.forall_mem_append.mpr
      ⟨by simpa using ⟨by decide, by decide, hexpression he, by decide⟩, fun kind hkind => ?_⟩
    obtain hstatement | rfl := hstatements kind hkind
    · exact Kind.isOuter_of_isStatement hstatement
    · decide
  case elseClause =>
    obtain ⟨statements, hstatements, rfl⟩ := hfit
    refine List.forall_mem_cons.mpr
      ⟨by decide, fun kind hkind => Kind.isOuter_of_isStatement (hstatements kind hkind)⟩
  case emptyStatement =>
    obtain rfl := hfit
    decide

/-- No node holds a root. -/
theorem compilationUnit_notMem {parent : Kind} {kinds : List Kind}
    (hfit : ChildrenFit parent kinds) : Kind.compilationUnit ∉ kinds := by
  intro hmem
  have hmember {members : List Kind} (h : ∀ k ∈ members, k.isNamespaceMember) :
      Kind.compilationUnit ∉ members :=
    fun hmem => Bool.false_ne_true (h _ hmem)
  by_cases hunit : parent = .compilationUnit
  · rw [hunit] at hfit
    obtain ⟨members, hmembers, rfl⟩ := hfit
    exact hmember hmembers (by simpa using hmem)
  by_cases hscope : parent.isScope
  swap
  · exact Bool.false_ne_true (isOuter_eq_false hfit hunit hscope _ hmem).symm
  cases parent <;> first | exact absurd hscope Bool.false_ne_true | skip
  case namespaceDeclaration =>
    obtain ⟨n, members, hn, hmembers, rfl⟩ := hfit
    have hname : Kind.compilationUnit ≠ n := by
      rintro rfl
      exact Bool.false_ne_true hn
    exact hmember hmembers (by simpa [hname] using hmem)
  case fileScopedNamespaceDeclaration =>
    obtain ⟨n, members, hn, hmembers, rfl⟩ := hfit
    have hname : Kind.compilationUnit ≠ n := by
      rintro rfl
      exact Bool.false_ne_true hn
    exact hmember hmembers (by simpa [hname] using hmem)
  all_goals
    obtain ⟨modifiers, keyword, members, ends, hmodifiers, hkeyword, hmembers, hends, rfl⟩ := hfit
    have hmodifier : Kind.compilationUnit ∉ modifiers :=
      fun hmem => Bool.false_ne_true (hmodifiers _ hmem)
    have htypeMember : Kind.compilationUnit ∉ members :=
      fun hmem => Bool.false_ne_true (hmembers _ hmem)
    obtain rfl | rfl := hkeyword <;> obtain rfl | rfl :=
      hends <;> simp [hmodifier, htypeMember] at hmem

namespace Tree

variable {t : Tree}

theorem kind_top (t : Tree) : t.top.kind = t.root.kind := by
  rw [top_eq]
  rfl

/-- Only the top stands in nothing. -/
theorem eq_top {n : PlacedNode} (h : ⟨n, []⟩ ∈ t.nodes) : n = t.top := by
  rw [nodes_eq] at h
  obtain heq | h := List.mem_cons.mp h
  · exact congrArg Focus.node heq
  · obtain ⟨inner, hinner⟩ := Placed.exists_outerOf _ h
    exact absurd hinner.symm (by simp)

/-- Members and scopes stand in scopes. -/
theorem areScopes (hconforms : t.root.element.Conforms) (hroot : t.root.kind = .compilationUnit)
    {n : PlacedNode} {above : List PlacedNode} (h : ⟨n, above⟩ ∈ t.nodes)
    (hkind : n.kind.isScope ∨ n.kind.hasParts) : AreScopes above := by
  induction above generalizing n with
  | nil =>
    rw [eq_top h, kind_top, hroot] at hkind
    exact absurd hkind (by decide)
  | cons parent above ih =>
    obtain ⟨hfit, hmem, _⟩ := childrenFit_of_mem hconforms h
    have hparent : ⟨parent, above⟩ ∈ t.nodes := mem_nodes_of_above_cons h rfl
    have houter : n.kind.isOuter := by simpa [Kind.isOuter, or_assoc] using Or.inr hkind
    by_cases hunit : parent.kind = .compilationUnit
    · cases above with
      | nil => exact .root parent
      | cons _ _ =>
        obtain ⟨hfit, hmem, _⟩ := childrenFit_of_mem hconforms hparent
        exact absurd (hunit ▸ hmem) (compilationUnit_notMem hfit)
    · have hscope : parent.kind.isScope := by
        by_contra hscope
        exact Bool.false_ne_true ((isOuter_eq_false hfit hunit hscope _ hmem).symm.trans houter)
      exact (ih hparent (.inl hscope)).cons hscope

end Tree

/-! ## Names of members -/

/-- The first identifier right among the elements has text. -/
def Element.HasName (es : List Element) : Prop :=
  ∃ before token after, es = before ++ .token token :: after ∧ token.kind = .identifierToken ∧
    token.text ≠ "" ∧
    ∀ e ∈ before, e.kind ≠ .identifierToken

/-- The members in an element have names, but for fields, as far as they stand in scopes. -/
inductive Element.NamesMembers : Element → Prop where
  | token (token : Token) : NamesMembers (.token token)
  | node {kind : Kind} {children : List Element} :
      (kind.hasParts → kind ≠ .fieldDeclaration → HasName children) →
      (kind.isScope → ∀ e ∈ children, NamesMembers e) → NamesMembers (.node kind children)

/-- A kind that holds no members and is none with a name of its own. -/
def Kind.isNameless (kind : Kind) : Bool :=
  !kind.isScope && (!kind.hasParts || kind == .fieldDeclaration)

theorem Kind.isNameless_of_isToken {kind : Kind} (h : kind.isToken) : kind.isNameless := by
  revert h
  cases kind <;> decide

theorem Kind.isNameless_of_isName {kind : Kind} (h : kind.isName) : kind.isNameless := by
  revert h
  cases kind <;> decide

/-- Elements without members name all of them. -/
theorem Element.NamesMembers.of_kind {e : Element} (h : e.kind.isNameless) : e.NamesMembers := by
  cases e with
  | token t => exact .token t
  | node kind children =>
    have h : ¬kind.isScope ∧ (¬kind.hasParts ∨ kind = .fieldDeclaration) := by
      rw [Element.kind, Kind.isNameless] at h
      simpa only [Bool.and_eq_true, Bool.or_eq_true, Bool.not_eq_true', Bool.not_eq_true,
        beq_iff_eq] using h
    exact .node (fun hparts hfield => absurd (h.2.resolve_left (absurd hparts)) hfield)
      fun hscope => absurd hscope h.1

theorem Element.NamesMembers.scope {kind : Kind} {children : List Element} (hkind : kind.isScope)
    (h : ∀ e ∈ children, e.NamesMembers) : (Element.node kind children).NamesMembers :=
  .node (fun hparts => absurd hparts (Kind.not_hasParts_of_isScope hkind)) fun _ => h

theorem Element.NamesMembers.of_isToken {e : Element} (h : e.kind.isToken) : e.NamesMembers :=
  .of_kind (Kind.isNameless_of_isToken h)

namespace Production

/-- Members have names if all tokens that were taken have text. -/
def NamesAll (used : List Lexeme) (es : List Element) : Prop :=
  (∀ l ∈ used, l.text ≠ "") → ∀ e ∈ es, e.NamesMembers

theorem NamesAll.append {used more : List Lexeme} {es fs : List Element} (h : NamesAll used es)
    (h' : NamesAll more fs) : NamesAll (used ++ more) (es ++ fs) := by
  intro htext
  rw [List.forall_mem_append] at htext
  exact List.forall_mem_append.mpr ⟨h htext.1, h' htext.2⟩

theorem NamesAll.node {used : List Lexeme} {kind : Kind} (children : List Element)
    (h : kind.isNameless) : NamesAll used [.node kind children] :=
  fun _ => List.forall_mem_singleton.mpr (.of_kind h)

/-- Where a name is ahead, it is taken. -/
theorem readsAt_name {ahead : List Lexeme} (h : kindAt 0 ahead = .identifierToken) :
    ReadsAt ahead (fun used e => ∃ l, used = [l] ∧ e = .token l.token ∧ l.kind = .identifierToken)
      (expect .identifierToken) := by
  intro _
  cases ahead with
  | nil => exact absurd h (by decide)
  | cons l rest =>
    rw [expect_of h]
    exact ⟨[l], rfl, l, rfl, rfl, h⟩

/-- A name behind elements without identifiers makes them a member with a name. -/
theorem namesMembers_node {kind : Kind} (hkind : ¬kind.isScope) {before after : List Element}
    {l : Lexeme} (hl : l.kind = .identifierToken) (htext : l.text ≠ "")
    (hbefore : ∀ e ∈ before, e.kind ≠ .identifierToken) :
    (Element.node kind (before ++ .token l.token :: after)).NamesMembers :=
  .node (fun _ _ => ⟨before, l.token, after, rfl, hl, htext, hbefore⟩) fun hscope =>
    absurd hscope hkind

/-- All items that are read name their members if one item does. -/
theorem names_itemsBefore (stop : Kind → Bool) {item : Production (List Element)}
    (hitem : Reads NamesAll item) : Reads NamesAll (itemsBefore stop item) := by
  have hnone : NamesAll [] [] := fun _ => List.forall_mem_nil _
  refine Reads.iterate (fun used items hitems ahead htokens => ?_) hnone
  split
  next => exact ⟨[], rfl, rfl⟩
  next =>
    obtain ⟨more, hmore, hnext⟩ := hitem ahead htokens
    exact ⟨more, hmore, hitems.append hnext⟩

theorem names_skip (complaint : Kind → Complaint) : Reads NamesAll (skip complaint) := by
  refine (reads_skip complaint).imp fun _ es h _ e he => .of_kind ?_
  rw [h.1 e.kind (List.mem_map_of_mem he)]
  rfl

theorem ne_identifierToken {used : List Lexeme} {modifiers : List Element}
    (h : MakesEach (·.isModifier) used modifiers) : ∀ e ∈ modifiers, e.kind ≠ .identifierToken := by
  intro e he heq
  have hkind := h.1 e.kind (List.mem_map_of_mem he)
  rw [heq] at hkind
  exact Bool.false_ne_true hkind

/-- A member behind a type is a field if no name is ahead. -/
theorem names_typedMember {used more : List Lexeme} {modifiers : List Element} {type : Element}
    (hmodifiers : MakesEach (·.isModifier) used modifiers) (htype : Makes (·.isType) more type) :
    Reads (fun last e => NamesAll (used ++ (more ++ last)) [e]) (typedMember modifiers type) := by
  refine .look_bind fun ahead => ?_
  have hname : followerAhead ahead ≠ .badToken → kindAt 0 ahead = .identifierToken := by
    intro hfollower
    by_contra hname
    rw [followerAhead, if_neg (by simpa using hname)] at hfollower
    exact hfollower rfl
  have hbefore : ∀ e ∈ modifiers ++ [type], e.kind ≠ .identifierToken := by
    refine List.forall_mem_append.mpr ⟨ne_identifierToken hmodifiers,
      List.forall_mem_singleton.mpr fun heq => ?_⟩
    have hkind := htype.1
    rw [heq] at hkind
    exact Bool.false_ne_true hkind
  -- All but fields have the name that is ahead.
  have hnamed {kind : Kind} (hkind : ¬kind.isScope) {l : Lexeme} (hl : l.kind = .identifierToken)
      {last : List Lexeme} (parts : List Element) :
      NamesAll (used ++ (more ++ ([l] ++ last)))
        [.node kind (modifiers ++ [type, .token l.token] ++ parts)] := by
    intro htext
    have hnode :
        (Element.node kind ((modifiers ++ [type]) ++ .token l.token :: parts)).NamesMembers :=
      namesMembers_node hkind hl (htext l (by simp)) hbefore
    exact List.forall_mem_singleton.mpr (by simpa using hnode)
  generalize followerAhead ahead = follower at hname
  unfold memberFollowedBy
  split
  next =>
    refine ReadsAt.bind (readsAt_name (hname (by decide))) fun u₁ hone => ?_
    obtain ⟨l, rfl, hvalue, hkind⟩ := hone
    rw [hvalue]
    exact (reads_methodBody.bind fun u₂ parts _ =>
      .pure (by simpa using hnamed (by decide) hkind parts)) _
  next =>
    refine ReadsAt.bind (readsAt_name (hname (by decide))) fun u₁ hone => ?_
    obtain ⟨l, rfl, hvalue, hkind⟩ := hone
    rw [hvalue]
    exact (reads_accessorBody.bind fun u₂ parts _ =>
      .pure (by simpa using hnamed (by decide) hkind parts)) _
  next =>
    refine ReadsAt.bind (readsAt_name (hname (by decide))) fun u₁ hone => ?_
    obtain ⟨l, rfl, hvalue, hkind⟩ := hone
    rw [hvalue]
    exact (reads_arrowBody?.bind fun u₂ parts _ =>
      .pure (by simpa using hnamed (by decide) hkind _)) _
  next =>
    refine (reads_variableDeclaration reads_memberExpression htype).bind (fun _ _ _ => ?_) ahead
    exact (reads_expect rfl).bind fun _ _ _ => .pure (.node _ rfl)

/-- A type names its members if reading one of them does. -/
theorem names_typeDeclaration {member : Production (List Element)} (hmember : Reads NamesAll member)
    {used more : List Lexeme} {modifiers : List Element} {keyword : Element}
    (hmodifiers : MakesEach (·.isModifier) used modifiers)
    (hkeyword : Makes (fun k => k = .classKeyword ∨ k = .structKeyword) more keyword) :
    Reads (fun last e => NamesAll (used ++ (more ++ last)) [e])
      (typeDeclaration member modifiers keyword) := by
  refine (reads_expect rfl).bind fun u₁ name hname => ?_
  refine (reads_expect rfl).bind fun u₂ opening hopening => ?_
  refine (names_itemsBefore _ hmember).bind fun u₃ members hmembers => ?_
  refine (reads_expect rfl).bind fun u₄ closing hclosing => ?_
  refine (reads_take? _).bind fun u₅ semicolon? hsemicolon => .pure fun htext => ?_
  have hsemicolon : ∀ e ∈ semicolon?.toList, e.NamesMembers := by
    intro e he
    rw [Option.mem_toList] at he
    rw [he] at hsemicolon
    exact Element.NamesMembers.of_isToken hsemicolon.makes.1.2
  have hmembers := hmembers fun l hl => htext l (by simp [hl])
  have hkeyword : keyword.kind.isToken := by
    obtain hkind | hkind := hkeyword.1 <;> rw [hkind] <;> rfl
  refine List.forall_mem_singleton.mpr (.scope ?_ ?_)
  · unfold typeDeclarationKind
    split <;> rfl
  · simp only [List.forall_mem_append, List.forall_mem_cons]
    refine ⟨⟨⟨fun e he => ?_, .of_isToken hkeyword, ?_, ?_, List.forall_mem_nil _⟩, hmembers⟩, ?_,
      hsemicolon⟩
    · exact .of_isToken (Kind.isToken_of_isModifier (hmodifiers.1 e.kind (List.mem_map_of_mem he)))
    · exact .of_isToken (by rw [hname.1]; rfl)
    · exact .of_isToken (by rw [hopening.1]; rfl)
    · exact .of_isToken (by rw [hclosing.1]; rfl)

/-- A member behind its modifiers has a name, if its tokens have text. -/
theorem names_modifiedMember {nested : Production (List Element)} (hnested : Reads NamesAll nested)
    {used : List Lexeme} {modifiers : List Element}
    (hmodifiers : MakesEach (·.isModifier) used modifiers) :
    Reads (fun more es => NamesAll (used ++ more) es) (modifiedMember nested modifiers) := by
  refine (reads_takeIf? _).taking (fun more keyword hkeyword => ?_) ?_
  · have hkeyword' := hkeyword.imp (Q := fun k => k = .classKeyword ∨ k = .structKeyword) (by simp)
    exact (names_typeDeclaration hnested hmodifiers hkeyword').bind fun last e he =>
      .pure (by simpa using he)
  refine .look_bind fun ahead => ?_
  split
  next hahead =>
    have hname : kindAt 0 ahead = .identifierToken := (by simpa using hahead : _ ∧ _).1
    refine ReadsAt.bind (readsAt_name hname) fun u₁ hone => ?_
    obtain ⟨l, hl, hvalue, hkind⟩ := hone
    rw [hvalue]
    refine (reads_methodBody.bind fun u₂ parts _ => .pure fun htext => ?_) _
    exact List.forall_mem_singleton.mpr
      (namesMembers_node (by decide) hkind (htext l (by simp [hl])) (ne_identifierToken hmodifiers))
  split
  next =>
    refine (reads_type.bind fun more type htype => ?_) ahead
    exact (names_typedMember hmodifiers htype).bind fun last e he => .pure (by simpa using he)
  split
  next hempty =>
    refine ((names_skip _).imp
      fun more es (h : NamesAll more es) (htext : ∀ l ∈ used ++ more, l.text ≠ "") => h ?_) ahead
    exact fun l hl => htext l (List.mem_append_right _ hl)
  next => exact (Reads.then_of_nil (.complain _) fun _ => .pure (.node _ rfl)) ahead

theorem names_member (budget : Nat) : Reads NamesAll (member budget) := by
  induction budget with
  | zero => exact names_skip _
  | succ budget ih =>
    exact (reads_takeAll keepsKind_modifierKind?).bind fun _ _ h => names_modifiedMember ih h

/-- A namespace names its members if reading one of them does. -/
theorem names_namespaceDeclaration {member : Production (List Element)}
    (hmember : Reads NamesAll member) {used : List Lexeme} {keyword : Element}
    (hkeyword : Makes (· = .namespaceKeyword) used keyword) :
    Reads (fun more e => NamesAll (used ++ more) [e]) (namespaceDeclaration member keyword) := by
  have hword : keyword.NamesMembers := .of_isToken (by rw [hkeyword.1]; rfl)
  refine (reads_name).bind fun u₁ name hname => ?_
  have hname : name.NamesMembers := .of_kind (Kind.isNameless_of_isName hname.1)
  refine (reads_take? _).taking (fun u₂ semicolon hsemicolon => ?_) ?_
  · refine (names_itemsBefore _ hmember).bind fun u₃ members hmembers => .pure fun htext => ?_
    have hmembers := hmembers fun l hl => htext l (by simp [hl])
    have hsemicolon : semicolon.NamesMembers := .of_isToken (by rw [hsemicolon.1]; rfl)
    refine List.forall_mem_singleton.mpr (.scope rfl (List.forall_mem_append.mpr ⟨?_, hmembers⟩))
    simpa using ⟨hword, hname, hsemicolon⟩
  · refine (reads_expect rfl).bind fun u₂ opening hopening => ?_
    refine (names_itemsBefore _ hmember).bind fun u₃ members hmembers => ?_
    refine (reads_expect rfl).bind fun u₄ closing hclosing => .pure fun htext => ?_
    have hmembers := hmembers fun l hl => htext l (by simp [hl])
    have hopening : opening.NamesMembers := .of_isToken (by rw [hopening.1]; rfl)
    have hclosing : closing.NamesMembers := .of_isToken (by rw [hclosing.1]; rfl)
    refine List.forall_mem_singleton.mpr (.scope rfl ?_)
    simp only [List.forall_mem_append, List.forall_mem_cons]
    exact ⟨⟨⟨hword, hname, hopening, List.forall_mem_nil _⟩, hmembers⟩, hclosing,
      List.forall_mem_nil _⟩

/-- Members of namespaces name all members in them, however deep they nest. -/
theorem names_namespaceMember (budget : Nat) : Reads NamesAll (namespaceMember budget) := by
  induction budget with
  | zero => exact names_skip _
  | succ budget ih =>
    refine (reads_take? _).taking (fun used keyword hkeyword => ?_) ?_
    · exact (names_namespaceDeclaration ih hkeyword).bind fun more e he => .pure (by simpa using he)
    refine (reads_take? _).taking (fun used keyword hkeyword => ?_) (names_member (budget + 1))
    refine (reads_usingDirective hkeyword).bind fun more e he => .pure fun _ =>
      List.forall_mem_singleton.mpr (.of_kind ?_)
    rw [he.1]
    rfl

end Production

namespace Tree

/-- All members in the tree of a text have names, but for fields. -/
theorem namesMembers_parse (text : String) : ∀ e ∈ (parse text).root.children, e.NamesMembers := by
  have htokens := tokensAhead_scan text
  have hnames : Production.Reads Production.NamesAll Production.allMembers :=
    .then_of_nil .look fun _ => Production.names_itemsBefore _ (Production.names_namespaceMember _)
  obtain ⟨used, hused, hall⟩ := hnames _ htokens
  refine List.forall_mem_append.mpr ⟨hall fun l hl => ?_, List.forall_mem_singleton.mpr (.token _)⟩
  rw [Production.allMembers_rest htokens, List.append_nil] at hused
  exact text_ne_of_mem_placeTokens (hused ▸ hl)

/-- In the tree of a text, no member lacks a name but by a missing token. -/
theorem namesMembers {t : Tree} {text : String} (ht : t.root = (parse text).root) {n : PlacedNode}
    {above : List PlacedNode} (h : ⟨n, above⟩ ∈ t.nodes) (habove : AreScopes above) :
    n.placed.element.NamesMembers := by
  induction above generalizing n with
  | nil => exact absurd rfl habove.1
  | cons parent above ih =>
    have hmem : n.placed.element ∈ Placed.elementsOf parent.children := by
      rw [Placed.elementsOf_eq_map]
      exact List.mem_map_of_mem (PlacedNode.mem_childNodes.mp (mem_childNodes_of_mem h))
    have hparent : ⟨parent, above⟩ ∈ t.nodes := mem_nodes_of_above_cons h rfl
    cases above with
    | nil =>
      rw [eq_top hparent, top_children, Element.elementsOf_placeAll, ht] at hmem
      exact namesMembers_parse text _ hmem
    | cons outer above =>
      obtain ⟨hscope, hscopes⟩ :=
        List.forall_mem_cons.mp
          (List.dropLast_cons_of_ne_nil (List.cons_ne_nil outer above) ▸ habove.2)
      have hnames := ih hparent ⟨List.cons_ne_nil _ _, hscopes⟩
      rw [PlacedNode.placed, Placed.element] at hnames
      cases hnames with
      | node _ hchildren => exact hchildren hscope _ hmem

end Tree

/-- A node whose first identifier has text has a name. -/
theorem PlacedNode.isSome_name? {n : PlacedNode}
    (h : Element.HasName (Placed.elementsOf n.children)) : n.name?.isSome := by
  obtain ⟨before, token, after, hchildren, hkind, htext, hbefore⟩ := h
  rw [Placed.elementsOf_eq_map] at hchildren
  obtain ⟨front, back, hfront, rfl, hback⟩ := List.map_eq_append_iff.mp hchildren
  obtain ⟨p, back, rfl, hp, _⟩ := List.map_eq_cons_iff.mp hback
  cases p with
  | node info children => cases hp
  | token leaf =>
    obtain rfl : leaf.token = token := Element.token.inj hp
    have hnone : (front.filterMap Placed.token?).find? (·.kind == .identifierToken) = none := by
      rw [List.find?_eq_none]
      intro a ha heq
      obtain ⟨q, hq, hqa⟩ := List.mem_filterMap.mp ha
      cases q with
      | node info children => cases hqa
      | token b =>
        obtain rfl : b = a := Option.some.inj hqa
        exact hbefore _ (List.mem_map_of_mem hq) (beq_iff_eq.mp heq)
    have hleaf : n.identifier? = some leaf := by
      rw [identifier?, childToken?, childTokens, hfront, List.filterMap_append, List.find?_append,
        hnone, Option.none_or]
      exact List.find?_cons_of_pos (beq_iff_eq.mpr hkind)
    have htext : leaf.text ≠ "" := htext
    have hpresent : !leaf.text.isEmpty := by simpa [String.isEmpty_iff] using htext
    rw [name?, hleaf, present?, Option.filter_some, if_pos hpresent]
    rfl

/-- Members of parsed trees have names, but for fields. -/
theorem Tree.isSome_name? {t : Tree} {text : String} (ht : t.root = (parse text).root)
    {n : PlacedNode} {above : List PlacedNode} (h : ⟨n, above⟩ ∈ t.nodes) (hparts : n.kind.hasParts)
    (hfield : n.kind ≠ .fieldDeclaration) : n.name?.isSome := by
  have habove := areScopes (ht ▸ conforms_parse text) (congrArg Node.kind ht) h (.inr hparts)
  have hnames := namesMembers ht h habove
  rw [PlacedNode.placed, Placed.element] at hnames
  cases hnames with
  | node hname _ => exact PlacedNode.isSome_name? (hname hparts hfield)

end AutoProperty
