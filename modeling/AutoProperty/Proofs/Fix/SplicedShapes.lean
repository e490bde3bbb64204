import AutoProperty.Proofs.Fix.AutomaticShapes
import AutoProperty.Proofs.Fix.Splicing
import AutoProperty.Proofs.Symbol.MemberNames

/-! # Shapes of spliced documents

The splice reshapes a document where it takes out a field or makes a property automatic. A field
and a property only stand in types, so what is around them is known.
-/

namespace AutoProperty

/-! ## What is around fields and properties -/

namespace Kind

/-- What fields and properties stand in, and what their parts are in. -/
def isEnclosing (kind : Kind) : Bool :=
  kind == .compilationUnit || kind.isScope || kind == .fieldDeclaration || kind ==
    .variableDeclaration

/-- Bodies, and what they stand in within a property. -/
def isOfBody (kind : Kind) : Bool :=
  kind == .block || kind == .arrowExpressionClause || kind == .accessorList || kind.isAccessor

variable {kind : Kind}

theorem isOfBody_of_isToken (h : kind.isToken) : kind.isOfBody = false := by
  revert h
  cases kind <;> decide

theorem isOfBody_of_isType (h : kind.isType) : kind.isOfBody = false := by
  revert h
  cases kind <;> decide

theorem isOfBody_of_isNamespaceMember (h : kind.isNamespaceMember) : kind.isOfBody = false := by
  revert h
  cases kind <;> decide

theorem isNamespaceMember_of_isTypeMember (h : kind.isTypeMember) : kind.isNamespaceMember := by
  revert h
  cases kind <;> decide

end Kind

/-- There are no bodies right in a type or in a declaration of fields. -/
theorem isOfBody_eq_false {parent : Kind} {kinds : List Kind} (hfit : ChildrenFit parent kinds)
    (h : parent.isEnclosing) : ∀ kind ∈ kinds, kind.isOfBody = false := by
  have htokens {kinds : List Kind} (hkinds : ∀ k ∈ kinds, k.isToken) : ∀ k ∈ kinds,
      k.isOfBody = false :=
    fun k hk => Kind.isOfBody_of_isToken (hkinds k hk)
  have hname {kind : Kind} (h : kind.isName) : kind.isOfBody = false :=
    Kind.isOfBody_of_isType (Kind.isType_of_isName h)
  have htype (hparent : parent = .classDeclaration ∨ parent = .structDeclaration) : ∀ kind ∈ kinds,
      kind.isOfBody = false := by
    obtain ⟨modifiers, keyword, members, ends, hmodifiers, hkeyword, hmembers, hends, rfl⟩ :
        ChildrenFit .classDeclaration kinds := by
      obtain rfl | rfl := hparent <;> exact hfit
    simp only [List.forall_mem_append, List.forall_mem_cons]
    refine ⟨⟨⟨htokens fun k hk => Kind.isToken_of_isModifier (hmodifiers k hk), ?_, rfl, rfl,
      List.forall_mem_nil _⟩,
      fun k hk => Kind.isOfBody_of_isNamespaceMember
        (Kind.isNamespaceMember_of_isTypeMember (hmembers k hk))⟩, rfl, ?_⟩
    · obtain rfl | rfl := hkeyword <;> rfl
    · obtain rfl | rfl := hends <;> decide
  cases parent <;> first
    | exact absurd h Bool.false_ne_true | exact htype (.inl rfl) | exact htype (.inr rfl) | skip
  case variableDeclaration =>
    obtain ⟨type, declarators, hkind, hdeclarators, rfl⟩ := hfit
    refine List.forall_mem_cons.mpr ⟨Kind.isOfBody_of_isType hkind, fun k hk => ?_⟩
    obtain rfl | rfl := mem_of_separated hdeclarators hk <;> rfl
  case fieldDeclaration =>
    obtain ⟨modifiers, hmodifiers, rfl⟩ := hfit
    refine List.forall_mem_append.mpr
      ⟨htokens fun k hk => Kind.isToken_of_isModifier (hmodifiers k hk), by decide⟩
  case namespaceDeclaration =>
    obtain ⟨name, members, hn, hmembers, rfl⟩ := hfit
    simp only [List.forall_mem_append, List.forall_mem_cons]
    exact ⟨⟨⟨rfl, hname hn, rfl, List.forall_mem_nil _⟩,
      fun k hk => Kind.isOfBody_of_isNamespaceMember (hmembers k hk)⟩, rfl, List.forall_mem_nil _⟩
  case fileScopedNamespaceDeclaration =>
    obtain ⟨name, members, hn, hmembers, rfl⟩ := hfit
    simp only [List.forall_mem_append, List.forall_mem_cons]
    exact ⟨⟨rfl, hname hn, rfl, List.forall_mem_nil _⟩,
      fun k hk => Kind.isOfBody_of_isNamespaceMember (hmembers k hk)⟩
  case compilationUnit =>
    obtain ⟨members, hmembers, rfl⟩ := hfit
    exact List.forall_mem_append.mpr
      ⟨fun k hk => Kind.isOfBody_of_isNamespaceMember (hmembers k hk), by decide⟩

/-- Only scopes stand around a member, and the root outermost. -/
theorem AreScopes.isScope_or {tree : Tree} (hroot : tree.root.kind = .compilationUnit) {f : Focus}
    (hf : f ∈ tree.nodes) {before above : List PlacedNode} (habove : f.above = before ++ above)
    (h : AreScopes above) : ∀ n ∈ above, n.kind.isScope ∨ n.kind = .compilationUnit := by
  obtain ⟨hne, hscopes⟩ := h
  intro n hn
  obtain ⟨outer, inner, rfl⟩ := List.append_of_mem hn
  rcases List.eq_nil_or_concat' inner with rfl | ⟨inner, last, rfl⟩
  · have hmem := Tree.mem_nodes_of_above hf (habove.trans (List.append_assoc ..).symm)
    rw [Tree.eq_top hmem, Tree.kind_top, hroot]
    exact .inr rfl
  · refine .inl (hscopes n ?_)
    rw [List.dropLast_append_of_ne_nil (List.cons_ne_nil _ _),
      List.dropLast_cons_of_ne_nil (by simp)]
    exact List.mem_append_right _ List.mem_cons_self

theorem AreScopes.isEnclosing {tree : Tree} (hroot : tree.root.kind = .compilationUnit) {f : Focus}
    (hf : f ∈ tree.nodes) {before above : List PlacedNode} (habove : f.above = before ++ above)
    (h : AreScopes above) : ∀ n ∈ above, n.kind.isEnclosing := by
  intro n hn
  obtain hscope | hunit := h.isScope_or hroot hf habove n hn
  · simp [Kind.isEnclosing, hscope]
  · rw [hunit]
    rfl

/-! ## Cuts of trees -/

namespace Cut

variable {cut : Cut} {tree : Tree}

/-- The field is declared in the tree, and so is the property. -/
structure Stands (cut : Cut) (tree : Tree) : Prop where
  removed {m : PlacedNode} : cut.removed? = some m → ∃ above, ⟨m, above⟩ ∈ tree.nodes ∧
    (m.kind = .variableDeclarator ∨ m.kind = .fieldDeclaration) ∧ ∀ n ∈ above, n.kind.isEnclosing
  property {n : PlacedNode} : cut.property? = some n →
    ∃ above, ⟨n, above⟩ ∈ tree.nodes ∧ n.kind = .propertyDeclaration ∧
    ∀ m ∈ above, m.kind.isEnclosing
  apart {m n : PlacedNode} : cut.removed? = some m → cut.property? = some n → n ∉ m.descendants

/-- A plan takes the field out and makes the property automatic. -/
structure Plans (cut : Cut) (tree : Tree) (plan : EditPlan) : Prop where
  edit {f : Focus} {edit : Edit} : f ∈ tree.nodes → plan.edit? f.node.info = some edit →
    (∃ id keep, edit = .remove id keep) ∧ cut.removed? = some f.node ∨
      ∃ id new, edit = .replace id new ∧ cut.property? = some f.node ∧ ∀ m,
      Placed.Becomes cut.change m [f.node.placed] [new.element]
  removed {m : PlacedNode} : cut.removed? = some m → plan.edit? m.info ≠ none
  property {n : PlacedNode} : cut.property? = some n → plan.edit? n.info ≠ none
  drops {g : TokenFocus} : g ∈ tree.tokens → plan.drops g.leaf → g.leaf.kind = .commaToken ∧
    ∃ m, cut.removed? = some m ∧ ⟨m, g.above⟩ ∈ tree.nodes

namespace Stands

variable (h : cut.Stands tree) (hconforms : tree.root.element.Conforms)
include h hconforms

/-- A body stands in an accessor or right in the property. -/
theorem exists_above_of_body {n b : PlacedNode} (hn : cut.property? = some n) (hb : b ∈ n.bodies) :
    (b.kind = .block ∨ b.kind = .arrowExpressionClause) ∧ ∃ inner above,
      ⟨b, inner ++ n :: above⟩ ∈ tree.nodes ∧ ⟨n, above⟩ ∈ tree.nodes ∧
      (∀ m ∈ above, m.kind.isEnclosing) ∧
      (inner = [] ∨ ∃ accessor list, inner = [accessor, list] ∧ list.kind = .accessorList) := by
  obtain ⟨above, hmem, hkind, habove⟩ := h.property hn
  obtain ⟨hchild, harrow⟩ | ⟨list, hlist, hlistKind, accessor, haccessor, hchild⟩ :=
    PlacedNode.mem_bodies.mp hb
  · exact ⟨.inr harrow, [], above, Tree.child_mem hmem hchild, hmem, habove, .inl rfl⟩
  · have hlistMem := Tree.child_mem hmem hlist
    have haccessorMem := Tree.child_mem hlistMem haccessor
    have hbMem := Tree.child_mem haccessorMem hchild
    refine ⟨?_, [accessor, list], above, hbMem, hmem, habove, .inr ⟨accessor, list, rfl, hlistKind⟩⟩
    have hsited := Tree.sited_of_mem hconforms haccessorMem
    have hbSited := Tree.sited_of_mem hconforms hbMem
    have hbToken : ¬b.kind.isToken := hbSited.not_isToken
    obtain ⟨hfit, hkind, _⟩ := Tree.childrenFit_of_mem hconforms haccessorMem
    obtain ⟨hfit', hkind', _⟩ := Tree.childrenFit_of_mem hconforms hbMem
    rw [hlistKind] at hfit
    obtain htoken | haccessorKind | hskipped := isAccessor_or hfit _ hkind
    · exact absurd htoken hsited.not_isToken
    · exact (isBody_of_accessor hfit' haccessorKind _ hkind').resolve_left hbToken
    · rw [hskipped] at hfit'
      exact absurd (hfit'.2 _ hkind') hbToken

/-- The removed field and the bodies of the property may go away. -/
theorem allowed : cut.Allowed where
  gone m hm := by
    obtain hm | ⟨n, hn, hm⟩ := mem_gone.mp hm
    · obtain ⟨_, _, hkind, _⟩ := h.removed hm
      exact hkind.symm.imp id .inl
    · exact .inr (.inr (h.exists_above_of_body hconforms hn hm).1)
  property n hn := by
    obtain ⟨_, _, hkind, _⟩ := h.property hn
    exact hkind

omit hconforms in
/-- The fix leaves of the property what stands in front of its body. -/
theorem strips {n : PlacedNode} (hn : cut.property? = some n) : cut.Strips n where
  property := hn
  apart m hm hin := by
    obtain ⟨above, hmem, hkind, _⟩ := h.property hn
    obtain ⟨above', hmem', hkind', habove'⟩ := h.removed hm
    obtain heq | hmem := List.mem_cons.mp ((Tree.mem_descendants_iff hmem hmem').mp hin)
    · have heq : n = m := heq
      rw [← heq, hkind] at hkind'
      obtain hkind' | hkind' := hkind' <;> cases hkind'
    · have henclosing := habove' n hmem
      rw [hkind] at henclosing
      cases henclosing

/-- What holds something that goes away or is made automatic can be told by what is around it. -/
theorem isEnclosing {f : Focus} (hf : f ∈ tree.nodes) (habove : ∀ n ∈ f.above, n.kind.isEnclosing)
    {s : PlacedNode} (hs : s ∈ cut.gone ∨ cut.property? = some s) (hin : s ∈ f.node.descendants) :
    f.node.kind.isEnclosing ∨ cut.removed? = some f.node ∨ cut.property? = some f.node := by
  have hself {g : Focus} (hg : g ∈ tree.nodes) (hin : g.node ∈ f.node.descendants) : f.node =
      g.node ∨ f.node ∈ g.above :=
    List.mem_cons.mp ((Tree.mem_descendants_iff hf hg).mp hin)
  -- Nothing in the property has only enclosing nodes around it.
  have hproperty {n : PlacedNode} (hn : cut.property? = some n) {before above : List PlacedNode}
      (hf : f.above = before ++ n :: above) : False := by
    have henclosing := habove n (by rw [hf]; exact List.mem_append_right _ List.mem_cons_self)
    obtain ⟨_, _, hkind, _⟩ := h.property hn
    rw [hkind] at henclosing
    cases henclosing
  obtain hgone | hs := hs
  · obtain hremoved | ⟨n, hn, hb⟩ := mem_gone.mp hgone
    · obtain ⟨above, hmem, _, hmabove⟩ := h.removed hremoved
      obtain heq | hmem := hself hmem hin
      · exact .inr (.inl (by rw [heq]; exact hremoved))
      · exact .inl (hmabove _ hmem)
    · obtain ⟨_, inner, above, hmem, hnMem, hnabove, hinner⟩ :=
        h.exists_above_of_body hconforms hn hb
      obtain heq | hfmem := hself hmem hin
      · obtain rfl := Tree.focus_eq hf hmem (congrArg PlacedNode.index heq)
        exact (hproperty hn rfl).elim
      obtain hfmem | hfmem := List.mem_append.mp hfmem
      · obtain rfl | ⟨accessor, list, rfl, _⟩ := hinner
        · exact absurd hfmem List.not_mem_nil
        · simp only [List.mem_cons, List.not_mem_nil, or_false] at hfmem
          have hlist :=
            Tree.mem_nodes_of_above hmem (show _ = [accessor] ++ list :: n :: above from rfl)
          have haccessor :=
            Tree.mem_nodes_of_above hmem (show _ = [] ++ accessor :: list :: n :: above from rfl)
          obtain heq | heq := hfmem
          · obtain rfl := Tree.focus_eq hf haccessor (congrArg PlacedNode.index heq)
            exact (hproperty hn (show _ = [list] ++ n :: above from rfl)).elim
          · obtain rfl := Tree.focus_eq hf hlist (congrArg PlacedNode.index heq)
            exact (hproperty hn (show _ = [] ++ n :: above from rfl)).elim
      · obtain heq | hfmem := List.mem_cons.mp hfmem
        · exact .inr (.inr (by rw [heq]; exact hn))
        · exact .inl (hnabove _ hfmem)
  · obtain ⟨above, hmem, _, hsabove⟩ := h.property hs
    obtain heq | hfmem := hself hmem hin
    · exact .inr (.inr (by rw [heq]; exact hs))
    · exact .inl (hsabove _ hfmem)

/-- The plan does to the tree what the cut allows. -/
theorem performs {plan : EditPlan} (hplan : cut.Plans tree plan) :
    plan.Performs tree cut.change fun n => n.kind.isEnclosing where
  removed hf hedit := by
    obtain ⟨_, hremoved⟩ | ⟨_, _, heq, _⟩ := hplan.edit hf hedit
    · exact .inl ⟨_, mem_gone.mpr (.inl hremoved), rfl⟩
    · cases heq
  replaced m hf hedit := by
    obtain ⟨⟨_, _, heq⟩, _⟩ | ⟨_, _, heq, _, hbecomes⟩ := hplan.edit hf hedit
    · cases heq
    · cases heq
      exact hbecomes m
  dropped hg hdrops := by
    obtain ⟨hkind, _⟩ := hplan.drops hg hdrops
    exact .inr ⟨_, rfl, by rw [hkind]; decide, by rw [hkind]; rfl⟩
  keeps _ htoken := kept_token cut htoken
  otherwise {f} hf hne habove hedit := by
    obtain ⟨parent, rest, hparent⟩ := List.exists_cons_of_ne_nil hne
    obtain ⟨node, above⟩ := f
    obtain rfl : above = parent :: rest := hparent
    obtain ⟨hfit, hmem, _⟩ := Tree.childrenFit_of_mem hconforms hf
    have hunit : node.kind ≠ .compilationUnit := fun heq => compilationUnit_notMem hfit (heq ▸ hmem)
    have hbody := isOfBody_eq_false hfit (habove parent List.mem_cons_self) _ hmem
    have hnotProperty : cut.property? ≠ some node := fun hn => hplan.property hn hedit
    have hnotRemoved : cut.removed? ≠ some node := fun hn => hplan.removed hn hedit
    have hnotGone : node ∉ cut.gone := by
      intro hgone
      obtain hremoved | ⟨n, hn, hb⟩ := mem_gone.mp hgone
      · exact hnotRemoved hremoved
      · obtain hkind | hkind :=
          (h.exists_above_of_body hconforms hn hb).1 <;> rw [hkind] at hbody <;> cases hbody
    by_cases hany : ∃ s ∈ node.descendants, s ∈ cut.gone ∨ cut.property? = some s
    · obtain ⟨s, hin, hs⟩ := hany
      have henclosing :=
        (h.isEnclosing hconforms hf habove hs hin).resolve_right
          (not_or.mpr ⟨hnotRemoved, hnotProperty⟩)
      refine .inl ⟨⟨hnotGone, ?_⟩, henclosing⟩
      simp only [Kind.isEnclosing, Bool.or_eq_true, beq_iff_eq] at henclosing
      tauto
    have hnone {s : PlacedNode} (hs : s ∈ node.descendants) : s ∉ cut.gone ∧
        cut.property? ≠ some s :=
      ⟨fun hgone => hany ⟨s, hs, .inl hgone⟩, fun hn => hany ⟨s, hs, .inr hn⟩⟩
    by_cases hscope : node.kind.isScope
    · exact .inl ⟨⟨hnotGone, .inl hscope⟩, by simp [Kind.isEnclosing, hscope]⟩
    refine .inr ⟨⟨?_, fun _ => hnone⟩, ?_, ?_⟩
    · show ¬node.kind.isScope ∧ node.kind ≠ .block ∧ node.kind ≠ .arrowExpressionClause ∧
        node.kind ≠ .accessorList ∧ ¬node.kind.isAccessor
      simp only [Kind.isOfBody, Bool.or_eq_false_iff, beq_eq_false_iff_ne] at hbody
      obtain ⟨⟨⟨hblock, harrow⟩, hlist⟩, haccessor⟩ := hbody
      exact ⟨hscope, hblock, harrow, hlist, by simp [haccessor]⟩
    · intro n hn
      rw [Placed.nodesOf, Placed.nodesOf, List.append_nil] at hn
      obtain ⟨g, hg, rfl⟩ := Tree.exists_focus_of_descendant hf hn
      by_contra hsome
      obtain ⟨edit, hedit⟩ := Option.ne_none_iff_exists'.mp hsome
      obtain ⟨_, hremoved⟩ | ⟨_, _, _, hproperty, _⟩ := hplan.edit hg hedit
      · exact (hnone hn).1 (mem_gone.mpr (.inl hremoved))
      · exact (hnone hn).2 hproperty
    · intro leaf hleaf
      rw [Placed.tokensOf, Placed.tokensOf, List.append_nil] at hleaf
      obtain ⟨g, hg, rfl, inner, hinner⟩ := Tree.exists_tokenFocus hf hleaf
      rw [Bool.eq_false_iff]
      intro hdrops
      obtain ⟨_, m, hremoved, hm⟩ := hplan.drops hg hdrops
      refine (hnone ((Tree.mem_descendants_iff hf hm).mpr ?_)).1 (mem_gone.mpr (.inl hremoved))
      rw [Focus.ancestors, hinner]
      exact List.mem_cons_of_mem _ (List.mem_append_right _ List.mem_cons_self)

end Stands

end Cut

end AutoProperty
