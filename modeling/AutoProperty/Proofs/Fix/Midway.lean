import AutoProperty.Proofs.Fix.SplicedProjects

/-! # Between the rename and the splice

The rename leaves all trees in shape, so what the splice takes out is the same before the rename
and after it. After it, only names in the declarator mean the field.
-/

namespace AutoProperty

/-! ## What goes away -/

section Shapes

variable {leaf : PlacedToken → PlacedToken → Prop} {node : Nat → Nat → Prop}

theorem PlacedNode.Alike.bodies {n n' : PlacedNode} (h : n.Alike leaf node n') :
    List.Forall₂ (PlacedNode.Alike leaf node) n.bodies n'.bodies :=
  List.rel_append (h.childrenOf _) (List.rel_flatMap (h.childrenOf _) fun _ _ hlist =>
    List.rel_flatMap hlist.childNodes fun _ _ haccessor => haccessor.childNodes)

theorem map_index_eq {ns ns' : List PlacedNode}
    (h : List.Forall₂ (PlacedNode.Alike leaf Eq) ns ns') :
    ns'.map (·.index) = ns.map (·.index) := by
  induction h with
  | nil => rfl
  | cons hn _ ih => rw [List.map_cons, List.map_cons, ih, hn.index]

variable {tree tree' : Tree} {t t' : Target} {f f' m m' : Focus}

/-- Where trees are alike, the same node goes away with a field. -/
theorem FieldRemoval.index_eq_of_parallel (hparallel : tree.Parallel leaf tree')
    (hf : f ∈ tree.nodes) (hfield : f.IsField) (hnode : t.node = tree.nodeId f.node)
    (hf' : f' ∈ tree'.nodes) (hfield' : f'.IsField) (hnode' : t'.node = tree'.nodeId f'.node)
    (hindex : f'.node.index = f.node.index) {i? i'? : Option Node}
    (hplan : FieldRemoval.plan tree t = .ok ⟨tree.nodeId m.node, i?⟩)
    (hplan' : FieldRemoval.plan tree' t' = .ok ⟨tree'.nodeId m'.node, i'?⟩) :
    m'.node.index = m.node.index := by
  obtain ⟨hkind, declaration, field, scopes, habove, hdeclaration, hfieldKind, _⟩ := hfield
  obtain ⟨hkind', declaration', field', scopes', habove', hdeclaration', hfieldKind', _⟩ := hfield'
  have hsame := (hparallel.alike hf hf' hindex).2
  rw [SameAbove, habove, habove', List.map_cons, List.map_cons, List.map_cons, List.map_cons]
    at hsame
  obtain ⟨hdeclarationIndex, hsame⟩ := List.cons.inj hsame
  obtain ⟨hfieldIndex, _⟩ := List.cons.inj hsame
  have halike :=
    (hparallel.alike (Tree.mem_nodes_of_above_cons hf habove)
      (Tree.mem_nodes_of_above_cons hf' habove')
    hdeclarationIndex).1
  rw [plan_of_above hf hkind hnode habove hdeclaration hfieldKind] at hplan
  rw [plan_of_above hf' hkind' hnode' habove' hdeclaration' hfieldKind',
    ← (halike.childrenOf _).length_eq] at hplan'
  have htarget := congrArg FieldRemoval.target (Except.ok.inj hplan)
  have htarget' := congrArg FieldRemoval.target (Except.ok.inj hplan')
  dsimp only at htarget htarget'
  split at htarget
  next hlength =>
    rw [if_pos hlength] at htarget'
    rw [← Tree.nodeId_inj.mp htarget, ← Tree.nodeId_inj.mp htarget', hfieldIndex]
  next hlength =>
    rw [if_neg hlength, hnode'] at htarget'
    rw [hnode] at htarget
    rw [← Tree.nodeId_inj.mp htarget, ← Tree.nodeId_inj.mp htarget', hindex]

end Shapes

/-! ## What mentions the field -/

namespace Pair.Stands

variable {pair : Pair} {p : Project} (h : pair.Stands p) (hs : pair.solution.WellFormed)
  (hparsed : AllParsed (pair.solution.trees p))

include h hs hparsed

/-- Only names in expressions mean the field, and they stand in members. -/
theorem reads_of_bound {type : SymbolId}
    (hjoint : (SymbolTable.declareDocuments (pair.solution.trees p)).Joint type pair.field.symbol.id
      pair.property.symbol.id pair.field.symbol.data pair.property.symbol.data)
    {document : DocumentId} {tree : Tree} (htree : (document, tree) ∈ pair.solution.trees p)
    {k : TokenFocus} (hk : k ∈ tree.tokens)
    (hmeans : pair.field.symbol.id ∈ (SymbolTable.build (pair.solution.trees p)).bound
      ⟨document, k.leaf.index⟩) : k.isExpressionName ∧ k.InMember ∧ k.leaf.text ≠ "" := by
  have hsingle : (SymbolTable.build (pair.solution.trees p)).single? ⟨document, k.leaf.index⟩ =
      some pair.field.symbol.id := by
    rw [SymbolTable.single?, hjoint.bound_field hmeans]
  have hentry := Compilation.exists_binding_of_single? hsingle
  have hnodup := (h.isBuilt hs).nodup
  rw [h.documents] at hnodup
  have hsame {tree' : Tree} (htree' : (document, tree') ∈ pair.solution.trees p) : tree' = tree :=
    Option.some.inj ((lookup_of_mem hnodup htree').symm.trans (lookup_of_mem hnodup htree))
  obtain ⟨_, htree₁, g, hg, _, hgindex, hmember⟩ :=
    (SymbolTable.present_build (pair.solution.trees p)).bound _ hentry
  obtain rfl := hsame htree₁
  obtain rfl := Tree.eq_of_index hg hk hgindex
  obtain ⟨_, htree₂, g', hg', hgindex', htext, hname⟩ :=
    (SymbolTable.linked_build hparsed.conforms).bound _ _ hentry
  obtain rfl := hsame htree₂
  obtain rfl := Tree.eq_of_index hg' hg hgindex'
  refine ⟨hname.resolve_right fun htypes => ?_, hmember, htext⟩
  have htype := htypes _ (List.mem_singleton_self _)
  rw [SymbolTable.isType, SymbolTable.kind?,
    (SymbolTable.data?_build_iff (by rw [hjoint.kinds.1]; decide)).mpr hjoint.isField] at htype
  simp [hjoint.kinds.1] at htype

/-- A name that means the field is renamed, unless it stands in the declarator. -/
theorem mem_renamedSpans {type : SymbolId}
    (hjoint : (SymbolTable.declareDocuments (pair.solution.trees p)).Joint type pair.field.symbol.id
      pair.property.symbol.id pair.field.symbol.data pair.property.symbol.data) {fieldTree : Tree}
    {f : Focus} (hfield : pair.field.Stands pair.compilation fieldTree f) {document : DocumentId}
    {tree : Tree} (htree : (document, tree) ∈ pair.solution.trees p) {k : TokenFocus}
    (hk : k ∈ tree.tokens)
    (hmeans : pair.field.symbol.id ∈ (SymbolTable.build (pair.solution.trees p)).bound
      ⟨document, k.leaf.index⟩) :
    k.leaf.span ∈ pair.renamedSpans document ∨
      document = pair.field.document ∧ k.leaf ∈ f.node.tokens := by
  have hsingle : (SymbolTable.build (pair.solution.trees p)).single? ⟨document, k.leaf.index⟩ =
      some pair.field.symbol.id := by
    rw [SymbolTable.single?, hjoint.bound_field hmeans]
  have hmention : pair.compilation.Mentions pair.field.symbol document k := by
    rw [Compilation.Mentions, h.compilation.table]
    exact hsingle
  have hreference : ⟨document, k.leaf.span, false⟩ ∈ pair.compilation.references
      pair.field.symbol :=
    ((h.isBuilt hs).mem_references (Compilation.resolve?_of_symbol? hfield.symbol)).mpr
      (.inr ⟨document, tree, h.documents.symm ▸ htree, k, hk, hmention, rfl⟩)
  by_cases houtside : outside pair.field ⟨document, k.leaf.span, false⟩
  · refine .inl (mem_spansOf.mpr ⟨⟨document, k.leaf.span, false⟩, ?_, rfl, rfl⟩)
    exact List.mem_filter.mpr ⟨hreference, houtside⟩
  -- A name that touches the declarator stands in it.
  simp only [outside, Bool.not_eq_true', Bool.not_eq_false, Bool.and_eq_true, beq_iff_eq]
    at houtside
  obtain ⟨rfl, htouches⟩ := houtside
  refine .inr ⟨rfl, ?_⟩
  obtain rfl :=
    Option.some.inj ((h.tree?_of_mem hs htree).symm.trans hfield.present)
  obtain ⟨hexpression, hmember, htext⟩ := h.reads_of_bound hs hparsed hjoint htree hk hmeans
  obtain ⟨_, hroot⟩ := hparsed _ htree
  obtain ⟨name, hfieldName, _⟩ := hfield.named
  have hdeclares := hfield.declares
  rw [h.roles.1] at hdeclares
  exact Tree.mem_tokens_of_touches hroot hfield.focus hdeclares hk hexpression hmember hfieldName
    htext (hfield.span ▸ htouches)

omit h hs in
/-- A document that is renamed keeps its shape. -/
theorem parallel_of_isRenaming {r : Revision} (hr : pair.IsRenaming r)
    (hmem : (r.document, r.tree) ∈ pair.solution.trees p) {trees' : List (DocumentId × Tree)}
    (hparsed' : AllParsed trees') (hmem' : (r.document, r.tree') ∈ trees') :
    r.tree.Parallel r.leaf r.tree' := by
  obtain ⟨document, tree, tree', rfl, hrespelled⟩ := hr
  refine ⟨?_, hrespelled.twins.restrict fun a ha a' htwin => ⟨ha, htwin⟩⟩
  exact (hparsed'.kind_root hmem').trans (hparsed.kind_root hmem).symm

end Pair.Stands

/-! ## From one pair to the next -/

/-- The field has been renamed to the name of a property of its type, and both are found again. -/
structure Pair.Advances (pair : Pair) (p : Project) (pair' : Pair) (p' : Project)
    (type : SymbolId) : Prop where
  stands : pair.Stands p
  wellFormed : pair.solution.WellFormed
  wellFormed' : pair'.solution.WellFormed
  parsed : AllParsed (pair.solution.trees p)
  renamed : pair.IsRenamed p pair' p'
  joint : (SymbolTable.declareDocuments (pair.solution.trees p)).Joint type pair.field.symbol.id
    pair.property.symbol.id
    pair.field.symbol.data pair.property.symbol.data

namespace Pair.Advances

variable {pair pair' : Pair} {p p' : Project} {type : SymbolId} (h : pair.Advances p pair' p' type)
  {fieldTree propertyTree fieldTree' propertyTree' : Tree} {f g m f' g' m' : Focus}
  (hfield : pair.field.Stands pair.compilation fieldTree f)
  (hproperty : pair.property.Stands pair.compilation propertyTree g)
  (hfield' : pair'.field.Stands pair'.compilation fieldTree' f')
  (hproperty' : pair'.property.Stands pair'.compilation propertyTree' g')
include h

theorem renames :
    pair.solution.Renames p pair.compilation pair.field.symbol pair.property.symbol.name
      pair.renameOptions pair'.solution p' pair'.compilation :=
  h.renamed.renames h.joint.names

theorem counterparts :
    SymbolTable.Counterparts True (SymbolTable.declareDocuments (pair.solution.trees p))
      (SymbolTable.declareDocuments (pair'.solution.trees p')) :=
  h.stands.counterparts h.wellFormed h.parsed h.wellFormed' h.renames

theorem compiled :
    pair.compilation.IsBuilt ∧ pair'.compilation.IsBuilt ∧ AllParsed pair'.compilation.documents ∧
      SymbolTable.Counterparts True (SymbolTable.declareDocuments pair.compilation.documents)
        (SymbolTable.declareDocuments pair'.compilation.documents) := by
  refine ⟨h.stands.isBuilt h.wellFormed, h.renamed.stands.isBuilt h.wellFormed',
    h.renamed.stands.allParsed h.renamed.parsed, ?_⟩
  rw [h.stands.documents, h.renamed.stands.documents]
  exact h.counterparts

include hfield hfield' in
/-- The field is the same symbol, declared by the same node. -/
theorem field_eq : pair'.field.symbol.id = pair.field.symbol.id ∧ f'.node.index = f.node.index := by
  obtain ⟨hbuilt, hbuilt', hparsed', hcounterparts⟩ := h.compiled
  exact hbuilt.eq_of_stable hfield hbuilt' hparsed' hcounterparts hfield' h.renamed.field

include hproperty hproperty' in
theorem property_eq :
    pair'.property.symbol.id = pair.property.symbol.id ∧ g'.node.index = g.node.index := by
  obtain ⟨hbuilt, hbuilt', hparsed', hcounterparts⟩ := h.compiled
  exact hbuilt.eq_of_stable hproperty hbuilt' hparsed' hcounterparts hproperty' h.renamed.property

theorem documents_eq :
    pair'.field.document = pair.field.document ∧ pair'.property.document = pair.property.document :=
  ⟨congrArg TargetKey.document h.renamed.field, congrArg TargetKey.document h.renamed.property⟩

/-- Both are still the only members of their names. -/
theorem joint' :
    (SymbolTable.declareDocuments (pair'.solution.trees p')).Joint type pair'.field.symbol.id
      pair'.property.symbol.id pair'.field.symbol.data pair'.property.symbol.data := by
  obtain ⟨_, _, hfield⟩ := h.stands.field
  obtain ⟨_, _, hproperty⟩ := h.stands.property
  obtain ⟨_, _, hfield'⟩ := h.renamed.stands.field
  obtain ⟨_, _, hproperty'⟩ := h.renamed.stands.property
  obtain ⟨field, property, hjoint, _⟩ := h.joint.counterparts h.counterparts
  have hfieldData := h.renamed.stands.data?_declareDocuments hfield'
  have hpropertyData := h.renamed.stands.data?_declareDocuments hproperty'
  rw [(h.field_eq hfield hfield').1] at hfieldData ⊢
  rw [(h.property_eq hproperty hproperty').1] at hpropertyData ⊢
  rwa [Option.some.inj (hfieldData.symm.trans hjoint.isField),
    Option.some.inj (hpropertyData.symm.trans hjoint.isProperty)]

section Cuts

variable
  (hm : FieldRemoval.plan fieldTree pair.field =
    .ok ⟨fieldTree.nodeId m.node, initializerOf? f.node⟩)
  (hm' : FieldRemoval.plan fieldTree' pair'.field =
    .ok ⟨fieldTree'.nodeId m'.node, initializerOf? f'.node⟩)
include hfield hproperty hfield' hproperty' hm hm'

/-- The splice takes out what it would have taken out before the rename. -/
theorem gone_index {document : DocumentId} {tree tree' : Tree}
    {leaf : PlacedToken → PlacedToken → Prop} (htree : pair.compilation.tree? document = some tree)
    (htree' : pair'.compilation.tree? document = some tree')
    (hparallel : tree.Parallel leaf tree') :
    ((pair'.cut m'.node g'.node document).gone).map (·.index) =
      ((pair.cut m.node g.node document).gone).map (·.index) := by
  obtain ⟨hfieldDocument, hpropertyDocument⟩ := h.documents_eq
  have hremoved : (pair'.cut m'.node g'.node document).removed?.toList.map (·.index) =
      (pair.cut m.node g.node document).removed?.toList.map (·.index) := by
    simp only [cut, hfieldDocument]
    split
    next heq =>
      subst heq
      obtain rfl := Option.some.inj (htree.symm.trans hfield.present)
      obtain rfl := Option.some.inj (htree'.symm.trans (hfieldDocument ▸ hfield'.present))
      have hdeclares := hfield.declares
      have hdeclares' := hfield'.declares
      rw [h.stands.roles.1] at hdeclares
      rw [h.renamed.stands.roles.1] at hdeclares'
      have hindex :=
        FieldRemoval.index_eq_of_parallel hparallel hfield.focus hdeclares hfield.node hfield'.focus
          hdeclares' hfield'.node
        (h.field_eq hfield hfield').2 hm hm'
      simp [hindex]
    next => rfl
  have hbodies :
      ((pair'.cut m'.node g'.node document).property?.toList.flatMap PlacedNode.bodies).map
        (·.index) =
      ((pair.cut m.node g.node document).property?.toList.flatMap PlacedNode.bodies).map
        (·.index) := by
    simp only [cut, hpropertyDocument]
    split
    next heq =>
      subst heq
      obtain rfl := Option.some.inj (htree.symm.trans hproperty.present)
      obtain rfl := Option.some.inj (htree'.symm.trans (hpropertyDocument ▸ hproperty'.present))
      have halike :=
        (hparallel.alike hproperty.focus hproperty'.focus (h.property_eq hproperty hproperty').2).1
      simpa using map_index_eq halike.bodies
    next => rfl
  rw [Cut.gone, Cut.gone, List.map_append, List.map_append, hremoved, hbodies]

end Cuts

/-! ## Names in between -/

variable {R : Revisions} (hleads : R.Leads (pair.solution.trees p) (pair'.solution.trees p'))
  (hrs : ∀ r ∈ R.revisions, pair.IsRenaming r)
include hleads hrs

theorem parallel {r : Revision} (hr : r ∈ R.revisions) : r.tree.Parallel r.leaf r.tree' := by
  obtain ⟨hmem, hmem'⟩ := hleads.mem hr
  exact Stands.parallel_of_isRenaming h.parsed (hrs r hr) hmem h.renamed.parsed hmem'

/-- A replaced name meant the field. Now it has the name of the property and means the property. -/
theorem bound_of_replaced {r : Revision} (hr : r ∈ R.revisions) {a a' : PlacedToken}
    (hleaf : r.leaf a a') (hreplaced : r.replaced a) :
    (SymbolTable.build (pair.solution.trees p)).bound ⟨r.document, a.index⟩ =
      [pair.field.symbol.id] ∧ (SymbolTable.build (pair'.solution.trees p')).bound
        ⟨r.document, a'.index⟩ = [pair.property.symbol.id] ∧
        a'.text = pair.property.symbol.name := by
  obtain ⟨hmem, hmem'⟩ := hleads.mem hr
  obtain ⟨document, tree, tree', rfl, hrespelled⟩ := hrs r hr
  refine ⟨(h.stands.exists_reference h.wellFormed h.parsed hmem hleaf.1 hreplaced).1,
    h.stands.bound_renamed h.wellFormed h.parsed h.wellFormed' h.renames hmem hmem' hrespelled
      hleaf.1 hreplaced hleaf.2 h.joint, ?_⟩
  show a'.token.text = _
  rw [hleaf.2.2, PlacedToken.respelled, if_pos (List.contains_iff_mem.mpr hreplaced)]

include hfield hfield' in
/-- After the rename, only names in the declarator mean the field. -/
theorem fieldIsOwn : pair'.FieldIsOwn p' f'.node := by
  intro document tree' htree' k' hk' hmeans
  obtain ⟨hid, hindex⟩ := h.field_eq hfield hfield'
  have htree := htree'
  rw [← hleads.after] at htree
  obtain ⟨r, hr, heq⟩ := List.mem_map.mp htree
  obtain ⟨rfl, rfl⟩ := Prod.mk.inj heq
  obtain ⟨hmem, _⟩ := hleads.mem hr
  have hparallel := h.parallel hleads hrs hr
  obtain ⟨k, hk, hleaf, habove⟩ := exists_of_forall₂ hparallel.tokens.flip hk'
  rw [hid] at hmeans
  have hfieldData := h.joint.isField
  by_cases hreplaced : r.replaced k.leaf
  · -- The name has been replaced, so it means the property.
    exfalso
    rw [(h.bound_of_replaced hleads hrs hr hleaf hreplaced).2.1] at hmeans
    have hkind := hfieldData.symm.trans (List.mem_singleton.mp hmeans ▸ h.joint.isProperty)
    have hkinds := congrArg SymbolData.kind (Option.some.inj hkind)
    rw [h.joint.kinds.1, h.joint.kinds.2] at hkinds
    cases hkinds
  · obtain ⟨i, hi, key, hkeyed, hkeyed'⟩ :=
      (hleads.versions.same r hr _ _ hleaf hreplaced).2 _ hmeans
    -- What has the key of the field is the field.
    obtain rfl : i = pair.field.symbol.id := by
      obtain ⟨field, _, hjoint, hsame, _⟩ := h.joint.counterparts h.counterparts
      have hkey : key = pair.field.symbol.data.key := by
        refine (hkeyed'.eq ⟨field, ?_, rfl⟩).trans (hsame.same (.inl trivial)).1
        exact (SymbolTable.data?_build_iff (by rw [hjoint.kinds.1]; decide)).mpr hjoint.isField
      refine (SymbolTable.linked_build h.parsed.conforms).keys.eq_of_keyed hkeyed ⟨_, ?_, hkey.symm⟩
      exact (SymbolTable.data?_build_iff (by rw [h.joint.kinds.1]; decide)).mpr hfieldData
    obtain hspan | ⟨hdocument, hin⟩ :=
      h.stands.mem_renamedSpans h.wellFormed h.parsed h.joint hfield hmem hk hi
    · refine absurd ?_ hreplaced
      obtain ⟨document, tree, tree', rfl, _⟩ := hrs r hr
      exact hspan
    · refine ⟨hdocument.trans h.documents_eq.1.symm, ?_⟩
      have htree := (h.compiled.1.tree? (h.stands.documents.symm ▸ hmem))
      have htree' := (h.compiled.2.1.tree? (h.renamed.stands.documents.symm ▸ htree'))
      have hpresent := hfield'.present
      rw [hdocument] at htree htree'
      rw [h.documents_eq.1] at hpresent
      have hfocus : f ∈ r.tree.nodes :=
        Option.some.inj (htree.symm.trans hfield.present) ▸ hfield.focus
      have hfocus' : f' ∈ r.tree'.nodes :=
        Option.some.inj (htree'.symm.trans hpresent) ▸ hfield'.focus
      refine (Tree.isIn_token_iff hfocus' hk').mp ?_
      rw [TokenFocus.isIn, hindex, habove.any_index]
      exact (Tree.isIn_token_iff hfocus hk).mpr hin

end Pair.Advances

end AutoProperty
