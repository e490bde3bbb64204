import AutoProperty.Fix.Splice
import AutoProperty.Proofs.Symbol.Declared
import AutoProperty.Proofs.Syntax.Rebuilding
import AutoProperty.Proofs.Syntax.Sites

/-! # Fields and properties to splice

A field stands in its declaration and that in a type, and a property stands in a type, so
neither of them lies within the other. Both edits can be made at once, and a property has
something to make automatic.
-/

namespace AutoProperty

/-! ## Nodes that lie apart -/

section Apart

variable {tree : Tree} {f g : Focus}

/-- A node is not around itself. -/
theorem Tree.index_ne_of_above_self (hf : f ∈ tree.nodes) {n : PlacedNode} (hn : n ∈ f.above) :
    n.index ≠ f.node.index := by
  intro heq
  obtain ⟨before, after, habove⟩ := List.append_of_mem hn
  obtain rfl := focus_eq (mem_nodes_of_above hf habove) hf heq
  have hlength := congrArg List.length habove
  simp only [List.length_append, List.length_cons] at hlength
  omega

/-- A node other than the root is not around nodes that only have nodes of other kinds around
them. -/
theorem Tree.index_ne_of_above (hf : f ∈ tree.nodes) (hg : g ∈ tree.nodes) (hinside : g.above ≠ [])
    (hkinds : ∀ n ∈ f.above.dropLast, n.kind ≠ g.node.kind) {n : PlacedNode} (hn : n ∈ f.above) :
    n.index ≠ g.node.index := by
  intro heq
  obtain ⟨before, after, habove⟩ := List.append_of_mem hn
  obtain rfl := focus_eq (mem_nodes_of_above hf habove) hg heq
  refine hkinds n ?_ rfl
  rw [habove, List.dropLast_append_of_ne_nil (List.cons_ne_nil _ _),
    List.dropLast_cons_of_ne_nil hinside]
  exact List.mem_append_right _ List.mem_cons_self

/-- The node can be taken out with a field: it is a declarator or a whole field declaration, and
stands in no property. -/
structure Focus.IsRemovable (f : Focus) : Prop where
  inside : f.above ≠ []
  kind : f.node.kind = .variableDeclarator ∨ f.node.kind = .fieldDeclaration
  around : ∀ n ∈ f.above.dropLast, n.kind ≠ .propertyDeclaration

theorem AreScopes.ne_property {above : List PlacedNode} (h : AreScopes above) :
    ∀ n ∈ above.dropLast, n.kind ≠ .propertyDeclaration := by
  intro n hn hkind
  have hscope := h.2 n hn
  rw [hkind] at hscope
  cases hscope

/-- A field is never the root, so it can be removed. -/
theorem Focus.IsField.removable (h : f.IsField) : f.IsRemovable := by
  obtain ⟨hkind, declaration, field, scopes, habove, hdeclaration, hfield, hscopes⟩ := h
  refine ⟨?_, .inl hkind, ?_⟩
  · rw [habove]
    exact List.cons_ne_nil _ _
  · rw [habove, List.dropLast_cons_of_ne_nil (List.cons_ne_nil _ _),
      List.dropLast_cons_of_ne_nil hscopes.1]
    refine List.forall_mem_cons.mpr ⟨?_, List.forall_mem_cons.mpr ⟨?_, hscopes.ne_property⟩⟩
    · rw [hdeclaration]
      decide
    · rw [hfield]
      decide

/-- What is taken out with a field and a property lie apart. -/
theorem Tree.apart (hf : f ∈ tree.nodes) (hg : g ∈ tree.nodes) (hremovable : f.IsRemovable)
    (hproperty : g.IsProperty) :
    ([f, g].map (·.node.index)).Nodup ∧ ∀ h ∈ [f, g], ∀ n ∈ h.above,
      n.index ∉ [f, g].map (·.node.index) := by
  obtain ⟨hkind, hscopes⟩ := hproperty
  have hnotScope : ¬f.node.kind.isScope := by
    obtain h | h := hremovable.kind <;> rw [h] <;> exact Bool.false_ne_true
  constructor
  · simp only [List.map_cons, List.map_nil, List.nodup_cons, List.mem_singleton, List.not_mem_nil,
      not_false_eq_true, List.nodup_nil, and_true]
    intro heq
    obtain rfl := focus_eq hf hg heq
    obtain h | h := hremovable.kind <;> rw [h] at hkind <;> cases hkind
  · have hf' : ∀ n ∈ f.above.dropLast, n.kind ≠ g.node.kind := hkind ▸ hremovable.around
    have hg' : ∀ n ∈ g.above.dropLast, n.kind ≠ f.node.kind :=
      fun n hn heq => hnotScope (heq ▸ hscopes.2 n hn)
    simp only [List.mem_cons, List.map_cons, List.map_nil, List.not_mem_nil, or_false, not_or,
      forall_eq_or_imp, forall_eq]
    exact ⟨fun n hn => ⟨index_ne_of_above_self hf hn, index_ne_of_above hf hg hscopes.1 hf' hn⟩,
      fun n hn => ⟨index_ne_of_above hg hf hremovable.inside hg' hn, index_ne_of_above_self hg hn⟩⟩

end Apart

/-! ## What is removed and what is put in its place -/

section Plans

variable {tree : Tree} {t : Target} {f : Focus}

/-- A field goes away with its declaration if that declares nothing else. -/
theorem FieldRemoval.plan_of_above (hf : f ∈ tree.nodes) (hkind : f.node.kind = .variableDeclarator)
    (hnode : t.node = tree.nodeId f.node) {declaration field : PlacedNode}
    {scopes : List PlacedNode} (habove : f.above = declaration :: field :: scopes)
    (hdeclaration : declaration.kind = .variableDeclaration)
    (hfield : field.kind = .fieldDeclaration) :
    FieldRemoval.plan tree t = .ok ⟨if (declaration.childrenOf .variableDeclarator).length ≤ 1 then
      tree.nodeId field else t.node, initializerOf? f.node⟩ := by
  rw [plan, hnode, Tree.node?_nodeId hf]
  simp only [Option.filter_some, hkind, habove, List.getElem?_cons_zero, List.getElem?_cons_succ,
    hdeclaration, hfield, beq_self_eq_true, if_true]
  rfl

/-- What goes away is one of the nodes of the tree. -/
theorem FieldRemoval.plan_eq (hf : f ∈ tree.nodes) (hfield : f.IsField)
    (hnode : t.node = tree.nodeId f.node) :
    ∃ m ∈ tree.nodes,
      m.IsRemovable ∧
      FieldRemoval.plan tree t = .ok ⟨tree.nodeId m.node, initializerOf? f.node⟩ := by
  have hremovable := hfield.removable
  obtain ⟨hkind, declaration, field, scopes, habove, hdeclaration, hfield, hscopes⟩ := hfield
  have hwhole :=
    Tree.mem_nodes_of_above hf (show f.above = [declaration] ++ field :: scopes from habove)
  rw [plan_of_above hf hkind hnode habove hdeclaration hfield]
  split
  next => exact ⟨⟨field, scopes⟩, hwhole, ⟨hscopes.1, .inr hfield, hscopes.ne_property⟩, rfl⟩
  next => exact ⟨f, hf, hremovable, by rw [hnode]⟩

/-- A property has accessors or an expression body. -/
theorem hasBody_of_conforms {n : PlacedNode} (h : n.placed.element.Conforms)
    (hkind : n.kind = .propertyDeclaration) : n.node.hasBody := by
  have hfit : ChildrenFit .propertyDeclaration (n.node.children.map Element.kind) := hkind ▸ h.fit
  obtain ⟨modifiers, type, body, _, _, hbody, hkinds⟩ := hfit
  rw [Node.hasBody, Bool.and_eq_true]
  constructor
  · have hmem : ∃ kind ∈ n.node.children.map Element.kind, kind = .accessorList ∨
        kind = .arrowExpressionClause := by
      rw [hkinds]
      obtain rfl | rfl | rfl := hbody
      · exact ⟨.accessorList, by simp, .inl rfl⟩
      · exact ⟨.accessorList, by simp, .inl rfl⟩
      · exact ⟨.arrowExpressionClause, by simp, .inr rfl⟩
    obtain ⟨_, hmem, hkind⟩ := hmem
    obtain ⟨e, he, rfl⟩ := List.mem_map.mp hmem
    exact List.any_eq_true.mpr ⟨e, he, by simpa using hkind⟩
  · refine List.all_eq_true.mpr fun e he => ?_
    by_cases hlist : e.kind = .accessorList
    · obtain ⟨children, heq⟩ := (h.child he).eq_node (by rw [hlist]; rfl)
      rw [heq]
      simp [Element.node?]
    · simp [hlist]

/-- A property can be made automatic. -/
theorem propertyReplacement_eq (hf : f ∈ tree.nodes) (hkind : f.node.kind = .propertyDeclaration)
    (hconforms : tree.root.element.Conforms) (hnode : t.node = tree.nodeId f.node)
    (initializer? : Option Node) :
    ∃ replacement, propertyReplacement tree t initializer? = .ok replacement := by
  have hauto : ∃ replacement, f.node.node.autoProperty? initializer? = some replacement := by
    rw [Node.autoProperty?, if_pos (hasBody_of_conforms (Tree.conforms_of_mem hconforms hf) hkind)]
    cases initializer? with
    | none => exact ⟨_, rfl⟩
    | some expression =>
      dsimp only
      split <;> exact ⟨_, rfl⟩
  obtain ⟨replacement, hauto⟩ := hauto
  refine ⟨replacement, ?_⟩
  rw [propertyReplacement, hnode, Tree.node?_nodeId hf]
  simp only [Option.filter_some, hkind, beq_self_eq_true, if_true, hauto]
  rfl

/-- Edits that fit make a new root. -/
theorem FixOptions.edited_eq (options : FixOptions) (edits : List Edit) {foci : List Focus}
    (h : List.Forall₂ (Edit.Targets tree) edits foci) (hnodup : (foci.map (·.node.index)).Nodup)
    (hapart : ∀ f ∈ foci, ∀ n ∈ f.above, n.index ∉ foci.map (·.node.index)) :
    ∃ root, options.edited tree edits = .ok root := by
  rw [edited, EditBatch.apply_eq h hnodup hapart]
  exact ⟨_, rfl⟩

theorem FixOptions.edited_one (options : FixOptions) (hf : f ∈ tree.nodes) (hinside : f.above ≠ [])
    (edit : Edit) (hnode : edit.node = tree.nodeId f.node) :
    ∃ root, options.edited tree [edit] = .ok root := by
  refine options.edited_eq [edit] (.cons ⟨hf, hnode, hinside⟩ .nil) (List.nodup_singleton _) ?_
  simp only [List.mem_singleton, List.map_cons, List.map_nil, forall_eq]
  exact fun n hn => Tree.index_ne_of_above_self hf hn

end Plans

end AutoProperty
