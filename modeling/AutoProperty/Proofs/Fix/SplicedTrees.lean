import AutoProperty.Proofs.Fix.SplicedShapes
import AutoProperty.Proofs.Syntax.BlankLines
import AutoProperty.Proofs.Syntax.Halves

/-! # Trees after the splice

The edits of the splice take a field out of a tree and make a property automatic. What they make
of the tree, tidied or not, has a ledger of what is kept.
-/

namespace AutoProperty

/-! ## Initial values -/

theorem mem_of_takeSemicolon {es : List Element} {e : Element} (h : e ∈ (takeSemicolon es).2) :
    e ∈ es := by
  unfold takeSemicolon at h
  split at h
  · split at h
    · exact List.mem_cons_of_mem _ h
    · exact h
  · exact h

/-- Only accessor lists come in for bodies. -/
theorem mem_of_stripBodies (before? : Option Element) (es : List Element) {e : Element}
    (h : e ∈ stripBodies before? es) : e ∈ es ∨ e.kind = .accessorList := by
  fun_induction stripBodies before? es with
  | case1 => exact .inl h
  | case2 before? children es list ih =>
    have hlist : list = .node .accessorList (children.map stripListElement) := by simp [list]
    obtain rfl | h := List.mem_cons.mp h
    · exact .inr rfl
    · rw [hlist] at ih
      exact (ih h).imp_left (List.mem_cons_of_mem _)
  | case3 before? first es hnot harrow _ list ih =>
    obtain rfl | h := List.mem_cons.mp h
    · exact .inr rfl
    · exact (ih h).imp_left fun hmem => List.mem_cons_of_mem _ (mem_of_takeSemicolon hmem)
  | case4 before? first es hnot harrow ih =>
    obtain rfl | h := List.mem_cons.mp h
    · exact .inl List.mem_cons_self
    · exact (ih h).imp_left (List.mem_cons_of_mem _)

theorem Token.core_withLeading (trivia : List Trivia) (t : Token) :
    (t.withLeading trivia).core = t.core :=
  rfl

theorem Token.core_withTrailing (trivia : List Trivia) (t : Token) :
    (t.withTrailing trivia).core = t.core :=
  rfl

theorem Element.core_mapLastToken {f : Token → Token} (hf : ∀ t, (f t).core = t.core) (n : Node) :
    (n.mapLastToken f).element.map Token.core = n.element.map Token.core := by
  rw [Node.mapLastToken, Node.element, Node.element, map_node, map_node]
  cases h : mapLastOf? f n.children with
  | none => rfl
  | some children => rw [Option.getD_some, core_mapLastOf? hf n.children h]

theorem Element.core_mapFirstToken {f : Token → Token} (hf : ∀ t, (f t).core = t.core) (n : Node) :
    (n.mapFirstToken f).element.map Token.core = n.element.map Token.core := by
  rw [Node.mapFirstToken, Node.element, Node.element, map_node, map_node]
  cases h : mapFirstOf? f n.children with
  | none => rfl
  | some children => rw [Option.getD_some, core_mapFirstOf? hf n.children h]

/-- An initial value of the automatic property is its own or one that is given to it. -/
theorem Node.mem_of_autoProperty? {n new : Node} {initializer? : Option Node}
    (h : n.autoProperty? initializer? = some new) {e : Element} (he : e ∈ new.children)
    (hkind : e.kind = .equalsValueClause) :
    e ∈ n.children ∨ ∃ expression, initializer? = some expression ∧
      e = initializerClause expression := by
  have hstripped (he : e ∈ stripBodies none n.children) : e ∈ n.children :=
    (mem_of_stripBodies none n.children he).resolve_right fun hlist => by
      rw [hlist] at hkind; cases hkind
  rw [autoProperty?] at h
  split at h
  swap
  · cases h
  cases initializer? with
  | none =>
    cases h
    exact .inl (hstripped he)
  | some expression =>
    dsimp only at h
    split at h
    · cases h
      exact .inl (hstripped he)
    cases h
    have he : e ∈ withInitializer expression (stripBodies none n.children) := he
    unfold withInitializer at he
    split at he
    swap
    · exact .inl (hstripped he)
    obtain he | he := List.mem_append.mp he
    · exact .inl (hstripped (List.dropLast_subset _ he))
    simp only [List.mem_cons, List.not_mem_nil, or_false] at he
    obtain rfl | rfl | rfl := he
    · cases hkind
    · exact .inr ⟨expression, rfl, rfl⟩
    · cases hkind

/-- What a field starts with holds no statements. -/
theorem exists_undeclaring_initializerClause {tree : Tree} (hconforms : tree.root.element.Conforms)
    {f : Focus} (hf : f ∈ tree.nodes) {expression : Node}
    (h : initializerOf? f.node = some expression) :
    ∃ p, p.element = initializerClause expression ∧ Placed.Undeclaring [p] := by
  obtain ⟨clause, hclause, value, hvalue, heq⟩ : ∃ clause,
    f.node.child? .equalsValueClause = some clause ∧
      ∃ value, clause.childNodes.head? = some value ∧ value.node = expression := by
    rw [initializerOf?] at h
    cases hclause : f.node.child? .equalsValueClause with
    | none => rw [hclause] at h; cases h
    | some clause =>
      rw [hclause] at h
      cases hvalue : clause.childNodes.head? with
      | none => simp [hvalue] at h
      | some value => exact ⟨clause, rfl, value, hvalue, by simpa [hvalue] using h⟩
  obtain ⟨hmem, hclauseKind⟩ := PlacedNode.child?_some hclause
  have hsited := Tree.sited_of_mem hconforms (Tree.child_mem hf hmem)
  have hnone : Placed.Undeclaring [value.placed] :=
    (hsited.undeclaring
      (.inr (by rw [show clause.placed.kind = .equalsValueClause from hclauseKind]; rfl))).child
      (PlacedNode.mem_childNodes.mp (List.mem_of_head? hvalue))
  have hp := Element.element_place .start (initializerClause expression)
  obtain ⟨n, hn, hkind, hchildren⟩ := Placed.exists_of_node hp
  refine ⟨_, hp, hn ▸ .node (by rw [hkind]; decide) fun q hq => ?_⟩
  have hmem : q.element ∈ Placed.elementsOf n.children := by
    rw [Placed.elementsOf_eq_map]
    exact List.mem_map_of_mem hq
  rw [hchildren] at hmem
  simp only [List.mem_cons, List.not_mem_nil, or_false] at hmem
  obtain htoken | hexpression := hmem
  · obtain ⟨a, rfl, _⟩ := Placed.exists_of_token htoken
    exact fun m hm => absurd hm List.not_mem_nil
  · refine hnone.of_alike (Placed.alike_of_core _ _ ?_)
    rw [hexpression, Element.core_mapLastToken (Token.core_withTrailing []),
      Element.core_mapFirstToken (Token.core_withLeading []), ← heq]
    rfl

/-! ## Edits -/

namespace Cut

variable {cut : Cut} {tree : Tree}

/-- The edits take the field out and make the property automatic. -/
structure Edits (cut : Cut) (tree : Tree) (edits : List Edit) : Prop where
  edit {edit : Edit} : edit ∈ edits →
    (∃ m keep, cut.removed? = some m ∧ edit = .remove (tree.nodeId m) keep) ∨
    ∃ n new, cut.property? = some n ∧ edit = .replace (tree.nodeId n) new ∧ ∀ m,
    Placed.Becomes cut.change m [n.placed] [new.element]
  removed {m : PlacedNode} : cut.removed? = some m → ∃ edit ∈ edits, edit.node = tree.nodeId m
  property {n : PlacedNode} : cut.property? = some n → ∃ edit ∈ edits, edit.node = tree.nodeId n

theorem Stands.eq_removed (h : cut.Stands tree) {m : PlacedNode} (hm : cut.removed? = some m)
    {f : Focus} (hf : f ∈ tree.nodes) (hnode : tree.nodeId m = tree.nodeId f.node) :
    m = f.node := by
  obtain ⟨above, hmem, _⟩ := h.removed hm
  exact congrArg Focus.node (Tree.focus_eq hmem hf (Tree.nodeId_inj.mp hnode))

theorem Stands.eq_property (h : cut.Stands tree) {n : PlacedNode} (hn : cut.property? = some n)
    {f : Focus} (hf : f ∈ tree.nodes) (hnode : tree.nodeId n = tree.nodeId f.node) :
    n = f.node := by
  obtain ⟨above, hmem, _⟩ := h.property hn
  exact congrArg Focus.node (Tree.focus_eq hmem hf (Tree.nodeId_inj.mp hnode))

/-- The plan of such edits does what the cut allows. -/
theorem Stands.plans (h : cut.Stands tree) {edits : List Edit} (hedits : cut.Edits tree edits)
    {foci : List Focus} (hfoci : List.Forall₂ (Edit.Targets tree) edits foci) :
    cut.Plans tree (EditPlan.ofFoci edits foci) := by
  have hfollows :=
    EditPlan.follows_ofFoci
      (show List.Forall₂ (Edit.Targets tree) (EditBatch.mk tree.id edits).edits foci from hfoci)
  have hedited {n : PlacedNode} (hn : ∃ edit ∈ edits, edit.node = tree.nodeId n) :
      (EditPlan.ofFoci edits foci).edit? n.info ≠ none := by
    obtain ⟨edit, hedit, hnode⟩ := hn
    rw [hfollows.edit n, EditBatch.editOf?, ← Option.isSome_iff_ne_none, List.find?_isSome]
    exact ⟨edit, hedit, by simp [hnode, Tree.nodeId]⟩
  refine ⟨fun {f edit} hf hedit => ?_, fun hm => hedited (hedits.removed hm),
    fun hn => hedited (hedits.property hn), fun {g} hg hdrops => ?_⟩
  · rw [hfollows.edit] at hedit
    obtain ⟨_, _, hnode, _⟩ := EditBatch.mem_of_editOf? hfoci hf hedit
    obtain ⟨m, keep, hm, rfl⟩ | ⟨n, new, hn, rfl, hbecomes⟩ :=
      hedits.edit (List.mem_of_find?_eq_some hedit)
    · obtain rfl := h.eq_removed hm hf hnode
      exact .inl ⟨⟨_, _, rfl⟩, hm⟩
    · obtain rfl := h.eq_property hn hf hnode
      exact .inr ⟨_, _, rfl, hn, hbecomes⟩
  · rw [hfollows.drops] at hdrops
    refine ⟨EditBatch.kind_of_dropsComma hg hdrops, ?_⟩
    obtain ⟨edit, hedit, hdrops⟩ := List.any_eq_true.mp hdrops
    obtain ⟨hremoval, hcomma⟩ := Bool.and_eq_true_iff.mp hdrops
    obtain ⟨comma, hcomma, hindex⟩ := (Option.any_eq_true ..).mp hcomma
    obtain ⟨f, hf, hcomma⟩ := Option.bind_eq_some_iff.mp hcomma
    obtain ⟨hfocus, hnode⟩ := Tree.node?_some hf
    obtain ⟨parent, hparent, hchild, _⟩ := separator?_some hcomma
    obtain ⟨outer, habove⟩ := List.head?_eq_some_iff.mp hparent
    have hparent :=
      Tree.mem_nodes_of_above hfocus (show f.above = [] ++ parent :: outer from habove)
    have heq := Tree.eq_of_index (Tree.tokenFocus_mem hparent hchild) hg (beq_iff_eq.mp hindex)
    obtain ⟨m, keep, hm, rfl⟩ | ⟨n, new, _, rfl, _⟩ := hedits.edit hedit
    · obtain rfl := h.eq_removed hm hfocus hnode
      refine ⟨_, hm, ?_⟩
      rw [← heq, ← habove]
      exact hfocus
    · cases hremoval

/-- What a plan makes of a tree has a ledger. -/
theorem Stands.exists_ledger_of_plan (h : cut.Stands tree) (hconforms : tree.root.element.Conforms)
    (hroot : tree.root.kind = .compilationUnit) {plan : EditPlan} (hplan : cut.Plans tree plan)
    {tree' : Tree}
    (hcore : Element.mapAll Token.core tree'.root.children = Element.mapAll Token.core
      (plan.rebuildAll [] tree.top.children).1) :
    ∃ x : Ledger,
      x.Records PlacedToken.SameCore cut.change tree.top tree.top.children tree'.top.children := by
  have hbecomes :=
    (h.performs hconforms hplan).becomes_rebuildAll tree.top (List.cons_ne_nil tree.top [])
      (List.forall_mem_singleton.mpr (by rw [Tree.kind_top, hroot]; rfl)) [] tree.top.children
      (tree.sited hconforms)
  refine Ledger.exists_records (hbecomes tree'.top.children ?_)
  rw [Tree.top_children, Element.elementsOf_placeAll, hcore]

/-- What edits make of a tree, tidied or not, has a ledger. -/
theorem Stands.exists_ledger (h : cut.Stands tree) (hconforms : tree.root.element.Conforms)
    (hroot : tree.root.kind = .compilationUnit) {edits : List Edit} (hedits : cut.Edits tree edits)
    {options : FixOptions} {root : Node} (hedited : options.edited tree edits = .ok root)
    (id : TreeId) :
    ∃ x : Ledger,
      x.Records PlacedToken.SameCore cut.change tree.top tree.top.children
        (Tree.ofRoot id root).top.children := by
  obtain ⟨made, hmade, rfl⟩ : ∃ made, EditBatch.apply ⟨tree.id, edits⟩ tree = .ok made ∧
      (if options.format then made.collapseElastic else made) = root := by
    rw [FixOptions.edited] at hedited
    cases happly : EditBatch.apply ⟨tree.id, edits⟩ tree with
    | error e =>
      rw [happly] at hedited
      cases hedited
    | ok made =>
      rw [happly] at hedited
      exact ⟨made, rfl, Except.ok.inj hedited⟩
  obtain ⟨foci, hfoci, _, rfl⟩ := EditBatch.exists_of_apply hmade
  have hcore (made : Node) : Element.mapAll Token.core (if options.format then made.collapseElastic
      else made).children =
      Element.mapAll Token.core made.children := by
    split
    · exact Element.core_collapseAll none _
    · rfl
  exact h.exists_ledger_of_plan hconforms hroot (h.plans hedits hfoci) (hcore _)

/-- A document in which nothing is done has a ledger, too. -/
theorem exists_ledger_self (hconforms : tree.root.element.Conforms)
    (hroot : tree.root.kind = .compilationUnit) :
    ∃ x : Ledger,
      x.Records PlacedToken.SameCore (Cut.mk none none).change tree.top tree.top.children
        tree.top.children := by
  have hstands : (Cut.mk none none).Stands tree := ⟨nofun, nofun, nofun⟩
  have hedits : (Cut.mk none none).Edits tree [] := ⟨nofun, nofun, nofun⟩
  refine hstands.exists_ledger_of_plan hconforms hroot (hstands.plans hedits .nil) ?_
  have hspares : (EditPlan.ofFoci [] []).Spares tree.top.children :=
    ⟨fun _ _ => rfl, fun _ _ => rfl⟩
  rw [hspares.rebuildAll, Tree.top_children, Element.elementsOf_placeAll]
  cases hfirst : Element.mapFirstOf? (Token.prepend []) tree.root.children with
  | none => rfl
  | some es => rw [Element.mapFirstOf?_prepend_nil _ _ hfirst]

end Cut

end AutoProperty
