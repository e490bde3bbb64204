import AutoProperty.Proofs.Syntax.Leaves

/-! # Nodes and tokens in context

Where the children of a node lie among all nodes and tokens of a tree. Nodes are numbered in
preorder without gaps, so a number means one node only.
-/

namespace AutoProperty

namespace Placed

variable {above : List PlacedNode} {ps : List Placed}

theorem fociOf_append (above : List PlacedNode) (ps qs : List Placed) :
    fociOf above (ps ++ qs) = fociOf above ps ++ fociOf above qs := by
  induction ps with
  | nil => simp [fociOf]
  | cons p ps ih => simp [fociOf, ih]

theorem foci_subset {p : Placed} (h : p ∈ ps) : p.foci above ⊆ fociOf above ps := by
  obtain ⟨before, after, rfl⟩ := List.append_of_mem h
  rw [fociOf_append]
  exact fun f hf => List.mem_append_right _ (List.mem_append_left _ hf)

theorem tokenFoci_subset {p : Placed} (h : p ∈ ps) : p.tokenFoci above ⊆ tokenFociOf above ps := by
  obtain ⟨before, after, rfl⟩ := List.append_of_mem h
  rw [tokenFociOf_append]
  exact fun f hf => List.mem_append_right _ (List.mem_append_left _ hf)

mutual

/-- The tokens of a node are tokens of all that the node stands in. -/
theorem tokenFoci_of_mem_foci {above : List PlacedNode} {f : Focus} (p : Placed)
    (h : f ∈ p.foci above) :
    tokenFociOf (f.node :: f.above) f.node.children ⊆ p.tokenFoci above := by
  cases p with
  | token t => exact absurd h List.not_mem_nil
  | node info children =>
    rw [tokenFoci]
    obtain rfl | h := List.mem_cons.mp h
    · exact fun _ hg => hg
    · exact tokenFociOf_of_mem_fociOf children h

theorem tokenFociOf_of_mem_fociOf {above : List PlacedNode} {f : Focus} (ps : List Placed)
    (h : f ∈ fociOf above ps) :
    tokenFociOf (f.node :: f.above) f.node.children ⊆ tokenFociOf above ps := by
  cases ps with
  | nil => exact absurd h List.not_mem_nil
  | cons p ps =>
    obtain h | h := List.mem_append.mp h
    · exact fun _ hg => List.mem_append_left _ (tokenFoci_of_mem_foci p h hg)
    · exact fun _ hg => List.mem_append_right _ (tokenFociOf_of_mem_fociOf ps h hg)

end

mutual

/-- The nodes in a node are nodes of all that the node stands in. -/
theorem foci_of_mem_foci {above : List PlacedNode} {f : Focus} (p : Placed) (h : f ∈ p.foci above) :
    fociOf (f.node :: f.above) f.node.children ⊆ p.foci above := by
  cases p with
  | token t => exact absurd h List.not_mem_nil
  | node info children =>
    rw [foci]
    obtain rfl | h := List.mem_cons.mp h
    · exact List.subset_cons_self _ _
    · exact List.subset_cons_of_subset _ (fociOf_of_mem_fociOf children h)

theorem fociOf_of_mem_fociOf {above : List PlacedNode} {f : Focus} (ps : List Placed)
    (h : f ∈ fociOf above ps) : fociOf (f.node :: f.above) f.node.children ⊆ fociOf above ps := by
  cases ps with
  | nil => exact absurd h List.not_mem_nil
  | cons p ps =>
    obtain h | h := List.mem_append.mp h
    · exact fun _ hg => List.mem_append_left _ (foci_of_mem_foci p h hg)
    · exact fun _ hg => List.mem_append_right _ (fociOf_of_mem_fociOf ps h hg)

end

mutual

/-- What stands around a node in an element is a node of the element itself, or stands around
it, too. -/
theorem mem_foci_of_above {above : List PlacedNode} {f : Focus} (p : Placed) (h : f ∈ p.foci above)
    {n : PlacedNode} {before after : List PlacedNode} (habove : f.above = before ++ n :: after) :
    ⟨n, after⟩ ∈ p.foci above ∨ ∃ inner, above = inner ++ n :: after := by
  cases p with
  | token t => exact absurd h List.not_mem_nil
  | node info children =>
    obtain rfl | h := List.mem_cons.mp h
    · exact .inr ⟨before, habove⟩
    · obtain hmem | ⟨inner, hinner⟩ := mem_fociOf_of_above children h habove
      · exact .inl (List.mem_cons_of_mem _ hmem)
      · cases inner with
        | nil =>
          obtain ⟨rfl, rfl⟩ := List.cons.inj hinner
          exact .inl List.mem_cons_self
        | cons _ inner => exact .inr ⟨inner, (List.cons.inj hinner).2⟩

theorem mem_fociOf_of_above {above : List PlacedNode} {f : Focus} (ps : List Placed)
    (h : f ∈ fociOf above ps) {n : PlacedNode} {before after : List PlacedNode}
    (habove : f.above = before ++ n :: after) :
    ⟨n, after⟩ ∈ fociOf above ps ∨ ∃ inner, above = inner ++ n :: after := by
  cases ps with
  | nil => exact absurd h List.not_mem_nil
  | cons p ps =>
    obtain h | h := List.mem_append.mp h
    · exact (mem_foci_of_above p h habove).imp_left (List.mem_append_left _)
    · exact (mem_fociOf_of_above ps h habove).imp_left (List.mem_append_right _)

end

mutual

/-- What stands around a token in an element is a node of the element, or stands around it, too. -/
theorem mem_foci_of_above_token {above : List PlacedNode} {f : TokenFocus} (p : Placed)
    (h : f ∈ p.tokenFoci above) {n : PlacedNode} {before after : List PlacedNode}
    (habove : f.above = before ++ n :: after) :
    ⟨n, after⟩ ∈ p.foci above ∨ ∃ inner, above = inner ++ n :: after := by
  cases p with
  | token t =>
    obtain rfl := List.mem_singleton.mp h
    exact .inr ⟨before, habove⟩
  | node info children =>
    obtain hmem | ⟨inner, hinner⟩ := mem_fociOf_of_above_token children h habove
    · exact .inl (List.mem_cons_of_mem _ hmem)
    · cases inner with
      | nil =>
        obtain ⟨rfl, rfl⟩ := List.cons.inj hinner
        exact .inl List.mem_cons_self
      | cons _ inner => exact .inr ⟨inner, (List.cons.inj hinner).2⟩

theorem mem_fociOf_of_above_token {above : List PlacedNode} {f : TokenFocus} (ps : List Placed)
    (h : f ∈ tokenFociOf above ps) {n : PlacedNode} {before after : List PlacedNode}
    (habove : f.above = before ++ n :: after) :
    ⟨n, after⟩ ∈ fociOf above ps ∨ ∃ inner, above = inner ++ n :: after := by
  cases ps with
  | nil => exact absurd h List.not_mem_nil
  | cons p ps =>
    obtain h | h := List.mem_append.mp h
    · exact (mem_foci_of_above_token p h habove).imp_left (List.mem_append_left _)
    · exact (mem_fociOf_of_above_token ps h habove).imp_left (List.mem_append_right _)

end

end Placed

namespace Placed

mutual

/-- What is around an element is around its tokens. -/
theorem exists_inner {above : List PlacedNode} {g : TokenFocus} (p : Placed)
    (hg : g ∈ p.tokenFoci above) : ∃ inner, g.above = inner ++ above := by
  cases p with
  | token t =>
    rw [List.mem_singleton.mp hg]
    exact ⟨[], rfl⟩
  | node info children =>
    obtain ⟨inner, hinner⟩ := exists_innerOf children hg
    exact ⟨inner ++ [⟨info, children⟩], by rw [hinner, List.append_assoc, List.singleton_append]⟩

theorem exists_innerOf {above : List PlacedNode} {g : TokenFocus} (ps : List Placed)
    (hg : g ∈ tokenFociOf above ps) : ∃ inner, g.above = inner ++ above := by
  cases ps with
  | nil => exact absurd hg List.not_mem_nil
  | cons p ps =>
    obtain hg | hg := List.mem_append.mp hg
    · exact exists_inner p hg
    · exact exists_innerOf ps hg

end

end Placed

namespace Placed

mutual

/-- The nodes of an element are those in its foci. -/
theorem node_foci (above : List PlacedNode) (p : Placed) :
    (p.foci above).map Focus.node = p.nodes := by
  cases p with
  | token t => rfl
  | node info children =>
    rw [foci, nodes, List.map_cons, node_fociOf (⟨info, children⟩ :: above) children]

theorem node_fociOf (above : List PlacedNode) (ps : List Placed) :
    (fociOf above ps).map Focus.node = nodesOf ps := by
  cases ps with
  | nil => rfl
  | cons p ps => rw [fociOf, nodesOf, List.map_append, node_foci above p, node_fociOf above ps]

end

end Placed

theorem Placed.nodesOf_sublist_append (ps qs : List Placed) :
    (nodesOf qs).Sublist (nodesOf (ps ++ qs)) := by
  induction ps with
  | nil => exact .refl _
  | cons p ps ih => exact ih.trans (List.sublist_append_right _ _)

namespace PlacedNode

variable {n child : PlacedNode} {above : List PlacedNode}

/-- A child that is a node is placed among the children. -/
theorem mem_filterMap_node? {ps : List Placed} : n ∈ ps.filterMap Placed.node? ↔ n.placed ∈ ps := by
  rw [List.mem_filterMap]
  constructor
  · rintro ⟨p, hp, hnode⟩
    cases p with
    | token t => cases hnode
    | node info children =>
      cases hnode
      exact hp
  · exact fun h => ⟨_, h, rfl⟩

theorem mem_childNodes : child ∈ n.childNodes ↔ child.placed ∈ n.children :=
  mem_filterMap_node?

/-- A child that is a token is placed among the children. -/
theorem mem_childTokens {leaf : PlacedToken} : leaf ∈ n.childTokens ↔ .token leaf ∈ n.children := by
  rw [childTokens, List.mem_filterMap]
  constructor
  · rintro ⟨p, hp, htoken⟩
    cases p with
    | token t =>
      cases htoken
      exact hp
    | node info children => cases htoken
  · exact fun h => ⟨_, h, rfl⟩

theorem focus_mem (h : child ∈ n.childNodes) :
    ⟨child, above⟩ ∈ Placed.fociOf above n.children :=
  Placed.foci_subset (mem_childNodes.mp h) List.mem_cons_self

theorem foci_subset (h : child ∈ n.childNodes) :
    Placed.fociOf (child :: above) child.children ⊆ Placed.fociOf above n.children :=
  fun _ hf => Placed.foci_subset (mem_childNodes.mp h) (List.mem_cons_of_mem _ hf)

theorem tokenFocus_mem {leaf : PlacedToken} (h : leaf ∈ n.childTokens) :
    ⟨leaf, above⟩ ∈ Placed.tokenFociOf above n.children :=
  Placed.tokenFoci_subset (mem_childTokens.mp h) List.mem_cons_self

/-- The child nodes come in order among all nodes below. -/
theorem childNodes_sublist (n : PlacedNode) : n.childNodes.Sublist (Placed.nodesOf n.children) := by
  rw [childNodes]
  induction n.children with
  | nil => exact .slnil
  | cons p ps ih =>
    cases p with
    | token t => exact ih
    | node info children => exact (ih.trans (List.sublist_append_right _ _)).cons_cons _

theorem nodesOf_sublist (h : child ∈ n.childNodes) :
    (Placed.nodesOf child.children).Sublist (Placed.nodesOf n.children) := by
  obtain ⟨before, after, heq⟩ := List.append_of_mem (mem_childNodes.mp h)
  rw [heq]
  exact ((List.sublist_cons_self _ _).trans
    (List.sublist_append_left child.placed.nodes (Placed.nodesOf after))).trans
    (Placed.nodesOf_sublist_append before (child.placed :: after))

theorem child?_some {kind : Kind} (h : n.child? kind = some child) :
    child ∈ n.childNodes ∧ child.kind = kind :=
  ⟨List.mem_of_find?_eq_some h, by simpa using List.find?_some h⟩

end PlacedNode

namespace Placed

mutual

/-- A node in an element is the element, or a child of the node next around it. -/
theorem child_of_mem_foci {above : List PlacedNode} {f : Focus} (p : Placed)
    (h : f ∈ p.foci above) :
    f.above = above ∧ f.node.placed = p ∨
      ∃ m rest, f.above = m :: rest ∧ f.node ∈ m.childNodes := by
  cases p with
  | token t => exact absurd h List.not_mem_nil
  | node info children =>
    obtain rfl | h := List.mem_cons.mp h
    · exact .inl ⟨rfl, rfl⟩
    · obtain ⟨habove, hmem⟩ | hchild := child_of_mem_fociOf children h
      · exact .inr ⟨_, _, habove, PlacedNode.mem_childNodes.mpr hmem⟩
      · exact .inr hchild

theorem child_of_mem_fociOf {above : List PlacedNode} {f : Focus} (ps : List Placed)
    (h : f ∈ fociOf above ps) :
    f.above = above ∧ f.node.placed ∈ ps ∨
      ∃ m rest, f.above = m :: rest ∧ f.node ∈ m.childNodes := by
  cases ps with
  | nil => exact absurd h List.not_mem_nil
  | cons p ps =>
    obtain h | h := List.mem_append.mp h
    · exact (child_of_mem_foci p h).imp_left fun ⟨habove, heq⟩ => ⟨habove, heq ▸ List.mem_cons_self⟩
    · exact (child_of_mem_fociOf ps h).imp_left fun ⟨habove, hmem⟩ =>
        ⟨habove, List.mem_cons_of_mem _ hmem⟩

end

end Placed

namespace Element

mutual

theorem index_place (c : Cursor) (above : List PlacedNode) (e : Element) :
    ∃ k, (e.place c).2.node = c.node + k ∧
      ((e.place c).1.foci above).map (·.node.index) = List.range' c.node k := by
  cases e with
  | token t => exact ⟨0, rfl, rfl⟩
  | node kind children =>
    obtain ⟨k, hnode, hindex⟩ := index_placeAll { c with node := c.node + 1 } (_ :: above) children
    exact ⟨k + 1, hnode.trans (by simp only; omega), congrArg (c.node :: ·) hindex⟩

/-- Placing numbers the nodes in preorder. -/
theorem index_placeAll (c : Cursor) (above : List PlacedNode) (es : List Element) :
    ∃ k, (placeAll c es).2.node = c.node + k ∧
      (Placed.fociOf above (placeAll c es).1).map (·.node.index) = List.range' c.node k := by
  cases es with
  | nil => exact ⟨0, rfl, rfl⟩
  | cons e es =>
    obtain ⟨k, hnode, hindex⟩ := index_place c above e
    obtain ⟨m, hnode', hindex'⟩ := index_placeAll (e.place c).2 above es
    refine ⟨k + m, ?_, ?_⟩
    · show (placeAll (e.place c).2 es).2.node = _
      rw [hnode', hnode, Nat.add_assoc]
    · show (Placed.foci above (e.place c).1 ++ Placed.fociOf above
        (placeAll (e.place c).2 es).1).map _ = _
      rw [List.map_append, hindex, hindex', hnode]
      exact List.range'_append_1

end

end Element

namespace Tree

variable {t : Tree} {f g : Focus}

theorem nodes_index (t : Tree) : ∃ k, t.nodes.map (·.node.index) = List.range k := by
  obtain ⟨k, _, hindex⟩ :=
    Element.index_placeAll { Cursor.start with node := 1 } [t.top] t.root.children
  refine ⟨k + 1, ?_⟩
  rw [nodes_eq]
  show t.top.index :: (Placed.fociOf [t.top] t.top.children).map _ = _
  rw [top_children, hindex, List.range_eq_range', top_eq]
  rfl

/-- No two nodes have the same number. -/
theorem nodup_nodesOf (t : Tree) : ((Placed.nodesOf t.top.children).map (·.index)).Nodup := by
  obtain ⟨k, hk⟩ := t.nodes_index
  have hnodup : (t.nodes.map (·.node.index)).Nodup := hk ▸ List.nodup_range
  rw [nodes_eq] at hnodup
  have hchildren := (List.nodup_cons.mp hnodup).2
  rwa [← Placed.node_fociOf [t.top] t.top.children, List.map_map]

/-- The number of a node is its place among all nodes. -/
theorem node_index {n : Nat} (h : t.nodes[n]? = some f) : f.node.index = n := by
  obtain ⟨k, hk⟩ := t.nodes_index
  have hindex : (t.nodes.map (·.node.index))[n]? = some f.node.index := by simp [h]
  rw [hk] at hindex
  obtain ⟨_, heq⟩ := List.getElem?_eq_some_iff.mp hindex
  simpa using heq.symm

theorem nodes_getElem? (h : f ∈ t.nodes) : t.nodes[f.node.index]? = some f := by
  obtain ⟨n, hn⟩ := List.getElem?_of_mem h
  rwa [node_index hn]

theorem focus_eq (hf : f ∈ t.nodes) (hg : g ∈ t.nodes) (h : f.node.index = g.node.index) :
    f = g := by
  have hf' := nodes_getElem? hf
  rw [h, nodes_getElem? hg] at hf'
  exact (Option.some.inj hf').symm

/-- A node is a child of the node next around it. -/
theorem mem_childNodes_of_mem {n m : PlacedNode} {above : List PlacedNode}
    (h : ⟨n, m :: above⟩ ∈ t.nodes) : n ∈ m.childNodes := by
  rw [nodes_eq] at h
  obtain ⟨hnil, _⟩ | ⟨_, _, habove, hchild⟩ := Placed.child_of_mem_foci _ h
  · cases hnil
  · cases habove
    exact hchild

/-- What stands around a node of the tree is a node of the tree. -/
theorem mem_nodes_of_above (hf : f ∈ t.nodes) {n : PlacedNode} {before after : List PlacedNode}
    (h : f.above = before ++ n :: after) : ⟨n, after⟩ ∈ t.nodes := by
  rw [nodes_eq] at hf ⊢
  obtain hmem | ⟨inner, hinner⟩ := Placed.mem_foci_of_above _ hf h
  · exact hmem
  · simp at hinner

/-- What stands next around a node of the tree is a node of the tree. -/
theorem mem_nodes_of_above_cons (hf : f ∈ t.nodes) {n : PlacedNode} {after : List PlacedNode}
    (h : f.above = n :: after) : ⟨n, after⟩ ∈ t.nodes :=
  mem_nodes_of_above hf (h.trans (List.nil_append _).symm)

/-- What stands around a token of the tree is a node of the tree. -/
theorem mem_nodes_of_above_token {g : TokenFocus} (hg : g ∈ t.tokens) {n : PlacedNode}
    {before after : List PlacedNode} (h : g.above = before ++ n :: after) :
    ⟨n, after⟩ ∈ t.nodes := by
  rw [tokens_eq] at hg
  rw [nodes_eq]
  obtain hmem | ⟨inner, hinner⟩ := Placed.mem_foci_of_above_token _ hg h
  · exact hmem
  · simp at hinner

/-- A handle made from a node leads back to it. -/
theorem node?_nodeId (h : f ∈ t.nodes) : t.node? (t.nodeId f.node) = some f :=
  (if_pos rfl).trans (nodes_getElem? h)

/-- A handle that finds a node is the handle of that node. -/
theorem node?_some {id : NodeId} (h : t.node? id = some f) :
    f ∈ t.nodes ∧ id = t.nodeId f.node := by
  obtain ⟨tree, index⟩ := id
  rw [node?] at h
  split at h
  next htree =>
    refine ⟨List.mem_of_getElem? h, ?_⟩
    rw [nodeId, ← htree]
    exact congrArg _ (node_index h).symm
  next => cases h

theorem fociOf_subset_nodes (t : Tree) : Placed.fociOf [t.top] t.top.children ⊆ t.nodes := by
  rw [nodes_eq]
  exact List.subset_cons_self _ _

theorem tokenFociOf_eq_tokens (t : Tree) :
    Placed.tokenFociOf [t.top] t.top.children = t.tokens := by
  rw [tokens_eq]
  rfl

/-- The children of a node of the tree are nodes of the tree. -/
theorem child_mem (hf : f ∈ t.nodes) {child : PlacedNode} (hchild : child ∈ f.node.childNodes) :
    ⟨child, f.node :: f.above⟩ ∈ t.nodes := by
  rw [nodes_eq] at hf ⊢
  exact Placed.foci_of_mem_foci _ hf (PlacedNode.focus_mem hchild)

/-- The tokens right in a node have the node and those around it above them. -/
theorem tokenFocus_mem (hf : f ∈ t.nodes) {leaf : PlacedToken} (hleaf : leaf ∈ f.node.childTokens) :
    ⟨leaf, f.node :: f.above⟩ ∈ t.tokens := by
  rw [nodes_eq] at hf
  rw [tokens_eq]
  exact Placed.tokenFoci_of_mem_foci _ hf (PlacedNode.tokenFocus_mem hleaf)

/-- The tokens of a node are tokens of the tree. -/
theorem exists_tokenFocus (hf : f ∈ t.nodes) {leaf : PlacedToken} (hleaf : leaf ∈ f.node.tokens) :
    ∃ g ∈ t.tokens, g.leaf = leaf ∧ ∃ inner, g.above = inner ++ f.node :: f.above := by
  rw [PlacedNode.tokens, ← Placed.leaf_tokenFociOf (f.node :: f.above)] at hleaf
  obtain ⟨g, hg, rfl⟩ := List.mem_map.mp hleaf
  rw [nodes_eq] at hf
  rw [tokens_eq]
  exact ⟨g, Placed.tokenFoci_of_mem_foci _ hf hg, rfl, Placed.exists_innerOf _ hg⟩

end Tree

end AutoProperty
