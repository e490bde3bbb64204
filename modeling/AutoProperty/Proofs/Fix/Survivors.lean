import AutoProperty.Proofs.Fix.SplicedDocuments
import AutoProperty.Proofs.Syntax.Parallels

/-! # Names that survive the splice

A name outside of what goes away is still there, and all names of the new tree are such, but for
those in a value that has moved.
-/

namespace AutoProperty

namespace Placed

/-- A token of some elements belongs to one of them. -/
theorem exists_of_mem_tokensOf {ps : List Placed} {a : PlacedToken} (h : a ∈ tokensOf ps) :
    ∃ p ∈ ps, a ∈ p.tokens := by
  induction ps with
  | nil => exact absurd h List.not_mem_nil
  | cons p ps ih =>
    obtain h | h := List.mem_append.mp h
    · exact ⟨p, List.mem_cons_self, h⟩
    · obtain ⟨q, hq, h⟩ := ih h
      exact ⟨q, List.mem_cons_of_mem _ hq, h⟩

/-- A node of some elements belongs to one of them. -/
theorem exists_of_mem_nodesOf {ps : List Placed} {n : PlacedNode} (h : n ∈ nodesOf ps) :
    ∃ p ∈ ps, n ∈ p.nodes := by
  induction ps with
  | nil => exact absurd h List.not_mem_nil
  | cons p ps ih =>
    obtain h | h := List.mem_append.mp h
    · exact ⟨p, List.mem_cons_self, h⟩
    · obtain ⟨q, hq, h⟩ := ih h
      exact ⟨q, List.mem_cons_of_mem _ hq, h⟩

theorem nodes_subset {p : Placed} {ps : List Placed} (h : p ∈ ps) : p.nodes ⊆ nodesOf ps := by
  obtain ⟨before, after, rfl⟩ := List.append_of_mem h
  rw [nodesOf_append]
  exact fun n hn => List.mem_append_right _ (List.mem_append_left _ hn)

/-- What is in a node of an element is in the element. -/
theorem nodes_of_mem_nodes {p : Placed} {n : PlacedNode} (h : n ∈ p.nodes) :
    n.descendants ⊆ p.nodes := by
  intro m hm
  rw [← node_foci [] p] at h ⊢
  obtain ⟨f, hf, rfl⟩ := List.mem_map.mp h
  obtain rfl | hm := List.mem_cons.mp (show m ∈ f.node :: nodesOf f.node.children from hm)
  · exact List.mem_map_of_mem hf
  · rw [← node_fociOf (f.node :: f.above)] at hm
    obtain ⟨g, hg, rfl⟩ := List.mem_map.mp hm
    exact List.mem_map_of_mem (foci_of_mem_foci p hf hg)

/-- A node in an element has its tokens from there. -/
theorem tokens_of_mem_nodes {p : Placed} {n : PlacedNode} (h : n ∈ p.nodes) :
    n.tokens ⊆ p.tokens := by
  intro a ha
  rw [← node_foci [] p] at h
  obtain ⟨f, hf, rfl⟩ := List.mem_map.mp h
  have hfocus : a ∈ (tokenFociOf (f.node :: f.above) f.node.children).map (·.leaf) := by
    rw [leaf_tokenFociOf]
    exact ha
  obtain ⟨g, hg, rfl⟩ := List.mem_map.mp hfocus
  rw [← leaf_tokenFoci [] p]
  exact List.mem_map_of_mem (tokenFoci_of_mem_foci p hf hg)

end Placed

theorem Tree.mem_nodesOf {tree : Tree} {n : PlacedNode} {above : List PlacedNode}
    (h : ⟨n, above⟩ ∈ tree.nodes) (hne : n ≠ tree.top) : n ∈ Placed.nodesOf tree.top.children := by
  rw [nodes_eq] at h
  obtain heq | h := List.mem_cons.mp h
  · exact absurd (congrArg Focus.node heq) hne
  · rw [← Placed.node_fociOf [tree.top]]
    exact List.mem_map_of_mem h

namespace Ledger.Records

variable {x : Ledger} {leaf : PlacedToken → PlacedToken → Prop} {c : Reshaping}

section Elements

variable {m : PlacedNode} {ps ps' : List Placed} (h : x.Records leaf c m ps ps')
include h

theorem leaf_or_dropped {a : PlacedToken} (ha : a ∈ Placed.tokensOf ps) :
    a ∈ x.leaves.map Prod.fst ∨ ∃ p ∈ x.dropped, a ∈ p.tokens :=
  (List.mem_append.mp (h.tokens.mem_iff.mpr ha)).imp_right Placed.exists_of_mem_tokensOf

theorem leaf_or_added {a' : PlacedToken} (ha' : a' ∈ Placed.tokensOf ps') :
    a' ∈ x.leaves.map Prod.snd ∨ ∃ p ∈ x.added, a' ∈ p.tokens :=
  (List.mem_append.mp (h.tokens'.mem_iff.mpr ha')).imp_right Placed.exists_of_mem_tokensOf

theorem node_or_dropped {n : PlacedNode} (hn : n ∈ Placed.nodesOf ps) :
    (∃ n', (n, n') ∈ x.nodes) ∨ ∃ p ∈ x.dropped, n ∈ p.nodes := by
  obtain hn | hn := List.mem_append.mp (h.nodes.mem_iff.mpr hn)
  · obtain ⟨⟨_, n'⟩, hmem, rfl⟩ := List.mem_map.mp hn
    exact .inl ⟨n', hmem⟩
  · exact .inr (Placed.exists_of_mem_nodesOf hn)

end Elements

/-- What nodes have become stands in the new tree. -/
theorem exists_focus {tree tree' : Tree}
    (h : x.Records leaf c tree.top tree.top.children tree'.top.children) {n n' : PlacedNode}
    (hn : (n, n') ∈ x.nodes) : ∃ f ∈ tree'.nodes, f.node = n' := by
  have hmem := h.nodes'.mem_iff.mp (List.mem_append_left _ (List.mem_map_of_mem (f := Prod.snd) hn))
  rw [← Placed.node_fociOf [tree'.top]] at hmem
  obtain ⟨f, hf, rfl⟩ := List.mem_map.mp hmem
  exact ⟨f, tree'.fociOf_subset_nodes hf, rfl⟩

end Ledger.Records

namespace Cut.Stands

variable {cut : Cut} {tree tree' : Tree} {x : Ledger} (h : cut.Stands tree)
  (hconforms : tree.root.element.Conforms) (hroot : tree.root.kind = .compilationUnit)
include h hconforms

/-- What goes away stands in the tree. -/
theorem exists_focus_of_gone {n : PlacedNode} (hn : n ∈ cut.gone) :
    ∃ f ∈ tree.nodes, f.node = n := by
  obtain hremoved | ⟨property, hproperty, hbody⟩ := mem_gone.mp hn
  · obtain ⟨_, hmem, _⟩ := h.removed hremoved
    exact ⟨_, hmem, rfl⟩
  · obtain ⟨_, _, _, hmem, _⟩ := h.exists_above_of_body hconforms hproperty hbody
    exact ⟨_, hmem, rfl⟩

include hroot

/-- Neither what goes away nor what is opened is the root. -/
theorem ne_top {n : PlacedNode} (hn : n ∈ cut.gone ∨ cut.property? = some n) : n ≠ tree.top := by
  rintro rfl
  obtain hgone | hproperty := hn
  · have hkind := (h.allowed hconforms).gone _ hgone
    rw [Tree.kind_top, hroot] at hkind
    obtain hkind | hkind | hkind | hkind := hkind <;> cases hkind
  · have hkind := (h.allowed hconforms).property _ hproperty
    rw [Tree.kind_top, hroot] at hkind
    cases hkind

variable
  (hx : x.Records PlacedToken.SameCore cut.change tree.top tree.top.children tree'.top.children)
include hx

/-- What goes away is dropped, with all that is in it. -/
theorem exists_dropped {n : PlacedNode} (hn : n ∈ cut.gone) : ∃ p ∈ x.dropped, n ∈ p.nodes := by
  obtain ⟨f, hf, rfl⟩ := h.exists_focus_of_gone hconforms hn
  refine (hx.node_or_dropped
    (Tree.mem_nodesOf hf (h.ne_top hconforms hroot (.inl hn)))).resolve_left ?_
  rintro ⟨n', hn'⟩
  obtain hopened | ⟨p, hkept, hin⟩ := hx.remains _ _ hn'
  · exact hopened.1 hn
  · exact (hkept.2 _ hin).1 hn

theorem dropped_of_gone {n : PlacedNode} (hn : n ∈ cut.gone) {a : PlacedToken} (ha : a ∈ n.tokens) :
    ∃ p ∈ x.dropped, a ∈ p.tokens := by
  obtain ⟨p, hp, hin⟩ := h.exists_dropped hconforms hroot hx hn
  exact ⟨p, hp, Placed.tokens_of_mem_nodes hin ha⟩

/-- No node in what goes away is still there. -/
theorem not_remains {n k k' : PlacedNode} (hn : n ∈ cut.gone) (hk : k ∈ n.descendants) :
    (k, k') ∉ x.nodes := by
  intro hremains
  obtain ⟨p, hp, hin⟩ := h.exists_dropped hconforms hroot hx hn
  have hnodup := (hx.nodes.map (·.index)).nodup_iff.mpr tree.nodup_nodesOf
  rw [List.map_append, List.nodup_append] at hnodup
  exact hnodup.2.2 _ (List.mem_map_of_mem (List.mem_map_of_mem (f := Prod.fst) hremains)) _
    (List.mem_map_of_mem (Placed.nodes_subset hp (Placed.nodes_of_mem_nodes hin hk))) rfl

/-- The names that survive are those outside of what goes away. -/
theorem names_eq :
    (x.leaves.map Prod.fst).filter (·.kind == .identifierToken) = (tree.namesOutside cut.gone).map
      (·.leaf) := by
  have hall : (Placed.tokensOf tree.top.children) = tree.tokens.map (·.leaf) := by
    rw [← Tree.tokenFociOf_eq_tokens, Placed.leaf_tokenFociOf]
  refine eq_map_filter tree.sorted_tokens ?_ ?_ ?_
  · refine List.Pairwise.sublist ((List.filter_sublist.trans hx.inOrder).map _) ?_
    rw [hall, List.map_map]
    exact tree.sorted_tokens
  · intro a ha
    have hmem := hx.inOrder.subset (List.mem_filter.mp ha).1
    rw [hall] at hmem
    exact List.mem_map.mp hmem
  · intro g hg
    rw [List.mem_filter, Bool.and_eq_true, and_comm]
    refine and_congr_left fun hkind => ?_
    have hmem : g.leaf ∈ Placed.tokensOf tree.top.children := by
      rw [hall]
      exact List.mem_map_of_mem hg
    rw [Bool.not_eq_true', List.any_eq_false]
    constructor
    · intro hout
      refine (hx.leaf_or_dropped hmem).resolve_right ?_
      rintro ⟨p, hp, hin⟩
      obtain ⟨n, hn, rfl⟩ | ⟨a, rfl, hne, _⟩ := hx.dropped p hp
      · obtain ⟨f, hf, rfl⟩ := h.exists_focus_of_gone hconforms hn
        exact hout _ hn ((Tree.isIn_token_iff hf hg).mpr hin)
      · obtain rfl := List.mem_singleton.mp hin
        exact hne (eq_of_beq hkind)
    · intro hleaf n hn hin
      obtain ⟨f, hf, rfl⟩ := h.exists_focus_of_gone hconforms hn
      obtain ⟨p, hp, hdropped⟩ :=
        h.dropped_of_gone hconforms hroot hx hn ((Tree.isIn_token_iff hf hg).mp hin)
      obtain ⟨⟨a, a'⟩, hleaf, rfl⟩ := List.mem_map.mp hleaf
      exact hx.index_ne_dropped hp hdropped hleaf rfl

/-- The property is still there. -/
theorem exists_made {n : PlacedNode} (hn : cut.property? = some n) : ∃ n', (n, n') ∈ x.nodes := by
  obtain ⟨above, hmem, hkind, _⟩ := h.property hn
  refine (hx.node_or_dropped
    (Tree.mem_nodesOf hmem (h.ne_top hconforms hroot (.inr hn)))).resolve_right ?_
  rintro ⟨p, hp, hin⟩
  obtain ⟨k, hk, rfl⟩ | ⟨a, rfl, _⟩ := hx.dropped p hp
  swap
  · exact absurd hin List.not_mem_nil
  obtain hremoved | ⟨property, hproperty, hbody⟩ := mem_gone.mp hk
  · exact h.apart hremoved hn hin
  obtain rfl := Option.some.inj (hn.symm.trans hproperty)
  obtain ⟨hbodyKind, inner, above', hbodyMem, hmem', henclosing, _⟩ :=
    h.exists_above_of_body hconforms hproperty hbody
  obtain heq | habove := List.mem_cons.mp ((Tree.mem_descendants_iff hbodyMem hmem').mp hin)
  · have heq : k = n := heq
    rw [heq, hkind] at hbodyKind
    obtain hbodyKind | hbodyKind := hbodyKind <;> cases hbodyKind
  · have hkindAbove := henclosing _ habove
    obtain hbodyKind | hbodyKind := hbodyKind <;> rw [hbodyKind] at hkindAbove <;> cases hkindAbove

/-- A name that comes in stands in the value that a property is given. -/
theorem moved_of_added {p : Placed} (hp : p ∈ x.added) {a : PlacedToken} (ha : a ∈ p.tokens)
    (hkind : a.kind = .identifierToken) :
    ∃ n n' q, cut.property? = some n ∧ (n, n') ∈ x.nodes ∧ n.child? .equalsValueClause = none ∧
      q ∈ n'.childrenOf .equalsValueClause ∧ p = q.placed := by
  have hadded {m : PlacedNode} (hadded : cut.change.added m p) :
      cut.property? = some m ∧ p.kind = .equalsValueClause ∧
      m.child? .equalsValueClause = none := by
    obtain ⟨b, rfl, hne, _⟩ | ⟨hproperty, _, ⟨_, hnone⟩ | hvalue⟩ := hadded
    · obtain rfl := List.mem_singleton.mp ha
      exact absurd hkind hne
    · exact absurd hkind (hnone a ha)
    · exact ⟨hproperty, hvalue⟩
  obtain ⟨htop, _⟩ | ⟨n, n', hn, _, hmade, hchild⟩ := hx.sites p hp
  · exact absurd rfl (h.ne_top hconforms hroot (.inr (hadded htop).1))
  · obtain ⟨hproperty, hvalue, hnone⟩ := hadded hmade
    cases p with
    | token b =>
      obtain rfl := List.mem_singleton.mp ha
      rw [show a.kind = .equalsValueClause from hvalue] at hkind
      cases hkind
    | node info children =>
      exact ⟨n, n', ⟨info, children⟩, hproperty, hn, hnone,
        List.mem_filter.mpr ⟨PlacedNode.mem_childNodes.mpr hchild, beq_iff_eq.mpr hvalue⟩, rfl⟩

omit h hconforms hroot in
/-- A value that a property has got comes in. -/
theorem added_of_moved {n n' q : PlacedNode} (hn : (n, n') ∈ x.nodes)
    (hnone : n.child? .equalsValueClause = none) (hq : q ∈ n'.childrenOf .equalsValueClause) :
    q.placed ∈ x.added := by
  obtain ⟨hchild, hkind⟩ := List.mem_filter.mp hq
  refine ((hx.inside n n' hn).2 q (PlacedNode.mem_childNodes.mp hchild)).resolve_right ?_
  rintro ⟨k, hk, hmem⟩
  have hkindOld := (hx.inside k q hk).1
  refine List.find?_eq_none.mp hnone k (PlacedNode.mem_childNodes.mpr hmem) ?_
  rw [← hkindOld]
  exact hkind

/-- The names of the new tree are those that survive, but for those in a value that has moved. -/
theorem names_eq' {moved : List PlacedNode}
    (hmoved : ∀ q, q ∈ moved ↔
      ∃ n n', cut.property? = some n ∧ (n, n') ∈ x.nodes ∧ n.child? .equalsValueClause = none ∧
      q ∈ n'.childrenOf .equalsValueClause) :
    (x.leaves.map Prod.snd).filter (·.kind == .identifierToken) = (tree'.namesOutside moved).map
      (·.leaf) := by
  have hall : (Placed.tokensOf tree'.top.children) = tree'.tokens.map (·.leaf) := by
    rw [← Tree.tokenFociOf_eq_tokens, Placed.leaf_tokenFociOf]
  have hfocus {n n' q : PlacedNode} (hn : (n, n') ∈ x.nodes)
      (hq : q ∈ n'.childrenOf .equalsValueClause) :
      ∃ f ∈ tree'.nodes, f.node = q := by
    obtain ⟨f, hf, rfl⟩ := hx.exists_focus hn
    exact ⟨_, Tree.child_mem hf (List.mem_filter.mp hq).1, rfl⟩
  refine eq_map_filter tree'.sorted_tokens ?_ ?_ ?_
  · refine List.Pairwise.sublist ((List.filter_sublist.trans hx.inOrder').map _) ?_
    rw [hall, List.map_map]
    exact tree'.sorted_tokens
  · intro a ha
    have hmem := hx.inOrder'.subset (List.mem_filter.mp ha).1
    rw [hall] at hmem
    exact List.mem_map.mp hmem
  · intro g hg
    rw [List.mem_filter, Bool.and_eq_true, and_comm]
    refine and_congr_left fun hkind => ?_
    have hmem : g.leaf ∈ Placed.tokensOf tree'.top.children := by
      rw [hall]
      exact List.mem_map_of_mem hg
    rw [Bool.not_eq_true', List.any_eq_false]
    constructor
    · intro hout
      refine (hx.leaf_or_added hmem).resolve_right ?_
      rintro ⟨p, hp, hin⟩
      obtain ⟨n, n', q, hproperty, hn, hnone, hq, rfl⟩ :=
        h.moved_of_added hconforms hroot hx hp hin (eq_of_beq hkind)
      obtain ⟨f, hf, rfl⟩ := hfocus hn hq
      exact hout _ ((hmoved _).mpr ⟨n, n', hproperty, hn, hnone, hq⟩)
        ((Tree.isIn_token_iff hf hg).mpr hin)
    · intro hleaf q hq hin
      obtain ⟨n, n', hproperty, hn, hnone, hq⟩ := (hmoved q).mp hq
      obtain ⟨f, hf, rfl⟩ := hfocus hn hq
      obtain ⟨⟨a, a'⟩, hleaf, rfl⟩ := List.mem_map.mp hleaf
      exact hx.index_ne_added (added_of_moved hx hn hnone hq) ((Tree.isIn_token_iff hf hg).mp hin)
        hleaf rfl

/-- The names that survive, and what has become of them. -/
theorem forall₂_names {moved : List PlacedNode}
    (hmoved : ∀ q, q ∈ moved ↔
      ∃ n n', cut.property? = some n ∧ (n, n') ∈ x.nodes ∧ n.child? .equalsValueClause = none ∧
      q ∈ n'.childrenOf .equalsValueClause) :
    List.Forall₂ (fun g g' : TokenFocus => x.Leaf g.leaf g'.leaf) (tree.namesOutside cut.gone)
      (tree'.namesOutside moved) := by
  rw [← List.forall₂_map_left_iff (R := fun a (g' : TokenFocus) => x.Leaf a g'.leaf),
    ← List.forall₂_map_right_iff, ← h.names_eq hconforms hroot hx,
    ← h.names_eq' hconforms hroot hx hmoved, List.filter_map, List.filter_map]
  have hsame : x.leaves.filter ((·.kind == .identifierToken) ∘ Prod.snd) = x.leaves.filter
      ((·.kind == .identifierToken) ∘ Prod.fst) :=
    List.filter_congr fun pair hpair => by
      show (pair.2.kind == _) = (pair.1.kind == _)
      rw [(hx.leaf pair.1 pair.2 hpair).kind]
  rw [hsame, List.forall₂_map_left_iff, List.forall₂_map_right_iff, List.forall₂_same]
  exact fun pair hpair => (List.mem_filter.mp hpair).1

end Cut.Stands

end AutoProperty
