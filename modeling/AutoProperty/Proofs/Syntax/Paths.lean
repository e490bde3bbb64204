import AutoProperty.Proofs.Syntax.Layouts
import AutoProperty.Proofs.Syntax.Rebuilding
import Mathlib.Data.List.Induction

/-! # Paths

Two trees number their nodes and tokens each in its own way, so places in them are compared by
their paths from the root. One path leads to each node, and a token has one place among the
children of one node. The comma that goes away with a node is found by its place, too.
-/

namespace AutoProperty

/-! ## Paths -/

namespace Focus

def child? (f : Focus) (i : Nat) : Option Focus :=
  (f.node.children[i]?.bind Placed.node?).map (⟨·, f.node :: f.above⟩)

/-- The node at the end of a path, which gives for each step the place among all children. -/
def at? (f : Focus) : List Nat → Option Focus
  | [] => some f
  | i :: path => (f.child? i).bind (at? · path)

/-- The child at a place has the node on top of all that is around it. -/
theorem child?_eq_some {f g : Focus} {i : Nat} :
    f.child? i = some g ↔
      f.node.children[i]? = some g.node.placed ∧ g.above = f.node :: f.above := by
  rw [child?, Option.map_eq_some_iff]
  constructor
  · rintro ⟨n, hn, rfl⟩
    obtain ⟨p, hp, hnode⟩ := Option.bind_eq_some_iff.mp hn
    cases p with
    | token leaf => cases hnode
    | node info children =>
      cases hnode
      exact ⟨hp, rfl⟩
  · rintro ⟨hchild, habove⟩
    refine ⟨g.node, by rw [hchild]; rfl, ?_⟩
    rw [← habove]

/-- A path is followed one step after another. -/
theorem at?_concat (f : Focus) (path : List Nat) (i : Nat) :
    f.at? (path ++ [i]) = (f.at? path).bind (·.child? i) := by
  induction path generalizing f with
  | nil => simp [at?]
  | cons j path ih =>
    rw [List.cons_append, at?, at?]
    cases f.child? j with
    | none => rfl
    | some g => exact ih g

end Focus

namespace Tree

variable {t : Tree} {f g : Focus} {path path' : List Nat} {i j : Nat} {leaf : PlacedToken}

/-- The node at the end of a path from the root. -/
def at? (t : Tree) (path : List Nat) : Option Focus :=
  Focus.at? ⟨t.top, []⟩ path

theorem at?_nil (t : Tree) : t.at? [] = some ⟨t.top, []⟩ := rfl

theorem at?_concat (t : Tree) (path : List Nat) (i : Nat) :
    t.at? (path ++ [i]) = (t.at? path).bind (·.child? i) :=
  Focus.at?_concat _ _ _

theorem at?_concat_eq_some :
    t.at? (path ++ [i]) = some f ↔
      ∃ g, t.at? path = some g ∧ g.node.children[i]? = some f.node.placed ∧
      f.above = g.node :: g.above := by
  simp only [at?_concat, Option.bind_eq_some_iff, Focus.child?_eq_some]

/-- Where a path leads is a node of the tree. -/
theorem at?_mem (h : t.at? path = some f) : f ∈ t.nodes := by
  induction path using List.reverseRecOn generalizing f with
  | nil =>
    cases h
    exact t.top_mem
  | append_singleton path i ih =>
    obtain ⟨g, hg, hchild, habove⟩ := at?_concat_eq_some.mp h
    have hmem := child_mem (ih hg) (PlacedNode.mem_childNodes.mpr (List.mem_of_getElem? hchild))
    rwa [← habove] at hmem

/-- Every node is at the end of a path. -/
theorem exists_at? (h : f ∈ t.nodes) : ∃ path, t.at? path = some f := by
  -- The path grows with the number of nodes around the node.
  obtain ⟨n, above⟩ := f
  induction above generalizing n with
  | nil =>
    have hindex : n.index = t.top.index := ((above_eq_nil h).mp rfl).trans t.index_top.symm
    exact ⟨[], congrArg some (focus_eq t.top_mem h hindex.symm)⟩
  | cons m above ih =>
    obtain ⟨path, hpath⟩ := ih m (mem_nodes_of_cons h rfl)
    obtain ⟨i, hi⟩ := List.getElem?_of_mem (PlacedNode.mem_childNodes.mp (mem_childNodes_of_mem h))
    exact ⟨path ++ [i], at?_concat_eq_some.mpr ⟨_, hpath, hi, rfl⟩⟩

/-- Children of one node that have the same number stand at the same place. -/
theorem eq_of_children (hf : f ∈ t.nodes) {m n : PlacedNode}
    (hi : f.node.children[i]? = some m.placed) (hj : f.node.children[j]? = some n.placed)
    (hindex : m.index = n.index) : i = j := by
  have hsorted :=
    (sorted_descendants hf).sublist ((f.node.childNodes_sublist.cons f.node).map PlacedNode.index)
  rw [PlacedNode.childNodes, List.pairwise_map, List.pairwise_filterMap, List.pairwise_iff_getElem]
    at hsorted
  obtain ⟨hilt, hi⟩ := List.getElem?_eq_some_iff.mp hi
  obtain ⟨hjlt, hj⟩ := List.getElem?_eq_some_iff.mp hj
  rcases Nat.lt_trichotomy i j with hlt | heq | hgt
  · have := hsorted i j hilt hjlt hlt m (by rw [hi]; rfl) n (by rw [hj]; rfl)
    omega
  · exact heq
  · have := hsorted j i hjlt hilt hgt n (by rw [hj]; rfl) m (by rw [hi]; rfl)
    omega

/-- Tokens right in one node that have the same number stand at the same place. -/
theorem eq_of_childTokens (hf : f ∈ t.nodes) {leaf leaf' : PlacedToken}
    (hi : f.node.children[i]? = some (.token leaf)) (hj : f.node.children[j]? = some (.token leaf'))
    (hindex : leaf.index = leaf'.index) : i = j := by
  have hsorted :=
    (sorted_tokens_of_node hf).sublist (f.node.childTokens_sublist.map PlacedToken.index)
  rw [PlacedNode.childTokens, List.pairwise_map, List.pairwise_filterMap, List.pairwise_iff_getElem]
    at hsorted
  obtain ⟨hilt, hi⟩ := List.getElem?_eq_some_iff.mp hi
  obtain ⟨hjlt, hj⟩ := List.getElem?_eq_some_iff.mp hj
  rcases Nat.lt_trichotomy i j with hlt | heq | hgt
  · have := hsorted i j hilt hjlt hlt leaf (by rw [hi]; rfl) leaf' (by rw [hj]; rfl)
    omega
  · exact heq
  · have := hsorted j i hjlt hilt hgt leaf' (by rw [hj]; rfl) leaf (by rw [hi]; rfl)
    omega

/-- Only one path leads to a node. -/
theorem path_unique (hf : t.at? path = some f) (hg : t.at? path' = some g)
    (hindex : f.node.index = g.node.index) : path = path' := by
  obtain rfl := focus_eq (at?_mem hf) (at?_mem hg) hindex
  induction path using List.reverseRecOn generalizing path' f with
  | nil =>
    cases hf
    rcases List.eq_nil_or_concat' path' with rfl | ⟨path', i, rfl⟩
    · rfl
    · obtain ⟨_, _, _, habove⟩ := at?_concat_eq_some.mp hg
      cases habove
  | append_singleton path i ih =>
    obtain ⟨m, hm, hchild, habove⟩ := at?_concat_eq_some.mp hf
    rcases List.eq_nil_or_concat' path' with rfl | ⟨path', j, rfl⟩
    · cases hg
      cases habove
    · obtain ⟨m', hm', hchild', habove'⟩ := at?_concat_eq_some.mp hg
      obtain ⟨hnode, hrest⟩ := List.cons.inj (habove.symm.trans habove')
      obtain rfl : m = m' := by
        cases m
        cases m'
        simp only at hnode hrest
        rw [hnode, hrest]
      rw [ih hm hm' rfl, eq_of_children (at?_mem hm) hchild hchild' rfl]

/-- Only one path leads to the node around a token, and the token has one place in it. -/
theorem place_unique {leaf' : PlacedToken} (hf : t.at? path = some f)
    (hi : f.node.children[i]? = some (.token leaf)) (hg : t.at? path' = some g)
    (hj : g.node.children[j]? = some (.token leaf')) (hindex : leaf.index = leaf'.index) :
    path = path' ∧ i = j := by
  have hleaf :=
    tokenFocus_mem (at?_mem hf) (PlacedNode.mem_childTokens.mpr (List.mem_of_getElem? hi))
  have hleaf' :=
    tokenFocus_mem (at?_mem hg) (PlacedNode.mem_childTokens.mpr (List.mem_of_getElem? hj))
  have hfocus := eq_of_index hleaf hleaf' hindex
  have hpath : path = path' := by
    apply path_unique hf hg
    rw [(List.cons.inj (congrArg TokenFocus.above hfocus)).1]
  subst hpath
  obtain rfl := Option.some.inj (hf.symm.trans hg)
  exact ⟨rfl, eq_of_childTokens (at?_mem hf) hi hj hindex⟩

/-- What stands around a node is at the end of a shorter path. -/
theorem exists_at?_of_above (h : t.at? path = some f) {n : PlacedNode} (hn : n ∈ f.above) :
    ∃ before i after g, path = before ++ i :: after ∧ t.at? before = some g ∧ g.node = n := by
  induction path using List.reverseRecOn generalizing f with
  | nil =>
    cases h
    simp at hn
  | append_singleton path i ih =>
    obtain ⟨g, hg, -, habove⟩ := at?_concat_eq_some.mp h
    rw [habove] at hn
    rcases List.mem_cons.mp hn with rfl | hn
    · exact ⟨path, i, [], g, rfl, hg, rfl⟩
    · obtain ⟨before, j, after, g', rfl, hg', hnode⟩ := ih hg hn
      exact ⟨before, j, after ++ [i], g', by simp, hg', hnode⟩

/-- The path to what stands within a node begins with the path to the node. -/
theorem exists_at?_below (hf : t.at? path = some f) (hg : g ∈ t.nodes)
    (hwithin : f.node ∈ g.ancestors) : ∃ inner, t.at? (path ++ inner) = some g := by
  obtain ⟨path', hpath'⟩ := exists_at? hg
  rcases List.mem_cons.mp hwithin with hself | habove
  · obtain rfl := focus_eq (at?_mem hf) hg (congrArg PlacedNode.index hself)
    exact ⟨[], by rwa [List.append_nil]⟩
  · obtain ⟨before, i, after, g', rfl, hg', hnode⟩ := exists_at?_of_above hpath' habove
    obtain rfl := path_unique hg' hf (congrArg PlacedNode.index hnode)
    exact ⟨i :: after, hpath'⟩

/-- A node below another one is reached by a path that goes on. -/
theorem exists_at?_of_descendant (hf : t.at? path = some f) {n : PlacedNode}
    (hn : n ∈ f.node.descendants) : ∃ inner g, t.at? (path ++ inner) = some g ∧ g.node = n := by
  rcases List.mem_cons.mp hn with rfl | hn
  · exact ⟨[], f, by rwa [List.append_nil], rfl⟩
  · rw [← Placed.node_fociOf (f.node :: f.above)] at hn
    obtain ⟨g, hg, rfl⟩ := List.mem_map.mp hn
    have hmem : g ∈ t.nodes := by
      have hf := at?_mem hf
      rw [nodes_eq] at hf ⊢
      exact Placed.foci_of_mem_foci _ hf hg
    have hwithin : f.node ∈ g.ancestors := by
      obtain ⟨inner, hinner⟩ := Placed.exists_outerOf _ hg
      rw [Focus.ancestors, hinner]
      exact List.mem_cons_of_mem _ (List.mem_append_right _ List.mem_cons_self)
    obtain ⟨inner, hinner⟩ := exists_at?_below hf hmem hwithin
    exact ⟨inner, g, hinner, rfl⟩

/-- What is at the end of a shorter path stands around the node. -/
theorem mem_above_of_at? {before after : List Nat} (hg : t.at? before = some g)
    (hf : t.at? (before ++ i :: after) = some f) : g.node ∈ f.above := by
  induction after using List.reverseRecOn generalizing f with
  | nil =>
    obtain ⟨g', hg', -, habove⟩ := at?_concat_eq_some.mp hf
    obtain rfl := Option.some.inj (hg.symm.trans hg')
    rw [habove]
    exact List.mem_cons_self
  | append_singleton after j ih =>
    rw [← List.cons_append, ← List.append_assoc] at hf
    obtain ⟨g', hg', -, habove⟩ := at?_concat_eq_some.mp hf
    rw [habove]
    exact List.mem_cons_of_mem _ (ih hg')

end Tree

/-! ## The comma beside a child -/

/-- A child is a comma if it is a token of that kind. -/
theorem commaAt?_eq_some {m : PlacedNode} {i : Nat} {leaf : PlacedToken} :
    commaAt? m i = some leaf ↔ m.children[i]? = some (.token leaf) ∧ leaf.kind = .commaToken := by
  constructor
  · intro h
    obtain ⟨p, hp, h⟩ := Option.bind_eq_some_iff.mp h
    obtain ⟨leaf', hleaf, h⟩ := Option.bind_eq_some_iff.mp h
    cases p with
    | node info children => cases hleaf
    | token leaf'' =>
      obtain rfl : leaf'' = leaf' := Option.some.inj hleaf
      by_cases hkind : leaf''.kind = .commaToken
      · rw [hkind] at h
        cases h
        exact ⟨hp, hkind⟩
      · rw [beq_eq_false_iff_ne.mpr hkind] at h
        cases h
  · rintro ⟨hp, hkind⟩
    rw [commaAt?, hp]
    simp [Placed.token?, hkind, guard]

/-- The place of the comma that goes away with the child at a place. -/
def PlacedNode.separatorPlace? (m : PlacedNode) (i : Nat) : Option Nat :=
  if isSeparatedList m.kind then
    if (commaAt? m (i + 1)).isSome then some (i + 1)
    else if i ≠ 0 ∧ (commaAt? m (i - 1)).isSome then some (i - 1) else none
  else none

/-- A comma stands at the place of the separator. -/
theorem PlacedNode.exists_comma {m : PlacedNode} {i j : Nat} (h : m.separatorPlace? i = some j) :
    ∃ comma, commaAt? m j = some comma := by
  rw [separatorPlace?] at h
  split at h
  next =>
    split at h
    next hbehind =>
      cases h
      exact Option.isSome_iff_exists.mp hbehind
    next =>
      split at h
      next hbefore =>
        cases h
        exact Option.isSome_iff_exists.mp hbefore.2
      next => cases h
  next => cases h

/-- The last step of a path is the place among the children of the parent. -/
theorem indexInParent?_eq {tree : Tree} {path : List Nat} {i : Nat} {f : Focus}
    (h : tree.at? (path ++ [i]) = some f) : f.indexInParent? = some i := by
  obtain ⟨g, hg, hchild, habove⟩ := Tree.at?_concat_eq_some.mp h
  rw [Focus.indexInParent?, Focus.parent?, habove]
  show g.node.children.findIdx? _ = some i
  obtain ⟨hi, hchild⟩ := List.getElem?_eq_some_iff.mp hchild
  rw [List.findIdx?_eq_some_iff_getElem]
  refine ⟨hi, by rw [hchild]; simp [Placed.node?, PlacedNode.placed], fun j hj => ?_⟩
  -- An earlier child with the same number would stand at the same place.
  intro heq
  obtain ⟨n, hn, hindex⟩ := (Option.any_eq_true ..).mp heq
  have hother : g.node.children[j]? = some n.placed := by
    rw [List.getElem?_eq_getElem (hj.trans hi)]
    cases hp : g.node.children[j] with
    | token leaf =>
      rw [hp] at hn
      cases hn
    | node info children =>
      rw [hp] at hn
      cases hn
      rfl
  have hsame :=
    Tree.eq_of_children (Tree.at?_mem hg) hother (List.getElem?_eq_some_iff.mpr ⟨hi, hchild⟩)
      (beq_iff_eq.mp hindex)
  omega

/-- The comma that goes away with a node, by its place. -/
theorem separator?_eq {tree : Tree} {path : List Nat} {i : Nat} {f g : Focus}
    (hg : tree.at? path = some g) (hf : tree.at? (path ++ [i]) = some f) :
    separator? f = (g.node.separatorPlace? i).bind (commaAt? g.node) := by
  have hplace := indexInParent?_eq hf
  obtain ⟨g', hg', -, habove⟩ := Tree.at?_concat_eq_some.mp hf
  obtain rfl := Option.some.inj (hg.symm.trans hg')
  rw [separator?, Focus.parent?, habove, hplace, PlacedNode.separatorPlace?]
  cases hlist : isSeparatedList g.node.kind with
  | false => simp [hlist, guard]
  | true =>
    simp only [List.head?_cons, Option.bind_eq_bind, Option.bind_some, hlist, guard, if_true]
    cases hbehind : commaAt? g.node (i + 1) with
    | some comma => simp [hbehind]
    | none =>
      by_cases hzero : i = 0
      · simp [hzero]
      · cases hbefore : commaAt? g.node (i - 1) with
        | some comma => simp [hzero, hbefore]
        | none => simp [hzero]

end AutoProperty
