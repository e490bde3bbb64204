import AutoProperty.Proofs.Syntax.Foci
import AutoProperty.Proofs.Syntax.Grammar

/-! # Where elements stand

What is known of elements of a tree wherever they stand in it: their shape fits the grammar, and
their nodes and tokens are nodes and tokens of the tree. Tokens side by side are numbered
without gaps.
-/

namespace AutoProperty

namespace Element

mutual

/-- Without its place, a placed element is what was placed. -/
theorem element_place (c : Cursor) (e : Element) : (e.place c).1.element = e := by
  cases e with
  | token t => simp [place, Placed.element]
  | node kind children => simpa [place, Placed.element] using elementsOf_placeAll _ children

theorem elementsOf_placeAll (c : Cursor) (es : List Element) :
    Placed.elementsOf (placeAll c es).1 = es := by
  cases es with
  | nil => simp [placeAll, Placed.elementsOf]
  | cons e es => simp [placeAll, Placed.elementsOf, element_place c e, elementsOf_placeAll _ es]

end

end Element

namespace Placed

@[simp]
theorem kind_element (p : Placed) : p.element.kind = p.kind := by
  cases p with
  | token t => simp [element, kind, PlacedToken.kind]
  | node info children => simp [element, kind]

theorem elementsOf_eq_map (ps : List Placed) : elementsOf ps = ps.map element := by
  induction ps with
  | nil => rfl
  | cons p ps ih => rw [elementsOf, ih, List.map_cons]

theorem map_kind_elementsOf (ps : List Placed) :
    (elementsOf ps).map Element.kind = ps.map kind := by
  simp [elementsOf_eq_map, Function.comp_def]

/-- A conforming element of a token's kind is a token. -/
theorem exists_token {p : Placed} (h : p.element.Conforms) (hkind : p.kind.isToken) :
    ∃ leaf, p = .token leaf := by
  cases p with
  | token leaf => exact ⟨leaf, rfl⟩
  | node info children =>
    cases h with
    | node hnode =>
      have hnot : info.kind.isToken = false := by simpa [Kind.isNode] using hnode
      exact absurd (hnot.symm.trans hkind) Bool.false_ne_true

/-- A conforming element of a node's kind is a node. -/
theorem exists_node {p : Placed} (h : p.element.Conforms) (hkind : p.kind.isNode) :
    ∃ n : PlacedNode, p = n.placed := by
  cases p with
  | token leaf =>
    cases h with
    | token htoken =>
      rw [kind, Kind.isNode, show leaf.kind.isToken = true from htoken] at hkind
      exact absurd hkind Bool.false_ne_true
  | node info children => exact ⟨⟨info, children⟩, rfl⟩

def tokenCount (ps : List Placed) : Nat :=
  (tokensOf ps).length

@[simp]
theorem tokenCount_nil : tokenCount [] = 0 := rfl

theorem tokenCount_cons (p : Placed) (ps : List Placed) :
    tokenCount (p :: ps) = tokenCount [p] + tokenCount ps := by
  simp [tokenCount, tokensOf]

@[simp]
theorem tokenCount_token (leaf : PlacedToken) (ps : List Placed) :
    tokenCount (.token leaf :: ps) = tokenCount ps + 1 := by
  simp [tokenCount, tokensOf, Placed.tokens]

@[simp]
theorem tokenCount_node (info : NodeInfo) (children : List Placed) :
    tokenCount [.node info children] = tokenCount children := by
  simp [tokenCount, tokensOf, Placed.tokens]

/-- The tokens of the elements are numbered from `first` on. -/
def Numbered (first : Nat) (ps : List Placed) : Prop :=
  (tokensOf ps).map (·.index) = List.range' first (tokenCount ps)

namespace Numbered

variable {first : Nat} {p : Placed} {ps : List Placed}

theorem cons (h : Numbered first (p :: ps)) :
    Numbered first [p] ∧ Numbered (first + tokenCount [p]) ps := by
  have hlength : (p.tokens.map (·.index)).length = (List.range' first (tokenCount [p])).length := by
    simp [tokenCount, tokensOf]
  rw [Numbered, tokenCount_cons, ← List.range'_append_1, tokensOf, List.map_append] at h
  obtain ⟨hleft, hright⟩ := List.append_inj h hlength
  exact ⟨by simpa [Numbered, tokensOf] using hleft, hright⟩

theorem head (h : Numbered first (p :: ps)) : Numbered first [p] :=
  h.cons.1

theorem tail (h : Numbered first (p :: ps)) : Numbered (first + tokenCount [p]) ps :=
  h.cons.2

theorem children {info : NodeInfo} {children : List Placed}
    (h : Numbered first [.node info children]) : Numbered first children := by
  simpa [Numbered, tokensOf, Placed.tokens] using h

theorem index_token {leaf : PlacedToken} (h : Numbered first [.token leaf]) :
    leaf.index = first := by
  simpa [Numbered, tokensOf, Placed.tokens] using h

theorem index_mem (h : Numbered first ps) {leaf : PlacedToken} (hleaf : leaf ∈ tokensOf ps) :
    first ≤ leaf.index ∧ leaf.index < first + tokenCount ps := by
  have hmem : leaf.index ∈ (tokensOf ps).map (·.index) := List.mem_map_of_mem hleaf
  rwa [h, List.mem_range'_1] at hmem

/-- Numbers in a row are those of its elements in turn. -/
theorem mem (h : Numbered first ps) (hp : p ∈ ps) :
    ∃ k, first ≤ k ∧ k + tokenCount [p] ≤ first + tokenCount ps ∧ Numbered k [p] := by
  induction ps generalizing first with
  | nil => exact absurd hp List.not_mem_nil
  | cons q qs ih =>
    have hcount := tokenCount_cons q qs
    obtain rfl | hp := List.mem_cons.mp hp
    · exact ⟨first, Nat.le_refl _, by omega, h.head⟩
    · obtain ⟨k, hk, hlimit, hnumbered⟩ := ih h.tail hp
      exact ⟨k, by omega, by omega, hnumbered⟩

end Numbered

/-- The elements stand below `above` in the tree. -/
structure Sited (tree : Tree) (above : List PlacedNode) (ps : List Placed) : Prop where
  conforms : ∀ p ∈ ps, p.element.Conforms
  nodes : fociOf above ps ⊆ tree.nodes
  tokens : tokenFociOf above ps ⊆ tree.tokens

namespace Sited

variable {tree : Tree} {above : List PlacedNode} {p : Placed} {ps : List Placed}

theorem mem (h : Sited tree above ps) (hp : p ∈ ps) : Sited tree above [p] where
  conforms q hq := h.conforms q (List.mem_singleton.mp hq ▸ hp)
  nodes _ hf := h.nodes (foci_subset hp (by simpa [fociOf] using hf))
  tokens _ hf := h.tokens (tokenFoci_subset hp (by simpa [tokenFociOf] using hf))

theorem head (h : Sited tree above (p :: ps)) : Sited tree above [p] :=
  h.mem List.mem_cons_self

theorem tail (h : Sited tree above (p :: ps)) : Sited tree above ps where
  conforms q hq := h.conforms q (List.mem_cons_of_mem p hq)
  nodes _ hf := h.nodes (List.mem_append_right _ hf)
  tokens _ hf := h.tokens (List.mem_append_right _ hf)

variable {info : NodeInfo} {cs : List Placed} {leaf : PlacedToken}

theorem children (h : Sited tree above [.node info cs]) :
    Sited tree (⟨info, cs⟩ :: above) cs where
  conforms q hq := by
    have hconforms := h.conforms _ List.mem_cons_self
    rw [element] at hconforms
    exact hconforms.child (by rw [elementsOf_eq_map]; exact List.mem_map_of_mem hq)
  nodes f hf := h.nodes (by simp [fociOf, foci, hf])
  tokens f hf := h.tokens (by simpa [tokenFociOf, tokenFoci] using hf)

/-- The kinds of the children fit the node. -/
theorem fit (h : Sited tree above [.node info cs]) : ChildrenFit info.kind (cs.map kind) := by
  have hconforms := h.conforms _ List.mem_cons_self
  rw [element] at hconforms
  rw [← map_kind_elementsOf]
  exact hconforms.fit

theorem focus_mem (h : Sited tree above [.node info cs]) : ⟨⟨info, cs⟩, above⟩ ∈ tree.nodes :=
  h.nodes List.mem_cons_self

theorem tokenFocus_mem (h : Sited tree above [.token leaf]) : ⟨leaf, above⟩ ∈ tree.tokens :=
  h.tokens List.mem_cons_self

theorem exists_token (h : Sited tree above [p]) (hkind : p.kind.isToken) :
    ∃ leaf, p = .token leaf :=
  Placed.exists_token (h.conforms p List.mem_cons_self) hkind

theorem exists_node (h : Sited tree above [p]) (hkind : p.kind.isNode) :
    ∃ n : PlacedNode, p = n.placed :=
  Placed.exists_node (h.conforms p List.mem_cons_self) hkind

theorem not_isToken {n : PlacedNode} (h : Sited tree above [n.placed]) : ¬n.kind.isToken := by
  intro htoken
  obtain ⟨leaf, hleaf⟩ := h.exists_token htoken
  cases hleaf

end Sited

mutual

/-- What passes from a node to its children holds of every node in an element. -/
theorem of_mem_foci {P : Element → Prop}
    (hchild : ∀ (kind : Kind) (children : List Element), P (.node kind children) →
      ∀ e ∈ children, P e) {above : List PlacedNode} {f : Focus} (p : Placed) (h : P p.element)
    (hf : f ∈ p.foci above) : P f.node.placed.element := by
  cases p with
  | token t => exact absurd hf List.not_mem_nil
  | node info children =>
    obtain rfl | hf := List.mem_cons.mp hf
    · exact h
    · refine of_mem_fociOf hchild children
        (fun p hp => hchild info.kind (elementsOf children) ?_ _ ?_) hf
      · rwa [element] at h
      · rw [elementsOf_eq_map]
        exact List.mem_map_of_mem hp

theorem of_mem_fociOf {P : Element → Prop}
    (hchild : ∀ (kind : Kind) (children : List Element), P (.node kind children) →
      ∀ e ∈ children, P e) {above : List PlacedNode} {f : Focus} (ps : List Placed)
    (h : ∀ p ∈ ps, P p.element) (hf : f ∈ fociOf above ps) : P f.node.placed.element := by
  cases ps with
  | nil => exact absurd hf List.not_mem_nil
  | cons p ps =>
    obtain hf | hf := List.mem_append.mp hf
    · exact of_mem_foci hchild p (h p List.mem_cons_self) hf
    · exact of_mem_fociOf hchild ps (fun q hq => h q (List.mem_cons_of_mem _ hq)) hf

end

/-- A token below some elements is below one of them. -/
theorem exists_of_mem_tokenFociOf {above : List PlacedNode} {ps : List Placed} {f : TokenFocus}
    (h : f ∈ tokenFociOf above ps) : ∃ p ∈ ps, f ∈ p.tokenFoci above := by
  induction ps with
  | nil => exact absurd h List.not_mem_nil
  | cons p ps ih =>
    obtain h | h := List.mem_append.mp h
    · exact ⟨p, List.mem_cons_self, h⟩
    · obtain ⟨q, hq, hf⟩ := ih h
      exact ⟨q, List.mem_cons_of_mem p hq, hf⟩

end Placed

theorem Tree.numbered (t : Tree) : Placed.Numbered 0 t.top.children := by
  have hleaves := (Element.tokens_placeAll { Cursor.start with node := 1 } t.root.children).1
  rw [← top_children] at hleaves
  rw [Placed.Numbered, Placed.tokenCount, hleaves, index_leavesFrom, length_leavesFrom]
  rfl

/-- The children of the root are sited in the tree. -/
theorem Tree.sited (t : Tree) (h : t.root.element.Conforms) :
    Placed.Sited t [t.top] t.top.children where
  conforms p hp := by
    have hmem : p.element ∈ t.root.children := by
      rw [Tree.top_children] at hp
      rw [← Element.elementsOf_placeAll { Cursor.start with node := 1 } t.root.children,
        Placed.elementsOf_eq_map]
      exact List.mem_map_of_mem hp
    exact h.child hmem
  nodes := t.fociOf_subset_nodes
  tokens _ hf := by rwa [← tokenFociOf_eq_tokens]

theorem Tree.element_top (t : Tree) : t.top.placed.element = t.root.element := by
  rw [top_eq, PlacedNode.placed, Placed.element]
  exact congrArg (Element.node t.root.kind) (Element.elementsOf_placeAll _ _)

/-- What holds of the root and passes from a node to its children holds of every node. -/
theorem Tree.of_mem_nodes {t : Tree} {P : Element → Prop}
    (hchild : ∀ (kind : Kind) (children : List Element), P (.node kind children) →
      ∀ e ∈ children, P e) (h : P t.root.element) {f : Focus} (hf : f ∈ t.nodes) :
    P f.node.placed.element := by
  rw [nodes_eq] at hf
  exact Placed.of_mem_foci hchild _ (t.element_top ▸ h) hf

/-- Every node of a conforming tree conforms. -/
theorem Tree.conforms_of_mem {t : Tree} (h : t.root.element.Conforms) {f : Focus}
    (hf : f ∈ t.nodes) : f.node.placed.element.Conforms :=
  of_mem_nodes (fun _ _ hnode _ he => hnode.child he) h hf

end AutoProperty
