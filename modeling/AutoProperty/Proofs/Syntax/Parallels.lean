import AutoProperty.Proofs.Syntax.Alike
import AutoProperty.Proofs.Syntax.Layouts

/-! # Trees side by side

Where two trees are alike and nodes keep their numbers, what stands around a node or a token has
the same numbers, too.
-/

namespace AutoProperty

variable {leaf : PlacedToken → PlacedToken → Prop}

/-- The numbers of what stands around are the same. -/
def SameAbove (above above' : List PlacedNode) : Prop :=
  above'.map (·.index) = above.map (·.index)

theorem SameAbove.cons {above above' : List PlacedNode} (h : SameAbove above above')
    {n n' : PlacedNode} (hn : n'.index = n.index) : SameAbove (n :: above) (n' :: above') := by
  rw [SameAbove, List.map_cons, List.map_cons, hn, h]

theorem SameAbove.any_index {above above' : List PlacedNode} (h : SameAbove above above')
    (i : Nat) : above'.any (·.index == i) = above.any (·.index == i) := by
  have hany (ns : List PlacedNode) : ns.any (·.index == i) = (ns.map (·.index)).any (· == i) := by
    rw [List.any_map]
    rfl
  rw [hany, hany, h]

def Tree.namesOutside (tree : Tree) (nodes : List PlacedNode) : List TokenFocus :=
  tree.tokens.filter fun g => g.leaf.kind == .identifierToken && !nodes.any g.isIn

namespace Placed

mutual

theorem Alike.foci {p p' : Placed} (h : Alike leaf Eq p p') {above above' : List PlacedNode}
    (habove : SameAbove above above') :
    List.Forall₂ (fun f f' : Focus => f.node.Alike leaf Eq f'.node ∧ SameAbove f.above f'.above)
      (p.foci above) (p'.foci above') := by
  cases h with
  | token => exact .nil
  | node hindex hkind hchildren =>
    exact .cons ⟨.node hindex hkind hchildren, habove⟩
      (Alikes.foci hchildren (habove.cons hindex.symm))

theorem Alikes.foci {ps ps' : List Placed} (h : Alikes leaf Eq ps ps')
    {above above' : List PlacedNode} (habove : SameAbove above above') :
    List.Forall₂ (fun f f' : Focus => f.node.Alike leaf Eq f'.node ∧ SameAbove f.above f'.above)
      (fociOf above ps) (fociOf above' ps') := by
  cases h with
  | nil => exact .nil
  | cons hp hps => exact List.rel_append (Alike.foci hp habove) (Alikes.foci hps habove)

end

mutual

theorem Alike.tokenFoci {p p' : Placed} (h : Alike leaf Eq p p') {above above' : List PlacedNode}
    (habove : SameAbove above above') :
    List.Forall₂ (fun g g' : TokenFocus => leaf g.leaf g'.leaf ∧ SameAbove g.above g'.above)
      (p.tokenFoci above) (p'.tokenFoci above') := by
  cases h with
  | token ha => exact .cons ⟨ha, habove⟩ .nil
  | node hindex _ hchildren => exact Alikes.tokenFoci hchildren (habove.cons hindex.symm)

theorem Alikes.tokenFoci {ps ps' : List Placed} (h : Alikes leaf Eq ps ps')
    {above above' : List PlacedNode} (habove : SameAbove above above') :
    List.Forall₂ (fun g g' : TokenFocus => leaf g.leaf g'.leaf ∧ SameAbove g.above g'.above)
      (tokenFociOf above ps) (tokenFociOf above' ps') := by
  cases h with
  | nil => exact .nil
  | cons hp hps => exact List.rel_append (Alike.tokenFoci hp habove) (Alikes.tokenFoci hps habove)

end

end Placed

/-- The trees are alike, and their nodes have the same numbers. -/
structure Tree.Parallel (leaf : PlacedToken → PlacedToken → Prop) (tree tree' : Tree) : Prop where
  kind : tree'.root.kind = tree.root.kind
  children : Placed.Alikes leaf Eq tree.top.children tree'.top.children

namespace Tree.Parallel

variable {tree tree' : Tree}

theorem sameAbove_top (tree tree' : Tree) : SameAbove [tree.top] [tree'.top] := by
  rw [SameAbove, List.map_singleton, List.map_singleton, index_top, index_top]

variable (h : tree.Parallel leaf tree')
include h

theorem nodes :
    List.Forall₂ (fun f f' : Focus => f.node.Alike leaf Eq f'.node ∧ SameAbove f.above f'.above)
      tree.nodes tree'.nodes := by
  rw [nodes_eq, nodes_eq]
  refine .cons ⟨.node ?_ ?_ h.children, rfl⟩ (h.children.foci (sameAbove_top tree tree'))
  · exact (index_top tree).trans (index_top tree').symm
  · rw [tree.top_eq, tree'.top_eq]
    exact h.kind

theorem tokens :
    List.Forall₂ (fun g g' : TokenFocus => leaf g.leaf g'.leaf ∧ SameAbove g.above g'.above)
      tree.tokens tree'.tokens := by
  rw [← tokenFociOf_eq_tokens, ← tokenFociOf_eq_tokens]
  exact h.children.tokenFoci (sameAbove_top tree tree')

/-- Nodes with one number are alike. -/
theorem alike {f f' : Focus} (hf : f ∈ tree.nodes) (hf' : f' ∈ tree'.nodes)
    (hindex : f'.node.index = f.node.index) :
    f.node.Alike leaf Eq f'.node ∧ SameAbove f.above f'.above := by
  obtain ⟨k, hk, halike, habove⟩ := exists_of_forall₂ h.nodes hf
  obtain rfl := focus_eq hk hf' (halike.index.symm.trans hindex.symm)
  exact ⟨halike, habove⟩

/-- The names outside of nodes are those outside of the nodes with the same numbers. -/
theorem namesOutside (hleaf : KeepsTokens leaf) {ns ns' : List PlacedNode}
    (hns : ns'.map (·.index) = ns.map (·.index)) :
    List.Forall₂ (fun g g' : TokenFocus => leaf g.leaf g'.leaf ∧ SameAbove g.above g'.above)
      (tree.namesOutside ns) (tree'.namesOutside ns') := by
  refine List.rel_filter (fun g g' hgg' => ?_) h.tokens
  have hany (g : TokenFocus) (ns : List PlacedNode) : ns.any g.isIn = (ns.map (·.index)).any
      fun i => g.above.any (·.index == i) := by
    rw [List.any_map]
    rfl
  simp only [hleaf.kind hgg'.1, hany, hns, hgg'.2.any_index]

end Tree.Parallel

end AutoProperty
