import AutoProperty.Proofs.Symbol.Revision
import AutoProperty.Proofs.Syntax.EditedShapes

/-! # Revisions by ledgers

The ledger of a change to a tree says what is kept of it, so it makes a revision. Numbers are
what tokens and nodes go by there: no two of one tree have the same.
-/

namespace AutoProperty

theorem Tree.nodup_tokensOf (t : Tree) :
    ((Placed.tokensOf t.top.children).map (·.index)).Nodup := by
  rw [t.numbered]
  exact List.nodup_range' 1

namespace Ledger

variable {x : Ledger} {leaf : PlacedToken → PlacedToken → Prop} {c : Reshaping} {tree tree' : Tree}

def revision (x : Ledger) (document : DocumentId) (tree tree' : Tree) (c : Reshaping) :
    Revision where
  document := document
  tree := tree
  tree' := tree'
  leaf := x.Leaf
  node := x.Node
  replaced _ := False
  change := x.change c

theorem eq_of_pairs {α β : Type} {f : α → Nat} {g : β → Nat} {ps : List (α × β)}
    (hf : ((ps.map Prod.fst).map f).Nodup) (hg : ((ps.map Prod.snd).map g).Nodup) {a b : α}
    {a' b' : β} (ha : (a, a') ∈ ps) (hb : (b, b') ∈ ps) :
    (f b = f a → b = a) ∧ (g b' = g a' ↔ f b = f a) := by
  rw [List.map_map] at hf hg
  have hfst (h : f b = f a) : (b, b') = (a, a') := List.inj_on_of_nodup_map hf hb ha h
  have hsnd (h : g b' = g a') : (b, b') = (a, a') := List.inj_on_of_nodup_map hg hb ha h
  exact ⟨fun h => congrArg Prod.fst (hfst h), fun h => congrArg (f ·.1) (hsnd h),
    fun h => congrArg (g ·.2) (hfst h)⟩

namespace Records

variable (h : x.Records leaf c tree.top tree.top.children tree'.top.children)
include h

theorem leaves_unique {a a' b b' : PlacedToken} (ha : x.Leaf a a') (hb : x.Leaf b b') :
    (b.index = a.index → b = a) ∧ (b'.index = a'.index ↔ b.index = a.index) :=
  eq_of_pairs (tree.nodup_tokensOf.sublist (h.inOrder.map _))
    (tree'.nodup_tokensOf.sublist (h.inOrder'.map _)) ha hb

/-- Numbers of nodes that are kept are not used twice. -/
theorem nodes_unique {i i' j j' : Nat} (hi : x.Node i i') (hj : x.Node j j') : j' = i' ↔ j = i := by
  obtain ⟨n, n', hn, rfl, rfl⟩ := hi
  obtain ⟨k, k', hk, rfl, rfl⟩ := hj
  have hnodup : ((x.nodes.map Prod.fst).map (·.index)).Nodup :=
    (((h.nodes.map _).nodup_iff.mpr tree.nodup_nodesOf).sublist
      ((List.sublist_append_left _ _).map _))
  have hnodup' : ((x.nodes.map Prod.snd).map (·.index)).Nodup :=
    (((h.nodes'.map _).nodup_iff.mpr tree'.nodup_nodesOf).sublist
      ((List.sublist_append_left _ _).map _))
  exact (eq_of_pairs hnodup hnodup' hn hk).2

theorem index_ne_dropped {p : Placed} (hp : p ∈ x.dropped) {b : PlacedToken} (hb : b ∈ p.tokens)
    {a a' : PlacedToken} (ha : x.Leaf a a') : a.index ≠ b.index := by
  have hnodup := (h.tokens.map (·.index)).nodup_iff.mpr tree.nodup_tokensOf
  rw [List.map_append, List.nodup_append] at hnodup
  exact hnodup.2.2 _ (List.mem_map_of_mem (List.mem_map_of_mem ha)) _
    (List.mem_map_of_mem (Placed.tokens_subset hp hb))

theorem index_ne_added {p : Placed} (hp : p ∈ x.added) {b : PlacedToken} (hb : b ∈ p.tokens)
    {a a' : PlacedToken} (ha : x.Leaf a a') : a'.index ≠ b.index := by
  have hnodup := (h.tokens'.map (·.index)).nodup_iff.mpr tree'.nodup_tokensOf
  rw [List.map_append, List.nodup_append] at hnodup
  exact hnodup.2.2 _ (List.mem_map_of_mem (List.mem_map_of_mem (f := Prod.snd) ha)) _
    (List.mem_map_of_mem (Placed.tokens_subset hp hb))

end Records

/-- A change that only takes out and puts in what may go away or come in, and opens what it is
made in. -/
structure IsRevising (c : Reshaping) : Prop extends c.IsModest where
  kept {p : Placed} : c.kept p →
    ¬p.kind.isScope ∧ p.kind ≠ .block ∧ p.kind ≠ .arrowExpressionClause ∧
    p.kind ≠ .accessorList ∧ ¬p.kind.isAccessor
  undeclaring {n : PlacedNode} {p : Placed} : c.added n p → Placed.Undeclaring [p]

/-- A ledger makes a revision in which names can be followed. -/
theorem Records.follows
    (h : x.Records PlacedToken.SameCore c tree.top tree.top.children tree'.top.children)
    (hconforms : tree.root.element.Conforms) (hwords : tree.HasWords) (hc : IsRevising c)
    (document : DocumentId) : (x.revision document tree tree' c).Follows where
  kind ha := (h.leaf _ _ ha).kind
  present ha := by rw [(h.leaf _ _ ha).text]
  same _ _ ha := (h.leaf _ _ ha).text
  conforms := hconforms
  words := hwords
  names _ _ _ _ _ _ ha := (h.leaf _ _ ha).text
  unique ha hb := (h.leaves_unique ha hb).1
  leafs ha hb := (h.leaves_unique ha hb).2
  nodes hi hj := h.nodes_unique hi hj
  text ha _ := (h.leaf _ _ ha).text
  renamable _ hreplaced := hreplaced.elim
  reshaped := h.reshaped
  modest := ⟨fun hn => hc.opened hn, fun hp => hc.dropped hp.1, fun hp => hc.added hp.1⟩
  kept hp := hc.kept hp
  undeclaring hp := hc.undeclaring hp.1
  dropped hp _ hb _ _ ha := h.index_ne_dropped hp.2 hb ha
  added hp _ hb _ _ ha := h.index_ne_added hp.2 hb ha

end Ledger

end AutoProperty
