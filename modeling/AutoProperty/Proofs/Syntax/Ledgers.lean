import AutoProperty.Proofs.Syntax.Layouts
import AutoProperty.Proofs.Syntax.Reshaping

/-! # Ledgers of changes

A ledger says of each token and each node of a tree what a change has made of it: what it has
stayed as, or that it was taken out. It also lists what was put in. No token and no node appears
twice.
-/

namespace AutoProperty

namespace Placed

variable {leaf leaf' : PlacedToken → PlacedToken → Prop} {node node' : Nat → Nat → Prop}
  {c c' : Reshaping} {m : PlacedNode}

mutual

theorem Alike.imp {p p' : Placed} (hleaf : ∀ a a', leaf a a' → leaf' a a')
    (hnode : ∀ i i', node i i' → node' i i') (h : Alike leaf node p p') :
    Alike leaf' node' p p' := by
  cases h with
  | token h => exact .token (hleaf _ _ h)
  | node hindex hkind hchildren =>
    exact .node (hnode _ _ hindex) hkind (Alikes.imp hleaf hnode hchildren)

theorem Alikes.imp {ps ps' : List Placed} (hleaf : ∀ a a', leaf a a' → leaf' a a')
    (hnode : ∀ i i', node i i' → node' i i') (h : Alikes leaf node ps ps') :
    Alikes leaf' node' ps ps' := by
  cases h with
  | nil => exact .nil
  | cons hp hps => exact .cons (Alike.imp hleaf hnode hp) (Alikes.imp hleaf hnode hps)

end

theorem Reshaped.imp {ps ps' : List Placed} (hleaf : ∀ a a', leaf a a' → leaf' a a')
    (hnode : ∀ i i', node i i' → node' i i') (hkept : ∀ p, c.kept p → c'.kept p)
    (hwithin : c.Within c') (h : Reshaped leaf node c m ps ps') :
    Reshaped leaf' node' c' m ps ps' := by
  induction h with
  | nil => exact .nil
  | keep hp ha _ ih => exact .keep (hkept _ hp) (ha.imp hleaf hnode) ih
  | inside hn hindex hkind _ _ ihchildren ih =>
    exact .inside (hwithin.opened hn) (hnode _ _ hindex) hkind ihchildren ih
  | drop hp _ ih => exact .drop (hwithin.dropped hp) ih
  | add hp _ ih => exact .add (hwithin.added hp) ih

end Placed

/-- What becomes of the tokens and nodes of a tree. -/
structure Ledger where
  leaves : List (PlacedToken × PlacedToken)
  nodes : List (PlacedNode × PlacedNode)
  dropped : List Placed
  added : List Placed

namespace Ledger

def empty : Ledger :=
  ⟨[], [], [], []⟩

def append (x y : Ledger) : Ledger :=
  ⟨x.leaves ++ y.leaves, x.nodes ++ y.nodes, x.dropped ++ y.dropped, x.added ++ y.added⟩

def Leaf (x : Ledger) (a a' : PlacedToken) : Prop :=
  (a, a') ∈ x.leaves

def Node (x : Ledger) (i i' : Nat) : Prop :=
  ∃ n n', (n, n') ∈ x.nodes ∧ n.index = i ∧ n'.index = i'

/-- The change takes out and puts in what the ledger lists. -/
def change (x : Ledger) (c : Reshaping) : Reshaping where
  kept := c.kept
  opened := c.opened
  dropped p := c.dropped p ∧ p ∈ x.dropped
  added m p := c.added m p ∧ p ∈ x.added

/-- The nodes among the second elements were put in or were among the first ones. -/
def Covers (x : Ledger) (ps ps' : List Placed) : Prop :=
  ∀ n' : PlacedNode, n'.placed ∈ ps' → n'.placed ∈ x.added ∨ ∃ n, (n, n') ∈ x.nodes ∧ n.placed ∈ ps

/-- The ledger of a change to elements of a node. -/
structure Records (x : Ledger) (leaf : PlacedToken → PlacedToken → Prop) (c : Reshaping)
    (m : PlacedNode) (ps ps' : List Placed) : Prop where
  reshaped : Placed.Reshaped x.Leaf x.Node (x.change c) m ps ps'
  leaf : ∀ a a', x.Leaf a a' → leaf a a'
  inOrder : (x.leaves.map Prod.fst).Sublist (Placed.tokensOf ps)
  inOrder' : (x.leaves.map Prod.snd).Sublist (Placed.tokensOf ps')
  tokens : (x.leaves.map Prod.fst ++ Placed.tokensOf x.dropped).Perm (Placed.tokensOf ps)
  tokens' : (x.leaves.map Prod.snd ++ Placed.tokensOf x.added).Perm (Placed.tokensOf ps')
  nodes : (x.nodes.map Prod.fst ++ Placed.nodesOf x.dropped).Perm (Placed.nodesOf ps)
  nodes' : (x.nodes.map Prod.snd ++ Placed.nodesOf x.added).Perm (Placed.nodesOf ps')
  dropped : ∀ p ∈ x.dropped, c.dropped p
  /-- Nodes that are still there were kept with all that is in them, or were opened. -/
  remains : ∀ n n', (n, n') ∈ x.nodes → c.opened n ∨ ∃ p, c.kept p ∧ n ∈ p.nodes
  covers : x.Covers ps ps'
  inside : ∀ n n', (n, n') ∈ x.nodes → n'.kind = n.kind ∧ x.Covers n.children n'.children
  /-- What is put in stands among the elements or in a node that was opened. -/
  sites : ∀ p ∈ x.added, c.added m p ∧ p ∈ ps' ∨ ∃ n n', (n, n') ∈ x.nodes ∧ c.opened n ∧
    c.added n p ∧ p ∈ n'.children

variable {leaf : PlacedToken → PlacedToken → Prop} {node : Nat → Nat → Prop} {c : Reshaping}
  {x y : Ledger} {m : PlacedNode}

/-- The ledger of elements that have kept their shape. -/
structure Copies (x : Ledger) (leaf : PlacedToken → PlacedToken → Prop) (ps ps' : List Placed) :
    Prop where
  leaf : ∀ a a', x.Leaf a a' → leaf a a'
  tokens : x.leaves.map Prod.fst = Placed.tokensOf ps
  tokens' : x.leaves.map Prod.snd = Placed.tokensOf ps'
  nodes : x.nodes.map Prod.fst = Placed.nodesOf ps
  nodes' : x.nodes.map Prod.snd = Placed.nodesOf ps'
  dropped : x.dropped = []
  added : x.added = []
  covers : x.Covers ps ps'
  inside : ∀ n n', (n, n') ∈ x.nodes → n'.kind = n.kind ∧ x.Covers n.children n'.children

theorem append_leaf_left {a a' : PlacedToken} (h : x.Leaf a a') : (x.append y).Leaf a a' :=
  List.mem_append_left _ h

theorem append_leaf_right {a a' : PlacedToken} (h : y.Leaf a a') : (x.append y).Leaf a a' :=
  List.mem_append_right _ h

theorem append_node_left {i i' : Nat} (h : x.Node i i') : (x.append y).Node i i' := by
  obtain ⟨n, n', hmem, hindex⟩ := h
  exact ⟨n, n', List.mem_append_left _ hmem, hindex⟩

theorem append_node_right {i i' : Nat} (h : y.Node i i') : (x.append y).Node i i' := by
  obtain ⟨n, n', hmem, hindex⟩ := h
  exact ⟨n, n', List.mem_append_right _ hmem, hindex⟩

theorem Covers.append {ps ps' qs qs' : List Placed} (hx : x.Covers ps ps') (hy : y.Covers qs qs') :
    (x.append y).Covers (ps ++ qs) (ps' ++ qs') := by
  intro n' hn'
  obtain hn' | hn' := List.mem_append.mp hn'
  · exact (hx n' hn').imp (List.mem_append_left _) fun ⟨n, hn, hmem⟩ =>
      ⟨n, List.mem_append_left _ hn, List.mem_append_left _ hmem⟩
  · exact (hy n' hn').imp (List.mem_append_right _) fun ⟨n, hn, hmem⟩ =>
      ⟨n, List.mem_append_right _ hn, List.mem_append_right _ hmem⟩

theorem Covers.imp {ps ps' : List Placed} (h : x.Covers ps ps') (hadded : x.added ⊆ y.added)
    (hnodes : x.nodes ⊆ y.nodes) : y.Covers ps ps' :=
  fun n' hn' => (h n' hn').imp (@hadded _) fun ⟨n, hn, hmem⟩ => ⟨n, hnodes hn, hmem⟩

theorem inside_append
    (hx : ∀ n n', (n, n') ∈ x.nodes → n'.kind = n.kind ∧ x.Covers n.children n'.children)
    (hy : ∀ n n', (n, n') ∈ y.nodes → n'.kind = n.kind ∧ y.Covers n.children n'.children) :
    ∀ n n', (n, n') ∈ (x.append y).nodes →
      n'.kind = n.kind ∧ (x.append y).Covers n.children n'.children := by
  intro n n' hn
  obtain hn | hn := List.mem_append.mp hn
  · exact (hx n n' hn).imp_right (·.imp (List.subset_append_left _ _) (List.subset_append_left _ _))
  · exact (hy n n' hn).imp_right
      (·.imp (List.subset_append_right _ _) (List.subset_append_right _ _))

/-- A node is put in front of those in it. -/
theorem inside_cons {n n' : PlacedNode} (hkind : n'.kind = n.kind)
    (hcovers : x.Covers n.children n'.children)
    (hx : ∀ k k', (k, k') ∈ x.nodes → k'.kind = k.kind ∧ x.Covers k.children k'.children) :
    let y : Ledger := { x with nodes := (n, n') :: x.nodes }
    y.Covers [n.placed] [n'.placed] ∧ ∀ k k', (k, k') ∈ y.nodes →
    k'.kind = k.kind ∧ y.Covers k.children k'.children := by
  intro y
  refine ⟨fun k' hk' => .inr ⟨n, ?_, List.mem_singleton_self _⟩, fun k k' hk => ?_⟩
  · have heq := List.mem_singleton.mp hk'
    have hkey : (n, k') = (n, n') := by
      cases k'
      cases n'
      cases heq
      rfl
    exact hkey ▸ List.mem_cons_self
  · obtain heq | hk := List.mem_cons.mp hk
    · obtain ⟨rfl, rfl⟩ := Prod.mk.inj heq
      exact ⟨hkind, hcovers.imp (List.Subset.refl _) (List.subset_cons_self _ _)⟩
    · exact (hx k k' hk).imp_right (·.imp (List.Subset.refl _) (List.subset_cons_self _ _))

theorem covers_nil (x : Ledger) (ps : List Placed) : x.Covers ps [] :=
  fun _ hn => absurd hn List.not_mem_nil

theorem inside_nil (x : Ledger) (h : x.nodes = []) :
    ∀ n n', (n, n') ∈ x.nodes → n'.kind = n.kind ∧ x.Covers n.children n'.children :=
  fun _ _ hn => absurd (h ▸ hn) List.not_mem_nil

theorem within_append_left (x y : Ledger) (c : Reshaping) :
    (x.change c).Within ((x.append y).change c) where
  opened := id
  dropped h := ⟨h.1, List.mem_append_left _ h.2⟩
  added h := ⟨h.1, List.mem_append_left _ h.2⟩

theorem within_append_right (x y : Ledger) (c : Reshaping) :
    (y.change c).Within ((x.append y).change c) where
  opened := id
  dropped h := ⟨h.1, List.mem_append_right _ h.2⟩
  added h := ⟨h.1, List.mem_append_right _ h.2⟩

mutual

/-- Any relation of alike elements is that of a ledger of pairs. -/
theorem exists_copies_of_alike {p p' : Placed} (h : Placed.Alike leaf node p p') :
    ∃ x : Ledger, Placed.Alike x.Leaf x.Node p p' ∧ x.Copies leaf [p] [p'] := by
  cases h with
  | @token a a' h =>
    refine ⟨⟨[(a, a')], [], [], []⟩, .token (List.mem_singleton_self _), ?_, rfl, rfl, rfl, rfl,
      rfl, rfl, fun n' hn' => ?_, inside_nil _ rfl⟩
    · intro b b' hb
      obtain ⟨rfl, rfl⟩ := Prod.mk.inj (List.mem_singleton.mp hb)
      exact h
    · cases List.mem_singleton.mp hn'
  | @node info info' children children' _ hkind hchildren =>
    obtain ⟨x, halikes, hx⟩ := exists_copies_of_alikes hchildren
    let y : Ledger := { x with nodes := (⟨info, children⟩, ⟨info', children'⟩) :: x.nodes }
    have hnode (i i' : Nat) (h : x.Node i i') : y.Node i i' := by
      obtain ⟨n, n', hmem, hindex⟩ := h
      exact ⟨n, n', List.mem_cons_of_mem _ hmem, hindex⟩
    obtain ⟨hcovers, hinside⟩ :=
      @inside_cons x ⟨info, children⟩ ⟨info', children'⟩ hkind hx.covers hx.inside
    refine ⟨y, .node ⟨_, _, List.mem_cons_self, rfl, rfl⟩ hkind (halikes.imp (fun _ _ => id) hnode),
      hx.leaf, ?_, ?_, ?_, ?_, hx.dropped, hx.added, hcovers, hinside⟩
    · simp [y, hx.tokens, Placed.tokensOf, Placed.tokens]
    · simp [y, hx.tokens', Placed.tokensOf, Placed.tokens]
    · simp [y, hx.nodes, Placed.nodesOf, Placed.nodes]
    · simp [y, hx.nodes', Placed.nodesOf, Placed.nodes]

/-- Any relation of alike lists is that of a ledger of pairs. -/
theorem exists_copies_of_alikes {ps ps' : List Placed} (h : Placed.Alikes leaf node ps ps') :
    ∃ x : Ledger, Placed.Alikes x.Leaf x.Node ps ps' ∧ x.Copies leaf ps ps' := by
  cases h with
  | nil =>
    exact ⟨empty, .nil, fun _ _ h => absurd h List.not_mem_nil, rfl, rfl, rfl, rfl, rfl, rfl,
      covers_nil _ _, inside_nil _ rfl⟩
  | @cons p p' ps ps' hp hps =>
    obtain ⟨x, hfirst, hx⟩ := exists_copies_of_alike hp
    obtain ⟨y, hothers, hy⟩ := exists_copies_of_alikes hps
    refine ⟨x.append y, .cons (hfirst.imp (fun _ _ => append_leaf_left) fun _ _ => append_node_left)
      (hothers.imp (fun _ _ => append_leaf_right) fun _ _ => append_node_right), ?_, ?_, ?_, ?_, ?_,
      ?_, ?_, hx.covers.append hy.covers, inside_append hx.inside hy.inside⟩
    · intro a a' ha
      exact (List.mem_append.mp ha).elim (hx.leaf a a') (hy.leaf a a')
    · simp [append, hx.tokens, hy.tokens, Placed.tokensOf]
    · simp [append, hx.tokens', hy.tokens', Placed.tokensOf]
    · simp [append, hx.nodes, hy.nodes, Placed.nodesOf]
    · simp [append, hx.nodes', hy.nodes', Placed.nodesOf]
    · rw [append, hx.dropped, hy.dropped, List.append_nil]
    · rw [append, hx.added, hy.added, List.append_nil]

end

theorem perm_append_append {α : Type} {as bs as' bs' cs ds : List α} (h : (as ++ bs).Perm cs)
    (h' : (as' ++ bs').Perm ds) : ((as ++ as') ++ (bs ++ bs')).Perm (cs ++ ds) := by
  refine List.Perm.trans ?_ (h.append h')
  rw [List.append_assoc, List.append_assoc]
  exact (List.perm_append_comm_assoc as' bs bs').append_left as

/-- The ledgers of elements side by side make one. -/
theorem Records.append {ps ps' qs qs' : List Placed} (hx : x.Records leaf c m ps ps')
    (hy : y.Records leaf c m qs qs') : (x.append y).Records leaf c m (ps ++ qs) (ps' ++ qs') where
  reshaped := by
    have hfirst : Placed.Reshaped (x.append y).Leaf (x.append y).Node ((x.append y).change c) m ps
        ps' :=
      .imp (c := x.change c) (fun _ _ => append_leaf_left) (fun _ _ => append_node_left)
        (fun _ => id) (within_append_left x y c)
        hx.reshaped
    have hothers : Placed.Reshaped (x.append y).Leaf (x.append y).Node ((x.append y).change c) m qs
        qs' :=
      .imp (c := y.change c) (fun _ _ => append_leaf_right) (fun _ _ => append_node_right)
        (fun _ => id) (within_append_right x y c)
        hy.reshaped
    exact hfirst.append hothers
  leaf a a' ha := (List.mem_append.mp ha).elim (hx.leaf a a') (hy.leaf a a')
  inOrder := by
    rw [Ledger.append, List.map_append, Placed.tokensOf_append]
    exact hx.inOrder.append hy.inOrder
  inOrder' := by
    rw [Ledger.append, List.map_append, Placed.tokensOf_append]
    exact hx.inOrder'.append hy.inOrder'
  tokens := by
    rw [Ledger.append, List.map_append, Placed.tokensOf_append, Placed.tokensOf_append]
    exact perm_append_append hx.tokens hy.tokens
  tokens' := by
    rw [Ledger.append, List.map_append, Placed.tokensOf_append, Placed.tokensOf_append]
    exact perm_append_append hx.tokens' hy.tokens'
  nodes := by
    rw [Ledger.append, List.map_append, Placed.nodesOf_append, Placed.nodesOf_append]
    exact perm_append_append hx.nodes hy.nodes
  nodes' := by
    rw [Ledger.append, List.map_append, Placed.nodesOf_append, Placed.nodesOf_append]
    exact perm_append_append hx.nodes' hy.nodes'
  dropped := List.forall_mem_append.mpr ⟨hx.dropped, hy.dropped⟩
  remains n n' hn := (List.mem_append.mp hn).elim (hx.remains n n') (hy.remains n n')
  covers := hx.covers.append hy.covers
  inside := inside_append hx.inside hy.inside
  sites p hp := by
    obtain hp | hp := List.mem_append.mp hp
    · exact (hx.sites p hp).imp (And.imp_right (List.mem_append_left _))
        fun ⟨n, n', hn, h⟩ => ⟨n, n', List.mem_append_left _ hn, h⟩
    · exact (hy.sites p hp).imp (And.imp_right (List.mem_append_right _))
        fun ⟨n, n', hn, h⟩ => ⟨n, n', List.mem_append_right _ hn, h⟩

theorem records_empty (leaf : PlacedToken → PlacedToken → Prop) (c : Reshaping) (m : PlacedNode) :
    empty.Records leaf c m [] [] :=
  ⟨.nil, fun _ _ h => absurd h List.not_mem_nil, .slnil, .slnil, .nil, .nil, .nil, .nil,
    List.forall_mem_nil _, fun _ _ h => absurd h List.not_mem_nil, covers_nil _ _, inside_nil _ rfl,
    List.forall_mem_nil _⟩

/-- What is kept is in the ledger as it is. -/
theorem exists_records_keep {p p' : Placed} (hp : c.kept p) (ha : Placed.Alike leaf node p p') :
    ∃ x : Ledger, x.Records leaf c m [p] [p'] := by
  obtain ⟨x, halike, hx⟩ := exists_copies_of_alike ha
  refine ⟨x, .keep hp halike .nil, hx.leaf, ?_, ?_, ?_, ?_, ?_, ?_, ?_, ?_, hx.covers, hx.inside,
    ?_⟩
  · rw [hx.tokens]
  · rw [hx.tokens']
  · rw [hx.tokens, hx.dropped, Placed.tokensOf, List.append_nil]
  · rw [hx.tokens', hx.added, Placed.tokensOf, List.append_nil]
  · rw [hx.nodes, hx.dropped, Placed.nodesOf, List.append_nil]
  · rw [hx.nodes', hx.added, Placed.nodesOf, List.append_nil]
  · rw [hx.dropped]
    exact List.forall_mem_nil _
  · intro n n' hn
    have hn : n ∈ x.nodes.map Prod.fst := List.mem_map_of_mem hn
    rw [hx.nodes, Placed.nodesOf, Placed.nodesOf, List.append_nil] at hn
    exact .inr ⟨p, hp, hn⟩
  · rw [hx.added]
    exact List.forall_mem_nil _

/-- What is in an opened node is in the ledger, and so is the node. -/
theorem exists_records_inside {n n' : PlacedNode} (hn : c.opened n) (hkind : n'.kind = n.kind)
    (hx : x.Records leaf c n n.children n'.children) :
    ∃ y : Ledger, y.Records leaf c m [n.placed] [n'.placed] := by
  let y : Ledger := { x with nodes := (n, n') :: x.nodes }
  have hnode (i i' : Nat) (h : x.Node i i') : y.Node i i' := by
    obtain ⟨k, k', hmem, hindex⟩ := h
    exact ⟨k, k', List.mem_cons_of_mem _ hmem, hindex⟩
  obtain ⟨hcovers, hinside⟩ := inside_cons hkind hx.covers hx.inside
  refine ⟨y, .inside hn ⟨n, n', List.mem_cons_self, rfl, rfl⟩ hkind ?_ .nil, hx.leaf, ?_, ?_, ?_,
    ?_, ?_, ?_, hx.dropped, ?_, hcovers, hinside, ?_⟩
  · exact hx.reshaped.imp (fun _ _ => id) hnode (fun _ => id) ⟨id, id, id⟩
  · simpa [Placed.tokensOf, PlacedNode.placed, Placed.tokens] using hx.inOrder
  · simpa [Placed.tokensOf, PlacedNode.placed, Placed.tokens] using hx.inOrder'
  · simpa [Placed.tokensOf, PlacedNode.placed, Placed.tokens] using hx.tokens
  · simpa [Placed.tokensOf, PlacedNode.placed, Placed.tokens] using hx.tokens'
  · simpa [y, Placed.nodesOf, PlacedNode.placed, Placed.nodes] using hx.nodes.cons n
  · simpa [y, Placed.nodesOf, PlacedNode.placed, Placed.nodes] using hx.nodes'.cons n'
  · intro k k' hk
    obtain hk | hk := List.mem_cons.mp hk
    · obtain ⟨rfl, rfl⟩ := Prod.mk.inj hk
      exact .inl hn
    · exact hx.remains k k' hk
  · intro p hp
    obtain ⟨hadded, hmem⟩ | ⟨k, k', hk, h⟩ := hx.sites p hp
    · exact .inr ⟨n, n', List.mem_cons_self, hn, hadded, hmem⟩
    · exact .inr ⟨k, k', List.mem_cons_of_mem _ hk, h⟩

/-- Every change has a ledger. -/
theorem exists_records {ps ps' : List Placed} (h : Placed.Reshaped leaf node c m ps ps') :
    ∃ x : Ledger, x.Records leaf c m ps ps' := by
  induction h with
  | nil => exact ⟨empty, records_empty leaf c _⟩
  | keep hp ha _ ih =>
    obtain ⟨x, hx⟩ := exists_records_keep hp ha
    obtain ⟨y, hy⟩ := ih
    exact ⟨x.append y, hx.append hy⟩
  | inside hn _ hkind _ _ ihchildren ih =>
    obtain ⟨z, hz⟩ := ihchildren
    obtain ⟨x, hx⟩ := exists_records_inside hn hkind hz
    obtain ⟨y, hy⟩ := ih
    exact ⟨x.append y, hx.append hy⟩
  | @drop m p ps ps' hp _ ih =>
    obtain ⟨y, hy⟩ := ih
    have hx : Records ⟨[], [], [p], []⟩ leaf c m [p] [] :=
      ⟨.drop ⟨hp, List.mem_singleton_self p⟩ .nil, fun _ _ h => absurd h List.not_mem_nil,
        List.nil_sublist _, .slnil, .refl _, .nil, .refl _, .nil, List.forall_mem_singleton.mpr hp,
        fun _ _ h => absurd h List.not_mem_nil, covers_nil _ _, inside_nil _ rfl,
        List.forall_mem_nil _⟩
    exact ⟨_, hx.append hy⟩
  | @add m p' ps ps' hp _ ih =>
    obtain ⟨y, hy⟩ := ih
    have hx : Records ⟨[], [], [], [p']⟩ leaf c m [] [p'] :=
      ⟨.add ⟨hp, List.mem_singleton_self p'⟩ .nil, fun _ _ h => absurd h List.not_mem_nil, .slnil,
        List.nil_sublist _, .nil, .refl _, .nil, .refl _, List.forall_mem_nil _,
        fun _ _ h => absurd h List.not_mem_nil, fun n' hn' => .inl hn', inside_nil _ rfl,
        List.forall_mem_singleton.mpr (.inl ⟨hp, List.mem_singleton_self p'⟩)⟩
    exact ⟨_, hx.append hy⟩

end Ledger

end AutoProperty
