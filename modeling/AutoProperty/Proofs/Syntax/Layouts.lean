import AutoProperty.Proofs.Syntax.Extents
import AutoProperty.Proofs.Syntax.Sites
import Mathlib.Data.List.Sort

/-! # Layouts

What a tree says of its nodes and tokens is true to its root. Offsets are summed up while the
tree is laid out, and everything else follows from what one element is given when it is placed:
tokens cover the text without a gap, nodes are numbered in preorder, and the way up to the
parents is the way down to the children reversed.
-/

namespace AutoProperty

/-- The spans follow one another without a gap, from `start` to `stop`. -/
def Tiles (start stop : Nat) : List Span → Prop
  | [] => start = stop
  | s :: rest => s.start = start ∧ s.start ≤ s.stop ∧ Tiles s.stop stop rest

namespace Placed

/-- The place of an element with the trivia at its ends. -/
def full : Placed → Span
  | token t => t.full
  | node info _ => info.full

end Placed

/-! ## Traversals -/

namespace Placed

theorem nodesOf_append (ps qs : List Placed) : nodesOf (ps ++ qs) = nodesOf ps ++ nodesOf qs := by
  induction ps with
  | nil => rfl
  | cons p ps ih => rw [List.cons_append, nodesOf, nodesOf, ih, List.append_assoc]

/-- Tokens hold no nodes. -/
theorem nodesOf_filterMap_node? (ps : List Placed) :
    nodesOf ((ps.filterMap node?).map PlacedNode.placed) = nodesOf ps := by
  induction ps with
  | nil => rfl
  | cons p ps ih =>
    cases p with
    | token t => exact ih
    | node info children => exact congrArg (nodes (.node info children) ++ ·) ih

/-- Takes the tokens off a stack. A node that comes to the top gives way to its children. -/
def walkTokens : List Placed → List PlacedToken
  | [] => []
  | token t :: stack => t :: walkTokens stack
  | node _ children :: stack => walkTokens (children ++ stack)
termination_by stack => (nodesOf stack).length + (tokensOf stack).length
decreasing_by
  · simp [nodesOf, nodes, tokensOf, tokens]
  · simp [nodesOf, nodes, tokensOf, tokens, nodesOf_append, tokensOf_append]

theorem walkTokens_eq (stack : List Placed) : walkTokens stack = tokensOf stack := by
  fun_induction walkTokens stack with
  | case1 => rfl
  | case2 t stack ih => rw [ih, tokensOf, tokens, List.singleton_append]
  | case3 info children stack ih => rw [ih, tokensOf_append, tokensOf, tokens]

end Placed

namespace PlacedNode

/-- Takes the nodes off a stack. Each one gives way to its child nodes. -/
def walk : List PlacedNode → List PlacedNode
  | [] => []
  | n :: stack => n :: walk (n.childNodes ++ stack)
termination_by stack => (Placed.nodesOf (stack.map placed)).length
decreasing_by
  simp [childNodes, placed, Placed.nodesOf, Placed.nodes, Placed.nodesOf_append,
    Placed.nodesOf_filterMap_node?]

theorem walk_eq (stack : List PlacedNode) : walk stack = Placed.nodesOf (stack.map placed) := by
  fun_induction walk stack with
  | case1 => rfl
  | case2 n stack ih =>
    rw [ih, List.map_append, Placed.nodesOf_append, childNodes, Placed.nodesOf_filterMap_node?]
    rfl

end PlacedNode

/-! ## What placing gives -/

/-- The tokens of a list lie side by side. -/
theorem tiles_leavesFrom (i o : Nat) (ts : List Token) :
    Tiles o (o + byteLength (tokensText ts)) ((leavesFrom i o ts).map (·.full)) := by
  induction ts generalizing i o with
  | nil => rfl
  | cons t ts ih =>
    have hrest := ih (i + 1) (o + t.fullLength)
    rw [Nat.add_assoc] at hrest
    rw [tokensText_cons, byteLength_append]
    exact ⟨rfl, Nat.le_add_right _ _, hrest⟩

namespace Span

def hull? (spans : List Span) : Option Span :=
  spans.head?.bind fun first => spans.getLast?.map fun last => ⟨first.start, last.stop⟩

def join? : Option Span → Option Span → Option Span
  | some first, some last => some ⟨first.start, last.stop⟩
  | some first, none => some first
  | none, last => last

theorem hull?_toList (span : Option Span) : hull? span.toList = span := by
  cases span <;> rfl

/-- The hull of two lists of spans joins both hulls. -/
theorem hull?_append (xs ys : List Span) : hull? (xs ++ ys) = join? (hull? xs) (hull? ys) := by
  cases xs with
  | nil => rfl
  | cons x xs =>
    obtain ⟨last, hlast⟩ : ∃ last, (x :: xs).getLast? = some last :=
      ⟨_, List.getLast?_eq_some_getLast (List.cons_ne_nil _ _)⟩
    unfold hull?
    rw [List.getLast?_append, hlast]
    cases ys with
    | nil => rfl
    | cons y ys =>
      rw [List.getLast?_eq_some_getLast (List.cons_ne_nil y ys)]
      rfl

end Span

/-- Elements side by side reach from the first to the last of them that have tokens. -/
theorem Placed.extentOf?_cons (p : Placed) (ps : List Placed) :
    extentOf? (p :: ps) = Span.join? p.extent? (extentOf? ps) := by
  have hull (qs : List Placed) : extentOf? qs = Span.hull? (qs.filterMap extent?) := extentOf?_eq qs
  have happend : (p :: ps).filterMap extent? = p.extent?.toList ++ ps.filterMap extent? := by
    cases h : p.extent? <;> simp [h]
  rw [hull, hull, happend, Span.hull?_append, Span.hull?_toList]

namespace Element

mutual

/-- A placed element reaches from the text of its first token to that of its last one. -/
theorem extent_place (c : Cursor) (e : Element) :
    (e.place c).1.extent? = Span.hull? ((e.place c).1.tokens.map (·.span)) := by
  cases e with
  | token t => rfl
  | node kind children => exact extent_placeAll { c with node := c.node + 1 } children

theorem extent_placeAll (c : Cursor) (es : List Element) :
    Placed.extentOf? (placeAll c es).1 = Span.hull?
      ((Placed.tokensOf (placeAll c es).1).map (·.span)) := by
  cases es with
  | nil => rfl
  | cons e es =>
    show Placed.extentOf? ((e.place c).1 :: (placeAll (e.place c).2 es).1) =
      Span.hull?
        (((e.place c).1.tokens ++ Placed.tokensOf (placeAll (e.place c).2 es).1).map (·.span))
    rw [Placed.extentOf?_cons, extent_place c e, extent_placeAll (e.place c).2 es, List.map_append,
      Span.hull?_append]

end

/-- A placed element begins where the cursor was, and ends where the cursor goes. -/
theorem full_place (c : Cursor) (e : Element) :
    (e.place c).1.full = ⟨c.offset, (e.place c).2.offset⟩ := by
  cases e <;> rfl

/-- The elements of a list lie side by side. -/
theorem tiles_placeAll (c : Cursor) (es : List Element) :
    Tiles c.offset (placeAll c es).2.offset ((placeAll c es).1.map Placed.full) := by
  induction es generalizing c with
  | nil => rfl
  | cons e es ih =>
    have hrest := ih (e.place c).2
    refine ⟨?_, ?_, ?_⟩
    · rw [full_place]
    · rw [full_place]
      exact offset_le_place c e
    · rw [full_place]
      exact hrest

mutual

/-- Every node of a placed element is a placed element itself. -/
theorem exists_place (c : Cursor) (above : List PlacedNode) (e : Element) {f : Focus}
    (h : f ∈ (e.place c).1.foci above) :
    ∃ (at' : Cursor) (inner : Element), (inner.place at').1 = f.node.placed := by
  cases e with
  | token t => exact absurd h List.not_mem_nil
  | node kind children =>
    obtain rfl | h := List.mem_cons.mp h
    · exact ⟨c, node kind children, rfl⟩
    · exact exists_placeAll _ _ children h

theorem exists_placeAll (c : Cursor) (above : List PlacedNode) (es : List Element) {f : Focus}
    (h : f ∈ Placed.fociOf above (placeAll c es).1) :
    ∃ (at' : Cursor) (inner : Element), (inner.place at').1 = f.node.placed := by
  cases es with
  | nil => exact absurd h List.not_mem_nil
  | cons e es =>
    obtain h | h := List.mem_append.mp h
    · exact exists_place c above e h
    · exact exists_placeAll _ above es h

end

end Element

namespace Tree

variable {t : Tree} {f g : Focus}

theorem placed_top (t : Tree) : (t.root.element.place .start).1 = t.top.placed := by
  rw [top_eq]
  rfl

theorem exists_place (hf : f ∈ t.nodes) :
    ∃ (c : Cursor) (e : Element), (e.place c).1 = f.node.placed := by
  rw [nodes_eq, ← placed_top] at hf
  exact Element.exists_place _ _ _ hf

theorem node_top (t : Tree) : t.top.node = t.root := by
  have helement := Element.element_place .start t.root.element
  rw [placed_top] at helement
  obtain ⟨hkind, hchildren⟩ := Element.node.inj helement
  exact congrArg₂ Node.mk hkind hchildren

/-- A node takes as many bytes as what it is made of. -/
theorem full_eq (hf : f ∈ t.nodes) :
    f.node.full = .ofLength f.node.full.start f.node.node.fullLength := by
  obtain ⟨c, e, hplaced⟩ := exists_place hf
  have hfull : f.node.full = ⟨c.offset, (e.place c).2.offset⟩ := by
    rw [← Element.full_place, hplaced]
    rfl
  have helement : f.node.node.element = e := by
    rw [← Element.element_place c e, hplaced]
    rfl
  rw [hfull, (Element.tokens_place c e).2.2, Node.fullLength, helement]
  rfl

/-- The children of a node lie side by side from its start to its end. -/
theorem tiles_children (hf : f ∈ t.nodes) :
    Tiles f.node.full.start f.node.full.stop (f.node.children.map Placed.full) := by
  obtain ⟨c, e, hplaced⟩ := exists_place hf
  cases e with
  | token t => cases hplaced
  | node kind children =>
    obtain ⟨hinfo, hchildren⟩ := Placed.node.inj hplaced
    rw [← hchildren, PlacedNode.full, ← hinfo]
    exact Element.tiles_placeAll { c with node := c.node + 1 } children

theorem extent?_eq (hf : f ∈ t.nodes) :
    f.node.info.extent? = Span.hull? (f.node.tokens.map (·.span)) := by
  obtain ⟨c, e, hplaced⟩ := exists_place hf
  have hextent := Element.extent_place c e
  rw [hplaced] at hextent
  exact hextent

/-- The nodes below a node have the numbers that follow its own. -/
theorem index_descendants (hf : f ∈ t.nodes) :
    f.node.descendants.map (·.index) = List.range' f.node.index f.node.descendants.length := by
  obtain ⟨c, e, hplaced⟩ := exists_place hf
  obtain ⟨k, -, hindex⟩ := Element.index_place c f.above e
  have hrange : f.node.descendants.map (·.index) = List.range' c.node k := by
    rw [← hindex, hplaced, PlacedNode.descendants, ← Placed.node_foci f.above, List.map_map]
    rfl
  have hlength : f.node.descendants.length = k := by
    rw [← List.length_map (·.index), hrange, List.length_range']
  -- The node is the first of its descendants, so the numbers begin with its own.
  obtain ⟨rest, hdescendants⟩ : ∃ rest, f.node.descendants = f.node :: rest := ⟨_, rfl⟩
  have hfirst : f.node.index = c.node := by
    have hhead := congrArg List.head? hrange
    rw [← hlength, hdescendants, List.map_cons, List.length_cons, List.range'_succ] at hhead
    exact Option.some.inj hhead
  rw [hrange, hfirst, hlength]

theorem index_tokens (hf : f ∈ t.nodes) :
    ∃ first, f.node.tokens.map (·.index) = List.range' first f.node.tokens.length := by
  obtain ⟨c, e, hplaced⟩ := exists_place hf
  have htokens : f.node.tokens = leavesFrom c.token c.offset e.tokens := by
    rw [← (Element.tokens_place c e).1, hplaced]
    rfl
  exact ⟨c.token, by rw [htokens, index_leavesFrom, length_leavesFrom]⟩

end Tree

/-! ## Parents and children -/

namespace Focus

def isChildOf (f : Focus) (n : PlacedNode) : Bool :=
  f.parent?.any (·.index == n.index)

/-- The links to the parents lead from the node of the focus to the node. -/
def isIn (f : Focus) (n : PlacedNode) : Bool :=
  f.ancestors.any (·.index == n.index)

end Focus

namespace TokenFocus

/-- The link to the parent leads to the node. -/
def isChildOf (f : TokenFocus) (n : PlacedNode) : Bool :=
  f.above.head?.any (·.index == n.index)

/-- The links to the parents lead from the token to the node. -/
def isIn (f : TokenFocus) (n : PlacedNode) : Bool :=
  f.above.any (·.index == n.index)

end TokenFocus

namespace Placed

mutual

/-- A token in an element is the element, or a child of the node next around it. -/
theorem child_of_mem_tokenFoci {above : List PlacedNode} {g : TokenFocus} (p : Placed)
    (h : g ∈ p.tokenFoci above) :
    g.above = above ∧ .token g.leaf = p ∨
      ∃ m rest, g.above = m :: rest ∧ g.leaf ∈ m.childTokens := by
  cases p with
  | token t =>
    rw [List.mem_singleton.mp h]
    exact .inl ⟨rfl, rfl⟩
  | node info children =>
    obtain ⟨habove, hmem⟩ | hchild := child_of_mem_tokenFociOf children h
    · exact .inr ⟨_, _, habove, PlacedNode.mem_childTokens.mpr hmem⟩
    · exact .inr hchild

theorem child_of_mem_tokenFociOf {above : List PlacedNode} {g : TokenFocus} (ps : List Placed)
    (h : g ∈ tokenFociOf above ps) :
    g.above = above ∧ .token g.leaf ∈ ps ∨
      ∃ m rest, g.above = m :: rest ∧ g.leaf ∈ m.childTokens := by
  cases ps with
  | nil => exact absurd h List.not_mem_nil
  | cons p ps =>
    obtain h | h := List.mem_append.mp h
    · exact (child_of_mem_tokenFoci p h).imp_left fun ⟨habove, heq⟩ =>
        ⟨habove, heq ▸ List.mem_cons_self⟩
    · exact (child_of_mem_tokenFociOf ps h).imp_left fun ⟨habove, hmem⟩ =>
        ⟨habove, List.mem_cons_of_mem _ hmem⟩

end

mutual

/-- What is around an element is around its nodes. -/
theorem exists_outer {above : List PlacedNode} {g : Focus} (p : Placed) (hg : g ∈ p.foci above) :
    ∃ inner, g.above = inner ++ above := by
  cases p with
  | token t => exact absurd hg List.not_mem_nil
  | node info children =>
    obtain rfl | hg := List.mem_cons.mp hg
    · exact ⟨[], rfl⟩
    · obtain ⟨inner, hinner⟩ := exists_outerOf children hg
      exact ⟨inner ++ [⟨info, children⟩], by rw [hinner, List.append_assoc, List.singleton_append]⟩

theorem exists_outerOf {above : List PlacedNode} {g : Focus} (ps : List Placed)
    (hg : g ∈ fociOf above ps) : ∃ inner, g.above = inner ++ above := by
  cases ps with
  | nil => exact absurd hg List.not_mem_nil
  | cons p ps =>
    obtain hg | hg := List.mem_append.mp hg
    · exact exists_outer p hg
    · exact exists_outerOf ps hg

end

end Placed

/-- The tokens among the children come in order among all tokens below. -/
theorem PlacedNode.childTokens_sublist (n : PlacedNode) : n.childTokens.Sublist n.tokens := by
  rw [childTokens, tokens]
  induction n.children with
  | nil => exact .slnil
  | cons p ps ih =>
    cases p with
    | token t => exact ih.cons_cons _
    | node info children => exact ih.trans (List.sublist_append_right _ _)

/-- A list in the order of its numbers is what a longer one keeps of its members, if that is in
the same order. -/
theorem eq_map_filter {α β : Type} {index : β → Nat} {entry : α → β} {xs : List α} {ys : List β}
    {keep : α → Bool} (hxs : (xs.map fun x => index (entry x)).Pairwise (· < ·))
    (hys : (ys.map index).Pairwise (· < ·)) (hmem : ∀ y ∈ ys, ∃ x ∈ xs, entry x = y)
    (hkeep : ∀ x ∈ xs, keep x = true ↔ entry x ∈ ys) : ys = (xs.filter keep).map entry := by
  have : Std.Irrefl fun a b : β => index a < index b := ⟨fun _ => Nat.lt_irrefl _⟩
  have : Std.Antisymm fun a b : β => index a < index b :=
    ⟨fun _ _ hab hba => absurd hab (Nat.lt_asymm hba)⟩
  have hfiltered : ((xs.filter keep).map entry).Pairwise fun a b => index a < index b :=
    List.pairwise_map.mpr ((List.pairwise_map.mp hxs).sublist List.filter_sublist)
  refine (List.pairwise_map.mp hys).eq_of_mem_iff hfiltered fun y => ?_
  rw [List.mem_map]
  constructor
  · intro hy
    obtain ⟨x, hx, rfl⟩ := hmem y hy
    exact ⟨x, List.mem_filter.mpr ⟨hx, (hkeep x hx).mpr hy⟩, rfl⟩
  · rintro ⟨x, hx, rfl⟩
    obtain ⟨hx, hkept⟩ := List.mem_filter.mp hx
    exact (hkeep x hx).mp hkept

namespace Tree

variable {t : Tree} {f g : Focus} {l : TokenFocus}

theorem mem_nodes_of_cons {m : PlacedNode} {rest : List PlacedNode} (hg : g ∈ t.nodes)
    (h : g.above = m :: rest) : ⟨m, rest⟩ ∈ t.nodes :=
  mem_nodes_of_above hg (show g.above = [] ++ m :: rest from h)

/-- The nodes around a node are nodes of the tree, each with those around it. -/
theorem exists_focus_of_ancestor {m : PlacedNode} (hg : g ∈ t.nodes) (h : m ∈ g.ancestors) :
    ∃ inner after, g.ancestors = inner ++ m :: after ∧ ⟨m, after⟩ ∈ t.nodes := by
  obtain rfl | h := List.mem_cons.mp h
  · exact ⟨[], g.above, rfl, hg⟩
  · obtain ⟨before, after, habove⟩ := List.append_of_mem h
    exact ⟨g.node :: before, after, congrArg (g.node :: ·) habove, mem_nodes_of_above hg habove⟩

/-- A token of the tree is a child of the node next around it. -/
theorem exists_parent_token (hl : l ∈ t.tokens) :
    ∃ m rest, l.above = m :: rest ∧ ⟨m, rest⟩ ∈ t.nodes ∧ l.leaf ∈ m.childTokens := by
  rw [tokens_eq] at hl
  obtain ⟨-, htoken⟩ | ⟨m, rest, habove, hleaf⟩ := Placed.child_of_mem_tokenFoci _ hl
  · cases htoken
  · rw [← tokens_eq] at hl
    exact ⟨m, rest, habove,
      mem_nodes_of_above_token hl (show l.above = [] ++ m :: rest from habove), hleaf⟩

/-- A node with another among those around it is in that node. -/
theorem mem_foci_of_ancestors {inner : List PlacedNode} (hg : g ∈ t.nodes)
    (h : g.ancestors = inner ++ f.ancestors) : g ∈ f.node.placed.foci f.above := by
  induction inner generalizing g with
  | nil =>
    obtain ⟨hnode, habove⟩ := List.cons.inj h
    have heq : g = f := by
      cases g
      cases f
      exact congrArg₂ Focus.mk hnode habove
    rw [heq]
    exact List.mem_cons_self
  | cons n inner ih =>
    have habove : g.above = inner ++ f.ancestors := (List.cons.inj h).2
    obtain ⟨m, rest, hsplit⟩ : ∃ m rest, inner ++ f.ancestors = m :: rest :=
      List.exists_cons_of_ne_nil (List.append_ne_nil_of_right_ne_nil inner (List.cons_ne_nil _ _))
    rw [hsplit] at habove
    have hparent : ⟨m, rest⟩ ∈ f.node.placed.foci f.above :=
      ih (mem_nodes_of_cons hg habove) hsplit.symm
    have hfocus : ⟨g.node, m :: rest⟩ ∈ t.nodes := by
      rw [← habove]
      exact hg
    have hmem :=
      Placed.foci_of_mem_foci _ hparent (PlacedNode.focus_mem (mem_childNodes_of_mem hfocus))
    rw [← habove] at hmem
    exact hmem

/-- A number leads to the same node as the links to the parents do. -/
theorem any_index {ms : List PlacedNode} (hf : f ∈ t.nodes)
    (hms : ∀ m ∈ ms, ∃ after, ⟨m, after⟩ ∈ t.nodes) :
    ms.any (·.index == f.node.index) = true ↔ f.node ∈ ms := by
  rw [List.any_eq_true]
  constructor
  · rintro ⟨m, hm, hindex⟩
    obtain ⟨after, hafter⟩ := hms m hm
    have heq : ⟨m, after⟩ = f := focus_eq hafter hf (beq_iff_eq.mp hindex)
    rw [← heq]
    exact hm
  · exact fun hm => ⟨f.node, hm, beq_self_eq_true _⟩

/-- The links from a node lead over the links of every node around it. -/
theorem exists_inner (hf : f ∈ t.nodes) (hg : g ∈ t.nodes) (h : f.node ∈ g.ancestors) :
    ∃ inner, g.ancestors = inner ++ f.ancestors := by
  obtain ⟨inner, after, hsplit, hafter⟩ := exists_focus_of_ancestor hg h
  have habove : after = f.above := congrArg Focus.above (focus_eq hafter hf rfl)
  exact ⟨inner, by rw [hsplit, habove]; rfl⟩

theorem exists_inner_token (hf : f ∈ t.nodes) (hl : l ∈ t.tokens) (h : f.node ∈ l.above) :
    ∃ inner, l.above = inner ++ f.ancestors := by
  obtain ⟨inner, after, hsplit⟩ := List.append_of_mem h
  have hafter : ⟨f.node, after⟩ ∈ t.nodes := mem_nodes_of_above_token hl hsplit
  have habove : after = f.above := congrArg Focus.above (focus_eq hafter hf rfl)
  exact ⟨inner, by rw [hsplit, habove]; rfl⟩

/-- The nodes that a node stands in are those whose numbers stand on its links. -/
theorem isIn_iff (hf : f ∈ t.nodes) (hg : g ∈ t.nodes) :
    g.isIn f.node = true ↔ g.node ∈ f.node.descendants := by
  have hancestors : g.isIn f.node = true ↔ f.node ∈ g.ancestors :=
    any_index hf fun m hm => (exists_focus_of_ancestor hg hm).elim fun _ ⟨after, _, hafter⟩ =>
      ⟨after, hafter⟩
  rw [hancestors, PlacedNode.descendants, ← Placed.node_foci f.above]
  constructor
  · intro hmem
    obtain ⟨inner, hinner⟩ := exists_inner hf hg hmem
    exact List.mem_map_of_mem (mem_foci_of_ancestors hg hinner)
  · intro hmem
    obtain ⟨h, hh, hnode⟩ := List.mem_map.mp hmem
    obtain rfl | hh := List.mem_cons.mp hh
    · exact hnode ▸ List.mem_cons_self
    · have hnodes : h ∈ t.nodes := by
        rw [nodes_eq] at hf ⊢
        exact Placed.foci_of_mem_foci _ hf hh
      obtain rfl : h = g := focus_eq hnodes hg (congrArg PlacedNode.index hnode)
      obtain ⟨inner, hinner⟩ := Placed.exists_outerOf _ hh
      rw [Focus.ancestors, hinner]
      exact List.mem_cons_of_mem _ (List.mem_append_right _ List.mem_cons_self)

/-- A token that has the node above it is one of those in the node. -/
theorem mem_tokenFoci_of_above {inner : List PlacedNode} (hl : l ∈ t.tokens)
    (h : l.above = inner ++ f.ancestors) : l ∈ f.node.placed.tokenFoci f.above := by
  -- The parent of the token is in the node, and so is the token.
  obtain ⟨m, rest, hsplit, hparent, hleaf⟩ := exists_parent_token hl
  have hblock : ⟨m, rest⟩ ∈ f.node.placed.foci f.above :=
    mem_foci_of_ancestors hparent (hsplit.symm.trans h)
  have htoken := Placed.tokenFoci_of_mem_foci _ hblock (PlacedNode.tokenFocus_mem hleaf)
  cases l
  dsimp only at hsplit htoken
  rwa [← hsplit] at htoken

theorem isIn_iff_mem_above (hf : f ∈ t.nodes) (hl : l ∈ t.tokens) :
    l.isIn f.node = true ↔ f.node ∈ l.above :=
  any_index hf fun _ hm => (List.append_of_mem hm).elim fun _ ⟨after, h⟩ =>
    ⟨after, mem_nodes_of_above_token hl h⟩

/-- A token is in a node if the links to parents lead there. -/
theorem isIn_token_iff (hf : f ∈ t.nodes) (hl : l ∈ t.tokens) :
    l.isIn f.node = true ↔ l.leaf ∈ f.node.tokens := by
  rw [isIn_iff_mem_above hf hl]
  constructor
  · intro hmem
    obtain ⟨inner, hinner⟩ := exists_inner_token hf hl hmem
    have hleaves : l.leaf ∈ (f.node.placed.tokenFoci f.above).map TokenFocus.leaf :=
      List.mem_map_of_mem (mem_tokenFoci_of_above hl hinner)
    rw [Placed.leaf_tokenFoci] at hleaves
    exact hleaves
  · intro hmem
    obtain ⟨k, hk, hleaf, inner, hinner⟩ := exists_tokenFocus hf hmem
    obtain rfl : k = l := eq_of_index hk hl (congrArg PlacedToken.index hleaf)
    rw [hinner]
    exact List.mem_append_right _ List.mem_cons_self

/-- The children of a node are those that link to it. -/
theorem isChildOf_iff (hf : f ∈ t.nodes) (hg : g ∈ t.nodes) :
    g.isChildOf f.node = true ↔ g.node ∈ f.node.childNodes := by
  unfold Focus.isChildOf Focus.parent?
  constructor
  · intro hchild
    cases habove : g.above with
    | nil =>
      rw [habove] at hchild
      cases hchild
    | cons m rest =>
      have hfocus : ⟨g.node, m :: rest⟩ ∈ t.nodes := by
        rw [← habove]
        exact hg
      rw [habove] at hchild
      have hparent : ⟨m, rest⟩ = f :=
        focus_eq (mem_nodes_of_cons hg habove) hf (beq_iff_eq.mp hchild)
      rw [← hparent]
      exact mem_childNodes_of_mem hfocus
  · intro hmem
    have heq : ⟨g.node, f.node :: f.above⟩ = g := focus_eq (child_mem hf hmem) hg rfl
    rw [← heq]
    exact beq_self_eq_true _

/-- A token is a child of a node if the link to its parent leads there. -/
theorem isChildOf_token_iff (hf : f ∈ t.nodes) (hl : l ∈ t.tokens) :
    l.isChildOf f.node = true ↔ l.leaf ∈ f.node.childTokens := by
  unfold TokenFocus.isChildOf
  constructor
  · intro hchild
    obtain ⟨m, rest, habove, hmem, hleaf⟩ := exists_parent_token hl
    rw [habove] at hchild
    have hparent : ⟨m, rest⟩ = f := focus_eq hmem hf (beq_iff_eq.mp hchild)
    rw [← hparent]
    exact hleaf
  · intro hmem
    have heq : ⟨l.leaf, f.node :: f.above⟩ = l := eq_of_index (tokenFocus_mem hf hmem) hl rfl
    rw [← heq]
    exact beq_self_eq_true _

theorem sorted_nodes (t : Tree) : (t.nodes.map fun g => g.node.index).Pairwise (· < ·) := by
  obtain ⟨k, hindex⟩ := t.nodes_index
  rw [hindex]
  exact List.pairwise_lt_range

theorem sorted_tokens (t : Tree) : (t.tokens.map fun l => l.leaf.index).Pairwise (· < ·) := by
  have hindex := congrArg (List.map PlacedToken.index) t.leaves_eq
  rw [List.map_map, index_leavesFrom] at hindex
  rw [show (t.tokens.map fun l => l.leaf.index) = _ from hindex]
  exact List.pairwise_lt_range' 1

theorem sorted_descendants (hf : f ∈ t.nodes) :
    (f.node.descendants.map (·.index)).Pairwise (· < ·) := by
  rw [index_descendants hf]
  exact List.pairwise_lt_range' 1

theorem sorted_tokens_of_node (hf : f ∈ t.nodes) :
    (f.node.tokens.map (·.index)).Pairwise (· < ·) := by
  obtain ⟨first, hindex⟩ := index_tokens hf
  rw [hindex]
  exact List.pairwise_lt_range' 1

theorem childNodes_eq (hf : f ∈ t.nodes) :
    f.node.childNodes = (t.nodes.filter (·.isChildOf f.node)).map (·.node) := by
  have hsublist : f.node.childNodes.Sublist f.node.descendants := f.node.childNodes_sublist.cons _
  exact eq_map_filter t.sorted_nodes ((sorted_descendants hf).sublist (hsublist.map _))
    (fun n hn => ⟨_, child_mem hf hn, rfl⟩) fun g hg => isChildOf_iff hf hg

theorem childTokens_eq (hf : f ∈ t.nodes) :
    f.node.childTokens = (t.tokens.filter (·.isChildOf f.node)).map (·.leaf) :=
  eq_map_filter t.sorted_tokens
    ((sorted_tokens_of_node hf).sublist (f.node.childTokens_sublist.map _))
    (fun _ hleaf => ⟨_, tokenFocus_mem hf hleaf, rfl⟩) fun _ hl => isChildOf_token_iff hf hl

/-- The nodes below a node are those whose links lead there. -/
theorem descendants_eq (hf : f ∈ t.nodes) :
    f.node.descendants = (t.nodes.filter (·.isIn f.node)).map (·.node) := by
  refine eq_map_filter t.sorted_nodes (sorted_descendants hf) (fun n hn => ?_) fun g hg =>
    isIn_iff hf hg
  obtain rfl | hn := List.mem_cons.mp hn
  · exact ⟨f, hf, rfl⟩
  · rw [← Placed.node_fociOf f.ancestors] at hn
    obtain ⟨g, hg, hnode⟩ := List.mem_map.mp hn
    refine ⟨g, ?_, hnode⟩
    rw [nodes_eq] at hf ⊢
    exact Placed.foci_of_mem_foci _ hf hg

theorem tokens_of_node_eq (hf : f ∈ t.nodes) :
    f.node.tokens = (t.tokens.filter (·.isIn f.node)).map (·.leaf) := by
  refine eq_map_filter t.sorted_tokens (sorted_tokens_of_node hf) (fun leaf hleaf => ?_) fun l hl =>
    isIn_token_iff hf hl
  obtain ⟨l, hl, heq, -⟩ := exists_tokenFocus hf hleaf
  exact ⟨l, hl, heq⟩

theorem span_eq (hf : f ∈ t.nodes) : f.node.span =
    (Span.hull? (f.node.tokens.map (·.span))).getD ⟨f.node.full.start, f.node.full.start⟩ := by
  rw [PlacedNode.span, extent?_eq hf]
  rfl

theorem nodeId_inj {n m : PlacedNode} : t.nodeId n = t.nodeId m ↔ n.index = m.index := by
  simp [nodeId]

theorem index_top (t : Tree) : t.top.index = 0 := by
  rw [top_eq]
  rfl

theorem top_mem (t : Tree) : ⟨t.top, []⟩ ∈ t.nodes := by
  rw [nodes_eq]
  exact List.mem_cons_self

/-- Only the root has nothing around it. -/
theorem above_eq_nil (hf : f ∈ t.nodes) : f.above = [] ↔ f.node.index = 0 := by
  constructor
  · intro habove
    rw [nodes_eq] at hf
    obtain rfl | hf := List.mem_cons.mp hf
    · exact t.index_top
    · obtain ⟨inner, hinner⟩ := Placed.exists_outerOf _ hf
      rw [habove] at hinner
      exact absurd hinner.symm (List.append_ne_nil_of_right_ne_nil inner (List.cons_ne_nil _ _))
  · intro h
    exact congrArg Focus.above (focus_eq hf t.top_mem (h.trans t.index_top.symm))

end Tree

/-! ## The tree as a whole -/

/-- What a tree says of its nodes and tokens is true to its root. -/
structure Tree.IsFaithful (t : Tree) : Prop where
  /-- Without the places the tree is its root. -/
  root : t.top.node = t.root
  tokens : t.tokens.map (·.leaf.token) = t.root.tokens
  /-- Tokens are numbered in text order and cover the text side by side. -/
  tokenNumbers : t.tokens.map (·.leaf.index) = List.range t.tokens.length
  tokensTile : Tiles 0 (byteLength t.text.toList) (t.tokens.map (·.leaf.full))
  tokenText : ∀ l ∈ t.tokens, l.leaf.span.slice? t.text = some l.leaf.text
  /-- A node with its trivia is as long as what it is made of, and its children cover it side by
  side. -/
  nodeLength : ∀ f ∈ t.nodes, f.node.full = .ofLength f.node.full.start f.node.node.fullLength
  childrenTile : ∀ f ∈ t.nodes,
    Tiles f.node.full.start f.node.full.stop (f.node.children.map Placed.full)
  /-- A node without its trivia reaches from its first token to its last one, if it has any. -/
  nodeSpan : ∀ f ∈ t.nodes, ∀ first last, f.node.tokens.head? = some first →
    f.node.tokens.getLast? = some last →
    f.node.span = ⟨first.span.start, last.span.stop⟩
  emptySpan : ∀ f ∈ t.nodes, f.node.tokens = [] →
    f.node.span = ⟨f.node.full.start, f.node.full.start⟩
  /-- Nodes are numbered in preorder. -/
  nodeNumbers : t.nodes.map (·.node.index) = List.range t.nodes.length
  preorder : t.nodes.map (·.node) = PlacedNode.walk [t.top]
  /-- All but the root have a parent, whose own parents are those further up. -/
  parentless : ∀ f ∈ t.nodes, f.above = [] ↔ f.node.index = 0
  nodeParent : ∀ f ∈ t.nodes, ∀ m rest, f.above = m :: rest → t.nodes[m.index]? = some ⟨m, rest⟩
  tokenParent : ∀ l ∈ t.tokens, ∃ m rest, l.above = m :: rest ∧ t.nodes[m.index]? = some ⟨m, rest⟩
  /-- The children of a node are those that have it as their parent. -/
  childNodes : ∀ f ∈ t.nodes, f.node.childNodes = (t.nodes.filter (·.isChildOf f.node)).map (·.node)
  childTokens : ∀ f ∈ t.nodes,
    f.node.childTokens = (t.tokens.filter (·.isChildOf f.node)).map (·.leaf)
  /-- The nodes and tokens in a node are those that reach it over their parents, in the order of
  their numbers. -/
  descendants : ∀ f ∈ t.nodes, f.node.descendants = (t.nodes.filter (·.isIn f.node)).map (·.node)
  descendantTokens : ∀ f ∈ t.nodes, f.node.tokens = (t.tokens.filter (·.isIn f.node)).map (·.leaf)
  /-- Whoever goes through a node with a stack meets them in that order, too. -/
  walk : ∀ f ∈ t.nodes, PlacedNode.walk [f.node] = f.node.descendants
  walkTokens : ∀ f ∈ t.nodes, Placed.walkTokens [f.node.placed] = f.node.tokens

/-- Every layout answers as the tree that it was made of. -/
theorem Tree.isFaithful (t : Tree) : t.IsFaithful where
  root := t.node_top
  tokens := by
    have htokens := congrArg (List.map PlacedToken.token) t.leaves_eq
    rwa [List.map_map, map_token_leavesFrom] at htokens
  tokenNumbers := by
    have hindex := congrArg (List.map PlacedToken.index) t.leaves_eq
    have hlength := congrArg List.length t.leaves_eq
    rw [List.length_map, length_leavesFrom] at hlength
    rwa [List.map_map, index_leavesFrom, ← hlength, ← List.range_eq_range'] at hindex
  tokensTile := by
    have hfull := congrArg (List.map PlacedToken.full) t.leaves_eq
    have htile := tiles_leavesFrom 0 0 t.root.tokens
    rw [← hfull, List.map_map, Nat.zero_add] at htile
    rwa [Tree.text, Node.text, String.toList_ofList]
  tokenText _ hl := slice?_leaf hl
  nodeLength _ hf := full_eq hf
  childrenTile _ hf := tiles_children hf
  nodeSpan f hf first last hfirst hlast := by
    rw [span_eq hf, Span.hull?, List.head?_map, List.getLast?_map, hfirst, hlast]
    rfl
  emptySpan f hf hnil := by
    rw [span_eq hf, hnil]
    rfl
  nodeNumbers := by
    obtain ⟨k, hindex⟩ := t.nodes_index
    have hlength := congrArg List.length hindex
    rw [List.length_map, List.length_range] at hlength
    rw [hlength, hindex]
  preorder := by
    rw [PlacedNode.walk_eq, nodes_eq, Placed.node_foci, List.map_singleton, Placed.nodesOf,
      Placed.nodesOf, List.append_nil]
  parentless _ hf := above_eq_nil hf
  nodeParent _ hf _ _ habove := nodes_getElem? (mem_nodes_of_cons hf habove)
  tokenParent _ hl := by
    obtain ⟨m, rest, habove, hmem, -⟩ := exists_parent_token hl
    exact ⟨m, rest, habove, nodes_getElem? hmem⟩
  childNodes _ hf := childNodes_eq hf
  childTokens _ hf := childTokens_eq hf
  descendants _ hf := descendants_eq hf
  descendantTokens _ hf := tokens_of_node_eq hf
  walk f _ := by
    rw [PlacedNode.walk_eq, List.map_singleton, Placed.nodesOf, Placed.nodesOf, List.append_nil]
    rfl
  walkTokens f _ := by
    rw [Placed.walkTokens_eq, Placed.tokensOf, Placed.tokensOf, List.append_nil]
    rfl

end AutoProperty
