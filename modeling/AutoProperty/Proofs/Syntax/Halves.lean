import AutoProperty.Proofs.Syntax.Batches
import AutoProperty.Proofs.Syntax.Paths

/-! # Edits one after the other

Replacing nodes and removing others in one batch gives the same tree as replacing first and then
removing what stands at the same paths. What is replaced keeps its place among its siblings, so
a removed node finds the same comma beside it, and what it leaves behind is carried to the same
token.
-/

namespace AutoProperty

/-! ## What a batch does at a path -/

namespace EditBatch

variable {batch : EditBatch} {tree : Tree} {edits : List Edit}

def keepOf? (batch : EditBatch) (n : PlacedNode) : Option KeepOptions :=
  match batch.editOf? n with
  | some (.remove _ keep) => some keep
  | _ => none

theorem keepOf?_eq_some {n : PlacedNode} {keep : KeepOptions} :
    batch.keepOf? n = some keep ↔ ∃ id, batch.editOf? n = some (.remove id keep) := by
  rw [keepOf?]
  rcases batch.editOf? n with _ | ⟨id, keep'⟩ | ⟨id, replacement⟩ <;> simp

/-- The edit of a node of the tree is the one with its handle. -/
theorem Fits.editOf?_eq_some (h : batch.Fits tree) {n : PlacedNode} {edit : Edit} :
    batch.editOf? n = some edit ↔ edit ∈ batch.edits ∧ edit.node = tree.nodeId n := by
  rw [h.editOf?_iff]
  apply and_congr_right
  intro hmem
  constructor
  · intro hindex
    obtain ⟨g, hg, hnode⟩ := h.exists_node _ (List.mem_map_of_mem hmem)
    rw [hnode] at hindex ⊢
    exact Tree.nodeId_inj.mpr hindex
  · intro hnode
    rw [hnode]
    rfl

/-- Nothing within an edited node is edited. -/
theorem Fits.editOf?_of_above (h : batch.Fits tree) {f : Focus} (hf : f ∈ tree.nodes)
    {n : PlacedNode} (hn : n ∈ f.above) {edit : Edit} (hedit : batch.editOf? f.node = some edit) :
    batch.editOf? n = none := by
  rw [Option.eq_none_iff_forall_ne_some]
  intro edit' hedit'
  have hnode := h.editOf?_eq_some.mp hedit
  have hnode' := h.editOf?_eq_some.mp hedit'
  exact h.apart f hf (hnode.2 ▸ List.mem_map_of_mem hnode.1) n hn
    (hnode'.2 ▸ List.mem_map_of_mem hnode'.1)

/-- Edits of a batch that fits do not lie within each other. -/
theorem Fits.editOf?_inside (h : batch.Fits tree) {f : Focus} (hf : f ∈ tree.nodes) {edit : Edit}
    (hedit : batch.editOf? f.node = some edit) :
    ∀ n ∈ Placed.nodesOf f.node.children, batch.editOf? n = none := by
  intro n hn
  rw [← Placed.node_fociOf (f.node :: f.above)] at hn
  obtain ⟨g, hg, rfl⟩ := List.mem_map.mp hn
  have hmem : g ∈ tree.nodes := by
    rw [Tree.nodes_eq] at hf ⊢
    exact Placed.foci_of_mem_foci _ hf hg
  have hwithin : f.node ∈ g.above := by
    obtain ⟨inner, hinner⟩ := Placed.exists_outerOf _ hg
    rw [hinner]
    exact List.mem_append_right _ List.mem_cons_self
  rw [Option.eq_none_iff_forall_ne_some]
  intro edit' hedit'
  cases hedit.symm.trans (h.editOf?_of_above hmem hwithin hedit')

theorem Fits.editOf?_top (h : batch.Fits tree) : batch.editOf? tree.top = none := by
  obtain ⟨foci, hfoci, -⟩ := h.exists_foci
  exact EditBatch.editOf?_top hfoci

/-- A token goes away as a comma if a node beside it is removed that takes it along. -/
theorem Fits.dropsComma_iff (h : batch.Fits tree) {path : List Nat} {k : Nat} {g : Focus}
    {leaf : PlacedToken} (hg : tree.at? path = some g)
    (hleaf : g.node.children[k]? = some (.token leaf)) :
    batch.dropsComma tree leaf ↔
      ∃ i f keep, tree.at? (path ++ [i]) = some f ∧ batch.keepOf? f.node = some keep ∧
      g.node.separatorPlace? i = some k := by
  constructor
  · intro hdrops
    obtain ⟨edit, hedit, hdrops⟩ := List.any_eq_true.mp hdrops
    obtain ⟨hremoval, hany⟩ := Bool.and_eq_true_iff.mp hdrops
    obtain ⟨comma, hcomma, hindex⟩ := (Option.any_eq_true ..).mp hany
    obtain ⟨f, hnode, hcomma⟩ := Option.bind_eq_some_iff.mp hcomma
    obtain ⟨hf, hid⟩ := Tree.node?_some hnode
    obtain ⟨whole, hwhole⟩ := Tree.exists_at? hf
    rcases List.eq_nil_or_concat' whole with rfl | ⟨path', i, rfl⟩
    · cases hwhole
      cases hcomma
    · obtain ⟨g', hg', -⟩ := Tree.at?_concat_eq_some.mp hwhole
      rw [separator?_eq hg' hwhole] at hcomma
      obtain ⟨j, hj, hcomma⟩ := Option.bind_eq_some_iff.mp hcomma
      obtain ⟨rfl, rfl⟩ :=
        Tree.place_unique hg' (commaAt?_eq_some.mp hcomma).1 hg hleaf (beq_iff_eq.mp hindex)
      obtain rfl := Option.some.inj (hg.symm.trans hg')
      cases edit with
      | replace id replacement => cases hremoval
      | remove id keep =>
        exact ⟨i, f, keep, hwhole, keepOf?_eq_some.mpr ⟨id, h.editOf?_eq_some.mpr ⟨hedit, hid⟩⟩, hj⟩
  · rintro ⟨i, f, keep, hf, hkeep, hplace⟩
    obtain ⟨id, hedit⟩ := keepOf?_eq_some.mp hkeep
    obtain ⟨hmem, hid⟩ := h.editOf?_eq_some.mp hedit
    obtain ⟨comma, hcomma⟩ := PlacedNode.exists_comma hplace
    obtain rfl : comma = leaf := by
      have hcomma := (commaAt?_eq_some.mp hcomma).1
      rw [hleaf] at hcomma
      cases hcomma
      rfl
    refine List.any_eq_true.mpr ⟨_, hmem, ?_⟩
    rw [hid, Tree.node?_nodeId (Tree.at?_mem hf), Option.bind_some, separator?_eq hg hf, hplace,
      Option.bind_some, hcomma]
    simp [Edit.isRemoval]

end EditBatch

/-! ## The tree between the two runs -/

namespace EditBatch

mutual

def replaced (batch : EditBatch) : Placed → Element
  | .token leaf => .token leaf.token
  | .node info children =>
    match batch.editOf? ⟨info, children⟩ with
    | some (.replace _ replacement) => replacement.element
    | _ => .node info.kind (batch.replacedAll children)

def replacedAll (batch : EditBatch) : List Placed → List Element
  | [] => []
  | p :: ps => batch.replaced p :: batch.replacedAll ps

end

theorem replacedAll_eq_map (batch : EditBatch) (ps : List Placed) :
    batch.replacedAll ps = ps.map batch.replaced := by
  induction ps with
  | nil => rfl
  | cons p ps ih => rw [replacedAll, ih, List.map_cons]

theorem replaced_placed (batch : EditBatch) (n : PlacedNode) : batch.replaced n.placed =
    match batch.editOf? n with
    | some (.replace _ replacement) => replacement.element
    | _ => .node n.kind (batch.replacedAll n.children) := by
  rw [PlacedNode.placed, replaced]
  rfl

/-- A node is replaced by a node. -/
theorem exists_replaced (batch : EditBatch) (n : PlacedNode) :
    ∃ m : Node, batch.replaced n.placed = m.element := by
  rw [replaced_placed]
  rcases batch.editOf? n with _ | ⟨id, keep⟩ | ⟨id, replacement⟩
  · exact ⟨⟨_, _⟩, rfl⟩
  · exact ⟨⟨_, _⟩, rfl⟩
  · exact ⟨replacement, rfl⟩

mutual

/-- Without edits nothing is replaced. -/
theorem replaced_eq_element {batch : EditBatch} (p : Placed)
    (h : ∀ n ∈ p.nodes, batch.editOf? n = none) : batch.replaced p = p.element := by
  cases p with
  | token leaf => rfl
  | node info children =>
    obtain ⟨hself, hinner⟩ := List.forall_mem_cons.mp h
    rw [replaced, hself, Placed.element, replacedAll_eq_elementsOf children hinner]

theorem replacedAll_eq_elementsOf {batch : EditBatch} (ps : List Placed)
    (h : ∀ n ∈ Placed.nodesOf ps, batch.editOf? n = none) :
    batch.replacedAll ps = Placed.elementsOf ps := by
  cases ps with
  | nil => rfl
  | cons p ps =>
    obtain ⟨hfirst, hothers⟩ := List.forall_mem_append.mp h
    rw [replacedAll, Placed.elementsOf, replaced_eq_element p hfirst,
      replacedAll_eq_elementsOf ps hothers]

end

def replacements (batch : EditBatch) : EditBatch :=
  { batch with edits := batch.edits.filter (!·.isRemoval) }

def removals (batch : EditBatch) : List Edit :=
  batch.edits.filter Edit.isRemoval

end EditBatch

/-! ## Nodes that are left as they are -/

namespace Element

mutual

/-- Without carried trivia the first token stays as it is. -/
theorem mapFirst?_prepend_nil (e e' : Element) (h : e.mapFirst? (Token.prepend []) = some e') :
    e' = e := by
  cases e with
  | token t =>
    cases h
    rfl
  | node kind children =>
    obtain ⟨children', hchildren, rfl⟩ := Option.map_eq_some_iff.mp h
    rw [mapFirstOf?_prepend_nil children children' hchildren]

/-- Putting no trivia in front changes nothing. -/
theorem mapFirstOf?_prepend_nil (es es' : List Element)
    (h : mapFirstOf? (Token.prepend []) es = some es') : es' = es := by
  cases es with
  | nil => cases h
  | cons e es =>
    rw [mapFirstOf?] at h
    split at h
    next e' he =>
      cases h
      rw [mapFirst?_prepend_nil e e' he]
    next =>
      obtain ⟨others, hothers, rfl⟩ := Option.map_eq_some_iff.mp h
      rw [mapFirstOf?_prepend_nil es others hothers]

end

end Element

theorem receive_nil (n : Node) : receive [] n = (n, []) := by
  rw [receive]
  split
  next children hchildren => rw [Element.mapFirstOf?_prepend_nil n.children children hchildren]
  next => rfl

/-- The plan leaves the elements as they are. -/
structure EditPlan.Spares (plan : EditPlan) (ps : List Placed) : Prop where
  edit : ∀ n ∈ Placed.nodesOf ps, plan.edit? n.info = none
  drops : ∀ leaf ∈ Placed.tokensOf ps, plan.drops leaf = false

namespace EditPlan

variable {plan : EditPlan}

theorem Spares.children {info : NodeInfo} {children ps : List Placed}
    (h : plan.Spares (.node info children :: ps)) : plan.Spares children where
  edit n hn := h.edit n (List.mem_append_left _ (List.mem_cons_of_mem _ hn))
  drops leaf hleaf := h.drops leaf (List.mem_append_left _ hleaf)

theorem Spares.head {p : Placed} {ps : List Placed} (h : plan.Spares (p :: ps)) :
    plan.Spares [p] where
  edit n hn := h.edit n (List.mem_append_left _ (by simpa [Placed.nodesOf] using hn))
  drops leaf hleaf := h.drops leaf (List.mem_append_left _ (by simpa [Placed.tokensOf] using hleaf))

theorem Spares.tail {p : Placed} {ps : List Placed} (h : plan.Spares (p :: ps)) :
    plan.Spares ps where
  edit n hn := h.edit n (List.mem_append_right _ hn)
  drops leaf hleaf := h.drops leaf (List.mem_append_right _ hleaf)

mutual

/-- An element that is left as it is takes up what is carried in front of its first token. -/
theorem Spares.rebuild (pending : List Trivia) (p : Placed) (h : plan.Spares [p]) :
    plan.rebuild pending p =
    match p.element.mapFirst? (Token.prepend pending) with
    | some e => (some e, [])
    | none => (some p.element, pending) := by
  cases p with
  | token leaf =>
    rw [EditPlan.rebuild, h.drops leaf (by simp [Placed.tokensOf, Placed.tokens])]
    rfl
  | node info children =>
    have hnone : plan.edit? info = none :=
      h.edit ⟨info, children⟩ (by simp [Placed.nodesOf, Placed.nodes])
    rw [EditPlan.rebuild, hnone]
    dsimp only
    rw [Spares.rebuildAll pending children h.children, Placed.element, Element.mapFirst?]
    cases Element.mapFirstOf? (Token.prepend pending) (Placed.elementsOf children) <;> rfl

/-- Where nothing is edited, only the pending trivia is put in front. -/
theorem Spares.rebuildAll (pending : List Trivia) (ps : List Placed) (h : plan.Spares ps) :
    plan.rebuildAll pending ps =
    match Element.mapFirstOf? (Token.prepend pending) (Placed.elementsOf ps) with
    | some es => (es, [])
    | none => (Placed.elementsOf ps, pending) := by
  cases ps with
  | nil => rfl
  | cons p ps =>
    rw [EditPlan.rebuildAll, Spares.rebuild pending p h.head, Placed.elementsOf,
      Element.mapFirstOf?]
    cases hfirst : p.element.mapFirst? (Token.prepend pending) with
    | some e =>
      dsimp only
      -- The first element has taken up what was carried, so the others stay as they are.
      rw [Spares.rebuildAll [] ps h.tail]
      cases hothers : Element.mapFirstOf? (Token.prepend []) (Placed.elementsOf ps) with
      | none => rfl
      | some es =>
        rw [Element.mapFirstOf?_prepend_nil _ _ hothers]
        rfl
    | none =>
      dsimp only
      rw [Spares.rebuildAll pending ps h.tail]
      cases Element.mapFirstOf? (Token.prepend pending) (Placed.elementsOf ps) <;> rfl

end

/-- A node that is left as it is takes up what is carried as a replacement does. -/
theorem Spares.rebuild_eq_receive (pending : List Trivia) {p : Placed} (h : plan.Spares [p])
    {n : Node} (helement : p.element = n.element) :
    plan.rebuild pending p = (some (receive pending n).1.element, (receive pending n).2) := by
  rw [h.rebuild pending, helement, Node.element, Element.mapFirst?, receive]
  cases Element.mapFirstOf? (Token.prepend pending) n.children <;> rfl

end EditPlan

/-! ## The first run -/

section FirstRun

variable {batch : EditBatch} {tree : Tree}

/-- A part of a batch that fits fits, too. -/
theorem EditBatch.Fits.filter (h : batch.Fits tree) (keeps : Edit → Bool) :
    EditBatch.Fits { batch with edits := batch.edits.filter keeps } tree := by
  have hsublist := (List.filter_sublist (p := keeps) (l := batch.edits)).map Edit.node
  constructor
  · exact h.tree_eq
  · exact fun id hid => h.exists_node id (hsublist.subset hid)
  · exact fun htop => h.not_root (hsublist.subset htop)
  · exact h.nodup.sublist hsublist
  · exact fun f hf hedited n hn hedited' => h.apart f hf (hsublist.subset hedited) n hn
      (hsublist.subset hedited')

theorem EditBatch.Fits.editOf?_filter (h : batch.Fits tree) (keeps : Edit → Bool) (n : PlacedNode) :
    EditBatch.editOf? { batch with edits := batch.edits.filter keeps } n = (batch.editOf? n).filter
      keeps := by
  ext edit
  rw [(h.filter keeps).editOf?_iff, Option.filter_eq_some_iff, h.editOf?_iff, List.mem_filter]
  exact and_right_comm

mutual

/-- Replacing alone carries nothing: each element turns into one element. -/
theorem EditPlan.Follows.rebuild_replacements {plan : EditPlan} (hfits : batch.Fits tree)
    (hplan : plan.Follows batch.replacements tree) (p : Placed) :
    plan.rebuild [] p = (some (batch.replaced p), []) := by
  cases p with
  | token leaf =>
    have hdrops : plan.drops leaf = false := by
      rw [hplan.drops, EditBatch.dropsComma, List.any_eq_false]
      intro e he
      have hkind := (List.mem_filter.mp he).2
      simp_all
    rw [EditPlan.rebuild, hdrops]
    rfl
  | node info children =>
    have hedit : plan.edit? info = (batch.editOf? ⟨info, children⟩).filter (!·.isRemoval) :=
      (hplan.edit ⟨info, children⟩).trans (hfits.editOf?_filter _ _)
    have hchildren := rebuildAll_replacements hfits hplan children
    rw [EditPlan.rebuild, hedit, EditBatch.replaced]
    rcases batch.editOf? ⟨info, children⟩ with _ | ⟨id, keep⟩ | ⟨id, replacement⟩
    · simp [hchildren]
    · rw [Option.filter_some, if_neg (by simp [Edit.isRemoval])]
      simp [hchildren]
    · rw [Option.filter_some, if_pos (by simp [Edit.isRemoval])]
      simp [receive_nil]

/-- A batch that only replaces leaves no trivia pending. -/
theorem EditPlan.Follows.rebuildAll_replacements {plan : EditPlan} (hfits : batch.Fits tree)
    (hplan : plan.Follows batch.replacements tree) (ps : List Placed) :
    plan.rebuildAll [] ps = (batch.replacedAll ps, []) := by
  cases ps with
  | nil => rfl
  | cons p ps =>
    rw [EditPlan.rebuildAll, rebuild_replacements hfits hplan p]
    dsimp only
    rw [rebuildAll_replacements hfits hplan ps]
    rfl

end

def EditBatch.replacedRoot (batch : EditBatch) (tree : Tree) : Node :=
  ⟨tree.root.kind, batch.replacedAll tree.top.children⟩

theorem EditBatch.Fits.apply_replacements (h : batch.Fits tree) :
    batch.replacements.apply tree = .ok (batch.replacedRoot tree) := by
  have hfits : batch.replacements.Fits tree := h.filter _
  obtain ⟨plan, hplan⟩ := hfits.exists_follows
  rw [hfits.apply_eq hplan, hplan.rebuildAll_replacements h]
  rfl

end FirstRun

/-! ## The second run -/

def Edit.on (id : NodeId) : Edit → Edit
  | .remove _ keep => .remove id keep
  | .replace _ replacement => .replace id replacement

/-- The second edit is the first one, made of the node at the same path of the second tree. All
its options stay. -/
def Edit.MovesTo (t u : Tree) (edit edit' : Edit) : Prop :=
  ∃ path f g, t.at? path = some f ∧ u.at? path = some g ∧ edit.node = t.nodeId f.node ∧
    edit' = edit.on (u.nodeId g.node)

namespace Edit

variable {t u : Tree} {edit edit' : Edit} {path : List Nat} {f g : Focus}

theorem node_on (edit : Edit) (id : NodeId) : (edit.on id).node = id := by
  cases edit <;> rfl

/-- An edit that is made of the node at a path was made of the node at that path. -/
theorem MovesTo.of_node (h : edit.MovesTo t u edit') (hg : u.at? path = some g)
    (hnode : edit'.node = u.nodeId g.node) :
    ∃ f, t.at? path = some f ∧ edit.node = t.nodeId f.node ∧ edit' = edit.on (u.nodeId g.node) := by
  obtain ⟨path', f, g', hf, hg', hedit, rfl⟩ := h
  rw [node_on, Tree.nodeId_inj] at hnode
  obtain rfl := Tree.path_unique hg' hg hnode
  obtain rfl := Option.some.inj (hg.symm.trans hg')
  exact ⟨f, hf, hedit, rfl⟩

/-- An edit of the node at a path moves to the node at that path. -/
theorem MovesTo.of_node_left (h : edit.MovesTo t u edit') (hf : t.at? path = some f)
    (hnode : edit.node = t.nodeId f.node) :
    ∃ g, u.at? path = some g ∧ edit' = edit.on (u.nodeId g.node) := by
  obtain ⟨path', f', g, hf', hg, hedit, rfl⟩ := h
  rw [hedit, Tree.nodeId_inj] at hnode
  obtain rfl := Tree.path_unique hf' hf hnode
  exact ⟨g, hg, rfl⟩

end Edit

/-- A batch, and the removals of it made in the tree that its replacements give. -/
structure EditBatch.Halves (batch : EditBatch) (t : Tree) (rest : EditBatch) (u : Tree) : Prop where
  fits : batch.Fits t
  root : u.root = batch.replacedRoot t
  fits_rest : rest.Fits u
  /-- The same paths lead to the nodes that are removed. -/
  keep : ∀ path g, u.at? path = some g →
    rest.keepOf? g.node = (t.at? path).bind (batch.keepOf? ·.node)
  removal : ∀ n edit, rest.editOf? n = some edit → edit.isRemoval

namespace EditBatch

section Between

variable {batch : EditBatch} {t u : Tree} {path : List Nat} {i : Nat} {f g : Focus}

/-- Outside of replaced nodes each path leads to what the node has become. -/
theorem exists_between (hfits : batch.Fits t) (hroot : u.root = batch.replacedRoot t)
    (hf : t.at? path = some f) (houtside : ∀ n ∈ f.above, batch.editOf? n = none) :
    ∃ g, u.at? path = some g ∧ g.node.placed.element = batch.replaced f.node.placed := by
  induction path using List.reverseRecOn generalizing f with
  | nil =>
    cases hf
    refine ⟨_, u.at?_nil, ?_⟩
    rw [Tree.element_top, hroot, replaced_placed, hfits.editOf?_top]
    have hkind : t.top.kind = t.root.kind := by
      rw [t.top_eq]
      rfl
    show Element.node t.root.kind _ = Element.node t.top.kind _
    rw [hkind]
    rfl
  | append_singleton path i ih =>
    obtain ⟨f', hf', hchild, habove⟩ := Tree.at?_concat_eq_some.mp hf
    rw [habove] at houtside
    obtain ⟨hnone, houtside⟩ := List.forall_mem_cons.mp houtside
    obtain ⟨g', hg', helement⟩ := ih hf' houtside
    -- The parent is not edited, so its children have become what the edits make of each of them.
    rw [replaced_placed, hnone, PlacedNode.placed, Placed.element, replacedAll_eq_map,
      Placed.elementsOf_eq_map] at helement
    have hchildren := congrArg (·[i]?) (Element.node.inj helement).2
    simp only [List.getElem?_map, hchild, Option.map_some] at hchildren
    obtain ⟨p, hp, helement⟩ := Option.map_eq_some_iff.mp hchildren
    obtain ⟨m, hm⟩ := batch.exists_replaced f.node
    cases p with
    | token leaf =>
      rw [hm] at helement
      cases helement
    | node info children =>
      exact ⟨⟨⟨info, children⟩, g'.node :: g'.above⟩,
        Tree.at?_concat_eq_some.mpr ⟨g', hg', hp, rfl⟩, helement⟩

theorem token?_replaced (batch : EditBatch) (p : Placed) :
    (batch.replaced p).token? = p.element.token? := by
  cases p with
  | token leaf => rfl
  | node info children =>
    obtain ⟨m, hm⟩ := batch.exists_replaced ⟨info, children⟩
    rw [show batch.replaced (.node info children) = m.element from hm]
    rfl

theorem isSome_commaAt? (m : PlacedNode) (i : Nat) :
    (commaAt? m i).isSome = ((Placed.elementsOf m.children)[i]?.bind Element.token?).any
      (·.kind == .commaToken) := by
  rw [Bool.eq_iff_iff, Option.isSome_iff_exists]
  simp only [commaAt?_eq_some, Placed.elementsOf_eq_map, List.getElem?_map]
  rcases m.children[i]? with _ | ⟨leaf⟩ | ⟨info, children⟩ <;> simp [Placed.element, Element.token?,
    PlacedToken.kind]

/-- A node that is not edited has its commas where they were. -/
theorem separatorPlace?_between {m n : PlacedNode} (hnone : batch.editOf? n = none)
    (helement : m.placed.element = batch.replaced n.placed) (i : Nat) :
    m.separatorPlace? i = n.separatorPlace? i := by
  rw [replaced_placed, hnone, PlacedNode.placed, Placed.element] at helement
  obtain ⟨hkind, hchildren⟩ := Element.node.inj helement
  have hcomma (j : Nat) : (commaAt? m j).isSome = (commaAt? n j).isSome := by
    rw [isSome_commaAt?, isSome_commaAt?, hchildren, replacedAll_eq_map, Placed.elementsOf_eq_map,
      List.getElem?_map, List.getElem?_map]
    cases n.children[j]? with
    | none => rfl
    | some p => simp [token?_replaced]
  rw [PlacedNode.separatorPlace?, PlacedNode.separatorPlace?, hcomma, hcomma,
    show m.kind = n.kind from hkind]

end Between

namespace Halves

variable {batch rest : EditBatch} {t u : Tree} {path : List Nat} {k : Nat} {f g : Focus}
  {leaf leaf' : PlacedToken}

/-- Nothing around a removed node is edited. -/
theorem outside (h : batch.Fits t) (hf : t.at? path = some f) {keep : KeepOptions}
    (hkeep : batch.keepOf? f.node = some keep) : ∀ n ∈ f.above, batch.editOf? n = none := by
  obtain ⟨id, hedit⟩ := keepOf?_eq_some.mp hkeep
  exact fun n hn => h.editOf?_of_above (Tree.at?_mem hf) hn hedit

/-- The same commas go away. -/
theorem drops (h : batch.Halves t rest u) (hf : t.at? path = some f) (hg : u.at? path = some g)
    (hleaf : f.node.children[k]? = some (.token leaf))
    (hleaf' : g.node.children[k]? = some (.token leaf')) :
    rest.dropsComma u leaf' = batch.dropsComma t leaf := by
  -- The parent of a removed node is not edited, so the comma beside the node stands at the same
  -- place in both trees.
  have hsame {i : Nat} {f' : Focus} {keep : KeepOptions} (hf' : t.at? (path ++ [i]) = some f')
      (hkeep : batch.keepOf? f'.node = some keep) :
      g.node.separatorPlace? i = f.node.separatorPlace? i := by
    have houtside := outside h.fits hf' hkeep
    obtain ⟨f'', hf'', -, habove⟩ := Tree.at?_concat_eq_some.mp hf'
    obtain rfl := Option.some.inj (hf.symm.trans hf'')
    rw [habove] at houtside
    obtain ⟨hnone, houtside⟩ := List.forall_mem_cons.mp houtside
    obtain ⟨g', hg', helement⟩ := exists_between h.fits h.root hf houtside
    obtain rfl := Option.some.inj (hg.symm.trans hg')
    exact separatorPlace?_between hnone helement i
  rw [Bool.eq_iff_iff, h.fits.dropsComma_iff hf hleaf, h.fits_rest.dropsComma_iff hg hleaf']
  constructor
  · rintro ⟨i, g', keep, hg', hkeep, hplace⟩
    rw [h.keep _ _ hg'] at hkeep
    obtain ⟨f', hf', hkeep⟩ := Option.bind_eq_some_iff.mp hkeep
    exact ⟨i, f', keep, hf', hkeep, hsame hf' hkeep ▸ hplace⟩
  · rintro ⟨i, f', keep, hf', hkeep, hplace⟩
    obtain ⟨g', hg', -⟩ := exists_between h.fits h.root hf' (outside h.fits hf' hkeep)
    refine ⟨i, g', keep, hg', ?_, (hsame hf' hkeep).trans hplace⟩
    rw [h.keep _ _ hg', hf', Option.bind_some, hkeep]

/-- Nothing is removed within a replaced node. -/
theorem keepOf?_replaced (h : batch.Halves t rest u) (hf : t.at? path = some f) {id : NodeId}
    {replacement : Node} (hedit : batch.editOf? f.node = some (.replace id replacement))
    {inner : List Nat} (hg : u.at? (path ++ inner) = some g) : rest.keepOf? g.node = none := by
  rw [h.keep _ _ hg, Option.bind_eq_none_iff]
  intro f' hf'
  rw [Option.eq_none_iff_forall_ne_some]
  intro keep hkeep
  obtain ⟨id', hedit'⟩ := keepOf?_eq_some.mp hkeep
  cases inner with
  | nil =>
    rw [List.append_nil] at hf'
    obtain rfl := Option.some.inj (hf.symm.trans hf')
    cases hedit.symm.trans hedit'
  | cons i after =>
    have hnone := h.fits.editOf?_of_above (Tree.at?_mem hf') (Tree.mem_above_of_at? hf hf') hedit'
    cases hedit.symm.trans hnone

theorem editOf?_eq_none (h : batch.Halves t rest u) {n : PlacedNode}
    (hkeep : rest.keepOf? n = none) : rest.editOf? n = none := by
  rw [Option.eq_none_iff_forall_ne_some]
  intro edit hedit
  have hremoval := h.removal n edit hedit
  cases edit with
  | replace => cases hremoval
  | remove id keep => cases hkeep.symm.trans (keepOf?_eq_some.mpr ⟨id, hedit⟩)

/-- The second run leaves what the first one put in as it is. -/
theorem spares (h : batch.Halves t rest u) {plan : EditPlan} (hplan : plan.Follows rest u)
    (hf : t.at? path = some f) {id : NodeId} {replacement : Node}
    (hedit : batch.editOf? f.node = some (.replace id replacement)) (hg : u.at? path = some g) :
    plan.Spares [g.node.placed] where
  edit n hn := by
    rw [Placed.nodesOf, Placed.nodesOf, List.append_nil] at hn
    obtain ⟨inner, g', hinner, rfl⟩ := Tree.exists_at?_of_descendant hg hn
    have hkeep := h.keepOf?_replaced hf hedit hinner
    rw [hplan.edit, h.editOf?_eq_none hkeep]
  drops leaf hleaf := by
    rw [Placed.tokensOf, Placed.tokensOf, List.append_nil] at hleaf
    rw [hplan.drops, Bool.eq_false_iff]
    intro hdrops
    obtain ⟨l, hl, rfl, inner, habove⟩ := Tree.exists_tokenFocus (Tree.at?_mem hg) hleaf
    obtain ⟨m, outer, hm, hmem, hchild⟩ := Tree.exists_parent_token hl
    have hwithin : g.node ∈ (⟨m, outer⟩ : Focus).ancestors := by
      show g.node ∈ m :: outer
      rw [← hm, habove]
      exact List.mem_append_right _ List.mem_cons_self
    obtain ⟨inner, hinner⟩ := Tree.exists_at?_below hg hmem hwithin
    obtain ⟨k, hk⟩ := List.getElem?_of_mem (PlacedNode.mem_childTokens.mp hchild)
    -- A comma only goes away with a node beside it, which would be within the replaced node, too.
    obtain ⟨i, g', keep, hg', hkeep, -⟩ := (h.fits_rest.dropsComma_iff hinner hk).mp hdrops
    rw [List.append_assoc] at hg'
    cases (h.keepOf?_replaced hf hedit hg').symm.trans hkeep

mutual

/-- What stands at one path in both trees is rebuilt alike. -/
theorem rebuild_eq (h : batch.Halves t rest u) {plan plan' : EditPlan}
    (hplan : plan.Follows batch t) (hplan' : plan'.Follows rest u) (p : Placed) {path : List Nat}
    {f g : Focus} (hf : t.at? path = some f) (hp : f.node.placed = p) (hg : u.at? path = some g)
    (helement : g.node.placed.element = batch.replaced p) (pending : List Trivia) :
    plan'.rebuild pending g.node.placed = plan.rebuild pending p := by
  cases p with
  | token leaf => cases hp
  | node info children =>
    obtain ⟨n, above⟩ := f
    obtain rfl : n = ⟨info, children⟩ := by
      cases hp
      rfl
    have hkeep : rest.keepOf? g.node = batch.keepOf? ⟨info, children⟩ := by
      rw [h.keep _ _ hg, hf, Option.bind_some]
    rw [EditPlan.rebuild, PlacedNode.placed, EditPlan.rebuild, hplan'.edit g.node,
      show plan.edit? info = _ from hplan.edit ⟨info, children⟩]
    rw [replaced] at helement
    rcases hedit : batch.editOf? ⟨info, children⟩ with _ | ⟨id, keep⟩ | ⟨id, replacement⟩
    · rw [keepOf?.eq_def batch, hedit] at hkeep
      rw [hedit] at helement
      obtain ⟨hkind, helements⟩ := Element.node.inj helement
      rw [h.editOf?_eq_none hkeep]
      dsimp only
      rw [rebuildAll_eq h hplan hplan' children hf (List.nil_append _).symm hg
        (List.nil_append _).symm rfl helements pending, hkind]
    · rw [keepOf?.eq_def batch, hedit] at hkeep
      rw [hedit] at helement
      obtain ⟨id', hedit'⟩ := keepOf?_eq_some.mp hkeep
      obtain ⟨-, helements⟩ := Element.node.inj helement
      -- Nothing within a removed node is replaced, so it has the same tokens in both trees.
      rw [replacedAll_eq_elementsOf children (h.fits.editOf?_inside (Tree.at?_mem hf) hedit)]
        at helements
      rw [hedit', ← Placed.tokensOf_elementsOf, ← Placed.tokensOf_elementsOf, helements]
    · rw [hedit] at helement
      have hreceive := (h.spares hplan' hf hedit hg).rebuild_eq_receive pending helement
      rw [PlacedNode.placed, EditPlan.rebuild, hplan'.edit g.node] at hreceive
      exact hreceive

/-- Editing in two halves gives the same elements. The induction goes down the tree along both
paths. -/
theorem rebuildAll_eq (h : batch.Halves t rest u) {plan plan' : EditPlan}
    (hplan : plan.Follows batch t) (hplan' : plan'.Follows rest u) (ps : List Placed)
    {path : List Nat} {f g : Focus} (hf : t.at? path = some f) {before before' ps' : List Placed}
    (hps : f.node.children = before ++ ps) (hg : u.at? path = some g)
    (hps' : g.node.children = before' ++ ps') (hlength : before'.length = before.length)
    (helements : Placed.elementsOf ps' = batch.replacedAll ps) (pending : List Trivia) :
    plan'.rebuildAll pending ps' = plan.rebuildAll pending ps := by
  cases ps with
  | nil =>
    rw [replacedAll, Placed.elementsOf_eq_map, List.map_eq_nil_iff] at helements
    rw [helements, EditPlan.rebuildAll, EditPlan.rebuildAll]
  | cons p ps =>
    obtain ⟨p', rest', rfl⟩ : ∃ p' rest', ps' = p' :: rest' := by
      cases ps' with
      | nil => cases helements
      | cons p' rest' => exact ⟨p', rest', rfl⟩
    obtain ⟨hfirst, hothers⟩ := List.cons.inj helements
    have hchild : f.node.children[before.length]? = some p := by
      rw [hps]
      simp
    have hchild' : g.node.children[before.length]? = some p' := by
      rw [hps', ← hlength]
      simp
    have hstep : plan'.rebuild pending p' = plan.rebuild pending p := by
      cases p with
      | token leaf =>
        cases p' with
        | node info children => cases hfirst
        | token leaf' =>
          have htoken : leaf'.token = leaf.token := Element.token.inj hfirst
          rw [EditPlan.rebuild, EditPlan.rebuild, hplan.drops, hplan'.drops,
            h.drops hf hg hchild hchild', htoken]
      | node info children =>
        obtain ⟨m, hm⟩ := batch.exists_replaced ⟨info, children⟩
        cases p' with
        | token leaf' => cases hfirst.trans hm
        | node info' children' =>
          exact rebuild_eq h hplan hplan' (.node info children)
            (f := ⟨⟨info, children⟩, f.node :: f.above⟩) (g :=
            ⟨⟨info', children'⟩, g.node :: g.above⟩)
            (Tree.at?_concat_eq_some.mpr ⟨f, hf, hchild, rfl⟩) rfl
            (Tree.at?_concat_eq_some.mpr ⟨g, hg, hchild', rfl⟩) hfirst pending
    have hnext (pending : List Trivia) : plan'.rebuildAll pending rest' = plan.rebuildAll pending
        ps :=
      rebuildAll_eq h hplan hplan' ps hf (hps.trans (List.append_cons ..)) hg
        (hps'.trans (List.append_cons ..))
        (by simp [hlength]) hothers pending
    rw [EditPlan.rebuildAll, EditPlan.rebuildAll, hstep]
    simp only [hnext]

end

/-- The second run gives what both edits give at once. -/
theorem apply_eq (h : batch.Halves t rest u) : rest.apply u = batch.apply t := by
  obtain ⟨plan, hplan⟩ := h.fits.exists_follows
  obtain ⟨plan', hplan'⟩ := h.fits_rest.exists_follows
  have helement : u.top.placed.element = batch.replaced t.top.placed := by
    obtain ⟨g, hg, helement⟩ := exists_between h.fits h.root t.at?_nil nofun
    cases hg
    exact helement
  rw [replaced_placed, h.fits.editOf?_top, PlacedNode.placed, Placed.element] at helement
  have hrebuilt :=
    rebuildAll_eq h hplan hplan' t.top.children t.at?_nil (List.nil_append _).symm u.at?_nil
      (List.nil_append _).symm rfl (Element.node.inj helement).2 []
  rw [h.fits_rest.apply_eq hplan', h.fits.apply_eq hplan, hrebuilt, h.root]
  rfl

end Halves

section Moves

variable {batch : EditBatch} {t u : Tree} {edits : List Edit}

/-- Each removal can be made in the tree between the runs. -/
theorem Fits.exists_moves (h : batch.Fits t) (hroot : u.root = batch.replacedRoot t) :
    ∃ edits, List.Forall₂ (Edit.MovesTo t u) batch.removals edits := by
  apply exists_forall₂
  intro edit hedit
  obtain ⟨hmem, hremoval⟩ := List.mem_filter.mp hedit
  obtain ⟨f, hf, hnode⟩ := h.exists_node _ (List.mem_map_of_mem hmem)
  obtain ⟨path, hpath⟩ := Tree.exists_at? hf
  have houtside : ∀ n ∈ f.above, batch.editOf? n = none :=
    fun n hn => h.editOf?_of_above hf hn (h.editOf?_eq_some.mpr ⟨hmem, hnode⟩)
  obtain ⟨g, hg, -⟩ := exists_between h hroot hpath houtside
  exact ⟨_, path, f, g, hpath, hg, hnode, rfl⟩

/-- Edits of different nodes move to different nodes. -/
theorem nodup_of_moves {first : List Edit} (h : List.Forall₂ (Edit.MovesTo t u) first edits)
    (hnodup : (first.map Edit.node).Nodup) : (edits.map Edit.node).Nodup := by
  induction h with
  | nil => exact List.nodup_nil
  | @cons edit edit' first edits hhead htail ih =>
    obtain ⟨hfresh, hnodup⟩ := List.nodup_cons.mp hnodup
    refine List.nodup_cons.mpr ⟨fun hmem => hfresh ?_, ih hnodup⟩
    obtain ⟨other', hother', hnode⟩ := List.mem_map.mp hmem
    obtain ⟨other, hother, hmoves⟩ := exists_of_forall₂ htail.flip hother'
    obtain ⟨path, f, g, hf, hg, hedit, rfl⟩ := hhead
    rw [Edit.node_on] at hnode
    obtain ⟨f', hf', hedit', -⟩ := Edit.MovesTo.of_node hmoves hg hnode
    obtain rfl := Option.some.inj (hf.symm.trans hf')
    rw [hedit, ← hedit']
    exact List.mem_map_of_mem hother

/-- Removals that moved with their nodes still fit the new tree. -/
theorem Fits.of_moves (h : batch.Fits t)
    (hmoves : List.Forall₂ (Edit.MovesTo t u) batch.removals edits) :
    EditBatch.Fits ⟨u.id, edits⟩ u := by
  -- Each handle among those of the second edits is that of a node at a path that leads to an edited
  -- node.
  have hfound (id : NodeId) (hid : id ∈ edits.map Edit.node) : ∃ path f g,
      t.at? path = some f ∧ u.at? path = some g ∧
      id = u.nodeId g.node ∧ t.nodeId f.node ∈ batch.edits.map Edit.node := by
    obtain ⟨edit', hedit', rfl⟩ := List.mem_map.mp hid
    obtain ⟨edit, hedit, path, f, g, hf, hg, hnode, rfl⟩ := exists_of_forall₂ hmoves.flip hedit'
    exact ⟨path, f, g, hf, hg, Edit.node_on _ _,
      hnode ▸ List.mem_map_of_mem (List.mem_filter.mp hedit).1⟩
  constructor
  · rfl
  · intro id hid
    obtain ⟨path, f, g, -, hg, rfl, -⟩ := hfound id hid
    exact ⟨g, Tree.at?_mem hg, rfl⟩
  · intro htop
    obtain ⟨path, f, g, hf, hg, hid, hmem⟩ := hfound _ htop
    obtain rfl := Tree.path_unique u.at?_nil hg (Tree.nodeId_inj.mp hid)
    cases hf
    exact h.not_root hmem
  · exact nodup_of_moves hmoves (h.filter Edit.isRemoval).nodup
  · intro g hg hedited n hn hedited'
    obtain ⟨path, f, g', hf, hg', hid, hmem⟩ := hfound _ hedited
    obtain rfl := Tree.focus_eq hg (Tree.at?_mem hg') (Tree.nodeId_inj.mp hid)
    obtain ⟨before, i, after, m, rfl, hm, rfl⟩ := Tree.exists_at?_of_above hg' hn
    obtain ⟨path', f', g', hf', hg', hid', hmem'⟩ := hfound _ hedited'
    obtain rfl := Tree.path_unique hm hg' (Tree.nodeId_inj.mp hid')
    exact h.apart f (Tree.at?_mem hf) hmem f'.node (Tree.mem_above_of_at? hf' hf) hmem'

/-- The removals, moved to the tree between the runs, complete the batch. -/
theorem Fits.halves (h : batch.Fits t) (hroot : u.root = batch.replacedRoot t)
    (hmoves : List.Forall₂ (Edit.MovesTo t u) batch.removals edits) :
    batch.Halves t ⟨u.id, edits⟩ u where
  fits := h
  root := hroot
  fits_rest := h.of_moves hmoves
  keep path g hg := by
    ext keep
    rw [keepOf?_eq_some, Option.bind_eq_some_iff]
    simp only [(h.of_moves hmoves).editOf?_eq_some, keepOf?_eq_some, h.editOf?_eq_some]
    constructor
    · rintro ⟨id, hmem, hnode⟩
      obtain ⟨edit, hedit, hstep⟩ := exists_of_forall₂ hmoves.flip hmem
      obtain ⟨f, hf, hnode, heq⟩ := Edit.MovesTo.of_node hstep hg hnode
      cases edit with
      | replace => cases heq
      | remove id' keep' =>
        cases heq
        exact ⟨f, hf, id', (List.mem_filter.mp hedit).1, hnode⟩
    · rintro ⟨f, hf, id, hmem, hnode⟩
      obtain ⟨edit', hedit', hstep⟩ := exists_of_forall₂ hmoves (List.mem_filter.mpr ⟨hmem, rfl⟩)
      obtain ⟨g', hg', rfl⟩ := Edit.MovesTo.of_node_left hstep hf hnode
      obtain rfl := Option.some.inj (hg.symm.trans hg')
      exact ⟨_, hedit', rfl⟩
  removal n edit hedit := by
    obtain ⟨first, hfirst, path, f, g, -, -, -, rfl⟩ :=
      exists_of_forall₂ hmoves.flip (List.mem_of_find?_eq_some hedit)
    have hremoval := (List.mem_filter.mp hfirst).2
    cases first with
    | replace => cases hremoval
    | remove => rfl

end Moves

/-- A batch that is accepted does what its replacements do, and then its removals at the same
paths. -/
theorem apply_removals {batch : EditBatch} {tree : Tree} {root : Node}
    (h : batch.apply tree = .ok root) :
    ∃ mid, batch.replacements.apply tree = .ok mid ∧ ∀ id,
      (∃ rest, List.Forall₂ (Edit.MovesTo tree (.ofRoot id mid)) batch.removals rest) ∧ ∀ rest,
      List.Forall₂ (Edit.MovesTo tree (.ofRoot id mid)) batch.removals rest →
      EditBatch.apply ⟨id, rest⟩ (.ofRoot id mid) = .ok root := by
  have hfits := fits_of_apply h
  refine ⟨_, hfits.apply_replacements, fun id => ⟨?_, fun rest hmoves => ?_⟩⟩
  · exact hfits.exists_moves rfl
  · rw [← h]
    exact (hfits.halves (u := .ofRoot id _) rfl hmoves).apply_eq

end EditBatch

end AutoProperty
