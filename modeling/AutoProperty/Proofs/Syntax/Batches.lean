import AutoProperty.Proofs.Syntax.Layouts
import AutoProperty.Proofs.Syntax.Rebuilding

/-! # Batches

Which batches a tree takes, and what of a batch counts. A batch is refused only if it cannot be
made: its edits must be about different nodes of the tree, none of them the root and none around
another. What it does to the tree depends on which edit each node has, so the order of the edits
is of no account.
-/

namespace AutoProperty

/-! ## What of a plan counts -/

namespace EditPlan

variable {plan plan' : EditPlan}

mutual

/-- A rebuilt element depends on the plan only through the edits of the nodes and the tokens
that go away. -/
theorem rebuild_congr (hedit : ∀ info, plan.edit? info = plan'.edit? info)
    (hdrops : ∀ leaf, plan.drops leaf = plan'.drops leaf) (pending : List Trivia) (p : Placed) :
    plan.rebuild pending p = plan'.rebuild pending p := by
  cases p with
  | token leaf => rw [rebuild, rebuild, hdrops leaf]
  | node info children =>
    rw [rebuild, rebuild, hedit info, rebuildAll_congr hedit hdrops pending children]

theorem rebuildAll_congr (hedit : ∀ info, plan.edit? info = plan'.edit? info)
    (hdrops : ∀ leaf, plan.drops leaf = plan'.drops leaf) (pending : List Trivia)
    (ps : List Placed) : plan.rebuildAll pending ps = plan'.rebuildAll pending ps := by
  cases ps with
  | nil => rfl
  | cons p ps =>
    rw [rebuildAll, rebuildAll, rebuild_congr hedit hdrops pending p]
    simp only [rebuildAll_congr hedit hdrops _ ps]

end

end EditPlan

/-! ## Batches that fit -/

section Fits

variable {tree : Tree} {batch : EditBatch} {edits : List Edit} {foci : List Focus}

/-- The batch can be made: it is for this tree, each edit is about a node of the tree other than
the root, and these nodes are different and none of them is around another. -/
structure EditBatch.Fits (batch : EditBatch) (tree : Tree) : Prop where
  tree_eq : batch.tree = tree.id
  exists_node : ∀ id ∈ batch.edits.map Edit.node, ∃ f ∈ tree.nodes, id = tree.nodeId f.node
  not_root : tree.nodeId tree.top ∉ batch.edits.map Edit.node
  nodup : (batch.edits.map Edit.node).Nodup
  apart : ∀ f ∈ tree.nodes, tree.nodeId f.node ∈ batch.edits.map Edit.node →
    ∀ n ∈ f.above, tree.nodeId n ∉ batch.edits.map Edit.node

/-- The handles of edits that found their nodes are those of the nodes. -/
theorem map_node_of_targets (h : List.Forall₂ (Edit.Targets tree) edits foci) :
    edits.map Edit.node = (foci.map Focus.node).map tree.nodeId := by
  induction h with
  | nil => rfl
  | cons htargets _ ih => simp [ih, htargets.2.1]

theorem mem_nodes_of_targets (h : List.Forall₂ (Edit.Targets tree) edits foci) {f : Focus}
    (hf : f ∈ foci) : f ∈ tree.nodes ∧ f.above ≠ [] := by
  induction h with
  | nil => simp at hf
  | cons htargets _ ih =>
    rcases List.mem_cons.mp hf with rfl | hf
    · exact ⟨htargets.1, htargets.2.2⟩
    · exact ih hf

/-- Nodes that pass the check are different from each other and from those that were seen before. -/
theorem nodup_of_checkEdits {seen : List Nat} (h : checkEdits tree seen edits = .ok foci) :
    (foci.map (·.node.index)).Nodup ∧ ∀ f ∈ foci, f.node.index ∉ seen := by
  induction edits generalizing seen foci with
  | nil =>
    cases h
    simp
  | cons edit edits ih =>
    rw [checkEdits] at h
    split at h
    next => cases h
    next f hnode =>
      split at h
      next => cases h
      next =>
        split at h
        next => cases h
        next hunseen =>
          cases hrest : checkEdits tree (f.node.index :: seen) edits with
          | error e =>
            rw [hrest] at h
            cases h
          | ok rest =>
            rw [hrest] at h
            cases h
            obtain ⟨hnodup, hfresh⟩ := ih hrest
            simp only [List.mem_cons, not_or] at hfresh
            refine ⟨?_,
              List.forall_mem_cons.mpr ⟨by simpa using hunseen, fun g hg => (hfresh g hg).2⟩⟩
            rw [List.map_cons, List.nodup_cons]
            refine ⟨fun hmem => ?_, hnodup⟩
            obtain ⟨g, hg, heq⟩ := List.mem_map.mp hmem
            exact (hfresh g hg).1 heq

/-- A batch that fits finds its nodes. -/
theorem EditBatch.Fits.exists_foci (h : batch.Fits tree) :
    ∃ foci, List.Forall₂ (Edit.Targets tree) batch.edits foci ∧ (foci.map (·.node.index)).Nodup ∧
      ∀ f ∈ foci, ∀ n ∈ f.above, n.index ∉ foci.map (·.node.index) := by
  have htargets : ∀ edit ∈ batch.edits, ∃ f, edit.Targets tree f := by
    intro edit hedit
    have hmem : edit.node ∈ batch.edits.map Edit.node := List.mem_map_of_mem hedit
    obtain ⟨f, hf, hnode⟩ := h.exists_node _ hmem
    refine ⟨f, hf, hnode, fun habove => h.not_root ?_⟩
    have hroot : tree.nodeId tree.top = tree.nodeId f.node := by
      rw [Tree.nodeId_inj, Tree.index_top, (Tree.above_eq_nil hf).mp habove]
    rwa [hroot, ← hnode]
  obtain ⟨foci, hfoci⟩ := exists_forall₂ htargets
  have hnodes := map_node_of_targets hfoci
  have hmem (n : PlacedNode) : n.index ∈ foci.map (·.node.index) →
      tree.nodeId n ∈ batch.edits.map Edit.node := by
    intro hn
    obtain ⟨g, hg, heq⟩ := List.mem_map.mp hn
    rw [hnodes, ← Tree.nodeId_inj.mpr heq, List.map_map]
    exact List.mem_map_of_mem hg
  refine ⟨foci, hfoci, ?_, fun f hf n hn hindex => ?_⟩
  · have hnodup := h.nodup
    rw [hnodes, List.map_map] at hnodup
    refine List.Nodup.of_map (fun i => (⟨tree.id, i⟩ : NodeId)) ?_
    rwa [List.map_map]
  · exact h.apart f (mem_nodes_of_targets hfoci hf).1 (hmem f.node (List.mem_map_of_mem hf)) n hn
      (hmem n hindex)

/-- A batch that is accepted fits. -/
theorem EditBatch.fits_of_apply {root : Node} (h : batch.apply tree = .ok root) :
    batch.Fits tree := by
  obtain ⟨htree, foci, hchecked, hnested, -⟩ := exists_checked_of_apply h
  have hfoci := checkEdits_targets hchecked
  have hnodes := map_node_of_targets hfoci
  -- A handle among those of the edits is the handle of a node that was found.
  have hfound (n : PlacedNode) (hn : tree.nodeId n ∈ batch.edits.map Edit.node) : ∃ f ∈ foci,
      f.node.index = n.index := by
    rw [hnodes, List.map_map] at hn
    obtain ⟨f, hf, heq⟩ := List.mem_map.mp hn
    exact ⟨f, hf, Tree.nodeId_inj.mp heq⟩
  constructor
  · exact htree
  · intro id hid
    rw [hnodes, List.map_map] at hid
    obtain ⟨f, hf, rfl⟩ := List.mem_map.mp hid
    exact ⟨f, (mem_nodes_of_targets hfoci hf).1, rfl⟩
  · intro htop
    obtain ⟨f, hf, hindex⟩ := hfound _ htop
    obtain ⟨hmem, habove⟩ := mem_nodes_of_targets hfoci hf
    exact habove ((Tree.above_eq_nil hmem).mpr (hindex.trans tree.index_top))
  · rw [hnodes, List.map_map]
    have hnodup := (nodup_of_checkEdits hchecked).1
    apply List.Nodup.of_map NodeId.index
    rwa [List.map_map]
  · intro f hf hedited n hn hedited'
    obtain ⟨g, hg, hindex⟩ := hfound _ hedited
    obtain rfl := Tree.focus_eq (mem_nodes_of_targets hfoci hg).1 hf hindex
    obtain ⟨g', hg', hindex'⟩ := hfound _ hedited'
    have hapart := List.find?_eq_none.mp hnested _ hg
    simp only [List.any_eq_true, not_exists, not_and] at hapart
    refine hapart n hn (List.contains_iff_mem.mpr ?_)
    exact hindex' ▸ List.mem_map_of_mem hg'

/-! ## The order of the edits -/

/-- The batch is as good with its edits in another order. -/
theorem EditBatch.Fits.perm (h : batch.Fits tree) (hperm : edits.Perm batch.edits) :
    EditBatch.Fits { batch with edits } tree := by
  have hnodes := hperm.map Edit.node
  constructor
  · exact h.tree_eq
  · exact fun id hid => h.exists_node id (hnodes.mem_iff.mp hid)
  · exact fun htop => h.not_root (hnodes.mem_iff.mp htop)
  · exact hnodes.nodup_iff.mpr h.nodup
  · exact fun f hf hedited n hn hedited' => h.apart f hf (hnodes.mem_iff.mp hedited) n hn
      (hnodes.mem_iff.mp hedited')

/-- No two edits of a batch that fits are about one node. -/
theorem EditBatch.Fits.eq_of_index (h : batch.Fits tree) {e e' : Edit} (he : e ∈ batch.edits)
    (he' : e' ∈ batch.edits) (hindex : e.node.index = e'.node.index) : e = e' := by
  apply List.inj_on_of_nodup_map h.nodup he he'
  obtain ⟨f, _, hnode⟩ := h.exists_node _ (List.mem_map_of_mem he)
  obtain ⟨f', _, hnode'⟩ := h.exists_node _ (List.mem_map_of_mem he')
  rw [hnode, hnode'] at hindex ⊢
  exact Tree.nodeId_inj.mpr hindex

/-- The edit of a node is the one that is about it. -/
theorem EditBatch.Fits.editOf?_iff (h : batch.Fits tree) {n : PlacedNode} {edit : Edit} :
    batch.editOf? n = some edit ↔ edit ∈ batch.edits ∧ edit.node.index = n.index := by
  constructor
  · intro hedit
    exact ⟨List.mem_of_find?_eq_some hedit, by simpa using List.find?_some hedit⟩
  · rintro ⟨hmem, hindex⟩
    cases hfound : batch.editOf? n with
    | none =>
      have hnone := List.find?_eq_none.mp hfound edit hmem
      simp [hindex] at hnone
    | some edit' =>
      have hindex' : edit'.node.index = n.index := by simpa using List.find?_some hfound
      rw [h.eq_of_index (List.mem_of_find?_eq_some hfound) hmem (hindex'.trans hindex.symm)]

/-- It does not matter which of two edits comes first. -/
theorem EditBatch.Fits.editOf?_perm (h : batch.Fits tree) (hperm : edits.Perm batch.edits)
    (n : PlacedNode) : EditBatch.editOf? { batch with edits } n = batch.editOf? n := by
  ext edit
  rw [(h.perm hperm).editOf?_iff, h.editOf?_iff, hperm.mem_iff]

/-- A plan follows a batch with its edits in any order. -/
theorem EditPlan.Follows.perm {plan : EditPlan} (h : plan.Follows batch tree)
    (hfits : batch.Fits tree) (hperm : edits.Perm batch.edits) :
    plan.Follows { batch with edits } tree where
  edit n := (h.edit n).trans (hfits.editOf?_perm hperm n).symm
  drops leaf := (h.drops leaf).trans hperm.any_eq.symm

theorem EditBatch.Fits.exists_follows (h : batch.Fits tree) :
    ∃ plan : EditPlan, plan.Follows batch tree := by
  obtain ⟨foci, hfoci, -⟩ := h.exists_foci
  exact ⟨_, EditPlan.follows_ofFoci hfoci⟩

/-- A batch that fits is accepted, and every plan that follows it gives the edited root. -/
theorem EditBatch.Fits.apply_eq (h : batch.Fits tree) {plan : EditPlan}
    (hplan : plan.Follows batch tree) :
    batch.apply tree = .ok ⟨tree.root.kind, (plan.rebuildAll [] tree.top.children).1⟩ := by
  obtain ⟨foci, hfoci, hnodup, hapart⟩ := h.exists_foci
  have hfollows := EditPlan.follows_ofFoci hfoci
  have hsame : plan.rebuildAll [] tree.top.children = (EditPlan.ofFoci batch.edits foci).rebuildAll
      [] tree.top.children := by
    apply EditPlan.rebuildAll_congr
    · exact fun info => (hplan.edit ⟨info, []⟩).trans (hfollows.edit ⟨info, []⟩).symm
    · exact fun leaf => (hplan.drops leaf).trans (hfollows.drops leaf).symm
  rw [hsame, ← EditBatch.apply_eq hfoci hnodup hapart, ← h.tree_eq]

/-- A tree takes exactly the batches that fit it, and what it makes of them does not depend on
the order of their edits. -/
theorem EditBatch.apply_ok_iff (batch : EditBatch) (tree : Tree) :
    ((∃ root, batch.apply tree = .ok root) ↔ batch.Fits tree) ∧ ∀ root,
      batch.apply tree = .ok root → ∀ edits : List Edit, edits.Perm batch.edits →
      EditBatch.apply { batch with edits } tree = .ok root := by
  constructor
  · constructor
    · rintro ⟨root, happly⟩
      exact fits_of_apply happly
    · intro hfits
      obtain ⟨plan, hplan⟩ := hfits.exists_follows
      exact ⟨_, hfits.apply_eq hplan⟩
  · intro root happly edits hperm
    have hfits := fits_of_apply happly
    obtain ⟨plan, hplan⟩ := hfits.exists_follows
    rw [(hfits.perm hperm).apply_eq (hplan.perm hfits hperm), ← hfits.apply_eq hplan, happly]

/-- One variable is replaced and the other goes away with the comma, whichever edit comes first. -/
theorem EditBatch.apply_ok_iff_use :
    let tree := Tree.ofText ⟨7⟩ "class C { int a, b; }"
    let edits : List Edit := [.remove ⟨⟨7⟩, 5⟩ { marker := true },
      .replace ⟨⟨7⟩, 6⟩ ⟨.variableDeclarator, [.token (.bare .identifierToken "d")]⟩]
    ∃ root, EditBatch.apply ⟨⟨7⟩, edits⟩ tree = .ok root ∧ root.text = "class C { int d; }" ∧
      EditBatch.apply ⟨⟨7⟩, edits.reverse⟩ tree = .ok root := by
  intro tree edits
  have htext : ((EditBatch.apply ⟨⟨7⟩, edits⟩ tree).toOption.map Node.text) =
      some "class C { int d; }" := by decide +kernel
  obtain ⟨root, hroot, htext⟩ := Option.map_eq_some_iff.mp htext
  have happly := apply_eq_of_toOption hroot
  exact ⟨root, happly, htext,
    (apply_ok_iff ⟨⟨7⟩, edits⟩ tree).2 root happly edits.reverse (List.reverse_perm edits)⟩

end Fits

end AutoProperty
