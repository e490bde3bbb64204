import AutoProperty.Proofs.Fix.SplicedTrees
import AutoProperty.Proofs.Fix.Stages
import AutoProperty.Proofs.Workspace.Changes

/-! # Documents after the splice

The splice gives new roots to the documents of a field and of a property. All documents of their
project have ledgers of what is kept, also those that stay as they are.
-/

namespace AutoProperty

/-- What goes away with a field is its declarator, or the whole declaration if it declares
nothing else. -/
def Focus.GoesWith (f m : Focus) : Prop :=
  m = f ∨ ∃ declaration, f.above = declaration :: m.node :: m.above ∧
    declaration.kind = .variableDeclaration ∧
    m.node.kind = .fieldDeclaration ∧ declaration.childrenOf .variableDeclarator = [f.node]

section Plans

variable {tree : Tree} {t : Target} {f m : Focus}

/-- The removal is planned for every field: the declarator goes alone or with its declaration. -/
theorem FieldRemoval.exists_plan (hf : f ∈ tree.nodes) (hfield : f.IsField)
    (hnode : t.node = tree.nodeId f.node) :
    ∃ m ∈ tree.nodes,
      f.GoesWith m ∧
      FieldRemoval.plan tree t = .ok ⟨tree.nodeId m.node, initializerOf? f.node⟩ := by
  obtain ⟨hkind, declaration, field, scopes, habove, hdeclaration, hfield, hscopes⟩ := hfield
  have hwhole :=
    Tree.mem_nodes_of_above hf (show f.above = [declaration] ++ field :: scopes from habove)
  rw [plan_of_above hf hkind hnode habove hdeclaration hfield]
  split
  next hlength =>
    refine ⟨⟨field, scopes⟩, hwhole, .inr ⟨declaration, habove, hdeclaration, hfield, ?_⟩, rfl⟩
    have hmem : f.node ∈ declaration.childrenOf .variableDeclarator := by
      have hfocus : ⟨f.node, declaration :: field :: scopes⟩ ∈ tree.nodes := habove ▸ hf
      exact List.mem_filter.mpr ⟨Tree.mem_childNodes_of_mem hfocus, by simp [hkind]⟩
    obtain ⟨n, hn⟩ :=
      List.length_eq_one_iff.mp (Nat.le_antisymm hlength (List.length_pos_of_mem hmem))
    rw [hn] at hmem ⊢
    rw [List.mem_singleton.mp hmem]
  next => exact ⟨f, hf, .inl rfl, by rw [hnode]⟩

/-- What goes away with a field stands where only types and namespaces are around it. -/
theorem Focus.GoesWith.stands (h : f.GoesWith m) (hf : f ∈ tree.nodes) (hfield : f.IsField)
    (hroot : tree.root.kind = .compilationUnit) :
    (m.node.kind = .variableDeclarator ∨ m.node.kind = .fieldDeclaration) ∧ ∀ n ∈ m.above,
      n.kind.isEnclosing := by
  obtain ⟨hkind, declaration, field, scopes, habove, hdeclaration, hfield, hscopes⟩ := hfield
  have henclosing :=
    hscopes.isEnclosing hroot hf (show f.above = [declaration, field] ++ scopes from habove)
  obtain rfl | ⟨other, hother, _, hwhole, _⟩ := h
  · refine ⟨.inl hkind, ?_⟩
    rw [habove]
    exact List.forall_mem_cons.mpr
      ⟨by rw [hdeclaration]; rfl, List.forall_mem_cons.mpr ⟨by rw [hfield]; rfl, henclosing⟩⟩
  · rw [habove] at hother
    obtain ⟨_, hother⟩ := List.cons_eq_cons.mp hother
    obtain ⟨_, rfl⟩ := List.cons_eq_cons.mp hother
    exact ⟨.inr hwhole, henclosing⟩

theorem propertyReplacement_of_autoProperty? (hf : f ∈ tree.nodes)
    (hkind : f.node.kind = .propertyDeclaration) (hnode : t.node = tree.nodeId f.node)
    {initializer? : Option Node} {new : Node}
    (hauto : f.node.node.autoProperty? initializer? = some new) :
    propertyReplacement tree t initializer? = .ok new := by
  rw [propertyReplacement, hnode, Tree.node?_nodeId hf]
  simp only [Option.filter_some, hkind, beq_self_eq_true, if_true, hauto]
  rfl

end Plans

namespace Pair

/-- What the splice takes out of a document, and what it makes automatic there. -/
def cut (pair : Pair) (removed property : PlacedNode) (document : DocumentId) : Cut where
  removed? := if document = pair.field.document then some removed else none
  property? := if document = pair.property.document then some property else none

theorem cut_removed? {pair : Pair} {removed property n : PlacedNode} {document : DocumentId} :
    (pair.cut removed property document).removed? = some n ↔
      document = pair.field.document ∧ removed = n := by
  simp [cut]

theorem cut_property? {pair : Pair} {removed property n : PlacedNode} {document : DocumentId} :
    (pair.cut removed property document).property? = some n ↔
      document = pair.property.document ∧ property = n := by
  simp [cut]

/-- Where the field and the property stand, and what goes away with the field. -/
structure Sites (pair : Pair) (fieldTree propertyTree : Tree) (f g m : Focus) : Prop where
  field : pair.field.Stands pair.compilation fieldTree f
  property : pair.property.Stands pair.compilation propertyTree g
  mem : m ∈ fieldTree.nodes
  goes : f.GoesWith m
  plan : FieldRemoval.plan fieldTree pair.field =
    .ok ⟨fieldTree.nodeId m.node, initializerOf? f.node⟩

theorem Stands.exists_sites {pair : Pair} {p : Project} (h : pair.Stands p) :
    ∃ fieldTree propertyTree f g m, pair.Sites fieldTree propertyTree f g m := by
  obtain ⟨fieldTree, f, hfield⟩ := h.field
  obtain ⟨propertyTree, g, hproperty⟩ := h.property
  have hdeclares := hfield.declares
  rw [h.roles.1] at hdeclares
  obtain ⟨m, hm, hgoes, hplan⟩ := FieldRemoval.exists_plan hfield.focus hdeclares hfield.node
  exact ⟨fieldTree, propertyTree, f, g, m, hfield, hproperty, hm, hgoes, hplan⟩

namespace Stands

variable {pair : Pair} {p : Project} (h : pair.Stands p)
  (hparsed : AllParsed (pair.solution.trees p)) {fieldTree propertyTree : Tree} {f g m : Focus}
  (hfield : pair.field.Stands pair.compilation fieldTree f)
  (hproperty : pair.property.Stands pair.compilation propertyTree g) (hm : m ∈ fieldTree.nodes)
  (hgoes : f.GoesWith m)
include h hparsed hfield hproperty hm hgoes

omit hparsed in
/-- The field and the property stand in the tree of their document. -/
theorem cut_stands {document : DocumentId} {tree : Tree}
    (htree : pair.compilation.tree? document = some tree)
    (hroot : tree.root.kind = .compilationUnit) :
    (pair.cut m.node g.node document).Stands tree where
  removed hremoved := by
    obtain ⟨rfl, rfl⟩ := cut_removed?.mp hremoved
    rw [hfield.present] at htree
    obtain rfl := Option.some.inj htree
    have hdeclares := hfield.declares
    rw [h.roles.1] at hdeclares
    exact ⟨m.above, hm, hgoes.stands hfield.focus hdeclares hroot⟩
  property hn := by
    obtain ⟨rfl, rfl⟩ := cut_property?.mp hn
    rw [hproperty.present] at htree
    obtain rfl := Option.some.inj htree
    have hdeclares := hproperty.declares
    rw [h.roles.2] at hdeclares
    exact ⟨g.above, hproperty.focus, hdeclares.1,
      hdeclares.2.isEnclosing hroot hproperty.focus (List.nil_append _).symm⟩
  apart hremoved hn hin := by
    obtain ⟨rfl, rfl⟩ := cut_removed?.mp hremoved
    obtain ⟨hsame, rfl⟩ := cut_property?.mp hn
    rw [hfield.present] at htree
    obtain rfl := Option.some.inj htree
    obtain rfl : fieldTree = propertyTree :=
      Option.some.inj (hfield.present.symm.trans (hsame ▸ hproperty.present))
    have hdeclares := hfield.declares
    have hdeclares' := hproperty.declares
    rw [h.roles.1] at hdeclares
    rw [h.roles.2] at hdeclares'
    obtain ⟨hkind, _⟩ := hgoes.stands hfield.focus hdeclares hroot
    obtain heq | habove := List.mem_cons.mp ((Tree.mem_descendants_iff hm hproperty.focus).mp hin)
    · rw [heq, hdeclares'.1] at hkind
      obtain hkind | hkind := hkind <;> cases hkind
    · obtain hscope | hunit :=
        hdeclares'.2.isScope_or hroot hproperty.focus (List.nil_append _).symm _ habove
      · obtain hkind | hkind := hkind <;> rw [hkind] at hscope <;> cases hscope
      · rw [hunit] at hkind
        obtain hkind | hkind := hkind <;> cases hkind

/-- The property loses its bodies when it is replaced. -/
theorem exists_replacement (initializer? : Option Node)
    (hinitializer : ∀ expression, initializer? = some expression →
      initializerOf? f.node = some expression) :
    ∃ new, propertyReplacement propertyTree pair.property initializer? = .ok new ∧ ∀ k,
      Placed.Becomes (pair.cut m.node g.node pair.property.document).change k [g.node.placed]
        [new.element] := by
  have hdocuments := h.allParsed hparsed
  have hmem := Compilation.mem_documents_of_tree? hproperty.present
  have hconforms := hdocuments.conforms _ hmem
  have hdeclares := hproperty.declares
  rw [h.roles.2] at hdeclares
  have hcut :=
    h.cut_stands hfield hproperty hm hgoes hproperty.present (hdocuments.kind_root hmem)
  have hchosen : (pair.cut m.node g.node pair.property.document).property? = some g.node :=
    cut_property?.mpr ⟨rfl, rfl⟩
  obtain ⟨new, hauto, hshape⟩ :=
    Node.exists_automated_of_conforms (Tree.conforms_of_mem hconforms hproperty.focus) hdeclares.1
      initializer?
  refine ⟨new, propertyReplacement_of_autoProperty? hproperty.focus hdeclares.1 hproperty.node
    hauto, (hcut.strips hchosen).becomes_automated (Tree.sited_of_mem hconforms hproperty.focus)
    (hcut.allowed hconforms) hshape
      fun e he hkind => ?_⟩
  refine (Node.mem_of_autoProperty? hauto he hkind).imp_right ?_
  rintro ⟨expression, hexpression, rfl⟩
  exact exists_undeclaring_initializerClause
    (hdocuments.conforms _ (Compilation.mem_documents_of_tree? hfield.present)) hfield.focus
    (hinitializer expression hexpression)

/-- The new roots come from edits that take out the field and make the property automatic. -/
theorem splicedRoots_edited
    (hplan : FieldRemoval.plan fieldTree pair.field =
      .ok ⟨fieldTree.nodeId m.node, initializerOf? f.node⟩) {options : FixOptions}
    {roots : List (DocumentId × Node)}
    (hroots : pair.solution.splicedRoots pair.compilation pair.field pair.property options =
      .ok roots) :
    ∀ id root, (id, root) ∈ roots → ∃ tree edits, pair.compilation.tree? id = some tree ∧
      (pair.cut m.node g.node id).Edits tree edits ∧ options.edited tree edits = .ok root := by
  obtain ⟨new, hnew, hbecomes⟩ := h.exists_replacement hparsed hfield hproperty hm hgoes
    (if options.moveInitializer then initializerOf? f.node else none)
    fun expression hexpression => by
      split at hexpression
      · exact hexpression
      · cases hexpression
  rw [Solution.splicedRoots, Solution.currentTree_eq h.compilation hfield.present,
    Solution.currentTree_eq h.compilation hproperty.present, ok_bind, ok_bind, hplan,
    ok_bind] at hroots
  dsimp only at hroots
  rw [hnew, ok_bind] at hroots
  rw [hproperty.node] at hroots
  by_cases hsame : pair.field.document = pair.property.document
  · rw [if_pos hsame, bind_eq_ok] at hroots
    obtain ⟨root, hroot, hroots⟩ := hroots
    cases hroots
    have htree : fieldTree = propertyTree := by
      have hpresent := hfield.present
      rw [hsame, hproperty.present] at hpresent
      exact (Option.some.inj hpresent).symm
    subst htree
    intro id root hmem
    obtain ⟨rfl, rfl⟩ := Prod.mk.inj (List.mem_singleton.mp hmem)
    refine ⟨_, _, hfield.present, ⟨fun {edit} hedit => ?_, fun hn => ?_, fun hn => ?_⟩, hroot⟩
    · simp only [List.mem_cons, List.not_mem_nil, or_false] at hedit
      obtain rfl | rfl := hedit
      · exact .inl ⟨_, _, cut_removed?.mpr ⟨rfl, rfl⟩, rfl⟩
      · exact .inr ⟨_, _, cut_property?.mpr ⟨hsame, rfl⟩, rfl, hsame ▸ hbecomes⟩
    · obtain ⟨_, rfl⟩ := cut_removed?.mp hn
      exact ⟨_, List.mem_cons_self, rfl⟩
    · obtain ⟨_, rfl⟩ := cut_property?.mp hn
      exact ⟨_, List.mem_cons_of_mem _ List.mem_cons_self, rfl⟩
  · rw [if_neg hsame, bind_eq_ok] at hroots
    obtain ⟨root, hroot, hroots⟩ := hroots
    rw [bind_eq_ok] at hroots
    obtain ⟨root', hroot', hroots⟩ := hroots
    cases hroots
    intro id root hmem
    simp only [List.mem_cons, List.not_mem_nil, or_false, Prod.mk.injEq] at hmem
    obtain ⟨rfl, rfl⟩ | ⟨rfl, rfl⟩ := hmem
    · refine ⟨_, _, hfield.present, ⟨fun {edit} hedit => ?_, fun hn => ?_, fun hn => ?_⟩, hroot⟩
      · obtain rfl := List.mem_singleton.mp hedit
        exact .inl ⟨_, _, cut_removed?.mpr ⟨rfl, rfl⟩, rfl⟩
      · obtain ⟨_, rfl⟩ := cut_removed?.mp hn
        exact ⟨_, List.mem_singleton_self _, rfl⟩
      · exact absurd (cut_property?.mp hn).1 hsame
    · refine ⟨_, _, hproperty.present, ⟨fun {edit} hedit => ?_, fun hn => ?_, fun hn => ?_⟩, hroot'⟩
      · obtain rfl := List.mem_singleton.mp hedit
        exact .inr ⟨_, _, cut_property?.mpr ⟨rfl, rfl⟩, rfl, hbecomes⟩
      · exact absurd (cut_removed?.mp hn).1.symm hsame
      · obtain ⟨_, rfl⟩ := cut_property?.mp hn
        exact ⟨_, List.mem_singleton_self _, rfl⟩

end Stands

end Pair

/-! ## Roots -/

namespace Solution

variable {store store' : Store} {snapshots : List Solution} {s next : Solution}

theorem setRoot_cases {id : DocumentId} {root : Node}
    (h : (s.setRoot id root).run store = (.ok next, store')) :
    ∃ d, s.document? id = some d ∧ next = s.withTree d (.ofRoot ⟨store.nextStamp⟩ root)
      ⟨store.nextStamp + 1⟩ := by
  obtain ⟨_, herror⟩ | ⟨d, hd, hok⟩ := replaceTree_cases s id (Tree.ofRoot · root) store
  · rw [setRoot, herror] at h
    cases h
  · rw [setRoot, hok] at h
    cases h
    exact ⟨d, hd, rfl⟩

/-- Documents have the roots that they are given, and the others stay. -/
theorem document?_setRoots {roots : List (DocumentId × Node)}
    (h : (s.setRoots roots).run store = (.ok next, store')) :
    (∀ id ∉ roots.map (·.1), next.document? id = s.document? id) ∧
      ((roots.map (·.1)).Nodup → ∀ id root, (id, root) ∈ roots →
        ∃ d stamp, next.document? id = some d ∧ d.tree = .ofRoot stamp root) := by
  induction roots generalizing s store with
  | nil =>
    cases h
    exact ⟨fun _ _ => rfl, fun _ _ _ hmem => absurd hmem List.not_mem_nil⟩
  | cons root roots ih =>
    obtain ⟨first, root⟩ := root
    rw [setRoots, run_bind_eq_ok] at h
    obtain ⟨mid, store₁, hmid, h⟩ := h
    obtain ⟨hkept, hset⟩ := ih h
    obtain ⟨d, hd, rfl⟩ := setRoot_cases hmid
    have hid := (document?_some hd).2
    rw [List.map_cons]
    refine ⟨fun id hnot => ?_, fun hnodup id other hmem => ?_⟩
    · rw [List.mem_cons, not_or] at hnot
      rw [hkept id hnot.2, document?_withTree]
      cases hdocument : s.document? id with
      | none => rfl
      | some old =>
        have hold := (document?_some hdocument).2
        rw [Option.map_some, if_neg fun heq => hnot.1 (hold.symm.trans (heq.trans hid))]
    · obtain ⟨hnot, hnodup⟩ := List.nodup_cons.mp hnodup
      obtain heq | hmem := List.mem_cons.mp hmem
      · obtain ⟨rfl, rfl⟩ := Prod.mk.inj heq
        rw [hkept id hnot, document?_withTree, hd]
        exact ⟨_, _, congrArg some (if_pos rfl), rfl⟩
      · exact hset hnodup id other hmem

/-- A project that stays one of the solution has the documents that it had. -/
theorem Edited.project? {ids : List DocumentId} {edits : Nat} (h : s.Edited ids edits next)
    (hnext : next.WellFormed) {p : Project} (hp : p ∈ s.projects) :
    ∃ p', next.project? p.id = some p' ∧ p'.id = p.id ∧ p'.documents = p.documents := by
  obtain ⟨p', hp', hid, _, hdocuments⟩ := exists_of_forall₂ h.projects hp
  exact ⟨p', hid ▸ hnext.project? hp', hid, hdocuments⟩

/-- The trees of a project go with those that it has later. -/
theorem forall₂_trees {p p' : Project} {r : DocumentId × Tree → DocumentId × Tree → Prop}
    (hdocuments : p'.documents = p.documents)
    (h : ∀ id ∈ p.documents, ∃ d d', s.document? id = some d ∧ next.document? id = some d' ∧
      r (id, d.tree) (id, d'.tree)) : List.Forall₂ r (s.trees p) (next.trees p') := by
  rw [trees, trees, hdocuments]
  generalize p.documents = ids at h
  induction ids with
  | nil => exact .nil
  | cons id ids ih =>
    obtain ⟨⟨d, d', hd, hd', hfirst⟩, hothers⟩ := List.forall_mem_cons.mp h
    rw [List.filterMap_cons, List.filterMap_cons, hd, hd']
    exact .cons hfirst (ih hothers)

end Solution

/-- Another wording of errors changes nothing where there is none. -/
theorem run_adapt_eq_ok {ε ε' α : Type} {wording : ε → ε'} {x : ExceptT ε StoreM α}
    {store store' : Store} {a : α} (h : (ExceptT.adapt wording x).run store = (.ok a, store')) :
    x.run store = (.ok a, store') := by
  rw [run_adapt] at h
  cases hx : x.run store with
  | mk outcome rest =>
    rw [hx] at h
    cases outcome with
    | error e => cases h
    | ok a =>
      cases h
      rfl

namespace Pair

/-- A document is changed once, also if it holds the field and the property. -/
theorem nodup_spliced (pair : Pair) : pair.spliced.Nodup := by
  rw [spliced, path]
  split
  next => exact List.nodup_singleton _
  next heq =>
    split at heq
    · cases heq
    next hne => exact List.nodup_cons.mpr ⟨by simpa using hne, List.nodup_singleton _⟩

/-- The splice computes all new roots from the old trees before it gives them to documents. -/
theorem splice_eq_ok {pair : Pair} {options : FixOptions} {store store' : Store} {next : Solution}
    {path : SplicePath} (h : (pair.splice options).run store = (.ok (next, path), store')) :
    ∃ roots, pair.solution.splicedRoots pair.compilation pair.field pair.property options =
      .ok roots ∧ (pair.solution.setRoots roots).run store = (.ok next, store') := by
  rw [splice, Solution.splice, run_bind_eq_ok] at h
  obtain ⟨roots, store₁, hroots, h⟩ := h
  rw [run_mk_pure, Prod.mk.injEq] at hroots
  obtain ⟨hroots, rfl⟩ := hroots
  obtain ⟨made, store₂, hmade, h⟩ := run_bind_eq_ok.mp h
  cases h
  exact ⟨roots, hroots, run_adapt_eq_ok hmade⟩

namespace Stands

variable {pair : Pair} {p : Project} (h : pair.Stands p)
  (hparsed : AllParsed (pair.solution.trees p)) {fieldTree propertyTree : Tree} {f g m : Focus}
  (hfield : pair.field.Stands pair.compilation fieldTree f)
  (hproperty : pair.property.Stands pair.compilation propertyTree g) (hm : m ∈ fieldTree.nodes)
  (hgoes : f.GoesWith m)
include h hparsed hfield hproperty hm hgoes

/-- All documents of the project have ledgers of what the splice keeps of them. -/
theorem forall₂_ledgers
    (hplan : FieldRemoval.plan fieldTree pair.field =
      .ok ⟨fieldTree.nodeId m.node, initializerOf? f.node⟩) (hs : pair.solution.WellFormed)
    {options : FixOptions} {store store' : Store} {next : Solution} {path : SplicePath}
    (hsplice : (pair.splice options).run store = (.ok (next, path), store')) {p' : Project}
    (hdocuments : p'.documents = p.documents) :
    List.Forall₂ (fun d d' : DocumentId × Tree => d'.1 = d.1 ∧ ∃ x : Ledger,
      x.Records PlacedToken.SameCore (pair.cut m.node g.node d.1).change d.2.top d.2.top.children
        d'.2.top.children) (pair.solution.trees p) (next.trees p') := by
  obtain ⟨roots, hroots, hset⟩ := splice_eq_ok hsplice
  obtain ⟨hkept, hset⟩ := Solution.document?_setRoots hset
  obtain ⟨_, hroots', hids⟩ := h.splicedRoots_eq hparsed options
  obtain rfl := Except.ok.inj (hroots.symm.trans hroots')
  have hset := hset (hids ▸ pair.nodup_spliced)
  have hedited := h.splicedRoots_edited hparsed hfield hproperty hm hgoes hplan hroots
  refine Solution.forall₂_trees hdocuments fun id hid => ?_
  obtain ⟨d, hd, rfl, _⟩ := (hs.listed p (Solution.project?_some h.project).1 id).mp hid
  have hd := hs.document? hd
  have hmem : (d.id, d.tree) ∈ pair.solution.trees p := Solution.mem_trees.mpr ⟨hid, d, hd, rfl⟩
  have htree := h.tree?_of_mem hs hmem
  have hroot : d.tree.root.kind = .compilationUnit := hparsed.kind_root hmem
  have hconforms : d.tree.root.element.Conforms := hparsed.conforms _ hmem
  have hcut := h.cut_stands hfield hproperty hm hgoes htree hroot
  by_cases hspliced : d.id ∈ roots.map (·.1)
  · obtain ⟨⟨_, root⟩, hmem, rfl⟩ := List.mem_map.mp hspliced
    obtain ⟨tree, edits, hpresent, hedits, hedited⟩ := hedited _ root hmem
    obtain ⟨d', stamp, hd', hnew⟩ := hset _ root hmem
    obtain rfl := Option.some.inj (hpresent.symm.trans htree)
    refine ⟨d, d', hd, hd', rfl, ?_⟩
    rw [hnew]
    exact hcut.exists_ledger hconforms hroot hedits hedited stamp
  · refine ⟨d, d, hd, (hkept _ hspliced).trans hd, rfl, ?_⟩
    rw [hids, mem_spliced, not_or] at hspliced
    rw [cut, if_neg hspliced.1, if_neg hspliced.2]
    exact Cut.exists_ledger_self hconforms hroot

end Stands

end Pair

end AutoProperty
