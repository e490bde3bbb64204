import AutoProperty.Proofs.Fix.Joined
import AutoProperty.Proofs.Fix.Outcome
import AutoProperty.Proofs.Workspace.Orders

/-! # What names mean after the fix

The rename and the splice both lead from one version of a project to the next, and names can be
followed through both. A name that meant the field means the property in the end. Every other
name that is still there means what it meant.
-/

namespace AutoProperty

open SymbolTable in
/-- Names that are not replaced mean symbols with the same keys. -/
theorem Revisions.Leads.perm_keys {R : Revisions} {documents documents' : List (DocumentId × Tree)}
    (h : R.Leads documents documents') {c c' : Compilation} (hc : c.table = .build documents)
    (hc' : c'.table = .build documents') {r : Revision} (hr : r ∈ R.revisions) {a a' : PlacedToken}
    (hleaf : r.leaf a a') (hkept : ¬r.replaced a) :
    ((c'.boundAt r.document a'.index).map Symbol.key).Perm
      ((c.boundAt r.document a.index).map Symbol.key) := by
  have hversions := h.versions
  rw [← hc, ← hc'] at hversions
  exact Compilation.perm_map_key_boundAt hversions.keyed.keys hversions.keyed'.keys hversions.once
    hversions.once'
    (hversions.same r hr a a' hleaf hkept)

/-! ## Following a name -/

/-- What has become of a name. If it meant the field, it means the property; else it has kept
its text and means what it meant. -/
structure Pair.Rebinds (pair : Pair) (c : Compilation) (document : DocumentId) (k k' : TokenFocus) :
    Prop where
  joined : pair.MeansField document k → k'.leaf.text = pair.property.symbol.name ∧
    ∃ property, c.symbolByKey? pair.property.symbol.key = some property ∧
    c.boundAt document k'.leaf.index = [property]
  kept : ¬pair.MeansField document k → k'.leaf.text = k.leaf.text ∧
    ((c.boundAt document k'.leaf.index).map Symbol.key).Perm
      ((pair.compilation.boundAt document k.leaf.index).map Symbol.key)

namespace Compilation

variable {c : Compilation}

/-- A token that means one symbol means the symbol of its key. -/
theorem boundAt_eq_singleton (hkeys : c.table.KeysNodup) {document : DocumentId} {index : Nat}
    {key : Key} (h : (c.boundAt document index).map Symbol.key = [key]) :
    ∃ symbol, c.symbolByKey? key = some symbol ∧ c.boundAt document index = [symbol] := by
  obtain ⟨symbol, hbound, rfl⟩ := List.map_eq_singleton_iff.mp h
  refine ⟨symbol, symbolByKey?_of_symbol? hkeys _ ?_, hbound⟩
  obtain ⟨id, _, hsymbol⟩ :=
    List.mem_filterMap.mp
      (show symbol ∈ c.boundAt document index from hbound ▸ List.mem_singleton_self symbol)
  obtain ⟨data, _, rfl⟩ := Option.map_eq_some_iff.mp hsymbol
  exact hsymbol

end Compilation

namespace Pair.Advances

variable {pair pair' : Pair} {p p' : Project} {type : SymbolId} (h : pair.Advances p pair' p' type)
  {R S : Revisions} (hR : R.Leads (pair.solution.trees p) (pair'.solution.trees p'))
  (hrs : ∀ r ∈ R.revisions, pair.IsRenaming r) {last : List (DocumentId × Tree)}
  (hS : S.Leads (pair'.solution.trees p') last)
  {fieldTree propertyTree fieldTree' propertyTree' : Tree} {f g m f' g' m' : Focus}
  (hss : ∀ s ∈ S.revisions, pair'.IsSplicing m'.node g'.node s) {c : Compilation}
  (hc : c.table = .build last)
include h hR hrs hS hss hc

/-- A name is followed through both revisions: it means the property if it meant the field, and
else what it meant. -/
theorem rebinds (hfield : pair.field.Stands pair.compilation fieldTree f) {r s : Revision}
    (hr : r ∈ R.revisions) (hs : s ∈ S.revisions) (hdocument : s.document = r.document)
    {k k' k'' : TokenFocus} (hk : k ∈ r.tree.tokens) (hleaf : r.leaf k.leaf k'.leaf)
    (hleaf' : s.leaf k'.leaf k''.leaf)
    (hout : r.document = pair.field.document → k.leaf ∉ f.node.tokens) :
    pair.Rebinds c r.document k k'' := by
  obtain ⟨hmem, _⟩ := hR.mem hr
  have hfits := hR.sound.fits hr
  have htable := h.stands.compilation.table
  have htable' := h.renamed.stands.compilation.table
  obtain ⟨_, _, hproperty⟩ := h.stands.property
  obtain ⟨_, _, hproperty'⟩ := h.renamed.stands.property
  have hordinary : ¬s.replaced k'.leaf := by
    obtain ⟨_, _, _, _, rfl, _⟩ := hss s hs
    exact id
  have hperm := hS.perm_keys htable' hc hs hleaf' hordinary
  have htext : k''.leaf.text = k'.leaf.text := (hS.sound.fits hs).text hleaf' hordinary
  rw [hdocument] at hperm
  have hreplaced : pair.MeansField r.document k ↔ r.replaced k.leaf := by
    rw [h.stands.meansField_iff]
    constructor
    · intro hmeans
      obtain hspan | ⟨hsame, hin⟩ :=
        h.stands.mem_renamedSpans h.wellFormed h.parsed h.joint hfield hmem hk hmeans
      · obtain ⟨_, _, _, rfl, _⟩ := hrs r hr
        exact hspan
      · exact absurd hin (hout hsame)
    · intro hreplaced
      rw [(h.bound_of_replaced hR hrs hr hleaf hreplaced).1]
      exact List.mem_singleton_self _
  refine ⟨fun hmeans => ?_, fun hmeans => ?_⟩
  · obtain ⟨_, hmid, hname⟩ := h.bound_of_replaced hR hrs hr hleaf (hreplaced.mp hmeans)
    have hkey : pair'.property.symbol.key = pair.property.symbol.key :=
      congrArg TargetKey.key h.renamed.property
    have hone : (pair'.compilation.boundAt r.document k'.leaf.index).map Symbol.key =
        [pair.property.symbol.key] := by
      rw [Compilation.boundAt, htable', hmid, ← (h.property_eq hproperty hproperty').1,
        List.filterMap_cons, hproperty'.symbol, ← hkey]
      rfl
    rw [hone, List.perm_singleton] at hperm
    exact ⟨htext.trans hname, Compilation.boundAt_eq_singleton (hc ▸ hS.versions.keyed'.keys) hperm⟩
  · have hkept := mt hreplaced.mpr hmeans
    exact ⟨htext.trans (hfits.text hleaf hkept),
      hperm.trans (hR.perm_keys htable htable' hr hleaf hkept)⟩

omit hR hrs hss in
/-- The property is found again where the splice has kept it. -/
theorem nodeOf?_relocate (hbuilt : c.IsBuilt) (hdocuments : c.documents = last)
    (hproperty' : pair'.property.Stands pair'.compilation propertyTree' g') {s : Revision}
    (hs : s ∈ S.revisions) (hdocument : s.document = pair.property.document)
    (htree : s.tree = propertyTree') {k : Focus} (hk : k ∈ s.tree'.nodes)
    (hnode : s.node g'.node.index k.node.index) :
    (c.relocate pair.property.stable).toOption.bind c.nodeOf? = some k.node := by
  have hkind : pair'.property.symbol.data.kind = .property := h.joint'.kinds.2
  have hpresent : c.tree? s.document = some s.tree' := hbuilt.tree? (hdocuments ▸ (hS.mem hs).2)
  have hfocus : g' ∈ s.tree.nodes := htree ▸ hproperty'.focus
  have hdeclares := hproperty'.declares
  rw [h.renamed.stands.roles.2] at hdeclares
  have hne : g'.node.kind ≠ .variableDeclarator := by rw [hdeclares.1]; nofun
  have hrel :=
    (SymbolTable.redeclares_declareDocuments hS.sound.toSpares).noted s hs g' hfocus hne _ hnode
  obtain ⟨_, _, _, hdeclarations⟩ := hproperty'.named
  have hnodup := (h.renamed.stands.isBuilt h.wellFormed').nodup
  rw [h.renamed.stands.documents] at hnodup
  have hdata := h.renamed.stands.data?_declareDocuments hproperty'
  have hdeclared :=
    SymbolTable.declared?_of_mem hnodup hdata (by rw [hkind]; decide)
      (hdeclarations ▸ List.mem_singleton_self _)
  rw [hS.before, hS.after, hdocument, ← h.documents_eq.2, hdeclared] at hrel
  generalize hfound : (SymbolTable.declareDocuments last).declared?
    ⟨pair'.property.document, k.node.index⟩ = found at hrel
  cases hrel with
  | @some _ id hsame =>
  obtain ⟨_, ⟨_, hold, rfl⟩, data, hnew, hkey⟩ := hsame
  obtain rfl := Option.some.inj (hold.symm.trans hdata)
  have hkinds {documents : List (DocumentId × Tree)} :=
    (SymbolTable.extends_declareDocuments documents).sound.kinds
  have hkind : data.kind = .property := by
    rw [← hkinds _ _ hnew, hkey, hkinds _ _ hdata, hkind]
  have hstable : pair.property.stable.key = data.key :=
    (congrArg TargetKey.key h.renamed.property).symm.trans hkey.symm
  rw [h.documents_eq.2, ← hdocument, ← hdocuments] at hfound
  rw [← hdocuments] at hnew
  obtain ⟨t, hrelocate, hnodeOf⟩ :=
    hbuilt.relocate_of_declared? (hc ▸ hS.versions.keyed'.keys) hpresent hk hnew
      (hkind ▸ SymbolKind.isSingle_property) (by rw [hkind]; decide) hfound hstable hdocument.symm
  rw [hrelocate]
  exact hnodeOf

omit hss in
/-- What the property is given is what the splice has put into it. -/
theorem mem_movedInto (hbuilt : c.IsBuilt) (hdocuments : c.documents = last)
    (hproperty : pair.property.Stands pair.compilation propertyTree g)
    (hproperty' : pair'.property.Stands pair'.compilation propertyTree' g') {r : Revision}
    (hr : r ∈ R.revisions) {tree' : Tree} {x : Ledger}
    (hs : x.revision r.document r.tree' tree' (pair'.cut m'.node g'.node r.document).change ∈
      S.revisions) (hcut : (pair'.cut m'.node g'.node r.document).Stands r.tree')
    (hx : x.Records PlacedToken.SameCore (pair'.cut m'.node g'.node r.document).change r.tree'.top
      r.tree'.top.children tree'.top.children) (q : PlacedNode) :
    q ∈ pair.movedInto c r.document ↔
      ∃ n n', (pair'.cut m'.node g'.node r.document).property? = some n ∧ (n, n') ∈ x.nodes ∧
      n.child? .equalsValueClause = none ∧ q ∈ n'.childrenOf .equalsValueClause := by
  obtain ⟨hmem, hmem'⟩ := hR.mem hr
  by_cases hdocument : r.document = pair.property.document
  · have hchosen : (pair'.cut m'.node g'.node r.document).property? = some g'.node :=
      cut_property?.mpr ⟨hdocument.trans h.documents_eq.2.symm, rfl⟩
    obtain ⟨n', hn'⟩ :=
      hcut.exists_made (h.renamed.parsed.conforms _ hmem') (h.renamed.parsed.kind_root hmem') hx
        hchosen
    obtain ⟨k, hk, rfl⟩ := hx.exists_focus hn'
    have hpresent := h.renamed.stands.tree?_of_mem h.wellFormed' hmem'
    have hpresent' := hproperty'.present
    rw [h.documents_eq.2, ← hdocument] at hpresent'
    obtain rfl := Option.some.inj (hpresent.symm.trans hpresent')
    have hfound :=
      h.nodeOf?_relocate hS hc hbuilt hdocuments hproperty' hs hdocument rfl hk
        ⟨_, _, hn', rfl, rfl⟩
    have hpresent := h.stands.tree?_of_mem h.wellFormed hmem
    have hpresent' := hproperty.present
    rw [← hdocument] at hpresent'
    obtain rfl := Option.some.inj (hpresent.symm.trans hpresent')
    have halike :=
      ((h.parallel hR hrs hr).alike hproperty.focus hproperty'.focus
        (h.property_eq hproperty hproperty').2).1
    have hnone : (g.node.child? .equalsValueClause).isNone =
        (g'.node.child? .equalsValueClause).isNone := by
      obtain ⟨hnone, hnone'⟩ | ⟨_, _, hsome, hsome', _⟩ :=
        rel_cases (halike.child? .equalsValueClause)
      · rw [hnone, hnone']
      · rw [hsome, hsome']
        rfl
    rw [movedInto, hfound, hproperty.nodeOf?, Option.any_some, hnone, hchosen]
    constructor
    · intro hq
      split at hq
      next hboth => exact ⟨_, _, rfl, hn', Option.isNone_iff_eq_none.mp hboth.2, by simpa using hq⟩
      next => exact absurd hq List.not_mem_nil
    · rintro ⟨n, n', heq, hn, hempty, hq⟩
      obtain rfl := Option.some.inj heq
      obtain ⟨k', hk', rfl⟩ := hx.exists_focus hn
      obtain rfl :=
        Tree.focus_eq hk' hk ((hx.nodes_unique ⟨_, _, hn', rfl, rfl⟩ ⟨_, _, hn, rfl, rfl⟩).mpr rfl)
      rw [if_pos ⟨hdocument, Option.isNone_iff_eq_none.mpr hempty⟩]
      simpa using hq
  · rw [movedInto, if_neg fun hboth => hdocument hboth.1]
    refine iff_of_false List.not_mem_nil ?_
    rintro ⟨_, _, hchosen, _⟩
    exact hdocument ((cut_property?.mp hchosen).1.trans h.documents_eq.2)

/-- All names of a document that are not taken out are there in the end, and they are rebound. -/
theorem forall₂_names (hbuilt : c.IsBuilt) (hdocuments : c.documents = last)
    (hsites : pair.Sites fieldTree propertyTree f g m)
    (hsites' : pair'.Sites fieldTree' propertyTree' f' g' m') {r s : Revision}
    (hr : r ∈ R.revisions) (hs : s ∈ S.revisions) (hdocument : s.document = r.document)
    (htree : s.tree = r.tree') :
    List.Forall₂ (pair.Rebinds c r.document) (r.tree.namesOutside (pair.takenOut r.document))
      (s.tree'.namesOutside (pair.movedInto c r.document)) := by
  obtain ⟨hmem, hmem'⟩ := hR.mem hr
  have hparallel := h.parallel hR hrs hr
  have hfits := hR.sound.fits hr
  have hpresent := h.stands.tree?_of_mem h.wellFormed hmem
  have hpresent' := h.renamed.stands.tree?_of_mem h.wellFormed' hmem'
  have hroot : r.tree'.root.kind = .compilationUnit := h.renamed.parsed.kind_root hmem'
  have hnames := hparallel.namesOutside ⟨fun ha => hfits.kind ha, fun ha => hfits.present ha⟩
    (h.gone_index hsites.field hsites.property hsites'.field hsites'.property hsites.plan
      hsites'.plan hpresent hpresent' hparallel)
  obtain ⟨document, tree, tree', x, rfl, hx⟩ := hss s hs
  obtain rfl : document = r.document := hdocument
  obtain rfl : tree = r.tree' := htree
  have hcut :=
    h.renamed.stands.cut_stands hsites'.field hsites'.property hsites'.mem hsites'.goes hpresent'
      hroot
  have hnames' := hcut.forall₂_names (h.renamed.parsed.conforms _ hmem') hroot hx
    (h.mem_movedInto hR hrs hS hc hbuilt hdocuments hsites.property hsites'.property hr hs hcut hx)
  rw [← hsites.takenOut_eq] at hnames
  refine (List.forall₂_and_left _ _ |>.mpr
    ⟨fun k hk => hk, Solution.forall₂_trans hnames hnames'⟩).imp ?_
  rintro k k'' ⟨hk, k', ⟨hleaf, _⟩, hleaf'⟩
  refine h.rebinds hR hrs hS hss hc hsites.field hr hs rfl (List.mem_filter.mp hk).1 hleaf hleaf'
    fun hdocument => ?_
  have hpresentField := hsites.field.present
  rw [← hdocument] at hpresentField
  obtain rfl := Option.some.inj (hpresent.symm.trans hpresentField)
  exact hsites.notMem_of_outside (hdocument ▸ hk)

/-- So it is in all documents of the project. -/
theorem forall₂_documents (hbuilt : c.IsBuilt) (hdocuments : c.documents = last)
    (hsites : pair.Sites fieldTree propertyTree f g m)
    (hsites' : pair'.Sites fieldTree' propertyTree' f' g' m') :
    List.Forall₂ (fun d d' : DocumentId × Tree => d'.1 = d.1 ∧
      List.Forall₂ (pair.Rebinds c d.1) (d.2.namesOutside (pair.takenOut d.1))
        (d'.2.namesOutside (pair.movedInto c d.1))) (pair.solution.trees p) last := by
  have hpairs : List.Forall₂ (fun r s : Revision => (r.document, r.tree') = (s.document, s.tree))
      R.revisions S.revisions := by
    have heq : R.revisions.map (fun r => (r.document, r.tree')) = S.revisions.map fun s =>
        (s.document, s.tree) :=
      hR.after.trans hS.before.symm
    rw [← List.forall₂_map_left_iff (R := fun d (s : Revision) => d = (s.document, s.tree)),
      ← List.forall₂_map_right_iff (R := Eq), heq, List.forall₂_eq_eq_eq]
  obtain ⟨hlength, hzip⟩ := List.forall₂_iff_zip.mp hpairs
  rw [← hR.before, ← hS.after, Revisions.before, Revisions.after, List.forall₂_map_left_iff,
    List.forall₂_map_right_iff]
  refine List.forall₂_iff_zip.mpr ⟨hlength, fun {r s} hmem => ?_⟩
  obtain ⟨hr, hs⟩ := List.of_mem_zip hmem
  obtain ⟨hdocument, htree⟩ := Prod.mk.inj (hzip hmem)
  exact ⟨hdocument.symm, h.forall₂_names hR hrs hS hss hc hbuilt hdocuments hsites hsites' hr hs
    hdocument.symm htree.symm⟩

end Pair.Advances

/-! ## The fix as a whole -/

/-- After the fix of two declarations in the project `p`, which `c` compiles then, the property
is found by its key, and names mean what they meant. -/
structure FixOutcome.Rebinds (result : FixOutcome) (s : Solution) (pair : Pair) (p p' : Project)
    (c : Compilation) : Prop where
  project : result.solution.project? p.id = some p'
  property : ∃ property, c.symbolByKey? pair.property.symbol.key = some property
  /-- All names that are not taken out are there again, in order, but for those in a value that
  has moved. -/
  names : List.Forall₂ (fun d d' : DocumentId × Tree => d'.1 = d.1 ∧
    List.Forall₂ (pair.Rebinds c d.1)
    (d.2.namesOutside (pair.takenOut d.1)) (d'.2.namesOutside (pair.movedInto c d.1)))
    (s.trees p) (result.solution.trees p')
  /-- No name that means the field is taken out, but for those in the declarator and in the
  bodies of the property. -/
  survive : ∀ document tree, (document, tree) ∈ s.trees p →
    ∀ k ∈ tree.tokens, pair.MeansField document k → pair.Spares document k →
    k ∈ tree.namesOutside (pair.takenOut document)
  others : ∀ q ∈ s.projects, q.id ≠ p.id → ∃ q', result.solution.project? q.id = some q' ∧
    result.solution.trees q' = s.trees q

namespace Pair.Advances

variable {pair pair' : Pair} {p p' : Project} {type : SymbolId} (h : pair.Advances p pair' p' type)
  {options : FixOptions} {next : Solution} (hspliced : pair'.IsSpliced options next)
include h hspliced

/-- The splice of the renamed pair makes a project in which names are rebound. -/
theorem exists_rebound :
    ∃ q, next.project? p.id = some q ∧ ∀ c : Compilation, c.IsOf next q →
      (∃ property, c.symbolByKey? pair.property.symbol.key = some property) ∧
      List.Forall₂ (fun d d' : DocumentId × Tree => d'.1 = d.1 ∧
        List.Forall₂ (pair.Rebinds c d.1) (d.2.namesOutside (pair.takenOut d.1))
          (d'.2.namesOutside (pair.movedInto c d.1))) (pair.solution.trees p) (next.trees q) := by
  obtain ⟨_, _, f, g, m, hsites⟩ := h.stands.exists_sites
  obtain ⟨_, _, f', g', m', hsites'⟩ := h.renamed.stands.exists_sites
  obtain ⟨store, store', hsplice⟩ := hspliced.run
  obtain ⟨q, hq, hid, hdocuments⟩ :=
    hspliced.edited.project? hspliced.wellFormed'
      (Solution.project?_some h.renamed.stands.project).1
  have hp' : p'.id = p.id := (Solution.project?_some h.renames.project).2
  obtain ⟨R, hR, hrs⟩ :=
    h.stands.exists_renaming h.wellFormed h.parsed h.wellFormed' h.renames h.joint
  have hown := h.fieldIsOwn hsites.field hsites'.field hR hrs
  have hledgers :=
    h.renamed.stands.forall₂_ledgers h.renamed.parsed hsites'.field hsites'.property hsites'.mem
      hsites'.goes hsites'.plan
    h.wellFormed' hsplice hdocuments
  obtain ⟨S, hS, hgone, hss⟩ :=
    h.renamed.stands.exists_splicing h.wellFormed' h.renamed.parsed hsites'.field hsites'.property
      hsites'.mem
    hsites'.goes h.joint' hown hledgers
  refine ⟨q, hp' ▸ hq, fun c hover => ?_⟩
  have hbuilt := hover.isBuilt hspliced.wellFormed' (Solution.project?_some hq).1
  refine ⟨?_, h.forall₂_documents hR hrs hS hss hover.table hbuilt hover.documents hsites hsites'⟩
  -- The key of the property is not one of those that are gone.
  have hdata := Compilation.data?_of_symbol? hsites'.property.symbol
  rw [h.renamed.stands.compilation.table] at hdata
  have hkind : pair'.property.symbol.key.kind = .property :=
    ((SymbolTable.linked_build h.renamed.parsed.conforms).kinds _ _ hdata).trans h.joint'.kinds.2
  have hkind' : pair'.field.symbol.key.kind = .field :=
    ((SymbolTable.extends_declareDocuments (pair'.solution.trees p')).sound.kinds _ _
      h.joint'.isField).trans h.joint'.kinds.1
  have hkept : ¬S.gone pair'.property.symbol.data.key := by
    rw [hgone, gone, Bool.or_eq_true, not_or]
    constructor
    · intro heq
      have heq : pair'.property.symbol.key = pair'.field.symbol.key := eq_of_beq heq
      rw [heq, hkind'] at hkind
      cases hkind
    · intro hlocal
      have heq : pair'.property.symbol.key.kind = .localVariable :=
        eq_of_beq (Bool.and_eq_true_iff.mp hlocal).1
      rw [heq] at hkind
      cases hkind
  obtain ⟨j, _, ⟨_, hold, rfl⟩, data, hj, hkey⟩ := hS.versions.images.forth _ _ hdata hkept
  obtain rfl := Option.some.inj (hold.symm.trans hdata)
  have hsymbol : c.symbol? j = some ⟨c.id, j, data⟩ := by
    rw [Compilation.symbol?, hover.table, hj]
    rfl
  have hstable : data.key = pair.property.symbol.key :=
    hkey.trans (congrArg TargetKey.key h.renamed.property)
  have hfound : c.symbolByKey? data.key = some ⟨c.id, j, data⟩ :=
    Compilation.symbolByKey?_of_symbol? (hover.table ▸ hS.versions.keyed'.keys) ⟨c.id, j, data⟩
      hsymbol
  exact ⟨_, hstable ▸ hfound⟩

/-- Other projects have the trees that they had. -/
theorem exists_other {q : Project} (hq : q ∈ pair.solution.projects) (hne : q.id ≠ p.id) :
    ∃ q', next.project? q.id = some q' ∧ next.trees q' = pair.solution.trees q := by
  obtain ⟨_, _, _, _, _, hsites⟩ := h.stands.exists_sites
  obtain ⟨ids, edits, hedited, hids, _⟩ := h.renamed.edited h.stands h.wellFormed h.parsed
  have hframe := hedited.trans hspliced.edited
  have hprojects := (Solution.project?_some h.stands.project).1
  -- What is edited belongs to the project.
  have howned {id : DocumentId} (hid : id ∈ ids ++ pair'.spliced) : id ∈ p.documents := by
    have htarget {t : Target} {tree : Tree} {k : Focus} (ht : t.Stands pair.compilation tree k) :
        t.document ∈ p.documents :=
      (Solution.mem_trees.mp (h.stands.documents ▸ Compilation.mem_documents_of_tree? ht.present)).1
    obtain hid | hid := List.mem_append.mp hid
    · obtain ⟨r, hr, rfl⟩ := hids id hid
      obtain ⟨d, hd, rfl⟩ | ⟨document, tree, htree, _, _, _, rfl⟩ :=
        ((h.stands.isBuilt h.wellFormed).mem_references
          (Compilation.resolve?_of_symbol? hsites.field.symbol)).mp hr
      · obtain ⟨_, _, _, hdeclarations⟩ := hsites.field.named
        rw [hdeclarations, List.mem_singleton] at hd
        rw [hd]
        exact htarget hsites.field
      · exact (Solution.mem_trees.mp (h.stands.documents ▸ htree)).1
    · rw [Pair.mem_spliced, h.documents_eq.1, h.documents_eq.2] at hid
      obtain rfl | rfl := hid
      · exact htarget hsites.field
      · exact htarget hsites.property
  obtain ⟨q', hq', _, hdocuments⟩ := hframe.project? hspliced.wellFormed' hq
  suffices htrees : List.Forall₂ Eq (pair.solution.trees q) (next.trees q') from
    ⟨q', hq', (List.forall₂_eq_eq_eq ▸ htrees : _ = _).symm⟩
  refine Solution.forall₂_trees hdocuments fun id hid => ?_
  obtain ⟨d, hd, rfl, hproject⟩ := (h.wellFormed.listed q hq id).mp hid
  obtain ⟨d', hd', _, _, hkept⟩ := hframe.document? hspliced.wellFormed' hd
  refine ⟨d, d', h.wellFormed.document? hd, hd', ?_⟩
  rw [hkept fun hmem => ?_]
  obtain ⟨e, he, hid, hproject'⟩ := (h.wellFormed.listed p hprojects d.id).mp (howned hmem)
  have hsame :=
    Option.some.inj ((h.wellFormed.document? he).symm.trans (hid ▸ h.wellFormed.document? hd))
  exact hne (hproject.symm.trans (hsame ▸ hproject'))

end Pair.Advances

namespace Solution

variable {store store' : Store} {snapshots : List Solution} {s : Solution} {cancelled : Bool}
  {f : Finding}

/-- A fix that succeeds has located a field and a property. If they could be joined, the
property is still found by its key, names that meant the field mean the property, and all other
names that are still there mean what they meant. -/
theorem applyFix_rebinds (h : History store snapshots) (hs : s ∈ snapshots) (hparsed : s.IsParsed)
    {options : FixOptions} {result : FixOutcome}
    (hrun : (s.applyFix (Services.workspace cancelled) f options).run store =
      (.ok result, store')) :
    ∃ pair store₁ p,
      ((Services.workspace cancelled).locatePair s f).run store = (.ok pair, store₁) ∧
      s.project? p.id = some p ∧ pair.compilation.IsOf s p ∧ ∀ type, pair.Joins type →
      ∃ p', result.solution.project? p.id = some p' ∧ ∀ c : Compilation, c.IsOf result.solution p' →
      result.Rebinds s pair p p' c := by
  obtain ⟨pair, store₁, p, pair', p', next, hlocate, rfl, hstands, hrenamed, hspliced, rfl⟩ :=
    exists_of_applyFix h.consistent hs hparsed hrun
  refine ⟨pair, store₁, p, hlocate, hstands.project, hstands.compilation, fun type hjoins => ?_⟩
  have hwf := h.consistent.wellFormed _ hs
  have hadvances : pair.Advances p pair' p' type.id :=
    ⟨hstands, hwf, hspliced.wellFormed, hparsed.allParsed p, hrenamed, hstands.joint hjoins⟩
  obtain ⟨q, hq, hrebound⟩ := hadvances.exists_rebound hspliced
  refine ⟨q, hq, fun c hover => ?_⟩
  obtain ⟨hproperty, hnames⟩ := hrebound c hover
  exact ⟨hq, hproperty, hnames,
    fun _ _ htree _ hk hmeans hspares => hstands.mem_namesOutside hwf (hparsed.allParsed p)
      hadvances.joint htree hk hmeans hspares,
      fun _ hq hne => hadvances.exists_other hspliced hq hne⟩

/-- A field that is used by a property and elsewhere. -/
def sharedField : String := "class C { int a; int P => a; int M() { return a; } }"

theorem applyFix_rebinds_use :
    ∃ result store' pair p p' c,
      ((ofText sharedField).applyFix (Services.workspace false) usedFinding {}).run ⟨3, 0, []⟩ =
        (.ok result, store') ∧ (∃ type, pair.Joins type) ∧ c.IsOf result.solution p' ∧
        result.Rebinds (ofText sharedField) pair p p' c := by
  obtain ⟨result, store', hrun⟩ := exists_of_isOk (show Except.isOk
    (((ofText sharedField).applyFix (Services.workspace false) usedFinding {}).run ⟨3, 0, []⟩).1 by
      decide +kernel)
  obtain ⟨pair, store₁, p, hlocate, _, _, hrebinds⟩ :=
    applyFix_rebinds (.ofText sharedField) List.mem_cons_self (isParsed_ofText sharedField) hrun
  have hany :
      (((Services.workspace false).locatePair (ofText sharedField) usedFinding).run
        ⟨3, 0, []⟩).1.toOption.any fun pair =>
      (pair.compilation.containingType? pair.field.symbol).any fun type =>
        decide (pair.Joins type) := by decide +kernel
  rw [hlocate] at hany
  obtain ⟨_, hpair, hany⟩ := (Option.any_eq_true ..).mp hany
  obtain rfl := Option.some.inj hpair
  obtain ⟨type, _, hdecide⟩ := (Option.any_eq_true ..).mp hany
  have hjoins : pair.Joins type := of_decide_eq_true hdecide
  obtain ⟨p', _, hp'⟩ := hrebinds type hjoins
  have hover : (Compilation.build ⟨0⟩ p'.id (result.solution.trees p')).IsOf result.solution p' :=
    ⟨rfl, rfl, rfl⟩
  exact ⟨result, store', pair, p, p', _, hrun, ⟨type, hjoins⟩, hover, hp' _ hover⟩

end Solution

end AutoProperty
