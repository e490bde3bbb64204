import AutoProperty.Proofs.Fix.RenamedDocuments
import AutoProperty.Proofs.Fix.Survivors
import AutoProperty.Proofs.Fix.Touching
import AutoProperty.Proofs.Symbol.Holders
import AutoProperty.Proofs.Symbol.Ledgered

/-! # Projects after the splice

The splice takes a field out of a project, and with the bodies of a property all the locals in
them. Nothing else goes away, and no name that is kept means what is gone.
-/

namespace AutoProperty

/-! ## Declarators that go away -/

section Fields

variable {tree : Tree} {f g m : Focus}

theorem Focus.GoesWith.mem_ancestors (h : f.GoesWith m) : m.node ∈ f.ancestors := by
  obtain rfl | ⟨declaration, habove, _⟩ := h
  · exact List.mem_cons_self
  · rw [ancestors, habove]
    exact List.mem_cons_of_mem _ (List.mem_cons_of_mem _ List.mem_cons_self)

/-- A declaration of fields holds one list of them. -/
theorem Tree.eq_of_fieldDeclaration (hconforms : tree.root.element.Conforms)
    {field v w : PlacedNode} {above : List PlacedNode} (hkind : field.kind = .fieldDeclaration)
    (hv : ⟨v, field :: above⟩ ∈ tree.nodes) (hw : ⟨w, field :: above⟩ ∈ tree.nodes) : v = w := by
  have hfield : ⟨field, above⟩ ∈ tree.nodes := mem_nodes_of_above_cons hv rfl
  have hsited := sited_of_mem hconforms hfield
  have hfit : ChildrenFit field.kind (field.children.map Placed.kind) := hsited.fit
  rw [hkind] at hfit
  obtain ⟨modifiers, hmodifiers, hkinds⟩ := hfit
  obtain ⟨front, back, hchildren, hfront, hback⟩ := List.map_eq_append_iff.mp hkinds
  obtain ⟨p, back, rfl, hp, hback⟩ := List.map_eq_cons_iff.mp hback
  obtain ⟨q, back, rfl, hq, hback⟩ := List.map_eq_cons_iff.mp hback
  obtain rfl := List.map_eq_nil_iff.mp hback
  -- All other children are tokens.
  have honly {n : PlacedNode} (hn : ⟨n, field :: above⟩ ∈ tree.nodes) : n.placed = p := by
    have hmem := PlacedNode.mem_childNodes.mp (mem_childNodes_of_mem hn)
    obtain ⟨_, _, htoken⟩ := childrenFit_of_mem hconforms hn
    rw [hchildren, List.mem_append] at hmem
    obtain hmem | hmem := hmem
    · refine absurd (Kind.isToken_of_isModifier (hmodifiers n.kind ?_)) htoken
      rw [← hfront]
      exact List.mem_map_of_mem (f := Placed.kind) hmem
    · simp only [List.mem_cons, List.not_mem_nil, or_false] at hmem
      refine hmem.resolve_right fun heq => htoken ?_
      rw [show n.kind = q.kind from congrArg Placed.kind heq, hq]
      rfl
  have hsame := (Placed.node.inj ((honly hv).trans (honly hw).symm)).1
  exact congrArg Focus.node (focus_eq hv hw (congrArg NodeInfo.index hsame))

/-- With the field, no other field goes away. -/
theorem Focus.GoesWith.eq_of_isField (h : f.GoesWith m) (hconforms : tree.root.element.Conforms)
    (hroot : tree.root.kind = .compilationUnit) (hf : f ∈ tree.nodes) (hfield : f.IsField)
    (hg : g ∈ tree.nodes) (hfield' : g.IsField) (hin : m.node ∈ g.ancestors) : g = f := by
  obtain ⟨hkind, declaration', field', scopes', habove', hdeclaration', hfieldKind', hscopes'⟩ :=
    hfield'
  have hscopeKinds : ∀ n ∈ scopes', n.kind.isScope ∨ n.kind = .compilationUnit :=
    hscopes'.isScope_or hroot hg (show g.above = [declaration', field'] ++ scopes' from habove')
  have hnot {n : PlacedNode} (hn : n.kind.isScope ∨ n.kind = .compilationUnit) : n.kind ≠
      .variableDeclarator ∧ n.kind ≠ .fieldDeclaration := by
    revert hn
    cases n.kind <;> decide
  simp only [ancestors, habove', List.mem_cons] at hin
  obtain rfl | ⟨declaration, habove, hdeclaration, hwhole, honly⟩ := h
  · obtain heq | heq | heq | hin := hin
    · exact (Tree.focus_eq hf hg (congrArg _ heq)).symm
    · exact absurd (heq ▸ hdeclaration') (by rw [hfield.1]; decide)
    · exact absurd (heq ▸ hfieldKind') (by rw [hfield.1]; decide)
    · exact absurd hfield.1 (hnot (hscopeKinds _ hin)).1
  · obtain heq | heq | heq | hin := hin
    · exact absurd (heq ▸ hwhole) (by rw [hkind]; decide)
    · exact absurd (heq ▸ hwhole) (by rw [hdeclaration']; decide)
    swap
    · exact absurd hwhole (hnot (hscopeKinds _ hin)).2
    obtain ⟨n, above⟩ := f
    obtain ⟨n', above'⟩ := g
    obtain rfl : above = declaration :: m.node :: m.above := habove
    obtain rfl : above' = declaration' :: field' :: scopes' := habove'
    have hv := Tree.mem_nodes_of_above_cons hf rfl
    have hw := Tree.mem_nodes_of_above_cons hg rfl
    obtain ⟨rfl, rfl⟩ : m.node = field' ∧ m.above = scopes' := by
      have hsame :=
        Tree.focus_eq (Tree.mem_nodes_of_above_cons hv rfl) (Tree.mem_nodes_of_above_cons hw rfl)
          (congrArg _ heq)
      exact Focus.mk.inj hsame
    obtain rfl := Tree.eq_of_fieldDeclaration hconforms hwhole hv hw
    have hmem : n' ∈ declaration.childrenOf .variableDeclarator :=
      List.mem_filter.mpr ⟨Tree.mem_childNodes_of_mem hg, beq_iff_eq.mpr hkind⟩
    rw [honly] at hmem
    rw [List.mem_singleton.mp hmem]

end Fields

/-! ## What is gone -/

namespace Pair

def gone (pair : Pair) (key : Key) : Bool :=
  key == pair.field.symbol.key || key.isLocalOf pair.property.symbol.key

def IsSplicing (pair : Pair) (removed property : PlacedNode) (r : Revision) : Prop :=
  ∃ document tree tree' x,
    r = Ledger.revision x document tree tree' (pair.cut removed property document).change ∧
    x.Records PlacedToken.SameCore (pair.cut removed property document).change tree.top
      tree.top.children tree'.top.children

/-- Only names in the declarator mean the field. -/
def FieldIsOwn (pair : Pair) (p : Project) (declarator : PlacedNode) : Prop :=
  ∀ document tree, (document, tree) ∈ pair.solution.trees p → ∀ k ∈ tree.tokens,
    pair.field.symbol.id ∈ (SymbolTable.build (pair.solution.trees p)).bound
      ⟨document, k.leaf.index⟩ →
      document = pair.field.document ∧ k.leaf ∈ declarator.tokens

namespace Stands

variable {pair : Pair} {p : Project} (h : pair.Stands p) (hs : pair.solution.WellFormed)
  (hparsed : AllParsed (pair.solution.trees p)) {fieldTree propertyTree : Tree} {f g m : Focus}
  (hfield : pair.field.Stands pair.compilation fieldTree f)
  (hproperty : pair.property.Stands pair.compilation propertyTree g) (hm : m ∈ fieldTree.nodes)
  (hgoes : f.GoesWith m)
include h hs hparsed hfield hproperty hm hgoes

/-- The revision of a spliced document is one in which names can be followed. -/
theorem follows_of_isSplicing {r : Revision} (hr : pair.IsSplicing m.node g.node r)
    (hmem : (r.document, r.tree) ∈ pair.solution.trees p) : r.Follows := by
  obtain ⟨document, tree, tree', x, rfl, hx⟩ := hr
  have hmem : (document, tree) ∈ pair.solution.trees p := hmem
  have htree := h.tree?_of_mem hs hmem
  have hcut := h.cut_stands hfield hproperty hm hgoes htree (hparsed.kind_root hmem)
  have hconforms : tree.root.element.Conforms := hparsed.conforms _ hmem
  exact hx.follows hconforms (hparsed.hasWords _ hmem) (hcut.allowed hconforms).isRevising document

/-- A node that is still there is not that of the field. -/
theorem index_ne_of_remains {r : Revision} (hr : pair.IsSplicing m.node g.node r)
    (hmem : (r.document, r.tree) ∈ pair.solution.trees p)
    (hdocument : r.document = pair.field.document) {i i' : Nat} (hi : r.node i i') :
    i ≠ f.node.index := by
  obtain ⟨document, tree, tree', x, rfl, hx⟩ := hr
  obtain rfl : document = pair.field.document := hdocument
  have hmem : (pair.field.document, tree) ∈ pair.solution.trees p := hmem
  have htree := h.tree?_of_mem hs hmem
  obtain rfl := Option.some.inj (htree.symm.trans hfield.present)
  have hroot : tree.root.kind = .compilationUnit := hparsed.kind_root hmem
  obtain ⟨n, n', hn, rfl, _⟩ := hi
  intro hindex
  have hnode : n ∈ Placed.nodesOf tree.top.children :=
    hx.nodes.mem_iff.mp (List.mem_append_left _ (List.mem_map_of_mem (f := Prod.fst) hn))
  rw [← Placed.node_fociOf [tree.top]] at hnode
  obtain ⟨k, hk, rfl⟩ := List.mem_map.mp hnode
  obtain rfl := Tree.focus_eq (tree.fociOf_subset_nodes hk) hfield.focus hindex
  refine (h.cut_stands hfield hproperty hm hgoes htree hroot).not_remains (hparsed.conforms _ hmem)
    hroot hx
    (Cut.mem_gone.mpr (.inl (cut_removed?.mpr ⟨rfl, rfl⟩))) ?_ hn
  exact (Tree.mem_descendants_iff hm hfield.focus).mpr hgoes.mem_ancestors

section Joint

variable {type : SymbolId}
  (hjoint : (SymbolTable.declareDocuments (pair.solution.trees p)).Joint type pair.field.symbol.id
    pair.property.symbol.id pair.field.symbol.data pair.property.symbol.data)
include hjoint

omit hparsed hproperty hm hgoes in
/-- The declarator declares the field, and nothing else declares it. -/
theorem place_eq_iff {id : SymbolId} {data : SymbolData}
    (hdata : (SymbolTable.declareDocuments (pair.solution.trees p)).data? id = some data)
    (hkind : data.kind ≠ .nameSpace) {d : Declaration} (hd : d ∈ data.declarations) :
    d.place = ⟨pair.field.document, f.node.index⟩ ↔ id = pair.field.symbol.id := by
  have hnodup := (h.isBuilt hs).nodup
  rw [h.documents] at hnodup
  obtain ⟨name, _, _, hdeclarations⟩ := hfield.named
  constructor
  · intro hplace
    have hdeclared := SymbolTable.declared?_of_mem hnodup hdata hkind hd
    have hdeclared' :=
      SymbolTable.declared?_of_mem hnodup hjoint.isField (by rw [hjoint.kinds.1]; decide)
        (hdeclarations ▸ List.mem_singleton_self _)
    exact Option.some.inj (hdeclared.symm.trans (hplace ▸ hdeclared'))
  · rintro rfl
    obtain rfl := Option.some.inj (hdata.symm.trans hjoint.isField)
    rw [hdeclarations, List.mem_singleton] at hd
    rw [hd]

/-- A field that is kept never asks for the key of the one that is gone. -/
theorem spared_of_isSplicing {r : Revision} (hr : pair.IsSplicing m.node g.node r)
    (hmem : (r.document, r.tree) ∈ pair.solution.trees p) {id : SymbolId} {data : SymbolData}
    {d : Declaration}
    (hdata : (SymbolTable.declareDocuments (pair.solution.trees p)).data? id = some data)
    (hkind : data.kind = .field) (hd : d ∈ data.declarations)
    (hdocument : d.place.document = r.document) {i' : Nat} (hi : r.node d.place.index i')
    {outer? : Option Key}
    (houter : (SymbolTable.declareDocuments (pair.solution.trees p)).HasKey? data.container? outer?)
    {number : String} (hnumber : SymbolTable.IsNumber number) :
    ¬pair.gone (Key.within outer? .field (data.name ++ number)) := by
  intro hgone
  have hwords := hparsed.hasWords
  have hsound := (SymbolTable.extends_declareDocuments (pair.solution.trees p)).sound
  have hfiled := SymbolTable.hasFiledMembers_declareDocuments (pair.solution.trees p)
  have hkeyed : (SymbolTable.declareDocuments (pair.solution.trees p)).IsKeyed :=
    ⟨hsound.keys, hsound.kinds, SymbolTable.isLayered_declareDocuments _⟩
  have hkey : Key.within outer? .field (data.name ++ number) = pair.field.symbol.data.key := by
    simpa [gone, Key.isLocalOf, Symbol.key] using hgone
  obtain ⟨hcontainer, hname⟩ := hkeyed.eq_of_asks (hfiled id data hdata (by rw [hkind]; rfl))
    (hfiled _ _ hjoint.isField (by rw [hjoint.kinds.1]; rfl)) hjoint.kinds.1
    (hsound.isWord_memberName hwords hdata (.inl hkind))
    (hsound.isWord_memberName hwords hjoint.isField (.inl hjoint.kinds.1)) hsound.paths houter
    hnumber hkey
  -- It is the field itself, whose declarator is not there any more.
  obtain rfl : id = pair.field.symbol.id :=
    hjoint.onlyField ⟨data, hdata, hcontainer.trans hjoint.containers.1, hname,
      .inl (by rw [hkind]; rfl)⟩
  have hplace := (h.place_eq_iff hs hfield hjoint hdata (by rw [hkind]; decide) hd).mpr rfl
  exact h.index_ne_of_remains hs hparsed hfield hproperty hm hgoes hr hmem
    (hdocument ▸ congrArg Place.document hplace) hi
    (congrArg Place.index hplace)

/-- A field whose declarator is taken out is the one that is gone. -/
theorem removed_of_isSplicing {r : Revision} (hr : pair.IsSplicing m.node g.node r)
    (hmem : (r.document, r.tree) ∈ pair.solution.trees p) {id : SymbolId} {data : SymbolData}
    {d : Declaration}
    (hdata : (SymbolTable.declareDocuments (pair.solution.trees p)).data? id = some data)
    (hkind : data.kind = .field) (hd : d ∈ data.declarations)
    (hdocument : d.place.document = r.document) {e : Placed} (he : r.change.dropped e)
    {n : PlacedNode} (hn : n ∈ e.nodes) (hindex : d.place.index = n.index) :
    pair.gone data.key := by
  obtain ⟨document, tree, tree', x, rfl, hx⟩ := hr
  have hmem : (document, tree) ∈ pair.solution.trees p := hmem
  have hdocument : d.place.document = document := hdocument
  have htree := h.tree?_of_mem hs hmem
  have hroot : tree.root.kind = .compilationUnit := hparsed.kind_root hmem
  have hconforms : tree.root.element.Conforms := hparsed.conforms _ hmem
  have hcut := h.cut_stands hfield hproperty hm hgoes htree hroot
  obtain ⟨⟨b, hb, rfl⟩ | ⟨a, rfl, _⟩, _⟩ := he
  swap
  · exact absurd hn List.not_mem_nil
  -- The declarator stands in what goes away.
  obtain ⟨d', heq, tree₁, hmem₁, k, hk, hkindex, hdeclares, _⟩ :=
    (SymbolTable.extends_declareDocuments (pair.solution.trees p)).sound.single id data hdata
      (by rw [hkind]; exact SymbolKind.isSingle_field)
  obtain rfl : d = d' := List.mem_singleton.mp (heq ▸ hd)
  have htree₁ := h.tree?_of_mem hs hmem₁
  rw [hdocument] at htree₁
  obtain rfl := Option.some.inj (htree.symm.trans htree₁)
  rw [hkind] at hdeclares
  have hisField : k.IsField := hdeclares
  obtain ⟨focus, hfocus, rfl⟩ := hcut.exists_focus_of_gone hconforms hb
  obtain ⟨inner, hinner, rfl⟩ := Tree.exists_focus_of_descendant hfocus hn
  obtain rfl := Tree.focus_eq hinner hk (hindex.symm.trans hkindex.symm)
  have habove := (Tree.mem_descendants_iff hfocus hinner).mp hn
  obtain hremoved | ⟨property, hchosen, hbody⟩ := Cut.mem_gone.mp hb
  · obtain ⟨rfl, hsame⟩ := cut_removed?.mp hremoved
    obtain rfl := Option.some.inj (htree.symm.trans hfield.present)
    have hdeclaresField := hfield.declares
    rw [h.roles.1] at hdeclaresField
    obtain rfl :=
      hgoes.eq_of_isField hconforms hroot hfield.focus hdeclaresField hk hisField (hsame ▸ habove)
    obtain rfl :=
      (h.place_eq_iff hs hfield hjoint hdata (by rw [hkind]; decide) hd).mp
        (Place.mk.injEq .. |>.mpr ⟨hdocument, hkindex.symm⟩)
    obtain rfl := Option.some.inj (hdata.symm.trans hjoint.isField)
    simp [gone, Symbol.key]
  · obtain ⟨hbodyKind, _⟩ := hcut.exists_above_of_body hconforms hchosen hbody
    obtain ⟨hdeclarator, declaration, field, scopes, hkabove, hdeclaration, hfieldKind, hscopes⟩ :=
      hisField
    simp only [Focus.ancestors, hkabove, List.mem_cons] at habove
    have hne {kind : Kind} (heq : focus.node.kind = kind)
        (hkind : kind ≠ .block ∧ kind ≠ .arrowExpressionClause) : pair.gone data.key :=
      (hbodyKind.elim (fun hb => hkind.1 (heq.symm.trans hb)) fun hb =>
        hkind.2 (heq.symm.trans hb)).elim
    obtain heq | heq | heq | hin := habove
    · exact hne (heq ▸ hdeclarator) (by decide)
    · exact hne (heq ▸ hdeclaration) (by decide)
    · exact hne (heq ▸ hfieldKind) (by decide)
    · obtain hscope | hunit :=
        hscopes.isScope_or hroot hk (show inner.above = [declaration, field] ++ scopes from hkabove)
          _ hin
      · obtain hbodyKind | hbodyKind := hbodyKind <;> rw [hbodyKind] at hscope <;> cases hscope
      · exact hne hunit (by decide)

omit hjoint in
/-- A token that is still there does not mean the field, if only names in the declarator do. -/
theorem notMem_bound_of_leaf (hown : pair.FieldIsOwn p f.node) {document : DocumentId}
    {tree tree' : Tree} {x : Ledger} (hmem : (document, tree) ∈ pair.solution.trees p)
    (hx : x.Records PlacedToken.SameCore (pair.cut m.node g.node document).change tree.top
      tree.top.children tree'.top.children) {a a' : PlacedToken} (ha : (a, a') ∈ x.leaves) :
    pair.field.symbol.id ∉ (SymbolTable.build (pair.solution.trees p)).bound
      ⟨document, a.index⟩ := by
  intro hi
  have htree := h.tree?_of_mem hs hmem
  have hroot : tree.root.kind = .compilationUnit := hparsed.kind_root hmem
  have hconforms : tree.root.element.Conforms := hparsed.conforms _ hmem
  have hcut := h.cut_stands hfield hproperty hm hgoes htree hroot
  have hleaf : a ∈ Placed.tokensOf tree.top.children :=
    hx.inOrder.subset (List.mem_map.mpr ⟨_, ha, rfl⟩)
  rw [← Placed.leaf_tokenFociOf [tree.top], Tree.tokenFociOf_eq_tokens] at hleaf
  obtain ⟨k, hk, rfl⟩ := List.mem_map.mp hleaf
  obtain ⟨rfl, hin⟩ := hown document tree hmem k hk hi
  obtain rfl := Option.some.inj (htree.symm.trans hfield.present)
  have hremoved : k.leaf ∈ m.node.tokens :=
    Placed.tokens_of_mem_nodes ((Tree.mem_descendants_iff hm hfield.focus).mpr hgoes.mem_ancestors)
      hin
  obtain ⟨e, he, hdropped⟩ :=
    hcut.dropped_of_gone hconforms hroot hx (Cut.mem_gone.mpr (.inl (cut_removed?.mpr ⟨rfl, rfl⟩)))
      hremoved
  exact hx.index_ne_dropped he hdropped ha rfl

omit hparsed hfield hm hgoes in
/-- The property itself is not kept whole. -/
theorem declared?_ne_of_kept {document : DocumentId} {tree : Tree}
    (hmem : (document, tree) ∈ pair.solution.trees p) {k : Focus} (hk : k ∈ tree.nodes)
    (hkept : (pair.cut m.node g.node document).change.kept k.node.placed) :
    (SymbolTable.declareDocuments (pair.solution.trees p)).declared? ⟨document, k.node.index⟩ ≠
      some pair.property.symbol.id := by
  intro hid
  have htree := h.tree?_of_mem hs hmem
  have hsound := (SymbolTable.extends_declareDocuments (pair.solution.trees p)).sound
  obtain ⟨_, _, _, hdeclarations⟩ := hproperty.named
  obtain ⟨data, hdata, hsingle, _⟩ :=
    hsound.declared _ _ (SymbolTable.mem_declared_of_declared? hid)
  obtain rfl := Option.some.inj (hdata.symm.trans hjoint.isProperty)
  obtain ⟨d, hd, hplace⟩ := hsingle (by rw [hjoint.kinds.2]; exact SymbolKind.isSingle_property)
  rw [hdeclarations, List.mem_singleton] at hd
  rw [hd] at hplace
  obtain ⟨rfl, hindex⟩ := Place.mk.inj hplace.symm
  obtain rfl := Option.some.inj (htree.symm.trans hproperty.present)
  obtain rfl := Tree.focus_eq hk hproperty.focus hindex
  exact (hkept.2 _ List.mem_cons_self).2 (cut_property?.mpr ⟨rfl, rfl⟩)

/-- What is kept of a document does not know of the field, nor of the locals in the property. -/
theorem fits_of_isSplicing (hown : pair.FieldIsOwn p f.node) {R : Revisions}
    (hbefore : R.before = pair.solution.trees p) (hgone : R.gone = pair.gone) {r : Revision}
    (hr : pair.IsSplicing m.node g.node r) (hmem : (r.document, r.tree) ∈ pair.solution.trees p) :
    SymbolTable.Fits R r := by
  have hfollows := h.follows_of_isSplicing hs hparsed hfield hproperty hm hgoes hr hmem
  obtain ⟨document, tree, tree', x, rfl, hx⟩ := hr
  have hmem : (document, tree) ∈ pair.solution.trees p := hmem
  have htree := h.tree?_of_mem hs hmem
  have hroot : tree.root.kind = .compilationUnit := hparsed.kind_root hmem
  have hsound := (SymbolTable.extends_declareDocuments (pair.solution.trees p)).sound
  have hnodup := (h.isBuilt hs).nodup
  rw [h.documents] at hnodup
  obtain ⟨_, _, _, hdeclarations⟩ := hproperty.named
  have hdeclared :=
    SymbolTable.declared?_of_mem hnodup hjoint.isProperty (by rw [hjoint.kinds.2]; decide)
      (hdeclarations ▸ List.mem_singleton_self _)
  refine ⟨hfollows, fun _ hreplaced => hreplaced.elim, ?_, hroot, ?_, ?_⟩
  · intro a a' ha i hi hgoneAt
    rw [hbefore] at hi hgoneAt
    obtain ⟨data, hdata, hkey⟩ := (Option.any_eq_true ..).mp hgoneAt
    rw [hgone, Bool.and_eq_true, gone, Bool.or_eq_true] at hkey
    obtain ⟨hkey, hlocal⟩ := hkey
    obtain hkey | hkey := hkey
    swap
    · rw [Key.isLocalOf, Bool.and_eq_true] at hkey
      exact absurd hkey.1 (by simpa using hlocal)
    obtain rfl :=
      (SymbolTable.linked_build hparsed.conforms).keys.eq_of_keyed ⟨data, hdata, eq_of_beq hkey⟩
        ⟨_, (SymbolTable.data?_build_iff (by rw [hjoint.kinds.1]; decide)).mpr hjoint.isField, rfl⟩
    exact h.notMem_bound_of_leaf hs hparsed hfield hproperty hm hgoes hown hmem hx ha hi
  · intro k i' hk hparts hne hkept _ outer? houter label hlabel hgoneKey
    rw [hbefore] at houter
    rw [hgone, gone, Bool.or_eq_true] at hgoneKey
    obtain hkey | hkey := hgoneKey
    · have hkind := congrArg Key.kind (eq_of_beq hkey)
      rw [Key.kind_within, Symbol.key, hsound.kinds _ _ hjoint.isField, hjoint.kinds.1] at hkind
      cases hkind
    · obtain ⟨outer, hmem', hpath⟩ :=
        (Key.isLocalOf_within (hsound.path_ne houter) hlabel _).mp hkey
      have hne' := h.declared?_ne_of_kept hs hproperty hjoint hmem hk hkept
      obtain ⟨_, htext⟩ := hparsed _ hmem
      exact SymbolTable.path_ne_of_holder? hnodup hmem htext hk hparts hne hjoint.isProperty
        hjoint.kinds.2 hparsed.hasWords hne' houter
        outer hmem' hpath
  · intro k i' hk hopened hkind _
    have hopened : (pair.cut m.node g.node document).change.opened k.node := hopened
    have hchosen : (pair.cut m.node g.node document).property? = some k.node := by
      obtain ⟨_, hkinds⟩ := hopened
      rw [hkind] at hkinds
      simpa [Kind.isScope, Kind.isAccessor] using hkinds
    obtain ⟨rfl, hnode⟩ := cut_property?.mp hchosen
    obtain rfl := Option.some.inj (htree.symm.trans hproperty.present)
    rw [hbefore, hgone]
    refine ⟨_, _, fun label hlabel => ?_, hnode ▸ hdeclared, ⟨_, hjoint.isProperty, rfl⟩⟩
    have hpath (outer : Key) (houter : outer ∈ some pair.property.symbol.data.key) : outer.path ≠
        "" :=
      Option.some.inj houter ▸ hsound.paths _ _ hjoint.isProperty
    have hlocal := (Key.isLocalOf_within hpath hlabel pair.property.symbol.key).mpr ⟨_, rfl, rfl⟩
    rw [gone, hlocal, Bool.or_true]

/-- The splice leads from one version of the project to the next. -/
theorem exists_splicing (hown : pair.FieldIsOwn p f.node) {trees' : List (DocumentId × Tree)}
    (hledgers : List.Forall₂ (fun d d' : DocumentId × Tree => d'.1 = d.1 ∧ ∃ x : Ledger,
      x.Records PlacedToken.SameCore (pair.cut m.node g.node d.1).change d.2.top d.2.top.children
        d'.2.top.children) (pair.solution.trees p) trees') :
    ∃ R : Revisions, R.Leads (pair.solution.trees p) trees' ∧ R.gone = pair.gone ∧
      ∀ r ∈ R.revisions, pair.IsSplicing m.node g.node r := by
  obtain ⟨rs, hbefore, hafter, hrs⟩ :=
    exists_revisions (P := pair.IsSplicing m.node g.node) (hledgers.imp fun d d' ⟨hid, x, hx⟩ =>
    ⟨x.revision d.1 d.2 d'.2 (pair.cut m.node g.node d.1).change, rfl, Prod.ext hid.symm rfl, _, _,
      _, x, rfl, hx⟩)
  let R : Revisions := ⟨rs, pair.gone⟩
  have hmem {r : Revision} (hr : r ∈ rs) : (r.document, r.tree) ∈ pair.solution.trees p :=
    hbefore ▸ List.mem_map_of_mem (f := fun r : Revision => (r.document, r.tree)) hr
  have hbefore : R.before = pair.solution.trees p := hbefore
  refine ⟨R, ⟨hbefore, hafter, ?_⟩, rfl, hrs⟩
  exact {
    kinds := fun key hgone => by
      rw [show R.gone key = pair.gone key from rfl, gone, Bool.or_eq_true] at hgone
      obtain hkey | hkey := hgone
      · refine .inl ?_
        rw [eq_of_beq hkey, Symbol.key,
          (SymbolTable.extends_declareDocuments (pair.solution.trees p)).sound.kinds _ _
            hjoint.isField, hjoint.kinds.1]
      · exact .inr (eq_of_beq (Bool.and_eq_true_iff.mp hkey).1)
    nodup := by
      have hnodup := (h.isBuilt hs).nodup
      rw [h.documents, ← hbefore, Revisions.before, List.map_map] at hnodup
      exact hnodup
    follows :=
      fun hr => h.follows_of_isSplicing hs hparsed hfield hproperty hm hgoes (hrs _ hr) (hmem hr)
    spared := fun hdata hkind hd ⟨r, hr, hdocument, _, hi⟩ _ houter _ hnumber => by
      rw [hbefore] at hdata houter
      exact h.spared_of_isSplicing hs hparsed hfield hproperty hm hgoes hjoint (hrs r hr) (hmem hr)
        hdata hkind hd hdocument hi houter hnumber
    removed := fun hdata hkind hd ⟨r, hr, hdocument, e, he, n, hn, hindex⟩ => by
      rw [hbefore] at hdata
      exact h.removed_of_isSplicing hs hparsed hfield hproperty hm hgoes hjoint (hrs r hr) (hmem hr)
        hdata hkind hd hdocument he hn hindex
    fits := fun hr => h.fits_of_isSplicing hs hparsed hfield hproperty hm hgoes hjoint hown hbefore
      rfl (hrs _ hr) (hmem hr) }

end Joint

end Stands

end Pair

end AutoProperty
