import AutoProperty.Fix.Target
import AutoProperty.Proofs.Symbol.Coherence
import AutoProperty.Proofs.Syntax.Extents
import AutoProperty.Proofs.Workspace.Twins

/-! # Targets in a compilation

A target that is found stands where its symbol is declared, and nothing else declares the
symbol. Its key leads back to it in every compilation that has the symbol, too.
-/

namespace AutoProperty

theorem Role.isSingle_symbolKind (role : Role) : role.symbolKind.isSingle := by
  cases role <;> simp [symbolKind, SymbolKind.isSingle]

theorem Role.ne_localVariable (role : Role) : role.symbolKind ≠ .localVariable := by
  cases role <;> simp [symbolKind]

/-- The target is what a node of the compilation declares, and no other node declares it. -/
structure Target.Stands (t : Target) (c : Compilation) (tree : Tree) (f : Focus) : Prop where
  present : c.tree? t.document = some tree
  focus : f ∈ tree.nodes
  node : t.node = tree.nodeId f.node
  span : t.span = f.node.span
  symbol : c.symbol? t.symbol.id = some t.symbol
  kind : t.symbol.kind = t.role.symbolKind
  declares : f.Declares t.role.symbolKind
  named : ∃ name, f.node.name? = some name ∧ t.symbol.name = name.text ∧
    t.symbol.data.declarations = [⟨⟨t.document, f.node.index⟩, name.span⟩]

namespace Compilation

variable {c : Compilation} {t : Target} {tree : Tree} {f : Focus}

theorem data?_of_symbol? {symbol : Symbol} (h : c.symbol? symbol.id = some symbol) :
    c.table.data? symbol.id = some symbol.data := by
  obtain ⟨data, hdata, heq⟩ := Option.map_eq_some_iff.mp h
  rw [hdata, ← heq]

/-- A field or a property stands somewhere. -/
theorem IsBuilt.exists_stands (h : c.IsBuilt) (hparsed : AllParsed c.documents) {symbol : Symbol}
    {role : Role} (hsymbol : c.symbol? symbol.id = some symbol)
    (hkind : symbol.kind = role.symbolKind) :
    ∃ document tree f, (Target.mk role document (tree.nodeId f.node) f.node.span symbol).Stands c
      tree f := by
  have hlinked := SymbolTable.linked_build hparsed.conforms
  rw [← h.table] at hlinked
  have hsingle : symbol.data.kind.isSingle := by
    rw [show symbol.data.kind = role.symbolKind from hkind]
    exact role.isSingle_symbolKind
  obtain ⟨d, hd, tree, hdocument, f, hf, hindex, hdeclares, name, hname, hspan, htext⟩ :=
    hlinked.single symbol.id symbol.data (data?_of_symbol? hsymbol) hsingle
  rw [show symbol.data.kind = role.symbolKind from hkind] at hdeclares
  have hnot : f.node.kind ≠ .constructorDeclaration := by
    cases role with
    | field =>
      rw [hdeclares.1]
      decide
    | property =>
      rw [hdeclares.1]
      decide
  refine ⟨d.place.document, tree, f, h.tree? hdocument, hf, rfl, rfl, hsymbol, hkind, hdeclares,
    name, hname, htext.resolve_right fun hconstructor => hnot hconstructor.1, ?_⟩
  rw [hd, hindex, hspan]

/-- A node that declares the symbol of a target is the node of the target. -/
theorem IsBuilt.place_of_declared? (h : c.IsBuilt) (hparsed : AllParsed c.documents)
    (hstands : t.Stands c tree f) {place : Place}
    (hdeclared : c.table.declared? place = some t.symbol.id) :
    place = ⟨t.document, f.node.index⟩ := by
  have hlinked := SymbolTable.linked_build hparsed.conforms
  rw [← h.table] at hlinked
  obtain ⟨data, hdata, hplaces⟩ :=
    hlinked.declared place t.symbol.id (SymbolTable.mem_declared_of_declared? hdeclared)
  obtain rfl := Option.some.inj ((data?_of_symbol? hstands.symbol).symm.trans hdata)
  have hkind : t.symbol.data.kind = t.role.symbolKind := hstands.kind
  obtain ⟨d, hd, rfl⟩ := hplaces.1 (hkind ▸ t.role.isSingle_symbolKind)
  obtain ⟨name, _, _, hdeclarations⟩ := hstands.named
  rw [hdeclarations, List.mem_singleton] at hd
  rw [hd]

/-- What is located stands in the document that was asked for. -/
theorem IsBuilt.stands_of_locate (h : c.IsBuilt) (hparsed : AllParsed c.documents) {role : Role}
    {location : Location} (hlocate : c.locate role location = .ok t) :
    t.role = role ∧ t.document = location.document ∧ ∃ tree f, t.Stands c tree f := by
  rw [locate] at hlocate
  cases htree : c.tree? location.document with
  | none =>
    rw [htree] at hlocate
    cases hlocate
  | some tree =>
  rw [htree] at hlocate
  dsimp only at hlocate
  cases hcovering : tree.covering? location.span role.declarationKind with
  | none =>
    rw [hcovering] at hlocate
    cases hlocate
  | some node =>
  rw [hcovering] at hlocate
  dsimp only at hlocate
  cases hdeclared : c.declared? location.document (tree.nodeId node) with
  | none =>
    rw [hdeclared] at hlocate
    cases hlocate
  | some symbol =>
  rw [hdeclared] at hlocate
  dsimp only at hlocate
  by_cases hkind : symbol.kind = role.symbolKind
  · rw [if_neg (not_not.mpr hkind)] at hlocate
    obtain rfl := Except.ok.inj hlocate
    refine ⟨rfl, rfl, tree, ?_⟩
    -- The node is around a token, so it is one of the tree, and its number tells which one.
    obtain ⟨g, hg, hfound⟩ := Option.bind_eq_some_iff.mp hcovering
    obtain ⟨before, after, habove⟩ := List.append_of_mem (List.mem_of_find?_eq_some hfound)
    have hnode := Tree.mem_nodes_of_above_token (Tree.mem_of_tokenAt? hg) habove
    have hdeclared : (c.table.declared? ⟨location.document, node.index⟩).bind c.symbol? =
        some symbol := by
      simpa [declared?, htree, Tree.nodeId, declaredAt?] using hdeclared
    obtain ⟨id, hid, hsymbol⟩ := Option.bind_eq_some_iff.mp hdeclared
    obtain rfl : id = symbol.id := by
      obtain ⟨data, _, rfl⟩ := Option.map_eq_some_iff.mp hsymbol
      rfl
    obtain ⟨document, tree', f, hstands⟩ := h.exists_stands hparsed hsymbol hkind
    have hplace := h.place_of_declared? hparsed hstands hid
    obtain ⟨rfl, hindex⟩ := Place.mk.inj hplace
    obtain rfl := Option.some.inj (htree.symm.trans hstands.present)
    obtain rfl := Tree.focus_eq hnode hstands.focus hindex
    exact ⟨_, hstands⟩
  · rw [if_pos hkind] at hlocate
    cases hlocate

theorem symbolByKey?_of_symbol? (hkeys : c.table.KeysNodup) (symbol : Symbol)
    (h : c.symbol? symbol.id = some symbol) : c.symbolByKey? symbol.key = some symbol := by
  rw [symbolByKey?, Symbol.key, hkeys.find? (data?_of_symbol? h), Option.bind_some]
  exact h

/-- The key of a symbol leads back to it. -/
theorem IsBuilt.symbolByKey?_eq (h : c.IsBuilt) (hparsed : AllParsed c.documents) {symbol : Symbol}
    (hsymbol : c.symbol? symbol.id = some symbol) : c.symbolByKey? symbol.key = some symbol := by
  have hlinked := SymbolTable.linked_build hparsed.conforms
  rw [← h.table] at hlinked
  exact symbolByKey?_of_symbol? hlinked.keys _ hsymbol

theorem resolve?_of_symbol? {symbol : Symbol} (h : c.symbol? symbol.id = some symbol) :
    c.resolve? symbol = some symbol := by
  obtain ⟨data, _, heq⟩ := Option.map_eq_some_iff.mp h
  exact if_pos (by rw [← heq])

/-- The key of a target leads back to it. -/
theorem IsBuilt.relocate_eq (h : c.IsBuilt) (hparsed : AllParsed c.documents)
    (hstands : t.Stands c tree f) : c.relocate t.stable = .ok t := by
  obtain ⟨name, _, _, hdeclarations⟩ := hstands.named
  have hnode : tree.node? ⟨tree.id, f.node.index⟩ = some f := Tree.node?_nodeId hstands.focus
  have htarget : t = ⟨t.role, t.document, tree.nodeId f.node, f.node.span, t.symbol⟩ := by
    rw [← hstands.node, ← hstands.span]
  have hpresent : c.tree? t.stable.document = some tree := hstands.present
  have hfound : c.symbolByKey? t.stable.key = some t.symbol :=
    h.symbolByKey?_eq hparsed hstands.symbol
  rw [relocate, hpresent, hfound]
  simp only [hdeclarations, List.head?_cons, Option.bind_eq_bind, Option.bind_some, hstands.present,
    hnode]
  exact congrArg Except.ok htarget.symm

def nodeOf? (c : Compilation) (t : Target) : Option PlacedNode :=
  ((c.tree? t.document).bind (·.node? t.node)).map (·.node)

theorem nodeOf?_eq (hpresent : c.tree? t.document = some tree) (hf : f ∈ tree.nodes)
    (hnode : t.node = tree.nodeId f.node) : c.nodeOf? t = some f.node := by
  rw [nodeOf?, hpresent, Option.bind_some, hnode, Tree.node?_nodeId hf]
  rfl

/-- A declaration is found by the key of what it declares. -/
theorem IsBuilt.relocate_of_declared? (h : c.IsBuilt) (hkeys : c.table.KeysNodup)
    {document : DocumentId} (hpresent : c.tree? document = some tree) (hf : f ∈ tree.nodes)
    {id : SymbolId} {data : SymbolData}
    (hdata : (SymbolTable.declareDocuments c.documents).data? id = some data)
    (hsingle : data.kind.isSingle) (hkind : data.kind ≠ .localVariable)
    (hdeclared : (SymbolTable.declareDocuments c.documents).declared? ⟨document, f.node.index⟩ =
      some id) {stable : TargetKey} (hkey : stable.key = data.key)
    (hdocument : stable.document = document) :
    ∃ t, c.relocate stable = .ok t ∧ c.nodeOf? t = some f.node := by
  have hsound := (SymbolTable.extends_declareDocuments c.documents).sound
  obtain ⟨data', hdata', hplaces, _⟩ :=
    hsound.declared _ _ (SymbolTable.mem_declared_of_declared? hdeclared)
  obtain rfl := Option.some.inj (hdata.symm.trans hdata')
  obtain ⟨d, hd, hplace⟩ := hplaces hsingle
  obtain ⟨d', hdeclarations, _⟩ := hsound.single id data hdata hsingle
  obtain rfl : d = d' := List.mem_singleton.mp (hdeclarations ▸ hd)
  have hsymbol : c.symbol? id = some ⟨c.id, id, data⟩ := by
    rw [symbol?, h.table, (SymbolTable.data?_build_iff hkind).mpr hdata]
    rfl
  have hfound : c.symbolByKey? stable.key = some ⟨c.id, id, data⟩ :=
    hkey ▸ symbolByKey?_of_symbol? hkeys ⟨c.id, id, data⟩ hsymbol
  have hnode : tree.node? ⟨tree.id, f.node.index⟩ = some f := Tree.node?_nodeId hf
  refine ⟨⟨stable.role, document, tree.nodeId f.node, f.node.span, ⟨c.id, id, data⟩⟩, ?_,
    nodeOf?_eq hpresent hf rfl⟩
  rw [relocate, hdocument, hpresent, hfound]
  simp only [hdeclarations, List.head?_cons, Option.bind_eq_bind, Option.bind_some, hplace,
    hpresent, hnode]
  rfl

/-- A target stands in the same document again where the project declares the same symbols. -/
theorem IsBuilt.exists_counterpart (h : c.IsBuilt) (hstands : t.Stands c tree f) {c' : Compilation}
    (h' : c'.IsBuilt) (hparsed' : AllParsed c'.documents)
    (hcounterparts : SymbolTable.Counterparts True (SymbolTable.declareDocuments c.documents)
      (SymbolTable.declareDocuments c'.documents)) :
    ∃ t' : Target, t'.stable = t.stable ∧ ∃ tree' f', t'.Stands c' tree' f' := by
  have hdata := data?_of_symbol? hstands.symbol
  have hkind : t.symbol.data.kind = t.role.symbolKind := hstands.kind
  rw [h.table] at hdata
  obtain ⟨data', hdata', hcounterpart⟩ :=
    hcounterparts.exists_build hdata (hkind ▸ t.role.ne_localVariable)
  rw [← h'.table] at hdata'
  let symbol' : Symbol := ⟨c'.id, t.symbol.id, data'⟩
  have hsymbol' : c'.symbol? symbol'.id = some symbol' := by
    rw [symbol?, hdata']
    rfl
  have hkind' : symbol'.kind = t.role.symbolKind := hcounterpart.kind.trans hkind
  obtain ⟨document, tree', f', hstands'⟩ := h'.exists_stands hparsed' hsymbol' hkind'
  have hkey := (hcounterpart.same (.inl trivial)).1
  refine ⟨_, ?_, tree', f', hstands'⟩
  obtain ⟨_, _, _, hdeclarations⟩ := hstands.named
  obtain ⟨_, _, _, hdeclarations'⟩ := hstands'.named
  have hplaces := hcounterpart.places
  rw [hdeclarations, show data'.declarations = _ from hdeclarations'] at hplaces
  have hplace : Place.mk document f'.node.index = ⟨t.document, f.node.index⟩ := by
    simpa using hplaces
  rw [Target.stable, Target.stable, (Place.mk.inj hplace).1]
  exact congrArg (TargetKey.mk t.role t.document) hkey

/-- A target with the same key is the same symbol, declared by the same node. -/
theorem IsBuilt.eq_of_stable (h : c.IsBuilt) (hstands : t.Stands c tree f) {c' : Compilation}
    (h' : c'.IsBuilt) (hparsed' : AllParsed c'.documents)
    (hcounterparts : SymbolTable.Counterparts True (SymbolTable.declareDocuments c.documents)
      (SymbolTable.declareDocuments c'.documents)) {t' : Target} {tree' : Tree} {f' : Focus}
    (hstands' : t'.Stands c' tree' f') (hstable : t'.stable = t.stable) :
    t'.symbol.id = t.symbol.id ∧ f'.node.index = f.node.index := by
  have hdata := data?_of_symbol? hstands.symbol
  have hkind : t.symbol.data.kind = t.role.symbolKind := hstands.kind
  rw [h.table] at hdata
  obtain ⟨data', hdata', hcounterpart⟩ :=
    hcounterparts.exists_build hdata (hkind ▸ t.role.ne_localVariable)
  have hfound := data?_of_symbol? hstands'.symbol
  rw [h'.table] at hfound
  have hkey : t'.symbol.data.key = data'.key :=
    (congrArg TargetKey.key hstable).trans (hcounterpart.same (.inl trivial)).1.symm
  have hid : t'.symbol.id = t.symbol.id := by
    have hkeys := (SymbolTable.linked_build hparsed'.conforms).keys
    have hfind := hkeys.find? hfound
    rw [hkey] at hfind
    exact Option.some.inj (hfind.symm.trans (hkeys.find? hdata'))
  rw [hid] at hfound
  obtain rfl := Option.some.inj (hdata'.symm.trans hfound)
  obtain ⟨_, _, _, hdeclarations⟩ := hstands.named
  obtain ⟨_, _, _, hdeclarations'⟩ := hstands'.named
  have hplaces := hcounterpart.places
  rw [hdeclarations, hdeclarations'] at hplaces
  have hplace : Place.mk t'.document f'.node.index = ⟨t.document, f.node.index⟩ := by
    simpa using hplaces
  exact ⟨hid, (Place.mk.inj hplace).2⟩

end Compilation

end AutoProperty
