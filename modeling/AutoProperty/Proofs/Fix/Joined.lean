import AutoProperty.Proofs.Fix.Midway

/-! # What the fix joins

A field and a property can be joined where both are of one type, are written with one type, and
no other member goes by the name of either. The fix takes the field out and the bodies of the
property, and may move the initial value of the field. Names that mean the field elsewhere are
not taken out.
-/

namespace AutoProperty

theorem Target.Stands.nodeOf? {c : Compilation} {t : Target} {tree : Tree} {f : Focus}
    (h : t.Stands c tree f) : c.nodeOf? t = some f.node :=
  Compilation.nodeOf?_eq h.present h.focus h.node

/-- In a declaration that goes away with its only declarator, names in expressions stand in the
declarator. -/
theorem Focus.GoesWith.isIn {tree : Tree} {f m : Focus} (h : f.GoesWith m)
    (hconforms : tree.root.element.Conforms) (hf : f ∈ tree.nodes) (hm : m ∈ tree.nodes)
    {k : TokenFocus} (hk : k ∈ tree.tokens) (hname : k.isExpressionName) (hin : k.isIn m.node) :
    k.isIn f.node := by
  obtain rfl | ⟨declaration, habove, _, hwhole, honly⟩ := h
  · exact hin
  obtain ⟨inner, hinner⟩ := Tree.exists_inner_token hm hk ((Tree.isIn_iff_mem_above hm hk).mp hin)
  obtain ⟨rest, e, d, v, rfl, _, hdeclarator, _⟩ :=
    Tree.exists_value_above hconforms hk hname hinner hwhole
  have hsplit : k.above = (rest ++ [e]) ++ d :: v :: m.ancestors := by
    rw [hinner, List.append_assoc, List.append_assoc]; rfl
  have hd := Tree.mem_nodes_of_above_token hk hsplit
  have hv := Tree.mem_nodes_of_above_cons hd rfl
  -- The list of declarators is that of the field, and there is only one in it.
  obtain rfl : v = declaration :=
    Tree.eq_of_fieldDeclaration hconforms hwhole hv (Tree.mem_nodes_of_above_cons hf habove)
  have hmem : d ∈ v.childrenOf .variableDeclarator :=
    List.mem_filter.mpr ⟨Tree.mem_childNodes_of_mem hd, beq_iff_eq.mpr hdeclarator⟩
  rw [honly, List.mem_singleton] at hmem
  rw [Tree.isIn_iff_mem_above hf hk, hsplit, ← hmem]
  exact List.mem_append_right _ List.mem_cons_self

namespace Pair

/-- The field and the property are members of one type and are written with one type. No other
member of the type has the name of either. -/
structure Joins (pair : Pair) (type : Symbol) : Prop where
  fieldType : (pair.compilation.containingType? pair.field.symbol).any (·.same type)
  propertyType : (pair.compilation.containingType? pair.property.symbol).any (·.same type)
  typeName? : pair.property.symbol.data.typeName? = pair.field.symbol.data.typeName?
  names : pair.field.symbol.name ≠ pair.property.symbol.name
  only : ∀ other ∈ pair.compilation.members type, other.name = pair.field.symbol.name ∨
    other.name = pair.property.symbol.name →
    other.same pair.field.symbol ∨ other.same pair.property.symbol

instance (pair : Pair) (type : Symbol) : Decidable (pair.Joins type) :=
  decidable_of_iff ((pair.compilation.containingType? pair.field.symbol).any (·.same type) ∧
      (pair.compilation.containingType? pair.property.symbol).any (·.same type) ∧
      pair.property.symbol.data.typeName? = pair.field.symbol.data.typeName? ∧
      pair.field.symbol.name ≠ pair.property.symbol.name ∧
      ∀ other ∈ pair.compilation.members type, other.name = pair.field.symbol.name ∨
      other.name = pair.property.symbol.name →
        other.same pair.field.symbol ∨ other.same pair.property.symbol)
    ⟨fun ⟨hfield, hproperty, htypeName, hnames, honly⟩ => ⟨hfield, hproperty, htypeName, hnames,
      honly⟩, fun h => ⟨h.fieldType, h.propertyType, h.typeName?, h.names, h.only⟩⟩

/-- What goes away with the field. -/
def removed? (pair : Pair) : Option PlacedNode := do
  let tree ← pair.compilation.tree? pair.field.document
  let removal ← (FieldRemoval.plan tree pair.field).toOption
  let focus ← tree.node? removal.target
  return focus.node

/-- What the fix takes out of a document. -/
def takenOut (pair : Pair) (document : DocumentId) : List PlacedNode :=
  Cut.gone {
    removed? := if document = pair.field.document then pair.removed? else none
    property? :=
      if document = pair.property.document then pair.compilation.nodeOf? pair.property else none }

/-- The initial value that the property is given, if it has none. -/
def movedInto (pair : Pair) (c : Compilation) (document : DocumentId) : List PlacedNode :=
  if document = pair.property.document ∧ (pair.compilation.nodeOf? pair.property).any fun n =>
    (n.child? .equalsValueClause).isNone then
    ((c.relocate pair.property.stable).toOption.bind c.nodeOf?).toList.flatMap
      (·.childrenOf .equalsValueClause)
  else
    []

/-- The name means the field. -/
def MeansField (pair : Pair) (document : DocumentId) (k : TokenFocus) : Prop :=
  ∃ symbol ∈ pair.compilation.boundAt document k.leaf.index, symbol.same pair.field.symbol

/-- The name stands neither in the declarator of the field nor in a body of the property. -/
def Spares (pair : Pair) (document : DocumentId) (k : TokenFocus) : Prop :=
  (document = pair.field.document → ∀ declarator ∈ pair.compilation.nodeOf? pair.field,
    ¬k.isIn declarator) ∧
    (document = pair.property.document → ∀ property ∈ pair.compilation.nodeOf? pair.property,
      ∀ body ∈ property.bodies, ¬k.isIn body)

namespace Sites

variable {pair : Pair} {fieldTree propertyTree : Tree} {f g m : Focus}
  (h : pair.Sites fieldTree propertyTree f g m)
include h

/-- What is taken out of a document is what the cut says is gone. -/
theorem takenOut_eq (document : DocumentId) :
    pair.takenOut document = (pair.cut m.node g.node document).gone := by
  have hremoved : pair.removed? = some m.node := by
    rw [removed?, h.field.present, Option.bind_eq_bind, Option.bind_some, h.plan]
    show (fieldTree.node? (fieldTree.nodeId m.node)).bind _ = _
    rw [Tree.node?_nodeId h.mem]
    rfl
  rw [takenOut, hremoved, h.property.nodeOf?]
  rfl

/-- What is left does not stand in the declarator. -/
theorem notMem_of_outside {k : TokenFocus}
    (hk : k ∈ fieldTree.namesOutside (pair.takenOut pair.field.document)) :
    k.leaf ∉ f.node.tokens := by
  intro hin
  obtain ⟨hk, hout⟩ := List.mem_filter.mp hk
  have hwhole : k.leaf ∈ m.node.tokens :=
    Placed.tokens_of_mem_nodes
      ((Tree.mem_descendants_iff h.mem h.field.focus).mpr h.goes.mem_ancestors) hin
  rw [Bool.and_eq_true, Bool.not_eq_true', List.any_eq_false, h.takenOut_eq] at hout
  exact hout.2 m.node (Cut.mem_gone.mpr (.inl (cut_removed?.mpr ⟨rfl, rfl⟩)))
    ((Tree.isIn_token_iff h.mem hk).mpr hwhole)

end Sites

namespace Stands

variable {pair : Pair} {p : Project} (h : pair.Stands p) (hs : pair.solution.WellFormed)
  (hparsed : AllParsed (pair.solution.trees p))
include h

/-- In a built compilation, a name means the field where it is bound to it. -/
theorem meansField_iff {document : DocumentId} {k : TokenFocus} :
    pair.MeansField document k ↔
      pair.field.symbol.id ∈ (SymbolTable.build (pair.solution.trees p)).bound
        ⟨document, k.leaf.index⟩ := by
  obtain ⟨_, _, hfield⟩ := h.field
  rw [MeansField, Compilation.boundAt, h.compilation.table]
  constructor
  · rintro ⟨symbol, hsymbol, hsame⟩
    obtain ⟨id, hid, hsome⟩ := List.mem_filterMap.mp hsymbol
    obtain ⟨data, _, rfl⟩ := Option.map_eq_some_iff.mp hsome
    exact eq_of_beq (Bool.and_eq_true_iff.mp hsame).2 ▸ hid
  · intro hid
    exact ⟨_, List.mem_filterMap.mpr ⟨_, hid, hfield.symbol⟩, by simp [Symbol.same]⟩

/-- The type around a member is what contains it. -/
theorem container?_eq {t : Target} {tree : Tree} {f : Focus} (ht : t.Stands pair.compilation tree f)
    (hmember : t.symbol.data.kind.isMember) {type : Symbol}
    (htype : (pair.compilation.containingType? t.symbol).any (·.same type)) :
    type.compilation = pair.compilation.id ∧ t.symbol.data.container? = some type.id ∧
      pair.compilation.table.isType type.id := by
  obtain ⟨found, hfound, hsame⟩ := (Option.any_eq_true ..).mp htype
  obtain ⟨id, hid, hsymbol⟩ := Option.bind_eq_some_iff.mp hfound
  obtain ⟨_, _, rfl⟩ := Option.map_eq_some_iff.mp hsymbol
  obtain ⟨hcompilation, hsame⟩ := Bool.and_eq_true_iff.mp hsame
  obtain rfl : id = type.id := eq_of_beq hsame
  obtain ⟨container, outer, _, hcontainer, houter, hkind, _⟩ :=
    SymbolTable.hasFiledMembers_declareDocuments (pair.solution.trees p) _ _
      (h.data?_declareDocuments ht) hmember
  have houter := (SymbolTable.data?_build_iff (by rw [hkind]; decide)).mpr houter
  rw [h.compilation.table, SymbolTable.containingType?, hcontainer] at hid
  rw [h.compilation.table]
  have hlt : 0 < (SymbolTable.build (pair.solution.trees p)).symbols.length :=
    Nat.zero_lt_of_lt (List.getElem?_eq_some_iff.mp houter).1
  obtain ⟨steps, hsteps⟩ := Nat.exists_eq_succ_of_ne_zero hlt.ne'
  have hisType : (SymbolTable.build (pair.solution.trees p)).isType container := by
    rw [SymbolTable.isType, SymbolTable.kind?, houter, Option.map_some, hkind]
    rfl
  rw [SymbolTable.outward, hsteps, SymbolTable.outwardFrom, houter, List.find?_cons_of_pos hisType]
    at hid
  obtain rfl := Option.some.inj hid
  exact ⟨(eq_of_beq hcompilation).symm, hcontainer, hisType⟩

/-- Where the field and the property can be joined, no other member of their type has the name
of either. -/
theorem joint {type : Symbol} (hjoins : pair.Joins type) :
    (SymbolTable.declareDocuments (pair.solution.trees p)).Joint type.id pair.field.symbol.id
      pair.property.symbol.id pair.field.symbol.data pair.property.symbol.data := by
  obtain ⟨_, _, hfield⟩ := h.field
  obtain ⟨_, _, hproperty⟩ := h.property
  have hdata := h.data?_declareDocuments hfield
  have hdata' := h.data?_declareDocuments hproperty
  have hkind : pair.field.symbol.data.kind = .field :=
    hfield.kind.trans (congrArg Role.symbolKind h.roles.1)
  have hkind' : pair.property.symbol.data.kind = .property :=
    hproperty.kind.trans (congrArg Role.symbolKind h.roles.2)
  obtain ⟨hcompilation, hcontainer, hisType⟩ :=
    h.container?_eq hfield (by rw [hkind]; rfl) hjoins.fieldType
  obtain ⟨_, hcontainer', _⟩ := h.container?_eq hproperty (by rw [hkind']; rfl) hjoins.propertyType
  -- A member in the table is one of those of the type.
  have honly {name : String} {other : SymbolId} (hname : name = pair.field.symbol.name ∨
      name = pair.property.symbol.name)
      (hother : (SymbolTable.declareDocuments (pair.solution.trees p)).HasMember type.id name
        other) :
      other = pair.field.symbol.id ∧ name = pair.field.symbol.name ∨
      other = pair.property.symbol.id ∧ name = pair.property.symbol.name := by
    obtain ⟨data, hother, hin, rfl, hmember⟩ := hother
    have hbuilt : pair.compilation.table.data? other = some data := by
      rw [h.compilation.table]
      exact (SymbolTable.data?_build_iff
        (by rintro heq; rw [heq] at hmember; simp [SymbolKind.isMember] at hmember)).mpr hother
    have hmem : (⟨pair.compilation.id, other, data⟩ : Symbol) ∈ pair.compilation.members type := by
      rw [Compilation.members, if_pos hcompilation]
      refine List.mem_filterMap.mpr ⟨other, ?_, by rw [Compilation.symbol?, hbuilt]; rfl⟩
      have hlt := SymbolTable.isLayered_declareDocuments _ other data hother type.id hin
      exact SymbolTable.mem_members.mpr
        ⟨hisType, hlt, data, hbuilt, hin, SymbolData.isListed_iff.mpr hmember⟩
    obtain hsame | hsame := hjoins.only _ hmem hname
    · obtain rfl : other = pair.field.symbol.id := eq_of_beq (Bool.and_eq_true_iff.mp hsame).2
      obtain rfl := Option.some.inj (hother.symm.trans hdata)
      exact .inl ⟨rfl, rfl⟩
    · obtain rfl : other = pair.property.symbol.id := eq_of_beq (Bool.and_eq_true_iff.mp hsame).2
      obtain rfl := Option.some.inj (hother.symm.trans hdata')
      exact .inr ⟨rfl, rfl⟩
  exact {
    isField := hdata
    isProperty := hdata'
    kinds := ⟨hkind, hkind'⟩
    containers := ⟨hcontainer, hcontainer'⟩
    typeName? := hjoins.typeName?
    names := hjoins.names
    onlyField := fun hother => (honly (.inl rfl) hother).elim (·.1) fun h => absurd h.2 hjoins.names
    onlyProperty := fun hother => (honly (.inr rfl) hother).elim (fun h => absurd h.2.symm
      hjoins.names) (·.1) }

include hs hparsed in
/-- A name that means the field is not taken out, unless it stands in the declarator or in a
body of the property. -/
theorem mem_namesOutside {type : SymbolId}
    (hjoint : (SymbolTable.declareDocuments (pair.solution.trees p)).Joint type pair.field.symbol.id
      pair.property.symbol.id pair.field.symbol.data pair.property.symbol.data)
    {document : DocumentId} {tree : Tree} (htree : (document, tree) ∈ pair.solution.trees p)
    {k : TokenFocus} (hk : k ∈ tree.tokens) (hmeans : pair.MeansField document k)
    (hspares : pair.Spares document k) : k ∈ tree.namesOutside (pair.takenOut document) := by
  obtain ⟨_, _, f, g, m, hsites⟩ := h.exists_sites
  obtain ⟨hname, _⟩ := h.reads_of_bound hs hparsed hjoint htree hk (h.meansField_iff.mp hmeans)
  have hkind : k.leaf.kind == .identifierToken := (Bool.and_eq_true_iff.mp hname).1
  have hpresent := h.tree?_of_mem hs htree
  rw [hsites.takenOut_eq, Tree.namesOutside, List.mem_filter, hkind, Bool.true_and,
    Bool.not_eq_true', List.any_eq_false]
  refine ⟨hk, fun n hn => ?_⟩
  obtain hn | ⟨property, hn, hbody⟩ := Cut.mem_gone.mp hn
  · obtain ⟨rfl, rfl⟩ := cut_removed?.mp hn
    obtain rfl := Option.some.inj (hpresent.symm.trans hsites.field.present)
    exact fun hin => hspares.1 rfl f.node hsites.field.nodeOf?
      (hsites.goes.isIn (hparsed.conforms _ htree) hsites.field.focus hsites.mem hk hname hin)
  · obtain ⟨rfl, rfl⟩ := cut_property?.mp hn
    exact hspares.2 rfl g.node hsites.property.nodeOf? n hbody

end Stands

end Pair

end AutoProperty
