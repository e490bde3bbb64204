import AutoProperty.Proofs.Symbol.Filing
import AutoProperty.Proofs.Symbol.Parameters
import AutoProperty.Proofs.Symbol.Rebinding

/-! # What holds locals

The locals of a member go by keys in that of the member, or in that of the type around it if the
member declares nothing. A member with a name declares something wherever the type around it
does.
-/

namespace AutoProperty

/-- A member in a type stands right in it: there are no namespaces in types. -/
theorem Tree.above_eq_of_find? {tree : Tree} (hconforms : tree.root.element.Conforms) {f : Focus}
    (hf : f ∈ tree.nodes) (habove : AreScopes f.above) {type : PlacedNode}
    (hfind : f.above.find? (fun n => n.kind == .classDeclaration || n.kind == .structDeclaration) =
      some type) :
    (type.kind = .classDeclaration ∨ type.kind = .structDeclaration) ∧ ∃ outer,
      f.above = type :: outer := by
  obtain ⟨htype, before, outer, hsplit, hbefore⟩ := List.find?_eq_some_iff_append.mp hfind
  have htype : type.kind = .classDeclaration ∨ type.kind = .structDeclaration := by
    simpa using htype
  refine ⟨htype, outer, ?_⟩
  rcases List.eq_nil_or_concat' before with rfl | ⟨before, n, rfl⟩
  · exact hsplit
  exfalso
  have hn : ⟨n, type :: outer⟩ ∈ tree.nodes :=
    mem_nodes_of_above hf (hsplit.trans (List.append_assoc ..))
  have hscope : n.kind.isScope := by
    refine habove.2 n ?_
    rw [hsplit, List.dropLast_append_of_ne_nil (List.cons_ne_nil _ _)]
    exact List.mem_append_left _ (List.mem_append_right _ (List.mem_singleton_self n))
  have hnot := hbefore n (List.mem_append_right _ (List.mem_singleton_self n))
  obtain ⟨hfit, hmem, htoken⟩ := childrenFit_of_mem hconforms hn
  have hfit : ChildrenFit .classDeclaration (type.children.map Placed.kind) := by
    obtain htype | htype := htype <;> rw [htype] at hfit <;> exact hfit
  obtain ⟨modifiers, keyword, members, ends, hmodifiers, hkeyword, hmembers, hends, hkinds⟩ := hfit
  rw [hkinds] at hmem
  simp only [List.mem_append, List.mem_cons, List.not_mem_nil, or_false] at hmem
  have hmember : n.kind.isTypeMember := by
    obtain ((hmem | hmem | hmem | hmem) | hmem) | hmem | hmem := hmem
    · exact absurd (Kind.isToken_of_isModifier (hmodifiers _ hmem)) htoken
    · obtain rfl | rfl := hkeyword <;> exact absurd (by rw [hmem]; rfl) htoken
    · exact absurd (by rw [hmem]; rfl) htoken
    · exact absurd (by rw [hmem]; rfl) htoken
    · exact hmembers _ hmem
    · exact absurd (by rw [hmem]; rfl) htoken
    · obtain rfl | rfl := hends
      · exact absurd hmem List.not_mem_nil
      · exact absurd (by rw [List.mem_singleton.mp hmem]; rfl) htoken
  cases hkind : n.kind <;> rw [hkind] at hscope hmember hnot <;>
    first
      | exact absurd hscope Bool.false_ne_true | exact absurd hmember Bool.false_ne_true
      | exact absurd hnot (by decide)

namespace SymbolTable

variable {documents : List (DocumentId × Tree)} {document : DocumentId} {tree : Tree} {f : Focus}
  {text : String}

section Members

variable (hnodup : (documents.map (·.1)).Nodup) (hdocument : (document, tree) ∈ documents)
  (ht : tree.root = (parse text).root) (hf : f ∈ tree.nodes) (hparts : f.node.kind.hasParts)
  (hfield : f.node.kind ≠ .fieldDeclaration)
include hnodup hdocument ht hf hparts hfield

/-- Where a member declares nothing, the type around it does neither. -/
theorem typeAround?_eq_none
    (hnone : (declareDocuments documents).declared? ⟨document, f.node.index⟩ = none) :
    (declareDocuments documents).typeAround? document f.above = none := by
  have hconforms : tree.root.element.Conforms := ht ▸ conforms_parse text
  have hscopes (k : Focus) (hk : k ∈ tree.nodes) (hkind : k.node.kind.isScope ∨
      k.node.kind.hasParts) : AreScopes k.above :=
    Tree.areScopes hconforms (congrArg Node.kind ht) hk hkind
  rw [typeAround?, Option.bind_eq_none_iff]
  intro type hfind
  obtain ⟨htype, outer, habove⟩ :=
    Tree.above_eq_of_find? hconforms hf (hscopes f hf (.inr hparts)) hfind
  obtain ⟨n, above⟩ := f
  obtain rfl : above = type :: outer := habove
  cases hid : (declareDocuments documents).declared? ⟨document, type.index⟩ with
  | none => rfl
  | some id =>
    have hname := Tree.isSome_name? ht hf hparts hfield
    have hholds : Focus.Holds ⟨type, outer⟩ n := by
      refine ⟨htype, n, Tree.mem_childNodes_of_mem hf, hname, ?_⟩
      by_cases hkind : n.kind = .propertyDeclaration
      · exact .inl ⟨rfl, hkind⟩
      · refine .inr ⟨?_, hname, .inl rfl⟩
        revert hparts hfield hkind
        cases n.kind <;> decide
    have hmem : ⟨type, outer⟩ ∈ tree.nodes := Tree.mem_nodes_of_above_cons hf rfl
    obtain ⟨e, he, heq⟩ :=
      List.mem_map.mp
        (notes_declareDocuments hnodup hdocument (fun k hk hscope => hscopes k hk (.inl hscope))
          hmem hholds
      (List.mem_map_of_mem (f := Prod.fst) (mem_declared_of_declared? hid)))
    exact absurd heq.symm (bne_iff_ne.mp (List.lookup_eq_none_iff.mp hnone e he))

/-- What holds the locals of a member is not a certain property, unless the member declares it. -/
theorem path_ne_of_holder? {id : SymbolId} {property : SymbolData}
    (hproperty : (declareDocuments documents).data? id = some property)
    (hkind : property.kind = .property) (hwords : ∀ d ∈ documents, d.2.HasWords)
    (hother : (declareDocuments documents).declared? ⟨document, f.node.index⟩ ≠ some id)
    {outer? : Option Key}
    (houter : (declareDocuments documents).HasKey? ((declareDocuments documents).holder? document f)
      outer?) : ∀ outer ∈ outer?, outer.path ≠ property.key.path := by
  have hsound := (extends_declareDocuments documents).sound
  have hfiled := hasFiledMembers_declareDocuments documents
  rw [holder?] at houter
  cases hdeclared : (declareDocuments documents).declared? ⟨document, f.node.index⟩ with
  | none =>
    rw [hdeclared, typeAround?_eq_none hnodup hdocument ht hf hparts hfield hdeclared] at houter
    cases houter
    exact fun _ houter => absurd houter (Option.not_mem_none _)
  | some holder =>
    rw [hdeclared] at houter hother
    rintro outer rfl hpath
    obtain ⟨data, hdata, rfl⟩ : (declareDocuments documents).Keyed holder outer := by
      cases houter with
      | some hkeyed => exact hkeyed
    obtain ⟨data', hdata', ⟨hdeclares, _⟩ | ⟨_, hscope⟩⟩ :=
      hsound.exists_declares hnodup hdocument hf (mem_declared_of_declared? hdeclared)
    swap
    · exact Kind.not_hasParts_of_isScope hscope hparts
    obtain rfl := Option.some.inj (hdata.symm.trans hdata')
    obtain hsame | hsame : data.kind = .property ∨ data.kind = .method := by
      have hnot {kind : Kind} (heq : f.node.kind = kind) (hkind : kind.hasParts = false) : False :=
        Bool.false_ne_true (hkind.symm.trans (heq ▸ hparts))
      cases hk : data.kind <;> rw [hk] at hdeclares <;> first
        | exact hdeclares.elim | exact .inl rfl | exact .inr rfl | skip
      case field => exact (hnot hdeclares.1 rfl).elim
      case parameter => exact (hnot (show f.node.kind = .parameter from hdeclares) rfl).elim
      case localVariable => exact (hnot hdeclares.1 rfl).elim
    · -- The member is the very property.
      have hkey : data.key = property.key :=
        Key.eq_of_parts (by rw [hsound.kinds _ _ hdata, hsound.kinds _ _ hproperty, hsame, hkind])
          hpath
      exact hother
        (congrArg
          some (hsound.keys.eq_of_keyed ⟨data, hdata, rfl⟩ ⟨property, hproperty, hkey.symm⟩))
    · exact (hfiled holder data hdata (by rw [hsame]; rfl)).path_ne
        (hfiled id property hproperty (by rw [hkind]; rfl)) hsame hkind
        (hsound.isWord_memberName hwords hproperty (.inr hkind)) hpath

end Members

end SymbolTable

end AutoProperty
