import AutoProperty.Proofs.Symbol.SecondPass

/-! # What is bound

The second pass keeps the table sound. It binds names in expressions, and apart from them only
the names of types, which mean types.
-/

namespace AutoProperty

namespace SymbolTable

variable {documents : List (DocumentId × Tree)} {t u : SymbolTable}

/-! ## Types -/

/-- A written type means what has the key of a type, or is one. -/
theorem exists_data_of_resolveType? {text : String} {from? : Option SymbolId} {id : SymbolId}
    (h : t.resolveType? text from? = some id) :
    ∃ data, t.data? id = some data ∧ (data.key.kind = .namedType ∨ data.kind = .namedType) := by
  have hkeyed {key : Key} (hkey : key.kind = .namedType) (hfind : t.find? key = some id) :
      ∃ data, t.data? id = some data ∧ (data.key.kind = .namedType ∨ data.kind = .namedType) := by
    rcases find?_some hfind with ⟨data, hdata, rfl⟩
    exact ⟨data, hdata, .inl hkey⟩
  rw [resolveType?] at h
  dsimp only at h
  split at h
  next => cases h
  next =>
    simp only [Option.orElse_eq_orElse, Option.orElse_eq_or, Option.or_eq_some_iff] at h
    rcases h with hwithin | ⟨_, hglobal | ⟨_, hnamed⟩⟩
    · rcases List.exists_of_findSome?_eq_some hwithin with ⟨scope, _, hfind⟩
      exact hkeyed (t.kind_childKey ..) hfind
    · exact hkeyed rfl hglobal
    · split at hnamed
      next heq =>
        cases hnamed
        rcases mem_typesNamed.mp (heq ▸ List.mem_singleton_self _) with ⟨data, hdata, hkind, _⟩
        exact ⟨data, hdata, .inr hkind⟩
      next => cases hnamed

/-- A written type means a type. -/
theorem Sound.isType_of_resolveType? (h : Sound documents t) {text : String}
    {from? : Option SymbolId} {id : SymbolId} (hresolve : t.resolveType? text from? = some id) :
    t.isType id := by
  rcases exists_data_of_resolveType? hresolve with ⟨data, hdata, hkind⟩
  rw [h.kinds id data hdata, or_self] at hkind
  simp [isType, kind?, hdata, hkind]

/-! ## Bindings -/

/-- A name stands at the place, and it is a name in an expression, or means types only. -/
def BoundAt (documents : List (DocumentId × Tree)) (t : SymbolTable) (place : Place)
    (ids : List SymbolId) : Prop :=
  ∃ tree, (place.document, tree) ∈ documents ∧ ∃ f ∈ tree.tokens, f.leaf.index = place.index ∧
    f.leaf.text ≠ "" ∧ (f.isExpressionName ∨ ∀ id ∈ ids, t.isType id)

/-- What holds of every table while names are bound. -/
structure Linked (documents : List (DocumentId × Tree)) (t : SymbolTable) :
    Prop extends Sound documents t where
  bound : ∀ place ids, (place, ids) ∈ t.bindings → BoundAt documents t place ids

theorem Sound.bind (h : Sound documents t) (place : Place) (ids : List SymbolId) :
    Sound documents (t.bind place ids) := by
  rw [SymbolTable.bind]
  split
  next => exact h
  next => exact ⟨h.named, h.keys, h.kinds, h.paths, h.titled, h.single, h.declared⟩

/-- A table stays linked if the new name is bound to symbols that it may mean. -/
theorem Linked.bind (h : Linked documents t) {place : Place} {ids : List SymbolId}
    (hbound : BoundAt documents t place ids) : Linked documents (t.bind place ids) := by
  refine ⟨h.toSound.bind place ids, ?_⟩
  rw [SymbolTable.bind]
  split
  next => exact h.bound
  next =>
    intro place' ids' hmem
    obtain heq | hmem := List.mem_cons.mp hmem
    · obtain ⟨rfl, rfl⟩ := Prod.mk.inj heq
      exact hbound
    · exact h.bound place' ids' hmem

theorem Linked.grows (h : Linked documents t) (hu : Sound documents u) (hgrows : Grows t u)
    (hbindings : u.bindings = t.bindings) : Linked documents u := by
  refine ⟨hu, fun place ids hmem => ?_⟩
  obtain ⟨tree, htree, f, hf, hindex, htext, hname⟩ := h.bound place ids (hbindings ▸ hmem)
  exact ⟨tree, htree, f, hf, hindex, htext,
    hname.imp_right fun htypes id hid => hgrows.isType (htypes id hid)⟩

end SymbolTable

/-! ## Bodies -/

namespace Binding

open SymbolTable

variable {documents : List (DocumentId × Tree)} {tree : Tree} {ctx : BodyContext}

/-- Binding in a document of the project keeps its table linked. -/
theorem lockstep_linked (hdocument : (ctx.document, tree) ∈ documents) :
    Lockstep Eq Eq tree ctx ctx (fun _ _ => True) (fun _ _ _ => True)
      (fun _ s _ => Linked documents s.table) where
  keeps := keepsTokens_eq
  earlier _ _ _ := trivial
  skip h _ := h
  enter h := h
  leave h := h
  type {n _ above _} hsited _ _ _ _ := by
    intro s _ (h : Linked documents s.table) _
    show Linked documents (type ctx n s).2.table
    rw [type_run]
    split
    next name token hfound =>
      obtain ⟨hleaf, _, htext⟩ := typeName?_mem hfound
      rw [← Placed.leaf_tokenFoci above n.placed] at hleaf
      obtain ⟨f, hf, rfl⟩ := List.mem_map.mp hleaf
      have hfocus : f ∈ tree.tokens := hsited.tokens (by simpa [Placed.tokenFociOf] using hf)
      refine h.bind ⟨tree, hdocument, f, hfocus, rfl, htext, .inr fun id hid => ?_⟩
      exact h.isType_of_resolveType? (Option.mem_toList.mp hid)
    next => exact h
  name {info _ a _ above arity?} hsited _ hname := by
    intro s _ (h : Linked documents s.table) _
    show Linked documents (simpleName ctx ⟨info, [.token a]⟩ arity? s).2.table
    rw [simpleName_run ctx arity? s (TokenFocus.IsRenamable.kind_eq (.inl hname))]
    split
    next => exact h
    next htext =>
      exact h.bind ⟨tree, hdocument, _, hsited.children.tokenFocus_mem, rfl, htext, .inl hname⟩
  memberName {info _ nameInfo _ receiver _ dot _ a _ above arity?} hsited _ _ hname := by
    intro s _ (h : Linked documents s.table) _
    show Linked documents
      (memberName ctx ⟨info, [receiver.placed, .token dot, .node nameInfo [.token a]]⟩
      arity? s).2.table
    rw [memberName_run ctx arity? s (TokenFocus.IsRenamable.kind_eq (.inl hname))]
    split
    next => exact h
    next htext =>
      have hfocus := hsited.children.tail.tail.head.children.tokenFocus_mem
      exact h.bind ⟨tree, hdocument, _, hfocus, rfl, htext, .inl hname⟩
  localType _ _ _ _ := trivial
  declareLocal {declaration statement n _ above _ type _ s _} hsited hstatement _ _ hkind _ _ := by
    intro (h : Linked documents s.table) _
    show Linked documents (declareLocal ctx type n s).2.table
    rw [declareLocal_run]
    split
    next name hname =>
      have hlocal : Focus.IsLocal ⟨n, declaration :: statement :: above⟩ :=
        ⟨hkind, _, _, _, rfl, hstatement⟩
      have hpath : (localData ctx type n name s).key.path ≠ "" :=
        (endsIn_childKey ..).path_ne (by simp)
      have hsound :=
        sound_introduce h.toSound (localData ctx type n name s) (kind_childKey ..) hpath
          SymbolKind.isSingle_localVariable hdocument hsited.focus_mem hlocal hname (.inl rfl) rfl
      exact h.grows hsound ((Grows.add _ _).trans (Grows.declare _ _ _)) rfl
    next => exact h

end Binding

/-! ## Documents -/

namespace SymbolTable

variable {documents : List (DocumentId × Tree)} {document : DocumentId} {tree : Tree}
  {t : SymbolTable}

/-- All names of a project are bound to what the linking rules allow. -/
theorem lockstep_linked (hdocument : (document, tree) ∈ documents) :
    Lockstep Eq Eq tree document (fun _ _ => True) (fun _ _ _ => True)
      (fun _ t _ => Linked documents t) where
  keeps := keepsTokens_eq
  earlier _ _ _ := trivial
  skip h _ := h
  declared _ _ _ _ := trivial
  member {n n' above first type? type?'} _ hsited halike hnumbered hparts := by
    intro t t' h _
    dsimp only
    rw [bindElement_member t type? hparts]
    let ctx := t.memberContext document type? n
    exact Binding.steps_memberParts
      (fun b => @Binding.lockstep_linked _ _ (ctx.assigning b) hdocument) hsited halike
      hnumbered hparts { table := t, scopes := t.memberScopes document n } { table := t' } h trivial

/-- Names are bound as they should be in a document that fits the grammar. -/
theorem Linked.bindDocument (h : Linked documents t) (hdocument : (document, tree) ∈ documents)
    (hconforms : tree.root.element.Conforms) : Linked documents (t.bindDocument document tree) :=
  @steps_bindAll _ _ _ _ _ _ _ (lockstep_linked hdocument) _ 0 none none trivial _ _
    (tree.sited hconforms)
    (.refl (fun _ => rfl) (fun _ => rfl) _) tree.numbered t t h trivial

/-- The table of a project whose documents fit the grammar. -/
theorem linked_build (hconforms : ∀ d ∈ documents, d.2.root.element.Conforms) :
    Linked documents (build documents) := by
  have hdeclared := extends_declareDocuments documents
  rw [build_eq]
  refine List.foldlRecOn documents _ ⟨hdeclared.sound, ?_⟩ fun t ht d hd =>
    ht.bindDocument hd (hconforms d hd)
  rw [hdeclared.bindings]
  nofun

end SymbolTable

end AutoProperty
