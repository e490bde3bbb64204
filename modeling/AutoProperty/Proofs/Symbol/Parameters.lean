import AutoProperty.Proofs.Symbol.MemberNames
import AutoProperty.Proofs.Symbol.Reordering
import AutoProperty.Proofs.Symbol.Scoping

/-! # Parameters in sight

A type that is declared declares its members, and methods declare their parameters. What is
declared at a type can only have been declared there, and then its members were declared right
behind it.
-/

namespace AutoProperty

/-- The node is the member, a property or a method, or it is a parameter of the method. It has a
name, and so has the method. -/
structure PlacedNode.Introduces (member n : PlacedNode) : Prop where
  named : n.name?.isSome
  source : n = member ∧ member.kind = .propertyDeclaration ∨
    (member.kind = .methodDeclaration ∨ member.kind = .constructorDeclaration) ∧
    member.name?.isSome ∧ (n = member ∨ n ∈ SymbolTable.parametersOf member)

/-- The node is a property or a method of the type, or a parameter of a method of it. -/
structure Focus.Holds (type : Focus) (n : PlacedNode) : Prop where
  isType : type.node.kind = .classDeclaration ∨ type.node.kind = .structDeclaration
  ofMember : ∃ member ∈ type.node.childNodes, member.Introduces n

def PlacedNode.memberFrames (n : PlacedNode) : List (List PlacedNode) :=
  if n.kind = .methodDeclaration ∨ n.kind = .constructorDeclaration then
    [((SymbolTable.parametersOf n).filter (·.name?.isSome)).reverse]
  else
    []

/-- What is selected and what is made of it, one for one. -/
theorem forall₂_filter_filterMap {α β : Type} {p : α → Bool} {f : α → Option β} {r : α → β → Prop}
    {xs : List α} (h : ∀ x ∈ xs, (p x ∧ ∃ y, f x = some y ∧ r x y) ∨ (¬p x ∧ f x = none)) :
    List.Forall₂ r (xs.filter p) (xs.filterMap f) := by
  induction xs with
  | nil => exact .nil
  | cons x xs ih =>
    obtain ⟨hx, hxs⟩ := List.forall_mem_cons.mp h
    obtain ⟨hp, y, hy, hr⟩ | ⟨hp, hnone⟩ := hx
    · rw [List.filter_cons_of_pos hp, List.filterMap_cons_some hy]
      exact .cons hr (ih hxs)
    · rw [List.filter_cons_of_neg hp, List.filterMap_cons_none hnone]
      exact ih hxs

namespace SymbolTable

def Notes (t : SymbolTable) (place : Place) : Prop :=
  place ∈ t.declared.map (·.1)

variable {documents : List (DocumentId × Tree)} {places : List Place} {t u : SymbolTable}
  {place : Place} {document : DocumentId} {tree : Tree} {container? : Option SymbolId}

theorem Extends.notes (h : Extends documents places t u) (hplace : t.Notes place) :
    u.Notes place := by
  obtain ⟨new, heq, _⟩ := h.declared
  rw [Notes, heq]
  exact List.mem_append_right _ hplace

theorem Extends.mem_or (h : Extends documents places t u) (hplace : u.Notes place) :
    place ∈ places ∨ t.Notes place := by
  obtain ⟨new, heq, hnew⟩ := h.declared
  rw [Notes, heq] at hplace
  obtain hplace | hplace := List.mem_append.mp hplace
  · exact .inl (hnew.subset (List.mem_reverse.mpr hplace))
  · exact .inr hplace

theorem mem_placesOf {nodes : List PlacedNode} {index : Nat} :
    (⟨document, index⟩ : Place) ∈ placesOf document nodes ↔ index ∈ nodes.map (·.index) := by
  simp [placesOf, Place.mk.injEq]

/-! ## Methods -/

theorem notes_declareNamed (t : SymbolTable) (document : DocumentId) {n : PlacedNode}
    (container? : Option SymbolId) (kind : SymbolKind) (typeName? : Option String)
    (h : n.name?.isSome) :
    (t.declareNamed document n container? kind typeName?).Notes ⟨document, n.index⟩ := by
  obtain ⟨name, hname⟩ := Option.isSome_iff_exists.mp h
  rw [declareNamed, hname]
  exact List.mem_cons_self

theorem Notes.declareNamed (h : t.Notes place) (document : DocumentId) (n : PlacedNode)
    (container? : Option SymbolId) (kind : SymbolKind) (typeName? : Option String) :
    (t.declareNamed document n container? kind typeName?).Notes place := by
  rw [SymbolTable.declareNamed]
  split
  next => exact List.mem_cons_of_mem _ h
  next => exact h

/-- A method with a name declares itself and its parameters. -/
theorem notes_declareMethod (t : SymbolTable) (document : DocumentId) (container? : Option SymbolId)
    {member n : PlacedNode} (hname : member.name?.isSome)
    (hmem : n = member ∨ n ∈ parametersOf member) (hn : n.name?.isSome) :
    (t.declareMethod document member container?).Notes ⟨document, n.index⟩ := by
  obtain ⟨name, hname⟩ := Option.isSome_iff_exists.mp hname
  rw [declareMethod_eq hname]
  dsimp only
  have hself : n = member →
      ((t.add (t.methodData document member container? name)).2.declare ⟨document, member.index⟩
      (t.add (t.methodData document member container? name)).1).Notes ⟨document, n.index⟩ := by
    rintro rfl
    exact List.mem_cons_self
  generalize (t.add (t.methodData document member container? name)).2.declare _ _ = u at hself ⊢
  generalize (t.add (t.methodData document member container? name)).1 = id
  obtain heq | hmem := hmem
  · exact List.foldlRecOn (motive := fun v : SymbolTable => v.Notes ⟨document, n.index⟩)
      (parametersOf member) _ (hself heq)
      fun v hv q _ => hv.declareNamed ..
  clear hself
  generalize parametersOf member = parameters at hmem ⊢
  induction parameters generalizing u with
  | nil => exact absurd hmem List.not_mem_nil
  | cons q qs ih =>
    rw [List.foldl_cons]
    obtain rfl | hmem := List.mem_cons.mp hmem
    · exact List.foldlRecOn (motive := fun v : SymbolTable => v.Notes ⟨document, n.index⟩) qs _
        (u.notes_declareNamed document _ _ _ hn) fun v hv q _ => hv.declareNamed ..
    · exact ih _ hmem

/-- A member of a type declares itself and its parameters. -/
theorem notes_declareElement (t : SymbolTable) (document : DocumentId) {type : SymbolId}
    (htype : t.isType type) {member n : PlacedNode} (h : member.Introduces n) :
    (t.declareElement document (some type) member.placed).Notes ⟨document, n.index⟩ := by
  obtain ⟨hnamed, ⟨rfl, hkind⟩ | ⟨hkind, hname, hmem⟩⟩ := h
  · have htable : t.declareElement document (some type) n.placed = t.declareProperty document n
        (some type) := by
      obtain ⟨⟨index, kind, full, extent?⟩, children⟩ := n
      obtain rfl : kind = .propertyDeclaration := hkind
      exact if_pos htype
    rw [htable]
    exact t.notes_declareNamed document _ .property _ hnamed
  · have htable : t.declareElement document (some type) member.placed = t.declareMethod document
        member (some type) := by
      obtain ⟨⟨index, kind, full, extent?⟩, children⟩ := member
      obtain rfl | rfl : kind = .methodDeclaration ∨ kind = .constructorDeclaration :=
        hkind <;> exact if_pos htype
    rw [htable]
    exact t.notes_declareMethod document _ hname hmem hnamed

/-! ## Types -/

theorem isType_merge (hs : Sound documents t) {data : SymbolData}
    (hkey : data.key.kind = .namedType) (hkind : data.kind = .namedType) :
    (t.merge data).2.isType (t.merge data).1 := by
  obtain ⟨_, hadd⟩ | ⟨old, hold, holdKey, _, hmerge⟩ := t.data?_merge data
  · rw [hadd]
    simp [isType, kind?, data?_add, hkind]
  · have hkind : old.kind = .namedType := by rw [← hs.kinds _ old hold, holdKey, hkey]
    rw [hmerge]
    simp [isType, kind?, data?_addDeclarations, hold, hkind]

/-- What a type declares is a type. -/
theorem isType_of_declareType? (hs : Sound documents t) {n : PlacedNode} {id : SymbolId}
    (h : t.declareType? document n container? = some (id, u)) : u.isType id := by
  rw [declareType?_eq] at h
  obtain ⟨name, _, heq⟩ := Option.map_eq_some_iff.mp h
  obtain ⟨rfl, rfl⟩ := Prod.mk.inj heq
  exact isType_merge hs (t.kind_childKey container? .namedType name.text) rfl

/-- The type or namespace has been declared, but nothing yet of what it holds. -/
structure Opens (documents : List (DocumentId × Tree)) (document : DocumentId) (n : PlacedNode)
    (inner? : Option SymbolId) (t u : SymbolTable) : Prop where
  grown : Extends documents [⟨document, n.index⟩] t u
  contain : ∀ id ∈ inner?, u.CanContain id
  isType : n.kind = .classDeclaration ∨ n.kind = .structDeclaration →
    ∃ id, inner? = some id ∧ u.isType id

/-- A type declares itself and then what it holds, or nothing if it has no name. -/
theorem declareElement_type (t : SymbolTable) (document : DocumentId) (container? : Option SymbolId)
    {n : PlacedNode} (hkind : n.kind = .classDeclaration ∨ n.kind = .structDeclaration) :
    t.declareElement document container? n.placed = (t.declareType? document n container?).elim t
      fun d => d.2.declareAll document (some d.1) n.children := by
  obtain ⟨⟨index, kind, full, extent?⟩, children⟩ := n
  obtain rfl | rfl : kind = .classDeclaration ∨ kind = .structDeclaration := hkind
  all_goals
    rw [PlacedNode.placed, declareElement]
    dsimp only
    generalize t.declareType? document _ container? = declared?
    cases declared? <;> rfl

/-- A type without a name declares nothing. All other scopes declare what they hold, behind
themselves. -/
theorem declareElement_scope (hs : Sound documents t) (hc : ∀ id ∈ container?, t.CanContain id)
    (hdocument : (document, tree) ∈ documents) {n : PlacedNode} {above : List PlacedNode}
    (hf : ⟨n, above⟩ ∈ tree.nodes) (hscope : n.kind.isScope) (habove : AreScopes above) :
    t.declareElement document container? n.placed = t ∨
      ∃ inner? u, t.declareElement document container? n.placed = u.declareAll document inner?
        n.children ∧ Opens documents document n inner? t u := by
  have hnamespace (htable : t.declareElement document container? n.placed =
      (t.declareNamespace document n container?).2.declareAll document
        (t.declareNamespace document n container?).1 n.children)
      (hkind : ¬(n.kind = .classDeclaration ∨ n.kind = .structDeclaration)) :
      ∃ inner? u, t.declareElement document container? n.placed = u.declareAll document inner?
        n.children ∧
        Opens documents document n inner? t u := by
    obtain ⟨hextends, hcontain⟩ :=
      @extends_declareNamespace _ _ _ _ _ hs hc hdocument ⟨n, above⟩ hf hscope habove
    exact ⟨_, _, htable, hextends, hcontain, fun h => absurd h hkind⟩
  have htype (hkind : n.kind = .classDeclaration ∨ n.kind = .structDeclaration) :
      t.declareElement document container? n.placed = t ∨
        ∃ inner? u, t.declareElement document container? n.placed = u.declareAll document inner?
          n.children ∧
          Opens documents document n inner? t u := by
    have htable := t.declareElement_type document container? hkind
    cases hdeclares : t.declareType? document n container? with
    | none =>
      rw [hdeclares] at htable
      exact Or.inl htable
    | some declared =>
      obtain ⟨id, u⟩ := declared
      rw [hdeclares] at htable
      obtain ⟨hextends, hcontain⟩ :=
        @extends_declareType? _ _ _ _ _ hs hc hdocument ⟨n, above⟩ hf hscope habove _ _ hdeclares
      refine Or.inr ⟨some id, u, htable, hextends, fun id' hid => Option.some.inj hid ▸ hcontain,
        fun _ => ⟨id, rfl, ?_⟩⟩
      exact isType_of_declareType? hs hdeclares
  obtain ⟨⟨index, kind, full, extent?⟩, children⟩ := n
  cases kind <;> first | exact absurd hscope Bool.false_ne_true | skip
  case namespaceDeclaration => exact .inr (hnamespace rfl (by simp [PlacedNode.kind]))
  case fileScopedNamespaceDeclaration => exact .inr (hnamespace rfl (by simp [PlacedNode.kind]))
  case classDeclaration => exact htype (.inl rfl)
  case structDeclaration => exact htype (.inr rfl)

section Declared

variable (hdocument : (document, tree) ∈ documents)
include hdocument

/-- What a type holds is declared with it. -/
theorem notes_declareAll {type : SymbolId} {above : List PlacedNode} {member n : PlacedNode}
    (ps : List Placed) (hs : Sound documents t) (hc : t.CanContain type) (habove : AreScopes above)
    (hfoci : Placed.fociOf above ps ⊆ tree.nodes) (htype : t.isType type)
    (hmember : member.placed ∈ ps) (h : member.Introduces n) :
    (t.declareAll document (some type) ps).Notes ⟨document, n.index⟩ := by
  induction ps generalizing t with
  | nil => exact absurd hmember List.not_mem_nil
  | cons p ps ih =>
    have hcontain : ∀ id ∈ some type, t.CanContain id := fun id hid => Option.some.inj hid ▸ hc
    have hfirst :=
      extends_declareElement hdocument p hs hcontain habove fun f hf =>
        hfoci (List.mem_append_left _ hf)
    have hothers : Placed.fociOf above ps ⊆ tree.nodes :=
      fun f hf => hfoci (List.mem_append_right _ hf)
    rw [declareAll]
    obtain rfl | hmember := List.mem_cons.mp hmember
    · have hrest :=
        extends_declareAll hdocument ps hfirst.sound
          (fun id hid => (hcontain id hid).grows hfirst.grows) habove hothers
      exact hrest.notes (t.notes_declareElement document htype h)
    · exact ih hfirst.sound (hc.grows hfirst.grows) hothers (hfirst.grows.isType htype) hmember

mutual

/-- If a type in an element is declared along with it, so is what the type holds. -/
theorem notes_of_mem_foci {t : SymbolTable} {container? : Option SymbolId} {above : List PlacedNode}
    {type : Focus} {held : PlacedNode}
    (hscopes : ∀ f ∈ tree.nodes, f.node.kind.isScope → AreScopes f.above) (hp : type.Holds held)
    (p : Placed) (hs : Sound documents t) (hc : ∀ id ∈ container?, t.CanContain id)
    (habove : AreScopes above) (hfoci : p.foci above ⊆ tree.nodes)
    (hnodup : (p.nodes.map (·.index)).Nodup) (hfocus : type ∈ p.foci above)
    (hfresh : ¬t.Notes ⟨document, type.node.index⟩)
    (hnotes : (t.declareElement document container? p).Notes ⟨document, type.node.index⟩) :
    (t.declareElement document container? p).Notes ⟨document, held.index⟩ := by
  match p with
  | .token _ => exact absurd hfocus List.not_mem_nil
  | .node info children =>
    let n : PlacedNode := ⟨info, children⟩
    have hn : ⟨n, above⟩ ∈ tree.nodes := hfoci List.mem_cons_self
    have hchildren : Placed.fociOf (n :: above) children ⊆ tree.nodes :=
      fun f hf => hfoci (List.mem_cons_of_mem _ hf)
    obtain ⟨hindex, hnodup⟩ := List.nodup_cons.mp hnodup
    have htypeScope : type.node.kind.isScope := by
      obtain hkind | hkind := hp.isType <;> rw [hkind] <;> rfl
    have hscope : n.kind.isScope := by
      obtain heq | hfocus := List.mem_cons.mp hfocus
      · rwa [heq] at htypeScope
      · obtain ⟨inner, hinner⟩ := Placed.exists_outerOf children hfocus
        have hscopes := hscopes type (hchildren hfocus) htypeScope
        refine hscopes.2 n ?_
        rw [hinner, List.dropLast_append_of_ne_nil (List.cons_ne_nil _ _),
          List.dropLast_cons_of_ne_nil habove.1]
        exact List.mem_append_right _ List.mem_cons_self
    obtain hnone | ⟨inner?, u, htable, hopens⟩ :=
      declareElement_scope hs hc hdocument hn hscope habove
    · exact absurd (hnone ▸ hnotes) hfresh
    change t.declareElement document container? (.node info children) = _ at htable
    rw [htable] at hnotes ⊢
    obtain rfl | hfocus := List.mem_cons.mp hfocus
    · obtain ⟨id, rfl, hid⟩ := hopens.isType hp.isType
      obtain ⟨member, hmember, hheld⟩ := hp.ofMember
      exact notes_declareAll hdocument children hopens.grown.sound (hopens.contain id rfl)
        (habove.cons hscope) hchildren hid
        (PlacedNode.mem_childNodes.mp hmember) hheld
    · refine notes_of_mem_fociOf hscopes hp children hopens.grown.sound hopens.contain
        (habove.cons hscope) hchildren hnodup hfocus
        (fun hu => ?_) hnotes
      obtain hplace | hplace := hopens.grown.mem_or hu
      · have heq : type.node.index = n.index := congrArg Place.index (List.mem_singleton.mp hplace)
        refine hindex ?_
        show n.index ∈ _
        rw [← heq, ← Placed.node_fociOf (n :: above), List.map_map]
        exact List.mem_map_of_mem hfocus
      · exact hfresh hplace

/-- The first pass notes every parameter, and every member, of a type. -/
theorem notes_of_mem_fociOf {t : SymbolTable} {container? : Option SymbolId}
    {above : List PlacedNode} {type : Focus} {held : PlacedNode}
    (hscopes : ∀ f ∈ tree.nodes, f.node.kind.isScope → AreScopes f.above) (hp : type.Holds held)
    (ps : List Placed) (hs : Sound documents t) (hc : ∀ id ∈ container?, t.CanContain id)
    (habove : AreScopes above) (hfoci : Placed.fociOf above ps ⊆ tree.nodes)
    (hnodup : ((Placed.nodesOf ps).map (·.index)).Nodup) (hfocus : type ∈ Placed.fociOf above ps)
    (hfresh : ¬t.Notes ⟨document, type.node.index⟩)
    (hnotes : (t.declareAll document container? ps).Notes ⟨document, type.node.index⟩) :
    (t.declareAll document container? ps).Notes ⟨document, held.index⟩ := by
  match ps with
  | [] => exact absurd hfocus List.not_mem_nil
  | p :: rest =>
    rw [Placed.nodesOf, List.map_append, List.nodup_append] at hnodup
    obtain ⟨hnodup, hnodup', hdisjoint⟩ := hnodup
    have hleft : p.foci above ⊆ tree.nodes := fun f hf => hfoci (List.mem_append_left _ hf)
    have hright : Placed.fociOf above rest ⊆ tree.nodes :=
      fun f hf => hfoci (List.mem_append_right _ hf)
    have hfirst := extends_declareElement hdocument p hs hc habove hleft
    have hcontain : ∀ id ∈ container?, (t.declareElement document container? p).CanContain id :=
      fun id hid => (hc id hid).grows hfirst.grows
    have hothers := extends_declareAll hdocument rest hfirst.sound hcontain habove hright
    rw [declareAll] at hnotes ⊢
    obtain hfocus | hfocus := List.mem_append.mp hfocus
    · refine hothers.notes
        (notes_of_mem_foci hscopes hp p hs hc habove hleft hnodup hfocus hfresh ?_)
      refine (hothers.mem_or hnotes).resolve_left fun hplace => ?_
      have hmem : type.node.index ∈ p.nodes.map (·.index) := by
        rw [← Placed.node_foci above, List.map_map]
        exact List.mem_map_of_mem hfocus
      exact hdisjoint _ hmem _ (mem_placesOf.mp hplace) rfl
    · refine notes_of_mem_fociOf hscopes hp rest hfirst.sound hcontain habove hright hnodup' hfocus
        (fun hu => ?_) hnotes
      obtain hplace | hplace := hfirst.mem_or hu
      · have hmem : type.node.index ∈ (Placed.nodesOf rest).map (·.index) := by
          rw [← Placed.node_fociOf above, List.map_map]
          exact List.mem_map_of_mem hfocus
        exact hdisjoint _ (mem_placesOf.mp hplace) _ hmem rfl
      · exact hfresh hplace

end

end Declared

/-! ## Whole projects -/

section Project

variable (hnodup : (documents.map (·.1)).Nodup) (hdocument : (document, tree) ∈ documents)
include hnodup hdocument

/-- If a type of a project is declared, so is what it holds. -/
theorem notes_declareDocuments (hscopes : ∀ f ∈ tree.nodes, f.node.kind.isScope → AreScopes f.above)
    {type : Focus} (htype : type ∈ tree.nodes) {held : PlacedNode} (hp : type.Holds held)
    (hnotes : (declareDocuments documents).Notes ⟨document, type.node.index⟩) :
    (declareDocuments documents).Notes ⟨document, held.index⟩ := by
  obtain ⟨before, after, rfl⟩ := List.append_of_mem hdocument
  obtain ⟨hbefore, hafter⟩ := forall_ne_of_nodup hnodup
  let all := before ++ (document, tree) :: after
  let places (d : DocumentId × Tree) : List Place := placesOf d.1 (Placed.nodesOf d.2.top.children)
  let pass (ds : List (DocumentId × Tree)) (t : SymbolTable) : SymbolTable :=
    ds.foldl (fun t d => t.declareDocument d.1 d.2) t
  have hother {ds : List (DocumentId × Tree)} (h : ∀ d ∈ ds, document ≠ d.1) (index : Nat) :
      (⟨document, index⟩ : Place) ∉ ds.flatMap places := by
    intro hmem
    obtain ⟨d, hd, hmem⟩ := List.mem_flatMap.mp hmem
    obtain ⟨n, _, hn⟩ := List.mem_map.mp hmem
    exact h d hd (Place.mk.inj hn).1.symm
  have hpass (ds : List (DocumentId × Tree)) (hds : ds ⊆ all) (t : SymbolTable) (ht : Sound all t) :
      Extends all (ds.flatMap places) t (pass ds t) :=
    extends_foldl places (fun u d hd _ hu => extends_declareDocument (hds hd) hu) ht
  have hfirst := hpass before (List.subset_append_left _ _) .empty (.empty _)
  have hown := extends_declareDocument hdocument hfirst.sound
  have hrest :=
    hpass after (fun d hd => List.mem_append_right _ (List.mem_cons_of_mem _ hd)) _ hown.sound
  have hall : declareDocuments all = pass after
      ((pass before .empty).declareDocument document tree) := by
    rw [declareDocuments, List.foldl_append]
    rfl
  have hfocus : type ∈ Placed.fociOf [tree.top] tree.top.children := by
    have habove := hscopes type htype (by obtain hkind | hkind := hp.isType <;> rw [hkind] <;> rfl)
    rw [Tree.nodes_eq] at htype
    obtain rfl | hfocus := List.mem_cons.mp htype
    · exact absurd rfl habove.1
    · exact hfocus
  rw [hall] at hnotes ⊢
  refine hrest.notes
    (notes_of_mem_fociOf hdocument hscopes hp _ hfirst.sound nofun (.root tree.top)
      tree.fociOf_subset_nodes
    tree.nodup_nodesOf hfocus (fun hnotes => ?_)
    ((hrest.mem_or hnotes).resolve_left (hother hafter _)))
  -- Nothing of the document has been declared before it.
  obtain hplace | hplace := hfirst.mem_or hnotes
  · exact hother hbefore _ hplace
  · exact absurd hplace List.not_mem_nil

/-- The node is a member of a type that is declared. -/
structure Members (documents : List (DocumentId × Tree)) (document : DocumentId) (tree : Tree)
    (member : Focus) : Prop where
  mem : member ∈ tree.nodes
  hasParts : member.node.kind.hasParts
  named : member.node.kind = .methodDeclaration ∨ member.node.kind = .constructorDeclaration →
    member.node.name?.isSome
  type : ∃ type outer, member.above = type :: outer ∧
    (type.kind = .classDeclaration ∨ type.kind = .structDeclaration) ∧
    (declareDocuments documents).Notes ⟨document, type.index⟩

omit hnodup hdocument in
/-- Nothing but parameters stands in a list of parameters. -/
theorem parametersOf_eq (hconforms : tree.root.element.Conforms) {n : PlacedNode}
    {above : List PlacedNode} (h : ⟨n, above⟩ ∈ tree.nodes) :
    ((n.child? .parameterList).map PlacedNode.childNodes).getD [] = parametersOf n := by
  rw [parametersOf]
  cases hlist : n.child? .parameterList with
  | none => rfl
  | some list =>
    obtain ⟨hmem, hkind⟩ := PlacedNode.child?_some hlist
    refine (List.filter_eq_self.mpr fun parameter hparameter => ?_).symm
    obtain ⟨hfit, hchild, htoken⟩ :=
      Tree.childrenFit_of_mem hconforms (Tree.child_mem (Tree.child_mem h hmem) hparameter)
    rw [hkind] at hfit
    exact beq_iff_eq.mpr ((isParameter_or hfit _ hchild).resolve_left htoken)

/-- A parameter that is noted has a name, and its symbol goes by it. -/
theorem exists_parameter {f : Focus} (hf : f ∈ tree.nodes) (hkind : f.node.kind = .parameter)
    {id : SymbolId}
    (hid : (declareDocuments documents).declared? ⟨document, f.node.index⟩ = some id) :
    ∃ data leaf, (declareDocuments documents).data? id = some data ∧ f.node.name? = some leaf ∧
      data.name = leaf.text ∧ data.kind.isSingle ∧ ∃ d ∈ data.declarations,
      d.place = ⟨document, f.node.index⟩ := by
  have hsound := (extends_declareDocuments documents).sound
  obtain ⟨data, hdata, ⟨hdeclares, d, hd, hplace, leaf, hleaf, _, hname⟩ | ⟨_, hscope⟩⟩ :=
    hsound.exists_declares hnodup hdocument hf (mem_declared_of_declared? hid)
  · have hsingle : data.kind.isSingle := by
      constructor <;> intro heq <;> rw [heq] at hdeclares <;> exact False.elim hdeclares
    refine ⟨data, leaf, hdata, hleaf, hname.resolve_right fun hconstructor => ?_, hsingle, d, hd,
      hplace⟩
    cases hkind.symm.trans hconstructor.1
  · rw [hkind] at hscope
    exact absurd hscope Bool.false_ne_true

/-- The names in scope where a member begins are those of its parameters. -/
theorem hasFrames_memberScopes (hconforms : tree.root.element.Conforms)
    (hscopes : ∀ f ∈ tree.nodes, f.node.kind.isScope → AreScopes f.above) {member : Focus}
    (h : Members documents document tree member)
    (hkept : KeepsDeclared documents (declareDocuments documents) t)
    (hgrown : (declareDocuments documents).symbols <+: t.symbols) :
    t.HasFrames document member.node.memberFrames (t.memberScopes document member.node) := by
  obtain ⟨n, above⟩ := member
  obtain ⟨type, outer, rfl, htype, hnotes⟩ := h.type
  have hmember : n ∈ type.childNodes := Tree.mem_childNodes_of_mem h.mem
  have hmethod (hkind : n.kind = .methodDeclaration ∨ n.kind = .constructorDeclaration) :
      t.HasFrames document [((parametersOf n).filter (·.name?.isSome)).reverse]
        [t.parameterFrame document n] := by
    refine .cons (List.rel_reverse ?_) .nil
    rw [parametersOf_eq hconforms h.mem]
    refine forall₂_filter_filterMap fun parameter hparameter => ?_
    obtain ⟨list, hlist, hchild, hparameterKind⟩ := mem_parametersOf hparameter
    have hf : ⟨parameter, list :: n :: type :: outer⟩ ∈ tree.nodes :=
      Tree.child_mem (Tree.child_mem h.mem hlist) hchild
    have hdeclared : t.declared? ⟨document, parameter.index⟩ =
        (declareDocuments documents).declared? ⟨document, parameter.index⟩ :=
      hkept _ hdocument _ hf (by rw [hparameterKind]; nofun)
    rw [hdeclared]
    cases hid : (declareDocuments documents).declared? ⟨document, parameter.index⟩ with
    | none =>
      -- A parameter with a name would have been declared.
      refine .inr ⟨fun hnamed => ?_, rfl⟩
      have hp : Focus.Holds ⟨type, outer⟩ parameter :=
        ⟨htype, n, hmember, hnamed, .inr ⟨hkind, h.named hkind, .inr hparameter⟩⟩
      have hmem : ⟨type, outer⟩ ∈ tree.nodes := Tree.mem_nodes_of_above_cons h.mem rfl
      obtain ⟨e, he, heq⟩ :=
        List.mem_map.mp (notes_declareDocuments hnodup hdocument hscopes hmem hp hnotes)
      have hnone := List.lookup_eq_none_iff.mp hid e he
      exact absurd heq.symm (bne_iff_ne.mp hnone)
    | some id =>
      obtain ⟨data, leaf, hdata, hleaf, hname, hsingle, d, hd, hplace⟩ :=
        exists_parameter hnodup hdocument hf hparameterKind hid
      have hdata' := data?_of_initial hgrown hdata
      have hdeclares : t.DeclaresAt ⟨document, parameter.index⟩ id :=
        ⟨data, hdata', hsingle, d, hd, hplace⟩
      refine .inl ⟨Option.isSome_iff_exists.mpr ⟨leaf, hleaf⟩, (data.name, id), ?_,
        ⟨leaf, hleaf, hname⟩, hdeclares⟩
      simp [hdata']
  rw [PlacedNode.memberFrames, memberScopes]
  dsimp only
  split
  next hkind =>
    have hframes := hmethod hkind
    obtain hkind | hkind := hkind <;> rw [hkind] <;> exact hframes
  next hkind =>
    split
    next heq => exact absurd (.inl heq) hkind
    next heq => exact absurd (.inr heq) hkind
    next => exact .nil

end Project

end SymbolTable

end AutoProperty
