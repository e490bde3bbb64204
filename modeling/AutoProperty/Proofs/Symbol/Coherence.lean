import AutoProperty.Proofs.Symbol.Mentions
import AutoProperty.Proofs.Symbol.WrittenTypes

/-! # Tables stay coherent

What the second pass adds fits what is there: a local stands at a declarator that was not seen
before and comes behind the member it belongs to, and a name is bound to different symbols that
all go by its text.
-/

namespace AutoProperty

namespace SymbolTable

variable {documents : List (DocumentId × Tree)} {t u : SymbolTable} {id : SymbolId}

/-! ## Symbols of one name -/

def AllNamed (t : SymbolTable) (name : String) (ids : List SymbolId) : Prop :=
  ids.Nodup ∧ ∀ id ∈ ids, ∃ data, t.data? id = some data ∧ data.name = name

theorem AllNamed.grows {name : String} {ids : List SymbolId} (h : t.AllNamed name ids)
    (hgrows : Grows t u) : u.AllNamed name ids := by
  refine ⟨h.1, fun id hid => ?_⟩
  obtain ⟨data, hdata, hname⟩ := h.2 id hid
  obtain ⟨more, hmore⟩ := hgrows id data hdata
  exact ⟨_, hmore, hname⟩

theorem AllNamed.filter {name : String} {ids : List SymbolId} (h : t.AllNamed name ids)
    (p : SymbolId → Bool) : t.AllNamed name (ids.filter p) :=
  ⟨h.1.filter p, fun id hid => h.2 id (List.mem_filter.mp hid).1⟩

theorem allNamed_toList {name : String} {id? : Option SymbolId}
    (h : ∀ id ∈ id?, ∃ data, t.data? id = some data ∧ data.name = name) :
    t.AllNamed name id?.toList := by
  cases id? with
  | none => exact ⟨List.nodup_nil, nofun⟩
  | some id => exact ⟨List.nodup_singleton id, List.forall_mem_singleton.mpr (h id rfl)⟩

theorem allNamed_membersNamed (t : SymbolTable) (type : SymbolId) (name : String) :
    t.AllNamed name (t.membersNamed type name) := by
  refine ⟨(t.nodup_members type).filter _, fun id hid => ?_⟩
  obtain ⟨data, hdata, hname⟩ := (Option.any_eq_true _ _).mp (List.mem_filter.mp hid).2
  exact ⟨data, hdata, eq_of_beq hname⟩

/-- What is found under a name among the members goes by that name. -/
theorem allNamed_lookupMember (t : SymbolTable) (type : SymbolId) (name : String)
    (arity? : Option Nat) : t.AllNamed name (t.lookupMember type name arity?) := by
  have hnamed := t.allNamed_membersNamed type name
  cases arity? with
  | none => exact hnamed
  | some arity =>
    rw [lookupMember]
    split
    next => exact hnamed
    next => exact hnamed.filter _

def NamesScopes (t : SymbolTable) (scopes : Scopes) : Prop :=
  ∀ frame ∈ scopes, ∀ e ∈ frame, ∃ data, t.data? e.2 = some data ∧ data.name = e.1

theorem NamesScopes.grows {scopes : Scopes} (h : t.NamesScopes scopes) (hgrows : Grows t u) :
    u.NamesScopes scopes := by
  intro frame hframe e he
  obtain ⟨data, hdata, hname⟩ := h frame hframe e he
  obtain ⟨more, hmore⟩ := hgrows e.2 data hdata
  exact ⟨_, hmore, hname⟩

theorem NamesScopes.find? {scopes : Scopes} (h : t.NamesScopes scopes) {name : String}
    (hfind : scopes.find? name = some id) : ∃ data, t.data? id = some data ∧ data.name = name := by
  obtain ⟨frame, hframe, hlookup⟩ := List.exists_of_findSome?_eq_some hfind
  obtain ⟨before, after, rfl, _⟩ := List.lookup_eq_some_iff.mp hlookup
  exact h _ hframe (name, id) (List.mem_append_right _ List.mem_cons_self)

theorem NamesScopes.insert {scopes : Scopes} (h : t.NamesScopes scopes) {name : String}
    (hid : ∃ data, t.data? id = some data ∧ data.name = name) :
    t.NamesScopes (scopes.insert name id) := by
  cases scopes with
  | nil => exact h
  | cons frame outer =>
    obtain ⟨hframe, houter⟩ := List.forall_mem_cons.mp h
    exact List.forall_mem_cons.mpr ⟨List.forall_mem_cons.mpr ⟨hid, hframe⟩, houter⟩

/-- The names in scope at the start of a member are those of its parameters. -/
theorem namesScopes_memberScopes (t : SymbolTable) (document : DocumentId) (n : PlacedNode) :
    t.NamesScopes (t.memberScopes document n) := by
  have hframe : t.NamesScopes [t.parameterFrame document n] := by
    refine List.forall_mem_singleton.mpr fun e he => ?_
    obtain ⟨parameter, _, hsome⟩ := List.mem_filterMap.mp (List.mem_reverse.mp he)
    obtain ⟨id, _, hsome⟩ := Option.bind_eq_some_iff.mp hsome
    obtain ⟨data, hdata, hsome⟩ := Option.bind_eq_some_iff.mp hsome
    cases hsome
    exact ⟨data, hdata, rfl⟩
  rw [memberScopes]
  split
  next => exact hframe
  next => exact hframe
  next => nofun

/-- A simple name means symbols that go by it. -/
theorem Sound.allNamed_lookupSimple (hwords : ∀ d ∈ documents, d.2.HasWords) {s : BodyState}
    (h : Sound documents s.table) (hscopes : s.table.NamesScopes s.scopes) (ctx : BodyContext)
    {name : String} (hname : IsWord name.toList) (arity? : Option Nat) :
    s.table.AllNamed name (lookupSimple ctx s name arity?) := by
  rw [lookupSimple]
  split
  next id hfind =>
    exact ⟨List.nodup_singleton id, List.forall_mem_singleton.mpr (hscopes.find? hfind)⟩
  next =>
    split
    next => exact ⟨List.nodup_nil, nofun⟩
    next =>
      dsimp only
      split
      next candidates hfound =>
        obtain ⟨type, _, rfl⟩ := List.mem_map.mp (List.mem_of_find?_eq_some hfound)
        exact s.table.allNamed_lookupMember type name arity?
      next =>
        refine allNamed_toList fun id hid => ?_
        obtain ⟨data, hdata, _, heq⟩ := h.name_of_resolveType? hwords hid
        exact ⟨data, hdata, by rw [heq, hname.unmarked_eq, hname.simpleTypeName_eq]⟩

/-! ## Coherent tables -/

/-- What holds of the table while names are bound, if there were `count` symbols before. -/
structure Coherent (documents : List (DocumentId × Tree)) (count : Nat) (t : SymbolTable) : Prop
    extends Linked documents t where
  noted : t.IsNoted
  layered : t.IsLayered
  once : (t.declared.map (·.1)).Nodup
  early : count ≤ t.symbols.length
  late : ∀ id data, t.data? id = some data → count ≤ id.index → data.kind = .localVariable
  names : ∀ place ids, (place, ids) ∈ t.bindings →
    ids ≠ [] ∧ ∃ tree, (place.document, tree) ∈ documents ∧
    ∃ f ∈ tree.tokens, f.leaf.index = place.index ∧ t.AllNamed f.leaf.text ids

/-- A place that is noted for a symbol is that of a node which declares it, or of a scope. -/
theorem Sound.exists_declares (h : Sound documents t) (hnodup : (documents.map (·.1)).Nodup)
    {document : DocumentId} {tree : Tree} (hdocument : (document, tree) ∈ documents) {f : Focus}
    (hf : f ∈ tree.nodes) (hmem : (⟨document, f.node.index⟩, id) ∈ t.declared) :
    ∃ data, t.data? id = some data ∧
      (f.Declares data.kind ∧ (∃ d ∈ data.declarations, d.place = ⟨document, f.node.index⟩ ∧ ∃ leaf,
        f.node.name? = some leaf ∧ leaf.span = d.nameSpan ∧
        (data.name = leaf.text ∨ f.node.kind = .constructorDeclaration ∧
          data.name = constructorName)) ∨ ¬data.kind.isSingle ∧ f.node.kind.isScope) := by
  obtain ⟨data, hdata, hsingle, hscope⟩ := h.declared _ _ hmem
  refine ⟨data, hdata, ?_⟩
  by_cases hkind : data.kind.isSingle
  · obtain ⟨d, hd, hplace⟩ := hsingle hkind
    obtain ⟨d', heq, tree', hdocument', g, hg, hindex, hdeclares, leaf, hnames⟩ :=
      h.single id data hdata hkind
    obtain rfl : d = d' := List.mem_singleton.mp (heq ▸ hd)
    rw [hplace] at hdocument' hindex
    obtain rfl : tree' = tree :=
      Option.some.inj
        ((lookup_of_mem hnodup hdocument').symm.trans (lookup_of_mem hnodup hdocument))
    obtain rfl := Tree.focus_eq hg hf hindex
    exact .inl ⟨hdeclares, d, hd, hplace, leaf, hnames⟩
  · obtain ⟨tree', hdocument', g, hg, hindex, hkind'⟩ := hscope hkind
    obtain rfl : tree' = tree :=
      Option.some.inj
        ((lookup_of_mem hnodup hdocument').symm.trans (lookup_of_mem hnodup hdocument))
    obtain rfl := Tree.focus_eq hg hf hindex
    exact .inr ⟨hkind, hkind'⟩

/-- A place that is noted for a symbol is that of a node. -/
theorem Sound.exists_node (h : Sound documents t) {place : Place}
    (hmem : (place, id) ∈ t.declared) :
    ∃ tree, (place.document, tree) ∈ documents ∧ ∃ f ∈ tree.nodes, f.node.index = place.index := by
  obtain ⟨data, hdata, hsingle, hscope⟩ := h.declared place id hmem
  by_cases hkind : data.kind.isSingle
  · obtain ⟨d, hd, rfl⟩ := hsingle hkind
    obtain ⟨d', heq, tree, hdocument, f, hf, hindex, _⟩ := h.single id data hdata hkind
    obtain rfl : d = d' := List.mem_singleton.mp (heq ▸ hd)
    exact ⟨tree, hdocument, f, hf, hindex⟩
  · obtain ⟨tree, hdocument, f, hf, hindex, _⟩ := hscope hkind
    exact ⟨tree, hdocument, f, hf, hindex⟩

theorem mem_declared_of_declared? {place : Place} (h : t.declared? place = some id) :
    (place, id) ∈ t.declared := by
  obtain ⟨before, after, heq, _⟩ := List.lookup_eq_some_iff.mp h
  rw [heq]
  exact List.mem_append_right _ List.mem_cons_self

namespace Coherent

variable {count : Nat}

/-- Only declarators declare locals, so what other nodes declare was there before. -/
theorem lt_of_declared? (h : Coherent documents count t) (hnodup : (documents.map (·.1)).Nodup)
    {document : DocumentId} {tree : Tree} (hdocument : (document, tree) ∈ documents) {f : Focus}
    (hf : f ∈ tree.nodes) (hkind : f.node.kind ≠ .variableDeclarator)
    (hid : t.declared? ⟨document, f.node.index⟩ = some id) : id.index < count := by
  obtain ⟨data, hdata, hdeclares⟩ :=
    h.exists_declares hnodup hdocument hf (mem_declared_of_declared? hid)
  by_contra hlt
  have hlocal := h.late id data hdata (Nat.le_of_not_lt hlt)
  obtain ⟨hdeclares, _⟩ | ⟨hsingle, _⟩ := hdeclares
  · rw [hlocal] at hdeclares
    exact hkind hdeclares.1
  · rw [hlocal] at hsingle
    exact hsingle SymbolKind.isSingle_localVariable

/-- A name is bound to symbols that go by it. -/
theorem bind (h : Coherent documents count t) {place : Place} {ids : List SymbolId}
    (hlinked : Linked documents (t.bind place ids)) {tree : Tree}
    (hdocument : (place.document, tree) ∈ documents) {f : TokenFocus} (hf : f ∈ tree.tokens)
    (hindex : f.leaf.index = place.index) (hnames : t.AllNamed f.leaf.text ids) :
    Coherent documents count (t.bind place ids) := by
  rw [SymbolTable.bind] at hlinked ⊢
  split
  next => exact h
  next hne =>
    rw [if_neg hne] at hlinked
    refine ⟨hlinked, h.noted, h.layered, h.once, h.early, h.late, fun place' ids' hmem => ?_⟩
    obtain heq | hmem := List.mem_cons.mp hmem
    · obtain ⟨rfl, rfl⟩ := Prod.mk.inj heq
      exact ⟨by simpa using hne, tree, hdocument, f, hf, hindex, hnames⟩
    · exact h.names place' ids' hmem

/-- A local is put into the table behind what contains it, for a place where nothing was
declared. -/
theorem introduce (h : Coherent documents count t) {data : SymbolData} {place : Place}
    (hlinked : Linked documents ((t.add data).2.declare place (t.add data).1))
    (hkind : data.kind = .localVariable) (hplace : ∀ d ∈ data.declarations, d.place = place)
    (hcontainer : ∀ outer ∈ data.container?, outer.index < count)
    (hfresh : place ∉ t.declared.map (·.1)) :
    Coherent documents count ((t.add data).2.declare place (t.add data).1) where
  toLinked := hlinked
  noted := h.noted.introduce hplace
  layered := h.layered.add fun outer houter => Nat.lt_of_lt_of_le (hcontainer outer houter) h.early
  once := List.nodup_cons.mpr ⟨hfresh, h.once⟩
  early := Nat.le_trans h.early (Grows.add t data).length_le
  late id data' hdata' hid := by
    rw [data?_declare, data?_add] at hdata'
    split at hdata'
    next =>
      cases hdata'
      exact hkind
    next => exact h.late id data' hdata' hid
  names place' ids hmem := by
    obtain ⟨hne, tree, hdocument, f, hf, hindex, hnames⟩ := h.names place' ids hmem
    exact ⟨hne, tree, hdocument, f, hf, hindex,
      hnames.grows ((Grows.add t data).trans (Grows.declare _ _ _))⟩

end Coherent

def PassedLocals (document : DocumentId) (tree : Tree) (k : Nat) (t : SymbolTable) : Prop :=
  ∀ data ∈ t.symbols, data.kind = .localVariable → ∀ d ∈ data.declarations,
    d.place.document = document →
    ∃ f ∈ tree.tokens, f.leaf.index < k ∧ f.leaf.text ≠ "" ∧ f.leaf.span = d.nameSpan

theorem PassedLocals.weaken {document : DocumentId} {tree : Tree} {k l : Nat}
    (h : PassedLocals document tree k t) (hkl : k ≤ l) : PassedLocals document tree l t := by
  intro data hdata hkind d hd hdocument
  obtain ⟨f, hf, hlt, htext, hspan⟩ := h data hdata hkind d hd hdocument
  exact ⟨f, hf, Nat.lt_of_lt_of_le hlt hkl, htext, hspan⟩

theorem symbols_bind (t : SymbolTable) (place : Place) (ids : List SymbolId) :
    (t.bind place ids).symbols = t.symbols := by
  rw [bind]
  split <;> rfl

theorem declared_bind (t : SymbolTable) (place : Place) (ids : List SymbolId) :
    (t.bind place ids).declared = t.declared := by
  rw [bind]
  split <;> rfl

end SymbolTable

/-! ## Bodies -/

namespace Binding

open SymbolTable

variable {documents : List (DocumentId × Tree)} {count : Nat} {tree : Tree} {ctx : BodyContext}

mutual

/-- The name in a written type stands in it. -/
theorem exists_sited_of_namedType? {above : List PlacedNode} (p : Placed)
    (h : Placed.Sited tree above [p]) {n : PlacedNode} (hname : namedType? p = some n) :
    ∃ above', Placed.Sited tree above' [n.placed] ∧ n.kind.isName := by
  cases p with
  | token => cases hname
  | node info children =>
    rw [namedType?] at hname
    split at hname
    next => exact exists_sited_of_firstNamedType? children h.children hname
    next => exact exists_sited_of_firstNamedType? children h.children hname
    next hkind =>
      cases hname
      exact ⟨above, h, by rw [PlacedNode.kind, hkind]; rfl⟩
    next hkind =>
      cases hname
      exact ⟨above, h, by rw [PlacedNode.kind, hkind]; rfl⟩
    next => cases hname

theorem exists_sited_of_firstNamedType? {above : List PlacedNode} (ps : List Placed)
    (h : Placed.Sited tree above ps) {n : PlacedNode} (hname : firstNamedType? ps = some n) :
    ∃ above', Placed.Sited tree above' [n.placed] ∧ n.kind.isName := by
  cases ps with
  | nil => cases hname
  | cons p ps =>
    cases p with
    | token => exact exists_sited_of_firstNamedType? ps h.tail hname
    | node info children => exact exists_sited_of_namedType? (.node info children) h.head hname

end

/-- What holds while the names of a body are bound and all tokens below `k` have been passed. -/
structure Coherent (documents : List (DocumentId × Tree)) (count : Nat) (document : DocumentId)
    (tree : Tree) (k : Nat) (s : BodyState) : Prop where
  table : SymbolTable.Coherent documents count s.table
  passed : PassedLocals document tree k s.table
  scopes : s.table.NamesScopes s.scopes

/-- A name is bound to symbols that go by it. -/
theorem Coherent.bind {k l : Nat} {s : BodyState}
    (h : Coherent documents count ctx.document tree k s) (hkl : k ≤ l)
    (hdocument : (ctx.document, tree) ∈ documents) {f : TokenFocus} (hf : f ∈ tree.tokens)
    {ids : List SymbolId}
    (hlinked : Linked documents (s.table.bind ⟨ctx.document, f.leaf.index⟩ ids))
    (hnames : s.table.AllNamed f.leaf.text ids) :
    Coherent documents count ctx.document tree l
      { s with table := s.table.bind ⟨ctx.document, f.leaf.index⟩ ids } where
  table := h.table.bind hlinked hdocument hf rfl hnames
  passed := by
    rw [PassedLocals, symbols_bind]
    exact h.passed.weaken hkl
  scopes := h.scopes.grows (Grows.bind _ _ _)

/-- The name is the first token of a declarator. -/
theorem index_declarator {first : Nat} {n n' : PlacedNode} {above : List PlacedNode}
    (hsited : Placed.Sited tree above [n.placed]) (halike : n.Alike Eq Eq n')
    (hnumbered : Placed.Numbered first [n'.placed]) (hkind : n.kind = .variableDeclarator)
    {name : PlacedToken} (hname : n.name? = some name) :
    name.index = first ∧ first < first + Placed.tokenCount [n'.placed] ∧
      ∀ a ∈ Placed.tokensOf n.children.tail, first < a.index := by
  obtain ⟨a, value, hchildren, hidentifier⟩ := hsited.exists_declarator hkind
  have hfound : n.identifier? = some a := by
    simp [PlacedNode.identifier?, PlacedNode.childToken?, PlacedNode.childTokens, hchildren,
      Placed.token?, hidentifier]
  rw [PlacedNode.name?, hfound] at hname
  obtain rfl := Option.some.inj (Option.filter_eq_some_iff.mp hname).1
  have htokens : Placed.tokensOf n'.children = Placed.tokensOf n.children :=
    (List.forall₂_eq_eq_eq ▸ halike.children.tokensOf : Placed.tokensOf n.children = Placed.tokensOf
      n'.children).symm
  have hnumbered : Placed.Numbered first n.children := by
    have hchildren' : Placed.Numbered first n'.children := hnumbered.children
    rwa [Placed.Numbered, Placed.tokenCount, htokens] at hchildren'
  rw [hchildren] at hnumbered htokens
  refine ⟨hnumbered.head.index_token, ?_, fun b hb => ?_⟩
  · rw [PlacedNode.placed, Placed.tokenCount_node, Placed.tokenCount, htokens, ← Placed.tokenCount,
      Placed.tokenCount_token]
    omega
  rw [hchildren] at hb
  exact (hnumbered.tail.index_mem hb).1

/-- No local has been declared at a declarator whose value has just been bound. -/
theorem Coherent.notMem_declared {first : Nat} {n n' : PlacedNode}
    {declaration statement : PlacedNode} {above : List PlacedNode} {s s' : BodyState}
    (hnodup : (documents.map (·.1)).Nodup) (hdocument : (ctx.document, tree) ∈ documents)
    (hsited : Placed.Sited tree (declaration :: statement :: above) [n.placed])
    (hstatement : statement.kind = .localDeclarationStatement) (halike : n.Alike Eq Eq n')
    (hnumbered : Placed.Numbered first [n'.placed]) (hkind : n.kind = .variableDeclarator)
    (hvalue : BindsValue (fun k s _ => Coherent documents count ctx.document tree k s) ctx.document
      ctx.document first n n' s s') (h : SymbolTable.Coherent documents count s.table)
    {name : PlacedToken} (hname : n.name? = some name) :
    ⟨ctx.document, n.index⟩ ∉ s.table.declared.map (·.1) := by
  intro hmem
  obtain ⟨⟨_, id⟩, hmem, rfl⟩ := List.mem_map.mp hmem
  obtain ⟨data, hdata, ⟨hdeclares, d, hd, hplace, leaf, hleaf, hspan, _⟩ | ⟨_, hscope⟩⟩ :=
    h.exists_declares hnodup hdocument hsited.focus_mem hmem
  swap
  · rw [show n.kind = _ from hkind] at hscope
    exact Bool.false_ne_true hscope
  obtain rfl := Option.some.inj (hname.symm.trans hleaf)
  have hlocal : data.kind = .localVariable := by
    cases hkind' : data.kind <;> rw [hkind'] at hdeclares <;> try rfl
    case field =>
      obtain ⟨_, _, _, _, habove, _, hmember, _⟩ := hdeclares
      cases habove
      rw [hstatement] at hmember
      cases hmember
    all_goals simp [Focus.Declares, Focus.IsProperty, hkind] at hdeclares
  have hfocus := Tree.nameFocus_mem hsited.focus_mem hname
  obtain ⟨hfirst, _, hbehind⟩ := index_declarator hsited halike hnumbered hkind hname
  obtain ⟨s₀, _, hbefore, ⟨new, hsymbols, hnew⟩, _⟩ := hvalue
  have hmem : data ∈ s.table.symbols := List.mem_of_getElem? hdata
  rw [hsymbols] at hmem
  obtain hold | hadded := List.mem_append.mp hmem
  · obtain ⟨g, hg, hlt, htext, hgspan⟩ :=
      hbefore.passed data hold hlocal d hd (congrArg Place.document hplace)
    have hleaf :=
      eq_of_span (Tree.leaf_mem hg) (Tree.leaf_mem hfocus) htext (hgspan.trans hspan.symm)
    rw [hleaf, hfirst] at hlt
    exact Nat.lt_irrefl _ hlt
  · obtain ⟨_, leaf, hleafMem, htext, hleafSpan⟩ := (hnew data hadded).2 d hd
    obtain ⟨g, hg, rfl, _⟩ :=
      Tree.exists_tokenFocus hsited.focus_mem (Placed.tokensOf_tail_subset _ hleafMem)
    have hleaf :=
      eq_of_span (Tree.leaf_mem hg) (Tree.leaf_mem hfocus) htext (hleafSpan.trans hspan.symm)
    have hlt := hbehind _ hleafMem
    rw [hleaf, hfirst] at hlt
    exact Nat.lt_irrefl _ hlt

section Lockstep

variable (hdocument : (ctx.document, tree) ∈ documents)
include hdocument

/-- A written type is bound at its last identifier, to a symbol with that name. -/
theorem coherent_type (hwords : ∀ d ∈ documents, d.2.HasWords) {n n' : PlacedNode}
    {above : List PlacedNode} {first : Nat} (hsited : Placed.Sited tree above [n.placed])
    (halike : n.Alike Eq Eq n') (hnumbered : Placed.Numbered first [n'.placed])
    (htype : n.kind.isType) (hrename : ∀ f ∈ n.placed.tokenFoci above, ¬f.IsRenamable)
    {s : BodyState} (h : Coherent documents count ctx.document tree first s) :
    Coherent documents count ctx.document tree (first + Placed.tokenCount [n'.placed])
      (type ctx n s).2 := by
  have hlinked : Linked documents (type ctx n s).2.table :=
    (lockstep_linked hdocument).type hsited halike hnumbered htype hrename s s h.table.toLinked
      trivial
  rw [type_run] at hlinked ⊢
  split
  next name token hfound =>
    rw [hfound] at hlinked
    obtain ⟨hleaf, _⟩ := typeName?_mem hfound
    rw [← Placed.leaf_tokenFoci above n.placed] at hleaf
    obtain ⟨f, hf, rfl⟩ := List.mem_map.mp hleaf
    have hfocus : f ∈ tree.tokens := hsited.tokens (by simpa [Placed.tokenFociOf] using hf)
    refine h.bind (Nat.le_add_right ..) hdocument hfocus hlinked (allNamed_toList fun id hid => ?_)
    obtain ⟨name', hname, hlast⟩ := Option.bind_eq_some_iff.mp hfound
    obtain ⟨token, htoken, heq⟩ := Option.map_eq_some_iff.mp hlast
    obtain ⟨rfl, rfl⟩ := Prod.mk.inj heq
    obtain ⟨above', hsited', hisName⟩ := exists_sited_of_namedType? n.placed hsited hname
    exact h.table.name_of_written hwords (hwords _ hdocument) hsited' hisName htoken hid
  next => exact ⟨h.table, h.passed.weaken (Nat.le_add_right ..), h.scopes⟩

/-- A simple name is bound to symbols that go by it. -/
theorem coherent_simpleName (hwords : ∀ d ∈ documents, d.2.HasWords) {info : NodeInfo}
    {a : PlacedToken} {above : List PlacedNode} {arity? : Option Nat}
    (hsited : Placed.Sited tree above [.node info [.token a]])
    (hname : (TokenFocus.mk a (⟨info, [.token a]⟩ :: above)).isExpressionName) {s : BodyState}
    (h : Coherent documents count ctx.document tree a.index s) :
    Coherent documents count ctx.document tree (a.index + 1)
      (simpleName ctx ⟨info, [.token a]⟩ arity? s).2 := by
  have hsteps : Steps _ _ a.index _ _ (simpleName ctx ⟨info, [.token a]⟩ arity?) :=
    (lockstep_linked hdocument).name hsited rfl hname
  have hlinked : Linked documents (simpleName ctx ⟨info, [.token a]⟩ arity? s).2.table :=
    hsteps s s h.table.toLinked trivial
  have hkind := TokenFocus.IsRenamable.kind_eq (.inl hname)
  have hfocus := hsited.children.tokenFocus_mem
  rw [simpleName_run ctx arity? s hkind] at hlinked ⊢
  split
  next => exact ⟨h.table, h.passed.weaken (Nat.le_succ _), h.scopes⟩
  next htext =>
    rw [if_neg htext] at hlinked
    have hword := (hwords _ hdocument).word _ hfocus hkind htext
    exact h.bind (Nat.le_succ _) hdocument hfocus hlinked
      (h.table.allNamed_lookupSimple hwords h.scopes ctx hword arity?)

/-- The name behind a point is bound to members that go by it. -/
theorem coherent_memberName {info nameInfo : NodeInfo} {receiver : PlacedNode} {dot a : PlacedToken}
    {above : List PlacedNode} {arity? : Option Nat}
    (hsited : Placed.Sited tree above
      [.node info [receiver.placed, .token dot, .node nameInfo [.token a]]])
    (hname :
      (TokenFocus.mk a
        (⟨nameInfo, [.token a]⟩ ::
          ⟨info, [receiver.placed, .token dot, .node nameInfo [.token a]]⟩ ::
          above)).isExpressionName) {s : BodyState}
    (h : Coherent documents count ctx.document tree a.index s) :
    Coherent documents count ctx.document tree (a.index + 1)
      (memberName ctx ⟨info, [receiver.placed, .token dot, .node nameInfo [.token a]]⟩ arity?
        s).2 := by
  have hsteps : Steps _ _ a.index _ _
      (memberName ctx ⟨info, [receiver.placed, .token dot, .node nameInfo [.token a]]⟩ arity?) :=
    (lockstep_linked hdocument).memberName hsited (.refl (fun _ => rfl) (fun _ => rfl) _) rfl hname
  have hlinked : Linked documents
      (memberName ctx ⟨info, [receiver.placed, .token dot, .node nameInfo [.token a]]⟩ arity?
        s).2.table :=
    hsteps s s h.table.toLinked trivial
  have hfocus := hsited.children.tail.tail.head.children.tokenFocus_mem
  rw [memberName_run ctx arity? s (TokenFocus.IsRenamable.kind_eq (.inl hname))] at hlinked ⊢
  split
  next => exact ⟨h.table, h.passed.weaken (Nat.le_succ _), h.scopes⟩
  next htext =>
    rw [if_neg htext] at hlinked
    refine h.bind (Nat.le_succ _) hdocument hfocus hlinked ?_
    rw [accessed]
    split
    next => exact s.table.allNamed_lookupMember _ _ _
    next => exact ⟨List.nodup_nil, nofun⟩

/-- A local goes into the innermost frame under its own name, and its name has just been passed. -/
theorem coherent_declareLocal (hnodup : (documents.map (·.1)).Nodup)
    (houter : ∀ outer ∈ ctx.member? <|> ctx.type?, outer.index < count)
    {declaration statement n n' : PlacedNode} {above : List PlacedNode} {first : Nat}
    (type : LocalType) {s s' : BodyState}
    (hsited : Placed.Sited tree (declaration :: statement :: above) [n.placed])
    (hstatement : statement.kind = .localDeclarationStatement) (halike : n.Alike Eq Eq n')
    (hnumbered : Placed.Numbered first [n'.placed]) (hkind : n.kind = .variableDeclarator)
    (hvalue : BindsValue (fun k s _ => Coherent documents count ctx.document tree k s) ctx.document
      ctx.document first n n' s s')
    (h : Coherent documents count ctx.document tree (first + Placed.tokenCount [n'.placed]) s) :
    Coherent documents count ctx.document tree (first + Placed.tokenCount [n'.placed])
      (declareLocal ctx type n s).2 := by
  have hlinked : Linked documents (declareLocal ctx type n s).2.table :=
    @(lockstep_linked hdocument).declareLocal _ _ _ _ _ _ type type s s' hsited hstatement halike
      hnumbered hkind trivial (hvalue.imp fun _ _ _ hsim => hsim.table.toLinked) h.table.toLinked
      trivial
  rw [declareLocal_run] at hlinked ⊢
  split
  next name hname =>
    rw [hname] at hlinked
    have hfresh :=
      Coherent.notMem_declared hnodup hdocument hsited hstatement halike hnumbered hkind
        hvalue h.table hname
    let data := localData ctx type n name s
    have hgrows := (Grows.add s.table data).trans
      (Grows.declare _ ⟨ctx.document, n.index⟩ (s.table.add data).1)
    refine ⟨h.table.introduce hlinked rfl (List.forall_mem_singleton.mpr rfl) houter hfresh, ?_, ?_⟩
    · obtain ⟨hindex, hlt, _⟩ := index_declarator hsited halike hnumbered hkind hname
      intro data hdata hkind d hd hdocument'
      obtain hdata | hdata := List.mem_append.mp hdata
      · exact h.passed data hdata hkind d hd hdocument'
      · obtain rfl := List.mem_singleton.mp hdata
        obtain rfl := List.mem_singleton.mp hd
        have hfocus := Tree.nameFocus_mem hsited.focus_mem hname
        exact ⟨_, hfocus, hindex ▸ hlt, (PlacedNode.name?_mem hname).2.2, rfl⟩
    · exact (h.scopes.grows hgrows).insert ⟨_, by rw [data?_declare, data?_add, if_pos rfl], rfl⟩
  next => exact h

/-- Binding in a document of the project keeps its table coherent. -/
theorem lockstep_coherent (hwords : ∀ d ∈ documents, d.2.HasWords)
    (hnodup : (documents.map (·.1)).Nodup)
    (houter : ∀ outer ∈ ctx.member? <|> ctx.type?, outer.index < count) :
    Lockstep Eq Eq tree ctx ctx (fun _ _ => True) (fun _ _ _ => True)
      (fun k s _ => Coherent documents count ctx.document tree k s) where
  keeps := keepsTokens_eq
  earlier _ _ _ := trivial
  skip h hkl := ⟨h.table, h.passed.weaken hkl, h.scopes⟩
  enter h := ⟨h.table, h.passed, List.forall_mem_cons.mpr ⟨nofun, h.scopes⟩⟩
  leave h := ⟨h.table, h.passed, fun frame hframe => h.scopes frame (List.mem_of_mem_tail hframe)⟩
  type hsited halike hnumbered htype hrename _ _ h _ :=
    coherent_type hdocument hwords hsited halike hnumbered htype hrename h
  name hsited ha hname := by
    obtain rfl := ha
    exact fun _ _ h _ => coherent_simpleName hdocument hwords hsited hname h
  memberName hsited _ ha hname := by
    obtain rfl := ha
    exact fun _ _ h _ => coherent_memberName hdocument hsited hname h
  localType _ _ _ _ := trivial
  declareLocal hsited hstatement halike hnumbered hkind _ hvalue h _ :=
    coherent_declareLocal hdocument hnodup houter _ hsited hstatement halike hnumbered hkind hvalue
      h

end Lockstep

end Binding

/-! ## Documents -/

namespace SymbolTable

variable {documents : List (DocumentId × Tree)} {count : Nat} {document : DocumentId} {tree : Tree}
  {t : SymbolTable}

/-- The members of a document keep the table coherent one after another. -/
theorem lockstep_coherent (hwords : ∀ d ∈ documents, d.2.HasWords)
    (hnodup : (documents.map (·.1)).Nodup) (hdocument : (document, tree) ∈ documents) :
    Lockstep Eq Eq tree document (fun type? _ => ∀ id ∈ type?, id.index < count) (fun _ _ _ => True)
      (fun k t _ => Coherent documents count t ∧ PassedLocals document tree k t) where
  keeps := keepsTokens_eq
  earlier _ _ _ := trivial
  skip h hkl := ⟨h.1, h.2.weaken hkl⟩
  declared {n n' above k t t'} hsited _ hkind h := by
    intro id hid
    refine h.1.lt_of_declared? hnodup hdocument hsited.focus_mem ?_ hid
    rintro hdeclarator
    obtain hkind | hkind := hkind <;> cases hkind.symm.trans hdeclarator
  member {n n' above first type? type?'} hown hsited halike hnumbered hparts := by
    intro t t' h _
    dsimp only
    rw [bindElement_member t type? hparts]
    let ctx := t.memberContext document type? n
    have hnot : n.kind ≠ .variableDeclarator := by
      rintro heq
      rw [heq] at hparts
      exact Bool.false_ne_true hparts
    have houter : ∀ outer ∈ ctx.member? <|> ctx.type?, outer.index < count := by
      intro outer houter
      simp only [Option.orElse_eq_orElse, Option.orElse_eq_or, Option.mem_def,
        Option.or_eq_some_iff] at houter
      obtain hmember | ⟨_, htype⟩ := houter
      · exact h.1.lt_of_declared? hnodup hdocument hsited.focus_mem hnot
          (Option.ite_none_left_eq_some.mp hmember).2
      · exact hown outer htype
    have hstart : Binding.Coherent documents count document tree
        first { table := t, scopes := t.memberScopes document n } :=
      ⟨h.1, h.2, t.namesScopes_memberScopes document n⟩
    have L (b : Bool) : Binding.Lockstep Eq Eq tree (ctx.assigning b) (ctx.assigning b)
        (fun _ _ => True) (fun _ _ _ => True)
        (fun k s _ => Binding.Coherent documents count document tree k s) :=
      Binding.lockstep_coherent hdocument hwords hnodup houter
    have hend :=
      Binding.steps_memberParts L hsited halike hnumbered hparts
        { table := t, scopes := t.memberScopes document n }
      { table := t' } hstart trivial
    exact ⟨hend.table, hend.passed⟩

/-- Names are bound to symbols that go by them, in a document where no local has been declared. -/
theorem Coherent.bindDocument (h : Coherent documents count t)
    (hwords : ∀ d ∈ documents, d.2.HasWords) (hnodup : (documents.map (·.1)).Nodup)
    (hdocument : (document, tree) ∈ documents) (hconforms : tree.root.element.Conforms)
    (hnew : ∀ data ∈ t.symbols, data.kind = .localVariable → ∀ d ∈ data.declarations,
      d.place.document ≠ document) : Coherent documents count (t.bindDocument document tree) :=
  (@steps_bindAll _ _ _ _ _ _ _ (lockstep_coherent hwords hnodup hdocument) _ 0 none none nofun _ _
    (tree.sited hconforms)
    (.refl (fun _ => rfl) (fun _ => rfl) _) tree.numbered t t
    ⟨h, fun data hdata hkind d hd heq => absurd heq (hnew data hdata hkind d hd)⟩ trivial).1

/-- The places of all nodes are different. -/
theorem nodup_places (hnodup : (documents.map (·.1)).Nodup) :
    (documents.flatMap fun d => placesOf d.1 (Placed.nodesOf d.2.top.children)).Nodup := by
  refine List.nodup_flatMap.mpr ⟨fun d _ => ?_, ?_⟩
  · refine List.Nodup.of_map Place.index ?_
    rw [placesOf, List.map_map]
    exact d.2.nodup_nodesOf
  · refine (List.pairwise_map.mp hnodup).imp fun hne place hplace hplace' => hne ?_
    obtain ⟨_, _, rfl⟩ := List.mem_map.mp hplace
    obtain ⟨_, _, heq⟩ := List.mem_map.mp hplace'
    exact (congrArg Place.document heq).symm

/-- No node is noted twice. -/
theorem nodup_declared (hnodup : (documents.map (·.1)).Nodup) :
    ((declareDocuments documents).declared.map (·.1)).Nodup := by
  obtain ⟨new, heq, hsublist⟩ := (extends_declareDocuments documents).declared
  rw [heq, show (empty.declared.map (·.1)) = [] from rfl, List.append_nil, ← List.nodup_reverse]
  exact (nodup_places hnodup).sublist hsublist

/-- The table after the first pass is coherent. -/
theorem coherent_declareDocuments (hnodup : (documents.map (·.1)).Nodup) :
    Coherent documents (declareDocuments documents).symbols.length
      (declareDocuments documents) := by
  refine ⟨⟨(extends_declareDocuments documents).sound, ?_⟩, isNoted_declareDocuments _,
    isLayered_declareDocuments _, nodup_declared hnodup, Nat.le_refl _, fun id data hdata hid => ?_,
    ?_⟩
  · simp [bindings_declareDocuments]
  · exact absurd (List.getElem?_eq_some_iff.mp hdata).1 (Nat.not_lt_of_le hid)
  · simp [bindings_declareDocuments]

/-- So is the table of a project. -/
theorem coherent_build (hconforms : ∀ d ∈ documents, d.2.root.element.Conforms)
    (hwords : ∀ d ∈ documents, d.2.HasWords) (hnodup : (documents.map (·.1)).Nodup) :
    Coherent documents (declareDocuments documents).symbols.length (build documents) := by
  suffices hfold : ∀ rest : List (DocumentId × Tree), rest ⊆ documents → (rest.map (·.1)).Nodup →
    ∀ t : SymbolTable, Coherent documents (declareDocuments documents).symbols.length t →
      (∀ data ∈ t.symbols, data.kind = .localVariable → ∀ d ∈ data.declarations, ∀ e ∈ rest,
        d.place.document ≠ e.1) →
      Coherent documents (declareDocuments documents).symbols.length
        (rest.foldl (fun t d => t.bindDocument d.1 d.2) t) by
    rw [build_eq]
    refine hfold documents (fun _ h => h) hnodup _ (coherent_declareDocuments hnodup)
      fun data hdata hkind => ?_
    obtain ⟨i, hi⟩ := List.getElem?_of_mem hdata
    exact absurd hkind (hasNoLocals_declareDocuments documents ⟨i⟩ data hi)
  intro rest
  induction rest with
  | nil => exact fun _ _ _ h _ => h
  | cons d rest ih =>
    intro hsubset hnodup' t ht hnew
    obtain ⟨hd, hrest⟩ := List.cons_subset.mp hsubset
    obtain ⟨hother, hnodup'⟩ := List.nodup_cons.mp hnodup'
    refine ih hrest hnodup' _ (ht.bindDocument hwords hnodup hd (hconforms d hd)
      fun data hdata hkind e he => hnew data hdata hkind e he d List.mem_cons_self)
      fun data hdata hkind e he e' he' => ?_
    obtain ⟨_, more, hsymbols, hmore⟩ :=
      @staysWithin_bindAll (fun _ => True) t d.1 none d.2.top.children fun _ _ _ _ => trivial
    dsimp only at hdata
    rw [SymbolTable.bindDocument, hsymbols] at hdata
    obtain hdata | hdata := List.mem_append.mp hdata
    · exact hnew data hdata hkind e he e' (List.mem_cons_of_mem _ he')
    · rw [((hmore data hdata).2 e he).1]
      rintro heq
      exact hother (List.mem_map.mpr ⟨e', he', heq.symm⟩)

end SymbolTable

end AutoProperty
