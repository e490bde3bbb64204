import AutoProperty.Proofs.Symbol.BindingOrder
import AutoProperty.Proofs.Symbol.Entries
import AutoProperty.Proofs.Symbol.Revision

/-! # Declaring a revised project

The first pass over the second version of a project declares what it declares in the first
version, but for the fields that were taken out: all other symbols keep their keys.
-/

namespace AutoProperty

/-! ## Heads of declarations -/

section Heads

variable {tree : Tree} {leaf : PlacedToken → PlacedToken → Prop} {node : Nat → Nat → Prop}
  {above : List PlacedNode} {n n' : PlacedNode}

theorem PlacedNode.SameHead.type? (h : n.SameHead leaf node n') :
    Option.Rel (PlacedNode.Alike leaf node) n.type? n'.type? :=
  h.typed Kind.isType fun _ => id

/-- The text of the type that a declaration writes is the same. -/
theorem PlacedNode.SameHead.typeText?_eq (h : n.SameHead leaf node n') (hleaf : Rewords tree leaf)
    (hsited : Placed.Sited tree above [n.placed]) (hn : ¬isExpressionContext n.kind) :
    n'.typeText? = n.typeText? :=
  SymbolTable.typeText?_eq_of_rel hleaf hsited hn h.type?

end Heads

/-- Nodes stand at one place in both versions, or in none. -/
theorem Revisions.Follows.nodePlaces {R : Revisions} (hR : R.Follows) {r s : Revision}
    (hr : r ∈ R.revisions) (hs : s ∈ R.revisions) {i i' j j' : Nat} (hi : r.node i i')
    (hj : s.node j j') :
    (⟨s.document, j⟩ : Place) = ⟨r.document, i⟩ ∧ (⟨s.document, j'⟩ : Place) = ⟨r.document, i'⟩ ∨
      (⟨s.document, j⟩ : Place) ≠ ⟨r.document, i⟩ ∧
      (⟨s.document, j'⟩ : Place) ≠ ⟨r.document, i'⟩ := by
  by_cases hdocument : s.document = r.document
  swap
  · exact .inr ⟨fun h => hdocument (Place.mk.inj h).1, fun h => hdocument (Place.mk.inj h).1⟩
  obtain rfl : s = r := List.inj_on_of_nodup_map hR.nodup hs hr hdocument
  have hiff := (hR.follows hr).nodes hi hj
  by_cases hindex : j = i
  · exact .inl ⟨congrArg _ hindex, congrArg _ (hiff.mpr hindex)⟩
  · exact .inr ⟨fun h => hindex (Place.mk.inj h).2, fun h => hindex (hiff.mp (Place.mk.inj h).2)⟩

namespace SymbolTable

/-- The fields that are taken out go by keys that are gone, and those that are kept never ask
for one. -/
structure Spares (R : Revisions) : Prop extends R.Follows where
  spared {id : SymbolId} {data : SymbolData} {d : Declaration} : (declareDocuments R.before).data?
    id = some data →
    data.kind = .field → d ∈ data.declarations →
    (∃ r ∈ R.revisions, d.place.document = r.document ∧ ∃ i', r.node d.place.index i') →
    ∀ outer?, (declareDocuments R.before).HasKey? data.container? outer? →
    ∀ number, IsNumber number →
      ¬R.gone (Key.within outer? .field (data.name ++ number))
  removed {id : SymbolId} {data : SymbolData} {d : Declaration} : (declareDocuments R.before).data?
    id = some data →
    data.kind = .field → d ∈ data.declarations → (∃ r ∈ R.revisions, d.place.document = r.document ∧
      ∃ p, r.change.dropped p ∧ ∃ n ∈ p.nodes, d.place.index = n.index) → R.gone data.key

/-- What holds of the tables of the two versions while symbols are declared. -/
structure Redeclares (R : Revisions) (t u : SymbolTable) : Prop where
  images : Images R.gone t u
  keyed : t.IsKeyed
  keyed' : u.IsKeyed
  clear' : u.IsClear R.gone
  noted : ∀ r ∈ R.revisions, ∀ f ∈ r.tree.nodes, f.node.kind ≠ .variableDeclarator →
    ∀ i', r.node f.node.index i' →
    Option.Rel (SameKey t u) (t.declared? ⟨r.document, f.node.index⟩) (u.declared? ⟨r.document, i'⟩)

variable {R : Revisions} {r : Revision} {t t₂ u u₂ : SymbolTable} {i j : SymbolId}
  {c? c?' : Option SymbolId}

theorem declared?_declare_self (t : SymbolTable) (place : Place) (id : SymbolId) :
    (t.declare place id).declared? place = some id := by
  rw [declared?, declare, List.lookup_cons, beq_self_eq_true]

theorem declared?_declare_of_ne (t : SymbolTable) {place place' : Place} (id : SymbolId)
    (h : place' ≠ place) : (t.declare place id).declared? place' = t.declared? place' := by
  rw [declared?, declared?, declare, List.lookup_cons, beq_eq_false_iff_ne.mpr h]

namespace Redeclares

theorem empty (R : Revisions) : Redeclares R .empty .empty where
  images := ⟨fun _ _ h => (by cases h), fun _ _ h => (by cases h), fun _ _ _ _ h => (by cases h)⟩
  keyed := ⟨List.nodup_nil, fun _ _ h => (by cases h), fun _ _ h => (by cases h)⟩
  keyed' := ⟨List.nodup_nil, fun _ _ h => (by cases h), fun _ _ h => (by cases h)⟩
  clear' _ _ h := by cases h
  noted _ _ _ _ _ _ _ := .none

/-- Symbols may be added to both tables, or to the first one. -/
theorem of_symbols (h : Redeclares R t u) (ht : Grows t t₂) (hu : Grows u u₂)
    (hdeclared : t₂.declared = t.declared) (hdeclared' : u₂.declared = u.declared)
    (himages : Images R.gone t₂ u₂) (hkeyed : t₂.IsKeyed) (hkeyed' : u₂.IsKeyed)
    (hclear : u₂.IsClear R.gone) : Redeclares R t₂ u₂ where
  images := himages
  keyed := hkeyed
  keyed' := hkeyed'
  clear' := hclear
  noted s hs g hg hkind j' hj' := by
    rw [declared?, declared?, hdeclared, hdeclared']
    exact rel_sameKey_grows (h.noted s hs g hg hkind j' hj') ht hu

/-- A node is noted for its symbol. -/
theorem declare (h : Redeclares R t u) (hR : R.Follows) (hr : r ∈ R.revisions) {k k' : Nat}
    (hk : r.node k k') (hij : SameKey t u i j) :
    Redeclares R (t.declare ⟨r.document, k⟩ i) (u.declare ⟨r.document, k'⟩ j) where
  images := h.images.grows (.declare _ _ _) (.declare _ _ _) (.of_symbols rfl) (.of_symbols rfl)
  keyed := h.keyed.of_symbols rfl
  keyed' := h.keyed'.of_symbols rfl
  clear' := h.clear'.addsNone (.of_symbols rfl)
  noted s hs g hg hkind j' hj' := by
    obtain ⟨heq, heq'⟩ | ⟨hne, hne'⟩ := hR.nodePlaces hr hs hk hj'
    · rw [heq, heq', declared?_declare_self, declared?_declare_self]
      exact .some (hij.grows (.declare _ _ _) (.declare _ _ _))
    · rw [declared?_declare_of_ne _ _ hne, declared?_declare_of_ne _ _ hne']
      exact rel_sameKey_grows (h.noted s hs g hg hkind j' hj') (.declare _ _ _) (.declare _ _ _)

section Adding

variable {data data' : SymbolData} (h : Redeclares R t u) (hkey : data'.key = data.key)
  (hfree : ∀ number, IsNumber number → ¬R.gone { data.key with path := data.key.path ++ number })
  (hresembles : Resembles t u data data') (hkind : data.key.kind = data.kind)
  (hkind' : data'.key.kind = data'.kind) {outer? : Option Key}
  (houter : t.HasKey? data.container? outer?) (houter' : u.HasKey? data'.container? outer?)
include h hkey hfree hresembles hkind hkind' houter houter'

/-- A symbol is added to both tables. -/
theorem add :
    Redeclares R (t.add data).2 (u.add data').2 ∧
      SameKey (t.add data).2 (u.add data').2 (t.add data).1 (u.add data').1 := by
  obtain ⟨himages, hnew⟩ := h.images.add h.keyed h.keyed' hkey hfree hresembles
  exact ⟨h.of_symbols (Grows.add t data) (Grows.add u data') rfl rfl himages
    (h.keyed.add hkind houter.lt)
    (h.keyed'.add hkind' houter'.lt) (h.clear'.add (hkey ▸ hfree)), hnew⟩

/-- A symbol is merged in both tables, or added to both. -/
theorem merge :
    Redeclares R (t.merge data).2 (u.merge data').2 ∧
      SameKey (t.merge data).2 (u.merge data').2 (t.merge data).1 (u.merge data').1 := by
  obtain ⟨himages, hnew⟩ := h.images.merge h.keyed h.keyed' hkey hfree hresembles
  exact ⟨h.of_symbols (Grows.merge t data) (Grows.merge u data') (declared_merge t data)
    (declared_merge u data') himages
    (h.keyed.merge hkind houter.lt) (h.keyed'.merge hkind' houter'.lt)
    (h.clear'.merge (hkey ▸ hfree)), hnew⟩

end Adding

/-- A field that is taken out is declared in the first version only. -/
theorem dropNamed (h : Redeclares R t u) (hR : Spares R) (hr : r ∈ R.revisions) {f : Focus}
    (hf : f ∈ r.tree.nodes) (hkind : f.node.kind = .variableDeclarator) {p : Placed}
    (hp : r.change.dropped p) (hnode : f.node ∈ p.nodes) {outer? : Option Key}
    (houter : t.HasKey? c? outer?) (type? : Option String)
    (hlast : Grows (t.declareNamed r.document f.node c? .field type?) (declareDocuments R.before)) :
    Redeclares R (t.declareNamed r.document f.node c? .field type?) u := by
  rw [declareNamed] at hlast ⊢
  split at hlast
  swap
  next => exact h
  next name _ =>
    let data := t.memberData r.document f.node c? .field name type?
    have hnew : (t.add data).2.data? (t.add data).1 =
        some { data with key := t.freshKey data.key } := by rw [data?_add, if_pos rfl]
    have hgone : R.gone (t.freshKey data.key) := by
      obtain ⟨more, hmore⟩ := hlast (t.add data).1 _ hnew
      refine hR.removed hmore rfl (d := declaration r.document f.node name) ?_
        ⟨r, hr, rfl, p, hp, f.node, hnode, rfl⟩
      exact List.mem_append_left _ (List.mem_singleton_self _)
    have himages : Images R.gone (t.add data).2 u := by
      refine h.images.grows_gone h.clear' (Grows.add t data) fun i data' hdata' => ?_
      rw [data?_add] at hdata'
      split at hdata'
      next => exact .inr (Option.some.inj hdata' ▸ hgone)
      next => exact .inl hdata'
    have hadd : Redeclares R (t.add data).2 u :=
      h.of_symbols (Grows.add t data) (.refl u) rfl rfl himages
        (h.keyed.add (t.kind_childKey ..) houter.lt) h.keyed' h.clear'
    refine ⟨hadd.images.grows (.declare _ _ _) (.refl u) (.of_symbols rfl) (.of_symbols rfl),
      hadd.keyed.of_symbols rfl, h.keyed', h.clear', fun s hs g hg hother j' hj' => ?_⟩
    have hne : (⟨s.document, g.node.index⟩ : Place) ≠ ⟨r.document, f.node.index⟩ := by
      intro heq
      obtain ⟨hdocument, hindex⟩ := Place.mk.inj heq
      obtain rfl : s = r := List.inj_on_of_nodup_map hR.nodup hs hr hdocument
      exact hother (Tree.focus_eq hg hf hindex ▸ hkind)
    show Option.Rel _ (((t.add data).2.declare _ _).declared? _) _
    rw [declared?_declare_of_ne _ _ hne]
    exact rel_sameKey_grows (hadd.noted s hs g hg hother j' hj') (.declare _ _ _) (.refl u)

section Members

variable (hR : Spares R) (hr : r ∈ R.revisions) {above : List PlacedNode} {n n' : PlacedNode}
include hR hr

/-- A node that declares a symbol if it has a name. -/
theorem declareNamed (h : Redeclares R t u) (hsited : Placed.Sited r.tree above [n.placed])
    (hhead : n.SameHead r.leaf r.node n') (hn : declaresName n.kind) (kind : SymbolKind)
    (hkind : kind ≠ .localVariable) (hc : Option.Rel (SameKey t u) c? c?')
    {type? type?' : Option String} (htype : type?' = type?)
    (hlast : Grows (t.declareNamed r.document n c? kind type?) (declareDocuments R.before)) :
    Redeclares R (t.declareNamed r.document n c? kind type?)
      (u.declareNamed r.document n' c?' kind type?') := by
  rw [SymbolTable.declareNamed] at hlast ⊢
  rw [SymbolTable.declareNamed]
  obtain ⟨hnone, hnone'⟩ | ⟨name, name', hname, hname', hnames⟩ := rel_cases hhead.name?
  · rw [hnone, hnone']
    exact h
  rw [hname] at hlast ⊢
  rw [hname', htype]
  dsimp only at hlast ⊢
  have htext : name'.text = name.text :=
    (hR.follows hr).names _ hsited.focus_mem hn name name' hname hnames
  obtain ⟨outer?, houter, houter'⟩ := exists_hasKey? hc
  let data := t.memberData r.document n c? kind name type?
  let data' := u.memberData r.document n' c?' kind name' type?
  have hkey : data.key = Key.within outer? kind name.text := houter.childKey_eq ..
  have hkey' : data'.key = Key.within outer? kind name.text :=
    (houter'.childKey_eq ..).trans (by rw [htext])
  have hfree (number : String) (hnumber : IsNumber number) :
      ¬R.gone { data.key with path := data.key.path ++ number } := by
    rw [hkey, ← Key.within_append]
    intro hgone
    obtain hfield | hlocal := hR.kinds _ hgone
    · rw [Key.kind_within] at hfield
      subst hfield
      have hnew : (t.add data).2.data? (t.add data).1 =
          some { data with key := t.freshKey data.key } := by
        rw [data?_add, if_pos rfl]
      obtain ⟨more, hmore⟩ := hlast (t.add data).1 _ hnew
      exact hR.spared hmore rfl (d := declaration r.document n name)
        (List.mem_append_left _ (List.mem_singleton_self _))
        ⟨r, hr, rfl, n'.index, hhead.index⟩ outer? (houter.grows ((Grows.add t data).trans hlast))
        number hnumber hgone
    · rw [Key.kind_within] at hlocal
      exact hkind hlocal
  obtain ⟨hadd, hnew⟩ :=
    h.add (hkey'.trans hkey.symm) hfree ⟨htext, rfl, rfl, hc⟩ (t.kind_childKey ..)
      (u.kind_childKey ..) houter houter'
  exact hadd.declare hR.toFollows hr hhead.index hnew

/-- The declarators of fields that are kept, among others that are taken out. -/
theorem declareDeclarators {c : Reshaping} (hwithin : c.Within r.change) {m : PlacedNode}
    {ps ps' : List Placed} (hreshaped : Placed.Reshaped r.leaf r.node c m ps ps')
    {type? : Option String} {t u : SymbolTable} (h : Redeclares R t u)
    (hsited : Placed.Sited r.tree above ps) (hc : Option.Rel (SameKey t u) c? c?')
    (hlast : Grows
      (((ps.filterMap Placed.node?).filter (·.kind == .variableDeclarator)).foldl
        (fun t declarator => t.declareNamed r.document declarator c? .field type?) t)
        (declareDocuments R.before)) :
    Redeclares R
      (((ps.filterMap Placed.node?).filter (·.kind == .variableDeclarator)).foldl
        (fun t declarator => t.declareNamed r.document declarator c? .field type?) t)
        (((ps'.filterMap Placed.node?).filter (·.kind == .variableDeclarator)).foldl
          (fun t declarator => t.declareNamed r.document declarator c?' .field type?) u) := by
  have hmodest := (hR.follows hr).modest.within hwithin
  have hgrows (ns : List PlacedNode) (t : SymbolTable) :
      Grows t
        (ns.foldl (fun t declarator => t.declareNamed r.document declarator c? .field type?) t) :=
    .foldl (fun t declarator => t.grows_declareNamed _ _ _ _ _) ns t
  induction hreshaped generalizing t u with
  | nil => exact h
  | @keep _ p p' ps ps' _ halike _ ih =>
    cases p with
    | token =>
      obtain ⟨_, rfl, _⟩ := halike.exists_token
      exact ih h hsited.tail hc hlast
    | node info children =>
      obtain ⟨n', rfl, hnode⟩ := @PlacedNode.Alike.exists_placed _ _ ⟨info, children⟩ _ halike
      simp only [List.filterMap_cons, Placed.node?, PlacedNode.placed, List.filter_cons] at hlast ⊢
      have hkind' : n'.kind = info.kind := hnode.kind
      rw [show (PlacedNode.mk n'.info n'.children).kind = info.kind from hkind']
      rw [show (PlacedNode.mk info children).kind = info.kind from rfl] at hlast ⊢
      split at hlast
      next hkind =>
        rw [if_pos hkind, if_pos hkind]
        have hhead :=
          (hnode.reshaped r.change).sameHead (hR.follows hr).toKeepsTokens (hR.follows hr).modest
        have hfirst :=
          h.declareNamed hR hr hsited.head hhead
            (by rw [show (PlacedNode.mk info children).kind = _ from eq_of_beq hkind]; rfl)
          .field (by decide) hc (Eq.refl type?) ((hgrows _ _).trans hlast)
        exact ih hfirst hsited.tail
          (rel_sameKey_grows hc (t.grows_declareNamed _ _ _ _ _) (u.grows_declareNamed _ _ _ _ _))
          hlast
      next hkind =>
        rw [if_neg hkind, if_neg hkind]
        exact ih h hsited.tail hc hlast
  | @inside _ n n' ps ps' hopened _ hkind' _ _ _ ih =>
    have hkind : (n.kind == .variableDeclarator) = false := by
      have := hmodest.opened hopened
      revert this
      cases n.kind <;> decide
    simp only [List.filterMap_cons, Placed.node?, PlacedNode.placed, List.filter_cons] at hlast ⊢
    rw [show (PlacedNode.mk n.info n.children).kind = n.kind from rfl, hkind] at hlast ⊢
    rw [show (PlacedNode.mk n'.info n'.children).kind = n.kind from hkind', hkind]
    exact ih h hsited.tail hc hlast
  | @drop _ p ps ps' hdropped _ ih =>
    cases p with
    | token => exact ih h hsited.tail hc hlast
    | node info children =>
      simp only [List.filterMap_cons, Placed.node?, List.filter_cons] at hlast ⊢
      split at hlast
      next hkind =>
        rw [if_pos hkind]
        obtain ⟨outer?, houter, _⟩ := exists_hasKey? hc
        have hfirst :=
          h.dropNamed hR hr hsited.head.focus_mem (eq_of_beq hkind) (hwithin.dropped hdropped)
            (List.mem_cons_self) houter
          type? ((hgrows _ _).trans hlast)
        exact ih hfirst hsited.tail
          (rel_sameKey_grows hc (t.grows_declareNamed _ _ _ _ _) (.refl u)) hlast
      next hkind =>
        rw [if_neg hkind]
        exact ih h hsited.tail hc hlast
  | @add _ p' ps ps' hadded _ ih =>
    cases p' with
    | token => exact ih h hsited hc hlast
    | node info children =>
      have hkind : ((PlacedNode.mk info children).kind == Kind.variableDeclarator) = false := by
        have hadded : info.kind ≠ .identifierToken ∧
            (info.kind.isToken ∨ info.kind = .accessorList ∨ info.kind = .equalsValueClause) :=
          hmodest.added hadded
        revert hadded
        show _ → (info.kind == Kind.variableDeclarator) = false
        cases info.kind <;> decide
      simp only [List.filterMap_cons, Placed.node?, List.filter_cons, hkind]
      exact ih h hsited hc hlast

/-- Field declarations declare the same fields but for those that are gone. -/
theorem declareFields (h : Redeclares R t u) (hsited : Placed.Sited r.tree above [n.placed])
    (hn : n.Reshaped r.leaf r.node r.change n') (hc : Option.Rel (SameKey t u) c? c?')
    (hlast : Grows (t.declareFields r.document n c?) (declareDocuments R.before)) :
    Redeclares R (t.declareFields r.document n c?) (u.declareFields r.document n' c?') := by
  have hF := hR.follows hr
  rw [declareFields_eq] at hlast ⊢
  rw [declareFields_eq]
  obtain ⟨hnone, hnone'⟩ | ⟨declaration, declaration', hfound, hfound', hdeclaration⟩ := rel_cases
    (hn.rel_child? .variableDeclaration
      (fun p hp heq => absurd (hF.modest.dropped hp).2 (by rw [heq]; decide))
      fun _ p hp heq => absurd (hF.modest.added hp).2 (by rw [heq]; decide))
  · rw [hnone, hnone']
    exact h
  rw [hfound] at hlast ⊢
  rw [hfound']
  obtain ⟨hmem, hkind⟩ := PlacedNode.child?_some hfound
  have hin := hsited.children.mem (PlacedNode.mem_childNodes.mp hmem)
  have htype : declaration'.typeText? = declaration.typeText? :=
    (hdeclaration.sameHead hF.toKeepsTokens hF.modest).typeText?_eq hF.toRewords hin
      (by rw [hkind]; exact Bool.false_ne_true)
  obtain ⟨c, hwithin, hchildren⟩ := hdeclaration.children
  dsimp only at hlast ⊢
  rw [htype]
  exact h.declareDeclarators hR hr hwithin hchildren hin.children hc hlast

/-- All fields of a declaration are taken out. -/
theorem dropFields (h : Redeclares R t u) (hsited : Placed.Sited r.tree above [n.placed])
    (hdropped : r.change.dropped n.placed) {outer? : Option Key} (houter : t.HasKey? c? outer?)
    (hlast : Grows (t.declareFields r.document n c?) (declareDocuments R.before)) :
    Redeclares R (t.declareFields r.document n c?) u := by
  rw [declareFields_eq] at hlast ⊢
  cases hfound : n.child? .variableDeclaration with
  | none => exact h
  | some declaration =>
    rw [hfound] at hlast
    dsimp only at hlast ⊢
    have hmem := (PlacedNode.child?_some hfound).1
    have hin := hsited.children.mem (PlacedNode.mem_childNodes.mp hmem)
    have hdeclarators : ∀ declarator ∈ declaration.childrenOf .variableDeclarator,
        declarator ∈ declaration.childNodes ∧ declarator.kind = .variableDeclarator :=
        fun declarator hdeclarator =>
      ⟨(List.mem_filter.mp hdeclarator).1, eq_of_beq (List.mem_filter.mp hdeclarator).2⟩
    have hgrows (t : SymbolTable) (declarator : PlacedNode) :=
      t.grows_declareNamed r.document declarator c? .field declaration.typeText?
    generalize declaration.childrenOf .variableDeclarator = declarators at hdeclarators hlast ⊢
    induction declarators generalizing t with
    | nil => exact h
    | cons declarator declarators ih =>
      obtain ⟨⟨hchild, hkind⟩, hothers⟩ := List.forall_mem_cons.mp hdeclarators
      rw [List.foldl_cons] at hlast ⊢
      have hfocus := (hin.children.mem (PlacedNode.mem_childNodes.mp hchild)).focus_mem
      have hnode : declarator ∈ n.placed.nodes :=
        List.mem_cons_of_mem _
          ((PlacedNode.nodesOf_sublist hmem).subset (declaration.childNodes_sublist.subset hchild))
      exact ih
        (h.dropNamed hR hr hfocus hkind hdropped hnode houter _
          ((Grows.foldl hgrows declarators _).trans hlast))
        (houter.grows (hgrows t declarator)) hothers hlast

/-- The parameters of a method are declared. -/
theorem declareParameters {i j : SymbolId} (h : Redeclares R t u)
    (hsited : Placed.Sited r.tree above [n.placed]) {parameters parameters' : List PlacedNode}
    (hparameters : List.Forall₂ (PlacedNode.Alike r.leaf r.node) parameters parameters')
    (hmem : ∀ parameter ∈ parameters, ∃ list ∈ n.childNodes, parameter ∈ list.childNodes ∧
      parameter.kind = .parameter) (hcontainer : SameKey t u i j)
    (hlast : Grows
      (parameters.foldl
        (fun t parameter => t.declareNamed r.document parameter (some i) .parameter
          parameter.typeText?) t) (declareDocuments R.before)) :
    Redeclares R
      (parameters.foldl
        (fun t parameter => t.declareNamed r.document parameter (some i) .parameter
          parameter.typeText?) t)
          (parameters'.foldl
            (fun u parameter => u.declareNamed r.document parameter (some j) .parameter
              parameter.typeText?) u) := by
  have hF := hR.follows hr
  have hgrows (t : SymbolTable) (container? : Option SymbolId) (parameter : PlacedNode) :=
    t.grows_declareNamed r.document parameter container? .parameter parameter.typeText?
  induction hparameters generalizing t u with
  | nil => exact h
  | @cons parameter parameter' parameters parameters' halike _ ih =>
    obtain ⟨⟨list, hlist, hchild, hparameter⟩, hothers⟩ := List.forall_mem_cons.mp hmem
    rw [List.foldl_cons] at hlast ⊢
    rw [List.foldl_cons]
    have hin :=
      (hsited.children.mem (PlacedNode.mem_childNodes.mp hlist)).children.mem
        (PlacedNode.mem_childNodes.mp hchild)
    have hhead := (halike.reshaped r.change).sameHead hF.toKeepsTokens hF.modest
    have htype := hhead.typeText?_eq hF.toRewords hin (by rw [hparameter]; exact Bool.false_ne_true)
    have hfirst :=
      h.declareNamed hR hr hin hhead (by rw [hparameter]; rfl) .parameter (by decide)
        (.some hcontainer) htype
      ((Grows.foldl (fun t => hgrows t _) parameters _).trans hlast)
    exact ih hfirst hothers (hcontainer.grows (hgrows _ _ parameter) (hgrows _ _ parameter')) hlast

/-- A method is declared, and its parameters. -/
theorem declareMethod (h : Redeclares R t u) (hsited : Placed.Sited r.tree above [n.placed])
    (ha : n.Alike r.leaf r.node n')
    (hkind : n.kind = .methodDeclaration ∨ n.kind = .constructorDeclaration)
    (hc : Option.Rel (SameKey t u) c? c?')
    (hlast : Grows (t.declareMethod r.document n c?) (declareDocuments R.before)) :
    Redeclares R (t.declareMethod r.document n c?) (u.declareMethod r.document n' c?') := by
  have hF := hR.follows hr
  have hhead := (ha.reshaped r.change).sameHead hF.toKeepsTokens hF.modest
  have hparameters := alike_parametersOf ha
  have hcontext : ¬isExpressionContext n.kind := by
    obtain hkind | hkind := hkind <;> rw [hkind] <;> exact Bool.false_ne_true
  have hdeclares : declaresName n.kind := by
    obtain hkind | hkind := hkind <;> rw [hkind] <;> rfl
  obtain ⟨hnone, hnone'⟩ | ⟨name, name', hname, hname', hnames⟩ :=
    rel_cases (ha.name? hF.toKeepsTokens)
  · rw [SymbolTable.declareMethod, SymbolTable.declareMethod, hnone, hnone']
    exact h
  rw [declareMethod_eq hname] at hlast ⊢
  rw [declareMethod_eq hname']
  have htext : name'.text = name.text :=
    hF.names _ hsited.focus_mem hdeclares name name' hname hnames
  obtain ⟨outer?, houter, houter'⟩ := exists_hasKey? hc
  let data := t.methodData r.document n c? name
  let data' := u.methodData r.document n' c?' name'
  have hmethod : methodName n' name' = methodName n name := by
    rw [methodName, methodName, ha.kind, htext]
  have hlabel : methodName n' name' ++ "(" ++ toString (parametersOf n').length ++ ")" =
      methodName n name ++ "(" ++ toString (parametersOf n).length ++ ")" := by
        rw [hmethod, hparameters.length_eq]
  have hkey : data'.key = data.key :=
    calc data'.key = Key.within outer? .method _ := houter'.childKey_eq ..
      _ = Key.within outer? .method _ := by rw [hlabel]
      _ = data.key := (houter.childKey_eq ..).symm
  have hresembles : Resembles t u data data' := by
    refine ⟨hmethod, ?_, hparameters.length_eq.symm, hc⟩
    simp only [data, data', methodData, ha.kind, hhead.typeText?_eq hF.toRewords hsited hcontext]
  have hfree (number : String) (_ : IsNumber number) :
      ¬R.gone { data.key with path := data.key.path ++ number } := by
    intro hgone
    have hmethods : data.key.kind = .method := t.kind_childKey ..
    obtain hkind | hkind := hR.kinds _ hgone <;> cases hmethods.symm.trans hkind
  obtain ⟨hadd, hnew⟩ :=
    h.add hkey hfree hresembles (t.kind_childKey ..) (u.kind_childKey ..) houter houter'
  have hnoted := hadd.declare hR.toFollows hr ha.index hnew
  have hcontainer :=
    hnew.grows (.declare _ ⟨r.document, n.index⟩ (t.add data).1)
      (.declare _ ⟨r.document, n'.index⟩ (u.add data').1)
  exact hnoted.declareParameters hR hr hsited hparameters (fun _ => mem_parametersOf) hcontainer
    hlast

end Members

section Scopes

variable (hR : R.Follows)
include hR

/-- A scope is found or added alike in both versions. -/
theorem merge_scope (h : Redeclares R t u) (hc : Option.Rel (SameKey t u) c? c?')
    (data data' : SymbolData) (text : String) (hkind : ¬data.kind.isSingle)
    (hkind' : data'.kind = data.kind) (hkey : data.key = t.childKey c? data.kind text)
    (hkey' : data'.key = u.childKey c?' data.kind text) (hcontainer : data.container? = c?)
    (hcontainer' : data'.container? = c?') (hname : data'.name = data.name)
    (htype : data'.typeName? = data.typeName?) (harity : data'.arity = data.arity) :
    Redeclares R (t.merge data).2 (u.merge data').2 ∧
      SameKey (t.merge data).2 (u.merge data').2 (t.merge data).1 (u.merge data').1 := by
  obtain ⟨outer?, houter, houter'⟩ := exists_hasKey? hc
  have hkinds : data.key.kind = data.kind := hkey ▸ t.kind_childKey ..
  refine h.merge ?_ (fun number _ hgone => ?_) ⟨hname, htype, harity, ?_⟩ hkinds ?_
    (hcontainer.symm ▸ houter) (hcontainer'.symm ▸ houter')
  · rw [hkey, hkey', houter.childKey_eq, houter'.childKey_eq]
  · obtain hgone | hgone :=
      hR.kinds _ hgone <;> rw [show _ = data.kind from hkinds] at hgone <;> rw [hgone] at hkind <;>
      exact hkind (by decide)
  · rw [hcontainer, hcontainer']
    exact hc
  · rw [hkey', hkind']
    exact u.kind_childKey ..

/-- The parts of a namespace's name are declared alike in both versions. -/
theorem declareSegments (h : Redeclares R t u) (hc : Option.Rel (SameKey t u) c? c?')
    (document : DocumentId) (n n' : PlacedNode) {leaf : PlacedToken → PlacedToken → Prop}
    {segments segments' : List PlacedToken}
    (hsegments : List.Forall₂ (fun a a' => leaf a a' ∧ a'.text = a.text) segments segments') :
    Redeclares R (t.declareSegments document n c? segments).2
      (u.declareSegments document n' c?' segments').2 ∧
      Option.Rel
        (SameKey (t.declareSegments document n c? segments).2
          (u.declareSegments document n' c?' segments').2)
          (t.declareSegments document n c? segments).1
          (u.declareSegments document n' c?' segments').1 := by
  induction hsegments generalizing t u c? c?' with
  | nil => exact ⟨h, hc⟩
  | @cons segment segment' segments segments' hsegment _ ih =>
    rw [declareSegments_cons, declareSegments_cons]
    obtain ⟨hmerge, hid⟩ := h.merge_scope hR hc (t.segmentData document n c? segment)
      (u.segmentData document n' c?' segment') segment.text (fun h => h.1 rfl) rfl rfl
      (by simp only [segmentData, hsegment.2]) rfl rfl hsegment.2 rfl rfl
    exact ih hmerge (.some hid)

variable {above : List PlacedNode} {n n' : PlacedNode} (hr : r ∈ R.revisions)
  (hsited : Placed.Sited r.tree above [n.placed]) (hhead : n.SameHead r.leaf r.node n')
include hr hsited hhead

/-- Namespaces are declared alike in both versions. -/
theorem declareNamespace (h : Redeclares R t u) (hc : Option.Rel (SameKey t u) c? c?')
    (hn : ¬isExpressionContext n.kind) :
    Redeclares R (t.declareNamespace r.document n c?).2 (u.declareNamespace r.document n' c?').2 ∧
      Option.Rel
        (SameKey (t.declareNamespace r.document n c?).2 (u.declareNamespace r.document n' c?').2)
        (t.declareNamespace r.document n c?).1 (u.declareNamespace r.document n' c?').1 := by
  have hF := hR.follows hr
  have hwanted (kind : Kind) (h : kind == .identifierName || kind == .qualifiedName) :
      kind.isType := by
    simp only [Bool.or_eq_true, beq_iff_eq] at h
    obtain heq | heq := h <;> rw [heq] <;> rfl
  rw [SymbolTable.declareNamespace, SymbolTable.declareNamespace]
  dsimp only
  obtain ⟨hnone, hnone'⟩ | ⟨name, name', hname, hname', halike⟩ := rel_cases (hhead.typed _ hwanted)
  · rw [hnone, hnone']
    exact ⟨h, hc⟩
  rw [hname, hname']
  have hmem : name ∈ n.childNodes := List.mem_of_find?_eq_some hname
  have hsegments : List.Forall₂ (fun a a' => r.leaf a a' ∧ a'.text = a.text) name.identifiers
      name'.identifiers := by
    refine List.rel_filter (fun a a' h => ?_)
      (typeTexts_eq hF.toRewords (hsited.children.mem (PlacedNode.mem_childNodes.mp hmem))
      (hwanted _ (by simpa using List.find?_some hname)) hn halike)
    simp only [hF.kind h.1, h.2]
  obtain ⟨hdeclared, hids⟩ := h.declareSegments hR hc r.document n n' hsegments
  dsimp only
  generalize t.declareSegments r.document n c? name.identifiers = outcome at hdeclared hids ⊢
  generalize u.declareSegments r.document n' c?' name'.identifiers = outcome' at hdeclared hids ⊢
  obtain ⟨innermost?, t'⟩ := outcome
  obtain ⟨innermost?', u'⟩ := outcome'
  cases hids with
  | none => exact ⟨hdeclared, .none⟩
  | some hid =>
    exact ⟨hdeclared.declare hR hr hhead.index hid,
      .some (hid.grows (.declare _ _ _) (.declare _ _ _))⟩

/-- Types are declared alike in both versions. -/
theorem declareType? (h : Redeclares R t u) (hc : Option.Rel (SameKey t u) c? c?')
    (hn : n.kind = .classDeclaration ∨ n.kind = .structDeclaration) :
    Option.Rel (fun a a' => Redeclares R a.2 a'.2 ∧ SameKey a.2 a'.2 a.1 a'.1)
      (t.declareType? r.document n c?) (u.declareType? r.document n' c?') := by
  have hF := hR.follows hr
  rw [SymbolTable.declareType?_eq, SymbolTable.declareType?_eq]
  obtain ⟨hnone, hnone'⟩ | ⟨name, name', hname, hname', hnames⟩ := rel_cases hhead.name?
  · rw [hnone, hnone']
    exact .none
  rw [hname, hname']
  have htext := typeName_eq hF.toRewords hsited hn hname hnames
  obtain ⟨hmerge, hid⟩ :=
    h.merge_scope hR hc (t.typeData r.document n c? name) (u.typeData r.document n' c?' name')
      name.text (fun h => h.2 rfl) rfl rfl (by simp only [typeData, htext]) rfl rfl htext rfl rfl
  exact .some ⟨hmerge.declare hR hr hhead.index hid, hid.grows (.declare _ _ _) (.declare _ _ _)⟩

/-- A type is declared with what is in it, if the members of a scope are. -/
theorem declareTypeMembers (h : Redeclares R t u) (hc : Option.Rel (SameKey t u) c? c?')
    (hn : n.kind = .classDeclaration ∨ n.kind = .structDeclaration)
    (hscope : n.kind.isScope → ∀ t u c? c?', Redeclares R t u → Option.Rel (SameKey t u) c? c?' →
      Grows (t.declareAll r.document c? n.children) (declareDocuments R.before) →
      Redeclares R (t.declareAll r.document c? n.children)
        (u.declareAll r.document c?' n'.children))
    (hlast : Grows (match t.declareType? r.document n c? with
      | some (id, t) => t.declareAll r.document (some id) n.children
      | none => t) (declareDocuments R.before)) :
    Redeclares R
      (match t.declareType? r.document n c? with
        | some (id, t) => t.declareAll r.document (some id) n.children
        | none => t)
      (match u.declareType? r.document n' c?' with
        | some (id, u) => u.declareAll r.document (some id) n'.children
        | none => u) := by
  obtain ⟨hnone, hnone'⟩ | ⟨⟨id, t'⟩, ⟨id', u'⟩, hsome, hsome', hdeclared, hid⟩ :=
    rel_cases (h.declareType? hR hr hsited hhead hc hn)
  · rw [hnone, hnone']
    exact h
  · rw [hsome] at hlast ⊢
    rw [hsome']
    exact hscope (by obtain hn | hn := hn <;> rw [hn] <;> rfl) _ _ _ _ hdeclared (.some hid) hlast

end Scopes

section Elements

variable (hR : Spares R) (hr : r ∈ R.revisions)
include hR hr

/-- A node is declared, if the members of a scope are. -/
theorem declareNode {above : List PlacedNode} {n n' : PlacedNode} (h : Redeclares R t u)
    (hsited : Placed.Sited r.tree above [n.placed]) (hn : n.Reshaped r.leaf r.node r.change n')
    (hmethod : n.kind = .methodDeclaration ∨ n.kind = .constructorDeclaration →
      n.Alike r.leaf r.node n')
    (hscope : n.kind.isScope → ∀ t u c? c?', Redeclares R t u → Option.Rel (SameKey t u) c? c?' →
      Grows (t.declareAll r.document c? n.children) (declareDocuments R.before) →
      Redeclares R (t.declareAll r.document c? n.children)
        (u.declareAll r.document c?' n'.children)) (hc : Option.Rel (SameKey t u) c? c?')
    (hlast : Grows (t.declareElement r.document c? n.placed) (declareDocuments R.before)) :
    Redeclares R (t.declareElement r.document c? n.placed)
      (u.declareElement r.document c?' n'.placed) := by
  have hF := hR.follows hr
  have hhead := hn.sameHead hF.toKeepsTokens hF.modest
  have hinType : c?'.any u.isType = c?.any t.isType := by
    cases hc with
    | none => rfl
    | some hij => exact h.images.isType_eq h.keyed h.keyed' hij
  have hnamespace (hkind : n.kind = .namespaceDeclaration ∨
      n.kind = .fileScopedNamespaceDeclaration)
      (hlast : Grows
        ((t.declareNamespace r.document n c?).2.declareAll r.document
          (t.declareNamespace r.document n c?).1 n.children)
        (declareDocuments R.before)) :
      Redeclares R
        ((t.declareNamespace r.document n c?).2.declareAll r.document
          (t.declareNamespace r.document n c?).1 n.children)
        ((u.declareNamespace r.document n' c?').2.declareAll r.document
          (u.declareNamespace r.document n' c?').1 n'.children) := by
    have hcontext : ¬isExpressionContext n.kind := by
      obtain hkind | hkind := hkind <;> rw [hkind] <;> exact Bool.false_ne_true
    obtain ⟨hdeclared, hids⟩ := h.declareNamespace hR.toFollows hr hsited hhead hc hcontext
    exact hscope (by obtain hkind | hkind := hkind <;> rw [hkind] <;> rfl) _ _ _ _ hdeclared hids
      hlast
  have hmember {f f' : SymbolTable} (hstep : Grows f (declareDocuments R.before) →
      Redeclares R f f')
      (hlast : Grows (if c?.any t.isType then f else t) (declareDocuments R.before)) :
      Redeclares R (if c?.any t.isType then f else t) (if c?.any t.isType then f' else u) := by
    split at hlast
    next htype =>
      rw [if_pos htype, if_pos htype]
      exact hstep hlast
    next htype =>
      rw [if_neg htype, if_neg htype]
      exact h
  obtain ⟨info, children⟩ := n
  obtain ⟨info', children'⟩ := n'
  have hkind' : info'.kind = info.kind := hn.kind
  rw [PlacedNode.placed, declareElement] at hlast ⊢
  rw [PlacedNode.placed, declareElement, hkind', hinType]
  dsimp only at hlast ⊢
  split at hlast
  next hkind => exact hnamespace (.inl hkind) hlast
  next hkind => exact hnamespace (.inr hkind) hlast
  next hkind => exact h.declareTypeMembers hR.toFollows hr hsited hhead hc (.inl hkind) hscope hlast
  next hkind => exact h.declareTypeMembers hR.toFollows hr hsited hhead hc (.inr hkind) hscope hlast
  next hkind => exact hmember (h.declareFields hR hr hsited hn hc) hlast
  next hkind =>
    refine hmember (h.declareNamed hR hr hsited hhead ?_ .property (by decide) hc ?_) hlast
    · rw [show (PlacedNode.mk info children).kind = _ from hkind]
      rfl
    · exact hhead.typeText?_eq hF.toRewords hsited
        (by rw [show (PlacedNode.mk info children).kind = _ from hkind]; exact Bool.false_ne_true)
  next hkind =>
    exact hmember (h.declareMethod hR hr hsited (hmethod (.inl hkind)) (.inl hkind) hc) hlast
  next hkind =>
    exact hmember (h.declareMethod hR hr hsited (hmethod (.inr hkind)) (.inr hkind) hc) hlast
  next => exact h

/-- The elements of a scope are declared. -/
theorem declareAll {above : List PlacedNode} {m : PlacedNode} {ps ps' : List Placed}
    (hreshaped : Placed.Reshaped r.leaf r.node r.change m ps ps') {t u : SymbolTable}
    {c? c?' : Option SymbolId} (h : Redeclares R t u) (hsited : Placed.Sited r.tree above ps)
    (hc : Option.Rel (SameKey t u) c? c?')
    (hlast : Grows (t.declareAll r.document c? ps) (declareDocuments R.before)) :
    Redeclares R (t.declareAll r.document c? ps) (u.declareAll r.document c?' ps') := by
  have hF := hR.follows hr
  induction hreshaped generalizing above t u c? c?' with
  | nil =>
    rw [SymbolTable.declareAll, SymbolTable.declareAll]
    exact h
  | @keep _ p p' ps ps' hkept halike _ ih =>
    rw [SymbolTable.declareAll] at hlast ⊢
    rw [SymbolTable.declareAll]
    refine ih ?_ hsited.tail
      (rel_sameKey_grows hc (t.grows_declareElement _ _ _) (u.grows_declareElement _ _ _)) hlast
    have hlast := (grows_declareAll _ _ _ _).trans hlast
    cases p with
    | token =>
      obtain ⟨_, rfl, _⟩ := halike.exists_token
      exact h
    | node info children =>
      obtain ⟨n', rfl, hnode⟩ := @PlacedNode.Alike.exists_placed _ _ ⟨info, children⟩ _ halike
      exact h.declareNode hR hr hsited.head (hnode.reshaped r.change) (fun _ => hnode)
        (fun hscope => absurd hscope (hF.kept hkept).1) hc hlast
  | @inside _ n n' ps ps' hopened hindex hkind hchildren _ ihchildren ih =>
    rw [SymbolTable.declareAll] at hlast ⊢
    rw [SymbolTable.declareAll]
    refine ih ?_ hsited.tail
      (rel_sameKey_grows hc (t.grows_declareElement _ _ _) (u.grows_declareElement _ _ _)) hlast
    refine h.declareNode hR hr hsited.head ⟨hindex, hkind, r.change, .refl _, hchildren⟩
      (fun hmethod => ?_)
      (fun _ t u c? c?' h hc hlast => ihchildren h hsited.head.children hc hlast) hc
      ((grows_declareAll _ _ _ _).trans hlast)
    have hmodest := hF.modest.opened hopened
    obtain hmethod | hmethod :=
      hmethod <;> rw [hmethod] at hmodest <;> exact absurd hmodest (by decide)
  | @drop _ p ps ps' hdropped _ ih =>
    rw [SymbolTable.declareAll] at hlast ⊢
    refine ih ?_ hsited.tail (rel_sameKey_grows hc (t.grows_declareElement _ _ _) (.refl u)) hlast
    have hlast := (grows_declareAll _ _ _ _).trans hlast
    cases p with
    | token => exact h
    | node info children =>
      obtain ⟨outer?, houter, _⟩ := exists_hasKey? hc
      have hkind : info.kind ≠ .identifierToken ∧
          (info.kind.isToken ∨ info.kind = .fieldDeclaration ∨ info.kind = .variableDeclarator ∨
          info.kind = .block ∨ info.kind = .arrowExpressionClause) := hF.modest.dropped hdropped
      have hnode : ¬info.kind.isToken := hsited.head.not_isToken (n := ⟨info, children⟩)
      rw [declareElement] at hlast ⊢
      dsimp only at hlast ⊢
      obtain htoken | hfield | hkind | hkind | hkind := hkind.2
      · exact absurd htoken hnode
      · rw [hfield] at hlast ⊢
        dsimp only at hlast ⊢
        split at hlast
        next htype =>
          rw [if_pos htype]
          exact h.dropFields hR hr (n := ⟨info, children⟩) hsited.head hdropped houter hlast
        next htype =>
          rw [if_neg htype]
          exact h
      all_goals
        rw [hkind]
        exact h
  | @add _ p' ps ps' hadded _ ih =>
    rw [SymbolTable.declareAll]
    have hnone : u.declareElement r.document c?' p' = u := by
      cases p' with
      | token => rfl
      | node info children =>
        have hkind : info.kind ≠ .identifierToken ∧
            (info.kind.isToken ∨ info.kind = .accessorList ∨ info.kind = .equalsValueClause) :=
          hF.modest.added hadded
        rw [declareElement]
        split
        all_goals first | rfl | (rename_i heq; rw [heq] at hkind; exact absurd hkind (by decide))
    rw [hnone]
    exact ih h hsited hc hlast

end Elements

end Redeclares

/-- Both versions of a project declare the same, but for what is taken out. -/
theorem redeclares_declareDocuments (hR : Spares R) :
    Redeclares R (declareDocuments R.before) (declareDocuments R.after) := by
  suffices hfold : ∀ rs ⊆ R.revisions, ∀ t u, Redeclares R t u →
      Grows (rs.foldl (fun t r => t.declareDocument r.document r.tree) t)
        (declareDocuments R.before) →
      Redeclares R (rs.foldl (fun t r => t.declareDocument r.document r.tree) t)
        (rs.foldl (fun u r => u.declareDocument r.document r.tree') u) by
    have hall := hfold R.revisions (List.Subset.refl _) _ _ (.empty R)
    rw [declareDocuments, declareDocuments, Revisions.before, Revisions.after, List.foldl_map,
      List.foldl_map] at *
    exact hall (.refl _)
  intro rs hrs
  induction rs with
  | nil => exact fun _ _ h _ => h
  | cons r rs ih =>
    intro t u h hlast
    obtain ⟨hr, hothers⟩ := List.cons_subset.mp hrs
    rw [List.foldl_cons] at hlast ⊢
    refine ih hothers _ _ ?_ hlast
    have hgrows :=
      Grows.foldl
        (fun (t : SymbolTable) (r : Revision) => grows_declareAll t r.document none
          r.tree.top.children) rs
      (t.declareDocument r.document r.tree)
    exact h.declareAll hR hr (hR.follows hr).reshaped (r.tree.sited (hR.follows hr).conforms) .none
      (hgrows.trans hlast)

end SymbolTable

end AutoProperty
