import AutoProperty.Proofs.Symbol.Redeclaring

/-! # Binding a revised project

A project is revised: names in expressions are replaced, or parts are left out, and some symbols
are gone then. Where a document has kept its shape, names are bound again to what they were
bound to, as long as that is not gone. A name that is replaced may mean another symbol, one that
stands for something of the same type.
-/

namespace AutoProperty

namespace SymbolTable

variable {gone : Key → Bool} {t t₂ u u₂ : SymbolTable} {i j : SymbolId}

theorem Clear.before {ids : List SymbolId} (h : u.Clear gone ids)
    (hinitial : t.symbols <+: u.symbols) : t.Clear gone ids := by
  intro i hi hgone
  obtain ⟨data, hdata, hkey⟩ := (Option.any_eq_true ..).mp hgone
  exact h i hi ((isGone_eq (data?_of_initial hinitial hdata)).trans hkey)

theorem Clear.nil : t.Clear gone [] :=
  fun _ hi => absurd hi List.not_mem_nil

/-- Both symbols are declared with one type, seen from one scope. -/
def TypedAlike (t u : SymbolTable) (i j : SymbolId) : Prop :=
  ∃ data data', t.data? i = some data ∧ u.data? j = some data' ∧ data.kind.isSingle ∧
    data'.kind.isSingle ∧
    data'.typeName? = data.typeName? ∧ Option.Rel (SameKey t u) data.container? data'.container?

theorem TypedAlike.grows (h : TypedAlike t u i j) (ht : Grows t t₂) (hu : Grows u u₂) :
    TypedAlike t₂ u₂ i j := by
  obtain ⟨data, data', hdata, hdata', hsingle, hsingle', htype, hcontainer⟩ := h
  obtain ⟨more, hmore⟩ := ht i data hdata
  obtain ⟨more', hmore'⟩ := hu j data' hdata'
  exact ⟨_, _, hmore, hmore', hsingle, hsingle', htype, rel_sameKey_grows hcontainer ht hu⟩

theorem Images.rel_typeOf_typedAlike (h : Images gone t u) (ht : t.IsKeyed) (hu : u.IsKeyed)
    (hkinds : ∀ key, gone key → key.kind ≠ .namedType) (hij : TypedAlike t u i j) :
    Option.Rel (SameKey t u) (t.typeOfSymbol? i) (u.typeOfSymbol? j) := by
  obtain ⟨data, data', hdata, hdata', hsingle, hsingle', htype, hcontainer⟩ := hij
  rw [typeOfSymbol?_eq hdata hsingle, typeOfSymbol?_eq hdata' hsingle']
  exact h.declaredType? ht hu hkinds htype hcontainer

/-- Names that mean neither a local nor anything else that is gone. -/
theorem Clear.of_locals {ids : List SymbolId}
    (h : t.Clear (fun key => gone key && key.kind != .localVariable) ids)
    (hlocals : t.Clear (·.kind == .localVariable) ids) : t.Clear gone ids := by
  intro i hi hgone
  obtain ⟨data, hdata, hkey⟩ := (Option.any_eq_true ..).mp hgone
  refine h i hi ((isGone_eq hdata).trans ?_)
  have hlocal := hlocals i hi
  rw [isGone_eq hdata] at hlocal
  simpa [hkey] using hlocal

def KeepsLocals (gone : Key → Bool) (outer? : Option Key) : Prop :=
  ∀ label : String, '.' ∉ label.toList → ¬gone (Key.within outer? .localVariable label)

theorem KeepsLocals.number {gone : Key → Bool} {outer? : Option Key} (h : KeepsLocals gone outer?)
    {label : String} (hlabel : '.' ∉ label.toList) {number : String} (hnumber : IsNumber number) :
    ¬gone
      { Key.within outer? .localVariable label with path := (Key.within outer? .localVariable
        label).path ++ number } := by
  rw [← Key.within_append]
  refine h _ ?_
  obtain rfl | ⟨n, rfl⟩ := hnumber
  · simpa using hlabel
  · simpa [hlabel] using notMem_toString rfl n

/-! ## What is kept of a project -/

def typeAround? (t : SymbolTable) (document : DocumentId) (above : List PlacedNode) :
    Option SymbolId :=
  (above.find? fun n => n.kind == .classDeclaration || n.kind == .structDeclaration).bind fun n =>
    t.declared? ⟨document, n.index⟩

/-- What holds the locals of a member: the member itself, or else the type around it. -/
def holder? (t : SymbolTable) (document : DocumentId) (f : Focus) : Option SymbolId :=
  t.declared? ⟨document, f.node.index⟩ <|> t.typeAround? document f.above

/-- What is known of a document in two versions of a project. -/
structure Fits (R : Revisions) (r : Revision) : Prop extends r.Follows where
  exchanged {a a' : PlacedToken} : r.leaf a a' → r.replaced a →
    ∃ i j, (build R.before).bound ⟨r.document, a.index⟩ = [i] ∧
    (build R.after).bound ⟨r.document, a'.index⟩ = [j] ∧
    TypedAlike (declareDocuments R.before) (declareDocuments R.after) i j
  clear {a a' : PlacedToken} : r.leaf a a' →
    (build R.before).Clear (fun key => R.gone key && key.kind != .localVariable)
      ((build R.before).bound ⟨r.document, a.index⟩)
  unit : r.tree.root.kind = .compilationUnit
  bodies {f : Focus} {i' : Nat} : f ∈ r.tree.nodes → f.node.kind.hasParts →
    f.node.kind ≠ .fieldDeclaration →
    r.change.kept f.node.placed → r.node f.node.index i' → ∀ outer?,
    (declareDocuments R.before).HasKey? ((declareDocuments R.before).holder? r.document f) outer? →
    KeepsLocals R.gone outer?
  /-- The locals in bodies that are taken out are gone. -/
  bare {f : Focus} {i' : Nat} : f ∈ r.tree.nodes → r.change.opened f.node →
    f.node.kind = .propertyDeclaration →
    r.node f.node.index i' →
    ∃ id key,
    (∀ label : String, '.' ∉ label.toList → R.gone (Key.within (some key) .localVariable label)) ∧
      (declareDocuments R.before).declared? ⟨r.document, f.node.index⟩ = some id ∧
      (declareDocuments R.before).Keyed id key

/-- What holds of the tables of the two versions while names are bound. -/
structure Versions (R : Revisions) (t u : SymbolTable) : Prop where
  since : (declareDocuments R.before).symbols <+: t.symbols
  since' : (declareDocuments R.after).symbols <+: u.symbols
  images : Images R.gone t u
  keyed : t.IsKeyed
  keyed' : u.IsKeyed
  clear' : u.IsClear R.gone
  once : t.BindsOnce
  once' : u.BindsOnce
  kept : ∀ r ∈ R.revisions, ∀ f ∈ r.tree.nodes, f.node.kind ≠ .variableDeclarator →
    ∀ i', r.node f.node.index i' →
    t.declared? ⟨r.document, f.node.index⟩ = (declareDocuments R.before).declared?
      ⟨r.document, f.node.index⟩ ∧
      u.declared? ⟨r.document, i'⟩ = (declareDocuments R.after).declared? ⟨r.document, i'⟩
  same : ∀ r ∈ R.revisions, ∀ a a', r.leaf a a' → ¬r.replaced a →
    Matched (SameKey t u) (t.bound ⟨r.document, a.index⟩) (u.bound ⟨r.document, a'.index⟩)
  exchanged : ∀ r ∈ R.revisions, ∀ a a', r.leaf a a' → r.replaced a →
    t.bound ⟨r.document, a.index⟩ = [] ∧ u.bound ⟨r.document, a'.index⟩ = [] ∨
      t.bound ⟨r.document, a.index⟩ = (build R.before).bound ⟨r.document, a.index⟩ ∧
        u.bound ⟨r.document, a'.index⟩ = (build R.after).bound ⟨r.document, a'.index⟩

end SymbolTable

/-- The revisions of a project are such that names can be followed. -/
structure Revisions.Sound (R : Revisions) : Prop extends SymbolTable.Spares R where
  fits {r : Revision} : r ∈ R.revisions → SymbolTable.Fits R r

/-- Tokens stand at one place in both versions, or in none. -/
theorem Revisions.Sound.places {R : Revisions} (hR : R.Sound) {r s : Revision}
    (hr : r ∈ R.revisions) (hs : s ∈ R.revisions) {a a' b b' : PlacedToken} (ha : r.leaf a a')
    (hb : s.leaf b b') :
    s = r ∧ b = a ∧ b'.index = a'.index ∨ (⟨s.document, b.index⟩ : Place) ≠ ⟨r.document, a.index⟩ ∧
      (⟨s.document, b'.index⟩ : Place) ≠ ⟨r.document, a'.index⟩ := by
  have hF := hR.fits hr
  by_cases hdocument : s.document = r.document
  swap
  · exact .inr ⟨fun h => hdocument (Place.mk.inj h).1, fun h => hdocument (Place.mk.inj h).1⟩
  obtain rfl : s = r := List.inj_on_of_nodup_map hR.nodup hs hr hdocument
  by_cases hindex : b.index = a.index
  · exact .inl ⟨rfl, hF.unique ha hb hindex, (hF.leafs ha hb).mpr hindex⟩
  · exact .inr ⟨fun h => hindex (Place.mk.inj h).2,
      fun h => hindex ((hF.leafs ha hb).mp (Place.mk.inj h).2)⟩

namespace SymbolTable

variable {R : Revisions} {r : Revision} {t u : SymbolTable}

theorem bound_bind_of_ne (t : SymbolTable) {place place' : Place} (ids : List SymbolId)
    (h : place' ≠ place) : (t.bind place ids).bound place' = t.bound place' := by
  rw [bound_bind, if_neg fun hboth => h hboth.2]

theorem declared?_bind (t : SymbolTable) (place place' : Place) (ids : List SymbolId) :
    (t.bind place ids).declared? place' = t.declared? place' := by
  rw [declared?, declared?, declared_bind]

namespace Versions

/-- A name is bound in both versions. -/
theorem bind (h : Versions R t u) (hR : R.Sound) (hr : r ∈ R.revisions) {a a' : PlacedToken}
    (ha : r.leaf a a') {ids ids' : List SymbolId} (hids : ids.Nodup) (hids' : ids'.Nodup)
    (hsame : ¬r.replaced a → Matched (SameKey t u) ids ids')
    (hexchanged : r.replaced a →
      (t.bind ⟨r.document, a.index⟩ ids).bound ⟨r.document, a.index⟩ = (build R.before).bound
        ⟨r.document, a.index⟩ ∧ (u.bind ⟨r.document, a'.index⟩ ids').bound ⟨r.document, a'.index⟩ =
          (build R.after).bound ⟨r.document, a'.index⟩) :
    Versions R (t.bind ⟨r.document, a.index⟩ ids) (u.bind ⟨r.document, a'.index⟩ ids') := by
  have hsymbols := symbols_bind t ⟨r.document, a.index⟩ ids
  have hsymbols' := symbols_bind u ⟨r.document, a'.index⟩ ids'
  have hgrows (i j : SymbolId) (hij : SameKey t u i j) :
      SameKey (t.bind ⟨r.document, a.index⟩ ids) (u.bind ⟨r.document, a'.index⟩ ids') i j :=
    hij.grows (.bind _ _ _) (.bind _ _ _)
  refine ⟨h.since.trans (hsymbols ▸ List.prefix_rfl), h.since'.trans (hsymbols' ▸ List.prefix_rfl),
    h.images.grows (.bind _ _ _) (.bind _ _ _) (.of_symbols hsymbols) (.of_symbols hsymbols'),
    h.keyed.of_symbols hsymbols, h.keyed'.of_symbols hsymbols',
    h.clear'.addsNone (.of_symbols hsymbols'), h.once.bind _ hids, h.once'.bind _ hids',
    fun s hs f hf hkind i' hi' => ?_, fun s hs b b' hb hordinary => ?_,
    fun s hs b b' hb hreplaced => ?_⟩
  · rw [declared?_bind, declared?_bind]
    exact h.kept s hs f hf hkind i' hi'
  · obtain ⟨rfl, rfl, hindex⟩ | ⟨hne, hne'⟩ := hR.places hr hs ha hb
    · have hold := h.same s hr b b' hb hordinary
      have hempty : ids' ≠ [] ↔ ids ≠ [] := by
        rw [← List.isEmpty_eq_false_iff, ← List.isEmpty_eq_false_iff, (hsame hordinary).isEmpty_eq]
      rw [hindex] at hold ⊢
      simp only [bound_bind, and_true, hempty]
      split
      next => exact (hsame hordinary).imp hgrows
      next => exact hold.imp hgrows
    · rw [bound_bind_of_ne t ids hne, bound_bind_of_ne u ids' hne']
      exact (h.same s hs b b' hb hordinary).imp hgrows
  · obtain ⟨rfl, rfl, hindex⟩ | ⟨hne, hne'⟩ := hR.places hr hs ha hb
    · rw [hindex]
      exact .inr (hexchanged hreplaced)
    · rw [bound_bind_of_ne t ids hne, bound_bind_of_ne u ids' hne']
      exact h.exchanged s hs b b' hb hreplaced

/-- A local is declared in both versions. -/
theorem introduce (h : Versions R t u) (hR : R.Sound) (hr : r ∈ R.revisions) {f : Focus}
    (hf : f ∈ r.tree.nodes) (hkind : f.node.kind = .variableDeclarator) {i' : Nat}
    (hi' : r.node f.node.index i') {data data' : SymbolData} (hkey : data'.key = data.key)
    (hfree : ∀ number, IsNumber number → ¬R.gone { data.key with path := data.key.path ++ number })
    (hresembles : Resembles t u data data') (hkinds : data.key.kind = data.kind)
    (hkinds' : data'.key.kind = data'.kind)
    (houter : ∀ outer ∈ data.container?, outer.index < t.symbols.length)
    (houter' : ∀ outer ∈ data'.container?, outer.index < u.symbols.length) :
    Versions R ((t.add data).2.declare ⟨r.document, f.node.index⟩ (t.add data).1)
      ((u.add data').2.declare ⟨r.document, i'⟩ (u.add data').1) ∧
      SameKey ((t.add data).2.declare ⟨r.document, f.node.index⟩ (t.add data).1)
        ((u.add data').2.declare ⟨r.document, i'⟩ (u.add data').1) (t.add data).1
        (u.add data').1 := by
  obtain ⟨himages, hnew⟩ := h.images.add h.keyed h.keyed' hkey hfree hresembles
  have hgrows (i j : SymbolId) (hij : SameKey t u i j) :
      SameKey ((t.add data).2.declare ⟨r.document, f.node.index⟩ (t.add data).1)
      ((u.add data').2.declare ⟨r.document, i'⟩ (u.add data').1) i j :=
    hij.grows ((Grows.add _ _).trans (.declare _ _ _)) ((Grows.add _ _).trans (.declare _ _ _))
  refine ⟨⟨h.since.trans (List.prefix_append _ _), h.since'.trans (List.prefix_append _ _),
    himages.grows (.declare _ _ _) (.declare _ _ _) (.of_symbols rfl) (.of_symbols rfl),
    (h.keyed.add hkinds houter).of_symbols rfl, (h.keyed'.add hkinds' houter').of_symbols rfl,
    (h.clear'.add (hkey ▸ hfree)).addsNone (.of_symbols rfl), h.once, h.once',
    fun s hs g hg hother j' hj' => ?_, fun s hs b b' hb hordinary => ?_, h.exchanged⟩,
    hnew.grows (.declare _ _ _) (.declare _ _ _)⟩
  · have hne : (⟨s.document, g.node.index⟩ : Place) ≠ ⟨r.document, f.node.index⟩ ∧
        (⟨s.document, j'⟩ : Place) ≠ ⟨r.document, i'⟩ := by
      by_cases hdocument : s.document = r.document
      swap
      · exact ⟨fun h => hdocument (Place.mk.inj h).1, fun h => hdocument (Place.mk.inj h).1⟩
      obtain rfl : s = r := List.inj_on_of_nodup_map hR.nodup hs hr hdocument
      have hindex : g.node.index ≠ f.node.index :=
        fun hindex => hother (Tree.focus_eq hg hf hindex ▸ hkind)
      exact ⟨fun h => hindex (Place.mk.inj h).2,
        fun h => hindex (((hR.fits hr).nodes hi' hj').mp (Place.mk.inj h).2)⟩
    rw [declared?_declare_of_ne _ _ hne.1, declared?_declare_of_ne _ _ hne.2]
    exact h.kept s hs g hg hother j' hj'
  · exact (h.same s hs b b' hb hordinary).imp hgrows

end Versions

/-! ## Texts that are kept -/

namespace Fits

variable {above : List PlacedNode} {n n' : PlacedNode}

/-- Where no name can be replaced, all tokens stay as they are. -/
theorem fixed (h : Fits R r) (hsited : Placed.Sited r.tree above [n.placed])
    (hfixed : ∀ f ∈ n.placed.tokenFoci above, ¬f.IsRenamable) (ha : n.Alike r.leaf r.node n') :
    n.Alike (fun a a' => r.Kept a a' ∧ a'.text = a.text) r.node n' := by
  refine Placed.Alike.restrict ha fun a hmem a' hleaf => ?_
  rw [← Placed.leaf_tokenFoci above n.placed] at hmem
  obtain ⟨f, hf, rfl⟩ := List.mem_map.mp hmem
  have hfocus : f ∈ r.tree.tokens := hsited.tokens (by simpa [Placed.tokenFociOf] using hf)
  have hkept : ¬r.replaced f.leaf := fun hreplaced => hfixed f hf (h.renamable hfocus hreplaced)
  exact ⟨⟨hleaf, hkept⟩, h.text hleaf hkept⟩

theorem keepsTokens (h : Fits R r) : KeepsTokens fun a a' => r.Kept a a' ∧ a'.text = a.text where
  kind ha := h.kind ha.1.1
  present ha := h.present ha.1.1

theorem empty_iff (h : Fits R r) {a a' : PlacedToken} (ha : r.leaf a a') :
    a'.text = "" ↔ a.text = "" := by
  rw [← String.isEmpty_iff, ← String.isEmpty_iff, h.present ha]

/-- The name in a written type stays as it is. -/
theorem rel_typeName? (h : Fits R r) (hsited : Placed.Sited r.tree above [n.placed])
    (hfixed : ∀ f ∈ n.placed.tokenFoci above, ¬f.IsRenamable) (ha : n.Alike r.leaf r.node n') :
    Option.Rel (fun found found' => found'.1.compactText = found.1.compactText ∧
      r.Kept found.2 found'.2) (Binding.typeName? n) (Binding.typeName? n') := by
  refine rel_bind (fun name name' hname => ?_) (Binding.rel_namedType? (h.fixed hsited hfixed ha))
  have htext : name'.compactText = name.compactText := join_texts_eq hname.tokens
  obtain ⟨hnone, hnone'⟩ | ⟨token, token', htoken, htoken', hkept⟩ :=
    rel_cases (hname.lastIdentifier? h.keepsTokens)
  · rw [hnone, hnone']
    exact .none
  · rw [htoken, htoken']
    exact .some ⟨htext, hkept.1⟩

/-- The last name in the type that a declaration or an object creation writes stays as it is. -/
theorem rel_lastIdentifier? (h : Fits R r) (hsited : Placed.Sited r.tree above [n.placed])
    (hcontext : ¬isExpressionContext n.kind) (ha : n.Alike r.leaf r.node n') :
    Option.Rel r.Kept (n.type?.bind PlacedNode.lastIdentifier?)
      (n'.type?.bind PlacedNode.lastIdentifier?) := by
  obtain ⟨hnone, hnone'⟩ | ⟨type, type', htype, htype', halike⟩ := rel_cases ha.type?
  · rw [hnone, hnone']
    exact .none
  rw [htype, htype', Option.bind_some, Option.bind_some]
  have hmem : type ∈ n.childNodes := List.mem_of_find?_eq_some htype
  have hkind : type.kind.isType := by simpa using List.find?_some htype
  have hin : Placed.Sited r.tree (n :: above) n.children := hsited.children
  have htypeSited := hin.mem (PlacedNode.mem_childNodes.mp hmem)
  have hfixed := h.fixed htypeSited (not_isRenamable_of_isType htypeSited hkind hcontext) halike
  exact rel_imp (fun _ _ ha => ha.1) (hfixed.lastIdentifier? h.keepsTokens)

end Fits

/-! ## Types of expressions -/

namespace Versions

variable {ctx ctx' : BodyContext} {above : List PlacedNode} {n n' : PlacedNode}

section

variable (h : Versions R t u) (hR : R.Sound) (hr : r ∈ R.revisions)
include h hr

theorem rel_single? {a a' : PlacedToken} (ha : r.Kept a a') :
    Option.Rel (SameKey t u) (t.single? ⟨r.document, a.index⟩)
      (u.single? ⟨r.document, a'.index⟩) := by
  rw [single?_eq, single?_eq]
  exact (h.same r hr a a' ha.1 ha.2).rel_single (fun _ _ _ => SameKey.left_unique h.keyed.keys)
    (fun _ _ _ => SameKey.right_unique h.keyed'.keys) (h.once.nodup_bound _) (h.once'.nodup_bound _)

include hR

/-- What a name stands for has the same type in both versions. -/
theorem rel_typeOfName {a a' : PlacedToken} (ha : r.leaf a a') :
    Option.Rel (SameKey t u) ((t.single? ⟨r.document, a.index⟩).bind t.typeOfSymbol?)
      ((u.single? ⟨r.document, a'.index⟩).bind u.typeOfSymbol?) := by
  by_cases hreplaced : r.replaced a
  · rw [single?_eq, single?_eq]
    obtain ⟨hnone, hnone'⟩ | ⟨hbound, hbound'⟩ := h.exchanged r hr a a' ha hreplaced
    · rw [hnone, hnone']
      exact .none
    · obtain ⟨i, j, hi, hj, hij⟩ := (hR.fits hr).exchanged ha hreplaced
      rw [hbound, hbound', hi, hj]
      exact h.images.rel_typeOf_typedAlike h.keyed h.keyed' hR.ne_namedType
        (hij.grows (.of_initial h.since) (.of_initial h.since'))
  · exact rel_bind (fun _ _ hij => h.images.typeOfSymbol? h.keyed h.keyed' hR.ne_namedType hij)
      (h.rel_single? hr ⟨ha, hreplaced⟩)

theorem rel_createdType? (hsited : Placed.Sited r.tree above [n.placed])
    (hkind : n.kind = .objectCreationExpression) (ha : n.Alike r.leaf r.node n') :
    Option.Rel (SameKey t u) (t.createdType? r.document n) (u.createdType? r.document n') := by
  have hlast := (hR.fits hr).rel_lastIdentifier? hsited (by rw [hkind]; exact Bool.false_ne_true) ha
  have hcreated := rel_bind (fun _ _ hkept => h.rel_single? hr hkept) hlast
  rwa [Option.bind_assoc, Option.bind_assoc] at hcreated

variable (hctx : SameContext t u ctx ctx') (hdocument : ctx.document = r.document)
include hctx hdocument

/-- Alike expressions have the same type in both versions. -/
theorem rel_typeOfExpression? (hsited : Placed.Sited r.tree above [n.placed])
    (ha : n.Alike r.leaf r.node n') :
    Option.Rel (SameKey t u) (t.typeOf? ctx.document ctx.type? receiverDepth n)
      (u.typeOf? ctx'.document ctx'.type? receiverDepth n') := by
  rw [hctx.document, hdocument]
  refine SymbolTable.rel_typeOf? (hR.fits hr).toKeepsTokens (fun n => ∃ above,
    Placed.Sited r.tree above [n.placed])
    (fun n ⟨above, hsited⟩ _ m hm => ?_) (fun a a' ha => h.rel_typeOfName hR hr ha)
    (fun n n' ⟨above, hsited⟩ hkind ha => h.rel_createdType? hR hr hsited hkind ha) hctx.type?
    receiverDepth ⟨above, hsited⟩ ha
  have hin : Placed.Sited r.tree (n :: above) n.children := hsited.children
  exact ⟨_, hin.mem (PlacedNode.mem_childNodes.mp (List.mem_of_head? hm))⟩

/-- The name behind a point means images, unless that is gone. -/
theorem matched_accessed (hsited : Placed.Sited r.tree above [n.placed])
    (ha : n.Alike r.leaf r.node n') (name : String) (arity? : Option Nat)
    (hclear : t.Clear R.gone (Binding.accessed ctx t n name arity?)) :
    Matched (SameKey t u) (Binding.accessed ctx t n name arity?)
      (Binding.accessed ctx' u n' name arity?) := by
  rw [Binding.accessed] at hclear
  rw [Binding.accessed, Binding.accessed]
  obtain ⟨hnone, hnone'⟩ | ⟨i, j, hi, hj, hij⟩ :=
    rel_cases (h.rel_typeOfExpression? hR hr hctx hdocument hsited ha)
  · rw [hnone, hnone']
    exact .nil
  · rw [hi] at hclear
    rw [hi, hj]
    exact h.images.lookupMember h.keyed h.keyed' hij name arity? hclear (h.clear'.clear _)

/-- A local is declared with the same type in both versions. -/
theorem localType_eq (hsited : Placed.Sited r.tree above [n.placed]) (ha : n.Alike r.leaf r.node n')
    (hkind : n.kind = .variableDeclaration) :
    Binding.localType ctx' u n' = Binding.localType ctx t n := by
  have hcontext : ¬isExpressionContext n.kind := by
    rw [hkind]
    exact Bool.false_ne_true
  have hempty :
      ((n'.type?.bind PlacedNode.lastIdentifier?).any fun token =>
        (u.bound ⟨ctx'.document, token.index⟩).isEmpty) =
      (n.type?.bind PlacedNode.lastIdentifier?).any fun token =>
        (t.bound ⟨ctx.document, token.index⟩).isEmpty := by
    rw [hctx.document, hdocument]
    have hrel := (hR.fits hr).rel_lastIdentifier? hsited hcontext ha
    exact any_of_rel (fun a a' hkept => (h.same r hr a a' hkept.1 hkept.2).isEmpty_eq) hrel
  simp only [Binding.localType, typeText?_eq (hR.fits hr).toRewords hsited hcontext ha, hempty]

/-- The type of a local has the same full name in both versions. -/
theorem localTypeName?_eq (hsited : Placed.Sited r.tree above [n.placed])
    (ha : n.Alike r.leaf r.node n') (type : Binding.LocalType) :
    Binding.localTypeName? ctx' u n' type = Binding.localTypeName? ctx t n type := by
  refine Binding.localTypeName?_eq_of_initialType? ?_ type
  rw [Binding.initialType?, Binding.initialType?]
  obtain ⟨hnone, hnone'⟩ | ⟨clause, clause', hclause, hclause', hclauses⟩ :=
    rel_cases (ha.child? .equalsValueClause)
  · rw [hnone, hnone']
    exact .none
  rw [hclause, hclause', Option.bind_some, Option.bind_some]
  obtain ⟨hnone, hnone'⟩ | ⟨value, value', hvalue, hvalue', hvalues⟩ :=
    rel_cases hclauses.firstNode?
  · rw [hnone, hnone']
    exact .none
  rw [hvalue, hvalue']
  have hin : Placed.Sited r.tree (n :: above) n.children := hsited.children
  have hclauseSited := hin.mem (PlacedNode.mem_childNodes.mp (PlacedNode.child?_some hclause).1)
  have hinner : Placed.Sited r.tree (clause :: n :: above) clause.children := hclauseSited.children
  exact h.rel_typeOfExpression? hR hr hctx hdocument
    (hinner.mem (PlacedNode.mem_childNodes.mp (List.mem_of_head? hvalue))) hvalues

end

end Versions

/-! ## Bodies -/

/-- The tables are on the way to those of the two versions, and all names below a token are
bound as they are in the end. No more symbols are added than those up to some limit. -/
structure LeadsTo (R : Revisions) (r : Revision) (limit : List SymbolData) (k : Nat)
    (t u : SymbolTable) : Prop where
  last : t.symbols <+: (build R.before).symbols
  limit : t.symbols <+: limit
  final (a a' : PlacedToken) : r.leaf a a' → a'.index < k →
    t.bound ⟨r.document, a.index⟩ = (build R.before).bound ⟨r.document, a.index⟩
  final' (a a' : PlacedToken) : r.leaf a a' → a'.index < k →
    u.bound ⟨r.document, a'.index⟩ = (build R.after).bound ⟨r.document, a'.index⟩

/-- What leads on the way to an outcome is itself on the way there. -/
theorem LeadsTo.before {limit : List SymbolData} {k l : Nat} {t' u' : SymbolTable}
    (h : LeadsTo R r limit l u u') (hkl : k ≤ l)
    (hrecords : t.Records r.document (r.StaysBehind k) u) (hsymbols : t.symbols <+: u.symbols)
    (hrecords' : t'.Records r.document (fun b => k ≤ b.index) u') : LeadsTo R r limit k t t' where
  last := hsymbols.trans h.last
  limit := hsymbols.trans h.limit
  final a a' ha hlt := by
    rw [← h.final a a' ha (Nat.lt_of_lt_of_le hlt hkl)]
    exact (hrecords.bound_eq fun b hb hindex => absurd (hb a a' ha hindex.symm)
      (Nat.not_le.mpr hlt)).symm
  final' a a' ha hlt := by
    rw [← h.final' a a' ha (Nat.lt_of_lt_of_le hlt hkl)]
    refine (hrecords'.bound_eq fun b hb hindex => ?_).symm
    omega

theorem LeadsTo.earlier {limit : List SymbolData} {k l : Nat} {t' u' : SymbolTable}
    (h : LeadsTo R r limit l u u') (hF : Fits R r)
    (hpasses : Passes r.leaf r.document r.document k l t t' u u') (hkl : k ≤ l) :
    LeadsTo R r limit k t t' := by
  refine h.before hkl (hpasses.records.imp ?_) hpasses.symbols
    (hpasses.records'.imp fun b hb => hb.1)
  rintro b ⟨b', hb, hbetween, _⟩ a a' ha hindex
  have hindex' := (hF.leafs hb ha).mpr hindex
  omega

end SymbolTable

namespace Binding

open SymbolTable

variable {R : Revisions} {r : Revision} {ctx ctx' : BodyContext}

/-- What holds while a body is bound in both versions, from some symbols on. The locals need not
be counted where there are none. -/
structure Agrees (R : Revisions) (start : List SymbolData) (counts : Prop) (s s' : BodyState) :
    Prop where
  versions : Versions R s.table s'.table
  since : start <+: s.table.symbols
  scopes : SameScopes s.table s'.table s.scopes s'.scopes
  locals : counts → s'.locals = s.locals

theorem Agrees.bind {start : List SymbolData} {counts : Prop} {s s' : BodyState}
    (h : Agrees R start counts s s') (hR : R.Sound) (hr : r ∈ R.revisions) {a a' : PlacedToken}
    (ha : r.leaf a a') {ids ids' : List SymbolId} (hids : ids.Nodup) (hids' : ids'.Nodup)
    (hsame : ¬r.replaced a → Matched (SameKey s.table s'.table) ids ids') {limit : List SymbolData}
    {k : Nat} (hlt : a'.index < k)
    (hleads : LeadsTo R r limit k (s.table.bind ⟨r.document, a.index⟩ ids)
      (s'.table.bind ⟨r.document, a'.index⟩ ids')) :
    Agrees R start counts { s with table := s.table.bind ⟨r.document, a.index⟩ ids }
      { s' with table := s'.table.bind ⟨r.document, a'.index⟩ ids' } where
  versions :=
    h.versions.bind hR hr ha hids hids' hsame fun _ =>
      ⟨hleads.final a a' ha hlt, hleads.final' a a' ha hlt⟩
  since := (symbols_bind s.table _ ids).symm ▸ h.since
  scopes := h.scopes.grows (.bind _ _ _) (.bind _ _ _)
  locals := h.locals

/-- A name is not bound to what is gone: in the end it is not, and it is not bound again. -/
theorem clear_of_leadsTo (hF : Fits R r) {limit : List SymbolData} {k : Nat} {t u : SymbolTable}
    {a a' : PlacedToken} (ha : r.leaf a a') (hlt : a'.index < k) {ids : List SymbolId}
    (hlocals : t.Clear (·.kind == .localVariable) ids)
    (hleads : LeadsTo R r limit k (t.bind ⟨r.document, a.index⟩ ids) u) : t.Clear R.gone ids := by
  refine .of_locals ?_ hlocals
  have hfinal := hleads.final a a' ha hlt
  rw [bound_bind] at hfinal
  by_cases hids : ids = []
  · rw [hids]
    exact .nil
  · rw [if_pos ⟨hids, rfl⟩] at hfinal
    have hlast := hleads.last
    rw [symbols_bind] at hlast
    exact (hfinal ▸ hF.clear ha).before hlast

theorem Agrees.sameContext {start : List SymbolData} {counts : Prop} {s s' : BodyState}
    (h : Agrees R start counts s s')
    (hctx : SameContext (declareDocuments R.before) (declareDocuments R.after) ctx ctx') :
    SameContext s.table s'.table ctx ctx' :=
  hctx.grows (.of_initial h.versions.since) (.of_initial h.versions.since')

/-- Locals of one name that are counted alike have the same key. -/
theorem Agrees.key_localData {start : List SymbolData} {counts : Prop} {s s' : BodyState}
    (h : Agrees R start counts s s') (hcounts : counts) {outer? : Option Key}
    (houter : (declareDocuments R.before).HasKey? (ctx.member? <|> ctx.type?) outer?)
    (houter' : (declareDocuments R.after).HasKey? (ctx'.member? <|> ctx'.type?) outer?)
    {name name' : PlacedToken} (htext : name'.text = name.text) (type type' : LocalType)
    (n n' : PlacedNode) :
    (localData ctx type n name s).key =
        Key.within outer? .localVariable (name.text ++ "#" ++ toString (s.locals.count name.text)) ∧
      (localData ctx' type' n' name' s').key =
        Key.within outer? .localVariable
          (name.text ++ "#" ++ toString (s.locals.count name.text)) := by
  refine ⟨(houter.grows (.of_initial h.versions.since)).childKey_eq .., ?_⟩
  rw [← h.locals hcounts, ← htext]
  exact (houter'.grows (.of_initial h.versions.since')).childKey_eq ..

section Lockstep

variable (hR : R.Sound) (hr : r ∈ R.revisions) (hdocument : ctx.document = r.document)
  (hctx : SameContext (declareDocuments R.before) (declareDocuments R.after) ctx ctx')
  {start limit : List SymbolData} {counts : Prop} {s s' : BodyState}
include hR hr hdocument hctx

/-- A written type is bound alike in both versions. It cannot be replaced. -/
theorem agrees_type {n n' : PlacedNode} {above : List PlacedNode} {first : Nat}
    (hsited : Placed.Sited r.tree above [n.placed]) (halike : n.Alike r.leaf r.node n')
    (hnumbered : Placed.Numbered first [n'.placed])
    (hrename : ∀ f ∈ n.placed.tokenFoci above, ¬f.IsRenamable) (h : Agrees R start counts s s')
    (hleads : LeadsTo R r limit (first + Placed.tokenCount [n'.placed]) (type ctx n s).2.table
      (type ctx' n' s').2.table) :
    Agrees R start counts (type ctx n s).2 (type ctx' n' s').2 := by
  have hF := hR.fits hr
  rw [type_run, type_run, hctx.document, hdocument] at hleads
  rw [type_run, type_run, hctx.document, hdocument]
  obtain ⟨hnone, hnone'⟩ | ⟨⟨name, token⟩, ⟨name', token'⟩, hsome, hsome', htext, hkept⟩ :=
    rel_cases (hF.rel_typeName? hsited hrename halike)
  · rw [hnone, hnone']
    exact h
  · rw [hsome, hsome'] at hleads
    rw [hsome, hsome']
    dsimp only at htext hkept hleads ⊢
    have hresolved := h.versions.images.resolveType? h.versions.keyed h.versions.keyed'
      hR.ne_namedType name.compactText (h.sameContext hctx).type?
    rw [htext] at hleads ⊢
    have hlt : token'.index < first + Placed.tokenCount [n'.placed] := by
      have hmem := (typeName?_mem hsome').1
      exact (hnumbered.index_mem (by simpa [Placed.tokensOf] using hmem)).2
    exact h.bind hR hr hkept.1 (Option.toList_nodup _) (Option.toList_nodup _)
      (fun _ => .toList hresolved) hlt hleads

/-- A simple name is bound alike in both versions, unless it is replaced. -/
theorem agrees_simpleName {info info' : NodeInfo} {a a' : PlacedToken} {above : List PlacedNode}
    {arity? : Option Nat} (ha : r.leaf a a')
    (hname : (TokenFocus.mk a (⟨info, [.token a]⟩ :: above)).isExpressionName)
    (h : Agrees R start counts s s')
    (hleads : LeadsTo R r limit (a'.index + 1) (simpleName ctx ⟨info, [.token a]⟩ arity? s).2.table
      (simpleName ctx' ⟨info', [.token a']⟩ arity? s').2.table) :
    Agrees R start counts (simpleName ctx ⟨info, [.token a]⟩ arity? s).2
      (simpleName ctx' ⟨info', [.token a']⟩ arity? s').2 := by
  have hF := hR.fits hr
  have hkind := TokenFocus.IsRenamable.kind_eq (.inl hname)
  rw [simpleName_run ctx arity? s hkind, simpleName_run ctx' arity? s' ((hF.kind ha).trans hkind),
    hctx.document, hdocument] at hleads ⊢
  by_cases htext : a.text = ""
  · rw [if_pos htext, if_pos ((hF.empty_iff ha).mpr htext)]
    exact h
  rw [if_neg htext, if_neg (mt (hF.empty_iff ha).mp htext)] at hleads ⊢
  refine h.bind hR hr ha (candidates_lookupSimple ..).nodup (candidates_lookupSimple ..).nodup
    (fun hkept => ?_) (Nat.lt_succ_self _) hleads
  rw [hF.text ha hkept]
  refine h.versions.images.matched_lookupSimple h.versions.keyed h.versions.keyed' hR.ne_namedType
    (fun _ => h.versions.clear'.clear _) (h.sameContext hctx) h.scopes a.text arity? fun hnone => ?_
  exact clear_of_leadsTo hF ha (Nat.lt_succ_self _)
    (clear_lookupSimple h.versions.keyed (fun _ => eq_of_beq) a.text arity? hnone) hleads

/-- The name behind a point is bound alike in both versions, unless it is replaced. -/
theorem agrees_memberName {info info' nameInfo nameInfo' : NodeInfo}
    {receiver receiver' : PlacedNode} {dot dot' a a' : PlacedToken} {above : List PlacedNode}
    {arity? : Option Nat}
    (hsited : Placed.Sited r.tree above
      [.node info [receiver.placed, .token dot, .node nameInfo [.token a]]])
    (hreceiver : receiver.Alike r.leaf r.node receiver') (ha : r.leaf a a')
    (hname : (TokenFocus.mk a (⟨nameInfo, [.token a]⟩ ::
      ⟨info, [receiver.placed, .token dot, .node nameInfo [.token a]]⟩ :: above)).isExpressionName)
    (h : Agrees R start counts s s')
    (hleads : LeadsTo R r limit (a'.index + 1)
      (memberName ctx ⟨info, [receiver.placed, .token dot, .node nameInfo [.token a]]⟩ arity?
        s).2.table
      (memberName ctx' ⟨info', [receiver'.placed, .token dot', .node nameInfo' [.token a']]⟩ arity?
        s').2.table) :
    Agrees R start counts
      (memberName ctx ⟨info, [receiver.placed, .token dot, .node nameInfo [.token a]]⟩ arity? s).2
      (memberName ctx' ⟨info', [receiver'.placed, .token dot', .node nameInfo' [.token a']]⟩ arity?
        s').2 := by
  have hF := hR.fits hr
  have hkind := TokenFocus.IsRenamable.kind_eq (.inl hname)
  rw [memberName_run ctx arity? s hkind, memberName_run ctx' arity? s' ((hF.kind ha).trans hkind),
    hctx.document, hdocument] at hleads ⊢
  by_cases htext : a.text = ""
  · rw [if_pos htext, if_pos ((hF.empty_iff ha).mpr htext)]
    exact h
  rw [if_neg htext, if_neg (mt (hF.empty_iff ha).mp htext)] at hleads ⊢
  refine h.bind hR hr ha (candidates_accessed ..).nodup (candidates_accessed ..).nodup
    (fun hkept => ?_) (Nat.lt_succ_self _) hleads
  rw [hF.text ha hkept]
  refine h.versions.matched_accessed hR hr (h.sameContext hctx) hdocument hsited.children.head
    hreceiver a.text arity? ?_
  refine clear_of_leadsTo hF ha (Nat.lt_succ_self _) ?_ hleads
  rw [accessed]
  split
  next type _ =>
    exact (clear_members h.versions.keyed (fun _ => eq_of_beq) type).of_subset
      (s.table.lookupMember_subset type a.text arity?)
  next => exact .nil

/-- Locals are declared alike in both versions. -/
theorem agrees_declareLocal
    (hlocals : limit.length ≤ start.length ∨ counts ∧ ∀ outer?,
      (declareDocuments R.before).HasKey? (ctx.member? <|> ctx.type?) outer? →
        KeepsLocals R.gone outer?)
    {n n' : PlacedNode} {above : List PlacedNode} {first : Nat} (type : LocalType)
    (hsited : Placed.Sited r.tree above [n.placed]) (halike : n.Alike r.leaf r.node n')
    (hkind : n.kind = .variableDeclarator) (h : Agrees R start counts s s')
    (hleads : LeadsTo R r limit (first + Placed.tokenCount [n'.placed])
      (declareLocal ctx type n s).2.table (declareLocal ctx' type n' s').2.table) :
    Agrees R start counts (declareLocal ctx type n s).2 (declareLocal ctx' type n' s').2 := by
  have hF := hR.fits hr
  rw [declareLocal_run, declareLocal_run, hctx.document, hdocument] at hleads
  rw [declareLocal_run, declareLocal_run, hctx.document, hdocument]
  obtain ⟨hnone, hnone'⟩ | ⟨name, name', hname, hname', hnames⟩ :=
    rel_cases (halike.name? hF.toKeepsTokens)
  · rw [hnone, hnone']
    exact h
  rw [hname, hname'] at hleads
  rw [hname, hname']
  dsimp only at hleads ⊢
  -- Where no symbols may be added, this is not reached.
  obtain ⟨hcounts, hkeeps⟩ := hlocals.resolve_left fun hle => by
    have hlimit := hleads.limit.length_le
    have hsince := h.since.length_le
    have hadded :=
      (Nat.le_of_eq (length_add s.table (localData ctx type n name s)).symm).trans hlimit
    omega
  have hword : IsWord name.text.toList := by
    obtain ⟨_, hidentifier, htext⟩ := PlacedNode.name?_mem hname
    exact hF.words.word _ (Tree.nameFocus_mem hsited.focus_mem hname) hidentifier htext
  have htext : name'.text = name.text :=
    hF.names _ hsited.focus_mem (by rw [hkind]; rfl) name name' hname hnames
  obtain ⟨outer?, hbase, hbase'⟩ := exists_hasKey? hctx.container?
  obtain ⟨hkey, hkey'⟩ := h.key_localData hcounts hbase hbase' htext type type n n'
  have hlabel : '.' ∉ (name.text ++ "#" ++ toString (s.locals.count name.text)).toList := by
    have hname : '.' ∉ name.text.toList := hword.notMem (by decide)
    simpa [hname] using notMem_toString rfl (s.locals.count name.text)
  have hresembles : Resembles s.table s'.table (localData ctx type n name s)
      (localData ctx' type n' name' s') :=
    ⟨htext, h.versions.localTypeName?_eq hR hr (h.sameContext hctx) hdocument hsited halike type,
      rfl, (h.sameContext hctx).container?⟩
  obtain ⟨hversions, hnew⟩ := h.versions.introduce hR hr hsited.focus_mem hkind halike.index
    (hkey'.trans hkey.symm)
    (fun number hnumber => hkey ▸ (hkeeps outer? hbase).number hlabel hnumber) hresembles
    (kind_childKey ..) (kind_childKey ..) (hbase.grows (.of_initial h.versions.since)).lt
    (hbase'.grows (.of_initial h.versions.since')).lt
  refine ⟨hversions, h.since.trans (List.prefix_append _ _), ?_,
    fun _ => congrArg₂ List.cons htext (h.locals hcounts)⟩
  rw [htext]
  exact (h.scopes.grows ((Grows.add _ _).trans (.declare _ _ _))
    ((Grows.add _ _).trans (.declare _ _ _))).insert name.text hnew

/-- A body that has kept its shape is bound alike in both versions, if its locals are not gone
or there are none. -/
theorem lockstep_agrees
    (hlocals : limit.length ≤ start.length ∨ counts ∧ ∀ outer?,
      (declareDocuments R.before).HasKey? (ctx.member? <|> ctx.type?) outer? →
        KeepsLocals R.gone outer?) :
    Lockstep r.leaf r.node r.tree ctx ctx' Eq (fun k s s' => LeadsTo R r limit k s.table s'.table)
      (fun _ s s' => Agrees R start counts s s') where
  keeps := (hR.fits hr).toKeepsTokens
  earlier hpasses hkl hleads := by
    rw [hctx.document, hdocument] at hpasses
    exact hleads.earlier (hR.fits hr) hpasses hkl
  skip h _ := h
  enter h := ⟨h.versions, h.since, .cons .nil h.scopes, h.locals⟩
  leave h := ⟨h.versions, h.since, h.scopes.tail, h.locals⟩
  type hsited halike hnumbered _ hrename _ _ h hleads :=
    agrees_type hR hr hdocument hctx hsited halike hnumbered hrename h hleads
  name _ ha hname _ _ h hleads := agrees_simpleName hR hr hdocument hctx ha hname h hleads
  memberName hsited hreceiver ha hname _ _ h hleads :=
    agrees_memberName hR hr hdocument hctx hsited hreceiver ha hname h hleads
  localType hsited halike hkind h :=
    (h.versions.localType_eq hR hr (h.sameContext hctx) hdocument hsited halike hkind).symm
  declareLocal hsited _ halike _ hkind htyped _ h hleads := by
    obtain rfl := htyped
    exact agrees_declareLocal hR hr hdocument hctx hlocals _ hsited halike hkind h hleads

end Lockstep

end Binding

end AutoProperty
