import AutoProperty.Proofs.Symbol.DeclarationOrder

/-! # The order of binding

What a name is bound to depends on what has been declared and on the body that the name stands
in, but not on the bodies that were bound before. So two passes over the documents in different
orders bind every name to the same symbols, although they number their locals differently.
-/

namespace AutoProperty

namespace SymbolTable

variable {t t' u : SymbolTable} {i j : SymbolId}

/-! ## Growing tables -/

theorem rel_sameKey_grows {t₂ u' : SymbolTable} {i? j? : Option SymbolId}
    (h : Option.Rel (SameKey t u) i? j?) (ht : Grows t t₂) (hu : Grows u u') :
    Option.Rel (SameKey t₂ u') i? j? := by
  cases h with
  | none => exact .none
  | some hij => exact .some (hij.grows ht hu)

theorem Twin.grows {t₂ u' : SymbolTable} {data data' : SymbolData} (h : Twin t u data data')
    (ht : Grows t t₂) (hu : Grows u u') : Twin t₂ u' data data' :=
  ⟨h.name, h.typeName?, h.arity, rel_sameKey_grows h.container ht hu, h.declarations⟩

theorem IsKeyed.before (h : u.IsKeyed) (hinitial : t.symbols <+: u.symbols) : t.IsKeyed where
  keys := h.keys.sublist (hinitial.sublist.map _)
  kinds id data hdata := h.kinds id data (data?_of_initial hinitial hdata)
  layered id data hdata := h.layered id data (data?_of_initial hinitial hdata)

/-- A table that has all symbols but some locals of a mirrored one is mirrored. -/
theorem Mirrors.before (h : Mirrors t u) (ht : t.IsKeyed) (hu : u.IsKeyed)
    (hinitial : t'.symbols <+: u.symbols)
    (hall : ∀ j data, u.data? j = some data → data.kind ≠ .localVariable → t'.data? j = some data) :
    Mirrors t t' where
  forth i data hdata hkind := by
    obtain ⟨j, hij⟩ := h.forth i data hdata hkind
    obtain ⟨data₂, data', hdata₂, hdata', hkey, hkind', _⟩ := h.exists_data ht hu hij
    obtain rfl := Option.some.inj (hdata.symm.trans hdata₂)
    exact ⟨j, data.key, ⟨data, hdata, rfl⟩, data', hall j data' hdata' (hkind' ▸ hkind), hkey⟩
  back j data' hdata' hkind := by
    obtain ⟨i, key, hi, data₂, hdata₂, hkey⟩ :=
      h.back j data' (data?_of_initial hinitial hdata') hkind
    obtain rfl := Option.some.inj ((data?_of_initial hinitial hdata').symm.trans hdata₂)
    exact ⟨i, key, hi, data', hdata', hkey⟩
  twin i j data data' hdata hdata' hkey := by
    have htwin := h.twin i j data data' hdata (data?_of_initial hinitial hdata') hkey
    refine ⟨htwin.name, htwin.typeName?, htwin.arity, ?_, htwin.declarations⟩
    have hlt := (List.getElem?_eq_some_iff.mp hdata').1
    have hlayered := hu.layered j data' (data?_of_initial hinitial hdata')
    obtain ⟨hnone, hnone'⟩ | ⟨outer, outer', hsome, hsome', key, houter, data₂, hdata₂, hkey₂⟩ :=
      rel_cases htwin.container
    · rw [hnone, hnone']
      exact .none
    · rw [hsome, hsome']
      have hlt' : outer'.index < t'.symbols.length := Nat.lt_trans (hlayered outer' hsome') hlt
      have hin : t'.data? outer' = some t'.symbols[outer'.index] := List.getElem?_eq_getElem hlt'
      obtain rfl := Option.some.inj ((data?_of_initial hinitial hin).symm.trans hdata₂)
      exact .some ⟨key, houter, _, hin, hkey₂⟩

/-- A table that mirrors one with fewer locals mirrors the later one, too. -/
theorem Mirrors.after (h : Mirrors t t') (ht : t.IsKeyed) (hu : u.IsKeyed)
    (hinitial : t'.symbols <+: u.symbols)
    (hall : ∀ j data, u.data? j = some data → data.kind ≠ .localVariable → t'.data? j = some data)
    (hlocal : t.HasNoLocals) : Mirrors t u where
  forth i data hdata hkind := by
    obtain ⟨j, hij⟩ := h.forth i data hdata hkind
    exact ⟨j, hij.grows (.refl t) (.of_initial hinitial)⟩
  back j data hdata hkind := by
    obtain ⟨i, hij⟩ := h.back j data (hall j data hdata hkind) hkind
    exact ⟨i, hij.grows (.refl t) (.of_initial hinitial)⟩
  twin i j data data' hdata hdata' hkey := by
    have hkind : data'.kind ≠ .localVariable := by
      rw [← hu.kinds j data' hdata', hkey, ht.kinds i data hdata]
      exact hlocal i data hdata
    have htwin := h.twin i j data data' hdata (hall j data' hdata' hkind) hkey
    exact htwin.grows (.refl t) (.of_initial hinitial)

/-! ## Scopes -/

/-- Names in scope mean mirror images. -/
def SameScopes (t u : SymbolTable) (scopes scopes' : Scopes) : Prop :=
  List.Forall₂ (List.Forall₂ fun e e' => e'.1 = e.1 ∧ SameKey t u e.2 e'.2) scopes scopes'

theorem SameScopes.grows {u' t₂ : SymbolTable} {scopes scopes' : Scopes}
    (h : SameScopes t u scopes scopes') (ht : Grows t t₂) (hu : Grows u u') :
    SameScopes t₂ u' scopes scopes' :=
  List.Forall₂.imp (fun _ _ => List.Forall₂.imp fun _ _ he => ⟨he.1, he.2.grows ht hu⟩) h

/-- Looking up a name in related lists gives related values. -/
theorem rel_lookup {α β γ : Type} [BEq α] {r : β → γ → Prop} {as : List (α × β)} {bs : List (α × γ)}
    (h : List.Forall₂ (fun a b => b.1 = a.1 ∧ r a.2 b.2) as bs) (name : α) :
    Option.Rel r (as.lookup name) (bs.lookup name) := by
  induction h with
  | nil => exact .none
  | @cons a b as bs hab _ ih =>
    obtain ⟨key, value⟩ := a
    obtain ⟨key', value'⟩ := b
    obtain ⟨rfl, hvalue⟩ := hab
    rw [List.lookup_cons, List.lookup_cons]
    cases name == key' with
    | true => exact .some hvalue
    | false => exact ih

theorem SameScopes.find? {scopes scopes' : Scopes} (h : SameScopes t u scopes scopes')
    (name : String) : Option.Rel (SameKey t u) (scopes.find? name) (scopes'.find? name) :=
  rel_findSome? (fun _ _ hframe => rel_lookup hframe name) h

theorem SameScopes.tail {scopes scopes' : Scopes} (h : SameScopes t u scopes scopes') :
    SameScopes t u scopes.tail scopes'.tail := by
  cases h with
  | nil => exact .nil
  | cons _ houter => exact houter

theorem SameScopes.insert {scopes scopes' : Scopes} (h : SameScopes t u scopes scopes')
    (name : String) (hij : SameKey t u i j) :
    SameScopes t u (scopes.insert name i) (scopes'.insert name j) := by
  cases h with
  | nil => exact .nil
  | cons hframe houter => exact .cons (.cons ⟨rfl, hij⟩ hframe) houter

/-! ## Names in a document -/

def SameNames (t u : SymbolTable) (document : DocumentId) : Prop :=
  ∀ index, Matched (SameKey t u) (t.bound ⟨document, index⟩) (u.bound ⟨document, index⟩)

/-- No name is bound to a symbol twice. -/
def BindsOnce (t : SymbolTable) : Prop :=
  ∀ place ids, (place, ids) ∈ t.bindings → ids.Nodup

theorem BindsOnce.nodup_bound (h : t.BindsOnce) (place : Place) : (t.bound place).Nodup := by
  rw [bound]
  cases hlookup : t.bindings.lookup place with
  | none => exact List.nodup_nil
  | some ids =>
    obtain ⟨before, after, heq, _⟩ := List.lookup_eq_some_iff.mp hlookup
    exact h place ids (heq ▸ List.mem_append_right _ List.mem_cons_self)

/-- A name that is bound again keeps one entry. -/
theorem BindsOnce.bind (h : t.BindsOnce) (place : Place) {ids : List SymbolId} (hids : ids.Nodup) :
    (t.bind place ids).BindsOnce := by
  rw [SymbolTable.bind]
  split
  next => exact h
  next =>
    intro place' ids' hmem
    obtain heq | hmem := List.mem_cons.mp hmem
    · obtain ⟨rfl, rfl⟩ := Prod.mk.inj heq
      exact hids
    · exact h place' ids' hmem

/-- A name is bound to what was bound last, and other names as before. -/
theorem bound_bind (t : SymbolTable) (place place' : Place) (ids : List SymbolId) :
    (t.bind place ids).bound place' = if ids ≠ [] ∧ place' = place then ids
      else t.bound place' := by
  rw [bind]
  cases ids with
  | nil => rfl
  | cons id ids =>
    by_cases hplace : place' = place
    · simp [bound, hplace]
    · simp [bound, hplace, List.lookup_cons, beq_eq_false_iff_ne.mpr hplace]

theorem SameNames.grows {t₂ u' : SymbolTable} {document : DocumentId} (h : SameNames t u document)
    (ht : Grows t t₂) (hu : Grows u u') (hbindings : t₂.bindings = t.bindings)
    (hbindings' : u'.bindings = u.bindings) : SameNames t₂ u' document := by
  intro index
  rw [bound, bound, hbindings, hbindings']
  exact (h index).imp fun _ _ hij => hij.grows ht hu

/-- A name that is bound to mirror images in both tables keeps them alike. -/
theorem SameNames.bind {document : DocumentId} {index : Nat} {ids ids' : List SymbolId}
    (h : SameNames t u document) (hids : Matched (SameKey t u) ids ids') :
    SameNames (t.bind ⟨document, index⟩ ids) (u.bind ⟨document, index⟩ ids') document := by
  intro index'
  have hempty : ids' ≠ [] ↔ ids ≠ [] := by
    rw [← List.isEmpty_eq_false_iff, ← List.isEmpty_eq_false_iff, hids.isEmpty_eq]
  simp only [bound_bind, hempty]
  have hgrows (i j : SymbolId) (hij : SameKey t u i j) :
      SameKey (t.bind ⟨document, index⟩ ids) (u.bind ⟨document, index⟩ ids') i j :=
    hij.grows (.bind _ _ _) (.bind _ _ _)
  split
  next => exact hids.imp hgrows
  next => exact (h index').imp hgrows

/-- A name with one meaning has one on either side. -/
theorem SameNames.single? {document : DocumentId} (h : SameNames t u document) (ht : t.KeysNodup)
    (hu : u.KeysNodup) (honce : t.BindsOnce) (honce' : u.BindsOnce) (index : Nat) :
    Option.Rel (SameKey t u) (t.single? ⟨document, index⟩) (u.single? ⟨document, index⟩) := by
  rw [single?_eq, single?_eq]
  exact (h index).rel_single (fun _ _ _ => SameKey.left_unique ht)
    (fun _ _ _ => SameKey.right_unique hu)
    (honce.nodup_bound _) (honce'.nodup_bound _)

end SymbolTable

/-! ## What names mean -/

open SymbolTable

/-- The bodies stand at the same place. -/
structure SameContext (t u : SymbolTable) (ctx ctx' : BodyContext) : Prop where
  document : ctx'.document = ctx.document
  implicitValue : ctx'.implicitValue = ctx.implicitValue
  type? : Option.Rel (SameKey t u) ctx.type? ctx'.type?
  member? : Option.Rel (SameKey t u) ctx.member? ctx'.member?

section Meaning

variable {t u : SymbolTable} {ctx ctx' : BodyContext}

theorem SameContext.container? (h : SameContext t u ctx ctx') :
    Option.Rel (SameKey t u) (ctx.member? <|> ctx.type?) (ctx'.member? <|> ctx'.type?) := by
  simp only [Option.orElse_eq_orElse, Option.orElse_eq_or]
  exact rel_or h.member? h.type?

theorem SameContext.grows {t₂ u' : SymbolTable} (h : SameContext t u ctx ctx') (ht : Grows t t₂)
    (hu : Grows u u') : SameContext t₂ u' ctx ctx' :=
  ⟨h.document, h.implicitValue, rel_sameKey_grows h.type? ht hu, rel_sameKey_grows h.member? ht hu⟩

/-- The first types with members of a name have images as members, if none of those is gone. -/
theorem rel_lookupMembers {gone : Key → Bool} (h : Images gone t u) (ht : t.IsKeyed)
    (hu : u.IsKeyed) (hclear' : ∀ type, u.Clear gone (u.members type))
    {types types' : List SymbolId} (htypes : List.Forall₂ (SameKey t u) types types')
    (name : String) (arity? : Option Nat)
    (hclear : ∀ found ∈ (types.map fun type => t.lookupMember type name arity?).find? (!·.isEmpty),
      t.Clear gone found) :
    Option.Rel (Matched (SameKey t u))
      ((types.map fun type => t.lookupMember type name arity?).find? (!·.isEmpty))
      ((types'.map fun type => u.lookupMember type name arity?).find? (!·.isEmpty)) := by
  induction htypes with
  | nil => exact .none
  | @cons type type' types types' htype _ ih =>
    rw [List.map_cons, List.find?_cons] at hclear
    rw [List.map_cons, List.find?_cons, List.map_cons, List.find?_cons]
    have hfound (hclear : t.Clear gone (t.lookupMember type name arity?)) :=
      h.lookupMember ht hu htype name arity? hclear (hclear' type')
    cases hempty : (t.lookupMember type name arity?).isEmpty with
    | true =>
      rw [hempty] at hclear
      have hnone : t.Clear gone (t.lookupMember type name arity?) := by
        rw [List.isEmpty_iff.mp hempty]
        nofun
      rw [(hfound hnone).isEmpty_eq, hempty]
      exact ih hclear
    | false =>
      rw [hempty] at hclear
      have hmatched := hfound (hclear _ rfl)
      rw [hmatched.isEmpty_eq, hempty]
      exact .some hmatched

/-- A simple name means images, unless it means a member that is gone. -/
theorem SymbolTable.Images.matched_lookupSimple {gone : Key → Bool} {s s' : BodyState}
    (h : Images gone s.table s'.table) (ht : s.table.IsKeyed) (hu : s'.table.IsKeyed)
    (hkinds : ∀ key, gone key → key.kind ≠ .namedType)
    (hclear' : ∀ type, s'.table.Clear gone (s'.table.members type))
    (hctx : SameContext s.table s'.table ctx ctx')
    (hscopes : SameScopes s.table s'.table s.scopes s'.scopes) (name : String) (arity? : Option Nat)
    (hclear : s.scopes.find? name = none → s.table.Clear gone (lookupSimple ctx s name arity?)) :
    Matched (SameKey s.table s'.table) (lookupSimple ctx s name arity?)
      (lookupSimple ctx' s' name arity?) := by
  rw [lookupSimple] at hclear
  rw [lookupSimple, lookupSimple, hctx.implicitValue]
  obtain ⟨hnone, hnone'⟩ | ⟨i, j, hi, hj, hij⟩ := rel_cases (hscopes.find? name)
  swap
  · rw [hi, hj]
    exact .singleton hij
  have hclear := hclear hnone
  rw [hnone] at hclear
  rw [hnone, hnone']
  dsimp only at hclear ⊢
  split
  next => exact .nil
  next hnot =>
    rw [if_neg hnot] at hclear
    have htypes := rel_takeWhile (fun a b hab => h.isType_eq ht hu hab) (h.outward ht hu hctx.type?)
    have hfound := rel_lookupMembers h ht hu hclear' htypes name arity? fun found hfound => by
      rw [hfound] at hclear
      exact hclear
    obtain ⟨hnone, hnone'⟩ | ⟨_, _, hsome, hsome', hcandidates⟩ := rel_cases hfound
    · rw [hnone, hnone']
      exact .toList (h.resolveType? ht hu hkinds name hctx.type?)
    · rw [hsome, hsome']
      exact hcandidates

/-- A name that is not in scope does not mean a local. -/
theorem clear_lookupSimple {gone : Key → Bool} {s : BodyState} (ht : s.table.IsKeyed)
    (hlocal : ∀ key, gone key → key.kind = .localVariable) (name : String) (arity? : Option Nat)
    (hnone : s.scopes.find? name = none) : s.table.Clear gone (lookupSimple ctx s name arity?) := by
  rw [lookupSimple, hnone]
  dsimp only
  split
  next => exact fun _ hi => absurd hi List.not_mem_nil
  split
  next candidates hfound =>
    obtain ⟨type, _, rfl⟩ := List.mem_map.mp (List.mem_of_find?_eq_some hfound)
    exact (clear_members ht hlocal type).of_subset (s.table.lookupMember_subset type name arity?)
  next =>
    intro i hi hgone
    obtain ⟨data, hdata, hkind⟩ := exists_data_of_resolveType? (Option.mem_toList.mp hi)
    rw [ht.kinds i data hdata, or_self] at hkind
    rw [isGone_eq hdata] at hgone
    have hkey := (ht.kinds i data hdata).symm.trans (hlocal _ hgone)
    rw [hkind] at hkey
    cases hkey

/-- A simple name means mirror images. -/
theorem matched_lookupSimple {s s' : BodyState} (h : Mirrors s.table s'.table)
    (ht : s.table.IsKeyed) (hu : s'.table.IsKeyed) (hctx : SameContext s.table s'.table ctx ctx')
    (hscopes : SameScopes s.table s'.table s.scopes s'.scopes) (name : String)
    (arity? : Option Nat) :
    Matched (SameKey s.table s'.table) (lookupSimple ctx s name arity?)
      (lookupSimple ctx' s' name arity?) := by
  exact (h.images ht hu).matched_lookupSimple ht hu Mirrors.ne_namedType_of_local
    (clear_members hu fun _ => eq_of_beq) hctx hscopes
    name arity? (clear_lookupSimple ht (fun _ => eq_of_beq) name arity?)

end Meaning

namespace Binding

variable {leaf : PlacedToken → PlacedToken → Prop} {node : Nat → Nat → Prop} {t u : SymbolTable}
  {ctx ctx' : BodyContext} {n n' : PlacedNode}

mutual

/-- Alike written types name types alike. -/
theorem rel_namedType? {p p' : Placed} (h : Placed.Alike leaf node p p') :
    Option.Rel (PlacedNode.Alike leaf node) (namedType? p) (namedType? p') := by
  cases h with
  | token => exact .none
  | @node info info' children children' hindex hkind hchildren =>
    rw [namedType?, namedType?, hkind]
    split
    next => exact rel_firstNamedType? hchildren
    next => exact rel_firstNamedType? hchildren
    next => exact .some (.node hindex hkind hchildren)
    next => exact .some (.node hindex hkind hchildren)
    next => exact .none

/-- The first type named among alike elements is named alike. -/
theorem rel_firstNamedType? {ps ps' : List Placed} (h : Placed.Alikes leaf node ps ps') :
    Option.Rel (PlacedNode.Alike leaf node) (firstNamedType? ps) (firstNamedType? ps') := by
  cases h with
  | nil => exact .none
  | cons hp hps =>
    cases hp with
    | token =>
      rw [firstNamedType?, firstNamedType?]
      exact rel_firstNamedType? hps
    | node hindex hkind hchildren =>
      rw [firstNamedType?, firstNamedType?]
      exact rel_namedType? (.node hindex hkind hchildren)

end

theorem compactText_eq (h : n.Alike Eq node n') : n'.compactText = n.compactText := by
  have htokens : n.tokens = n'.tokens := List.forall₂_eq_eq_eq ▸ h.tokens
  rw [PlacedNode.compactText, PlacedNode.compactText, htokens]

/-- The name in a written type stands at the same token. -/
theorem rel_typeName? (h : n.Alike Eq node n') :
    Option.Rel (fun found found' => found'.1.compactText = found.1.compactText ∧ found'.2 = found.2)
      (typeName? n) (typeName? n') := by
  refine rel_bind (fun name name' hname => ?_) (rel_namedType? h)
  obtain ⟨hnone, hnone'⟩ | ⟨token, token', htoken, htoken', rfl⟩ :=
    rel_cases (hname.lastIdentifier? keepsTokens_eq)
  · rw [hnone, hnone']
    exact .none
  · rw [htoken, htoken']
    exact .some ⟨compactText_eq hname, rfl⟩

theorem typeText?_eq (h : n.Alike Eq node n') : n'.typeText? = n.typeText? := by
  rw [PlacedNode.typeText?, PlacedNode.typeText?]
  obtain ⟨hnone, hnone'⟩ | ⟨type, type', htype, htype', halike⟩ := rel_cases h.type?
  · rw [hnone, hnone']
  · rw [htype, htype', Option.map_some, Option.map_some, compactText_eq halike]

def initialType? (ctx : BodyContext) (t : SymbolTable) (declarator : PlacedNode) :
    Option SymbolId :=
  (declarator.child? .equalsValueClause).bind fun clause =>
    clause.childNodes.head?.bind fun value =>
    t.typeOf? ctx.document ctx.type? SymbolTable.receiverDepth value

/-- A local without a written type has the type of its initial value, by its full name. -/
theorem localTypeName?_inferred (ctx : BodyContext) (t : SymbolTable) (declarator : PlacedNode) :
    localTypeName? ctx t declarator .inferred =
      (initialType? ctx t declarator).bind fun type => (t.data? type).map (·.key.path) := by
  rw [localTypeName?, initialType?]
  cases declarator.child? .equalsValueClause with
  | none => rfl
  | some clause =>
    cases hhead : clause.childNodes.head? with
    | none => simp [hhead]
    | some value =>
      simp only [Option.bind_eq_bind, Option.bind_some, hhead]
      cases t.typeOf? ctx.document ctx.type? SymbolTable.receiverDepth value with
      | none => rfl
      | some type => simp [Option.map_eq_bind]

/-- A local whose initial value has the same type has the same type. -/
theorem localTypeName?_eq_of_initialType?
    (h : Option.Rel (SameKey t u) (initialType? ctx t n) (initialType? ctx' u n'))
    (type : LocalType) : localTypeName? ctx' u n' type = localTypeName? ctx t n type := by
  cases type with
  | written => rfl
  | inferred =>
    rw [localTypeName?_inferred, localTypeName?_inferred]
    obtain ⟨hnone, hnone'⟩ | ⟨i, j, hi, hj, _, ⟨data, hdata, rfl⟩, data', hdata', heq⟩ :=
      rel_cases h
    · rw [hnone, hnone']
      rfl
    · rw [hi, hj, Option.bind_some, Option.bind_some, hdata, hdata', Option.map_some,
        Option.map_some, heq]

section Names

variable (h : Mirrors t u) (ht : t.IsKeyed) (hu : u.IsKeyed) (hctx : SameContext t u ctx ctx')
  (hnames : SameNames t u ctx.document)
include hctx hnames

/-- A local has its type from the same source. -/
theorem localType_eq (ha : n.Alike Eq node n') : localType ctx' u n' = localType ctx t n := by
  have hempty :
      ((n'.type?.bind PlacedNode.lastIdentifier?).any fun token =>
        (u.bound ⟨ctx'.document, token.index⟩).isEmpty) =
      (n.type?.bind PlacedNode.lastIdentifier?).any fun token =>
        (t.bound ⟨ctx.document, token.index⟩).isEmpty := by
    refine any_of_rel (fun token _ heq => ?_)
      (rel_bind (fun _ _ halike => halike.lastIdentifier? keepsTokens_eq) ha.type?)
    obtain rfl := heq
    rw [hctx.document, (hnames token.index).isEmpty_eq]
  simp only [localType, typeText?_eq ha, hempty]

variable (honce : t.BindsOnce) (honce' : u.BindsOnce)
include h ht hu honce honce'

theorem rel_typeOf? (ha : n.Alike Eq node n') : Option.Rel (SameKey t u)
    (t.typeOf? ctx.document ctx.type? SymbolTable.receiverDepth n)
    (u.typeOf? ctx'.document ctx'.type? SymbolTable.receiverDepth n') := by
  refine h.typeOf? ht hu keepsTokens_eq (fun a a' ha => ?_) hctx.type? _ ha
  obtain rfl := ha
  rw [hctx.document]
  exact hnames.single? ht.keys hu.keys honce honce' a.index

/-- The name behind a point means mirror images. -/
theorem matched_accessed (ha : n.Alike Eq node n') (name : String) (arity? : Option Nat) :
    Matched (SameKey t u) (accessed ctx t n name arity?) (accessed ctx' u n' name arity?) := by
  rw [accessed, accessed]
  obtain ⟨hnone, hnone'⟩ | ⟨i, j, hi, hj, hij⟩ :=
    rel_cases (rel_typeOf? h ht hu hctx hnames honce honce' ha)
  · rw [hnone, hnone']
    exact .nil
  · rw [hi, hj]
    exact h.lookupMember ht hu hij name arity?

/-- A local has the same type. -/
theorem localTypeName?_eq (ha : n.Alike Eq node n') (type : LocalType) :
    localTypeName? ctx' u n' type = localTypeName? ctx t n type := by
  refine localTypeName?_eq_of_initialType?
    (rel_bind (fun _ _ halike => ?_) (ha.child? .equalsValueClause)) type
  exact rel_bind (fun _ _ ha => rel_typeOf? h ht hu hctx hnames honce honce' ha) halike.firstNode?

end Names

end Binding

end AutoProperty
