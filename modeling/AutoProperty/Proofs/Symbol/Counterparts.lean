import AutoProperty.Proofs.Symbol.Bodies
import AutoProperty.Proofs.Symbol.Names

/-! # Counterparts

Two projects of one shape declare the same symbols in the same order. Names that cannot be
replaced are the same in both, so namespaces and types have the same keys, and are merged where
the others are. All other symbols have counterparts that may go by another name.
-/

namespace AutoProperty

/-- Tokens that cannot be replaced have the same texts. -/
structure Rewords (tree : Tree) (leaf : PlacedToken → PlacedToken → Prop) :
    Prop extends KeepsTokens leaf where
  same {f : TokenFocus} {a' : PlacedToken} : f ∈ tree.tokens → ¬f.IsRenamable → leaf f.leaf a' →
    a'.text = f.leaf.text

/-- The names of members, parameters and locals are the same, too. -/
def KeepsNames (tree : Tree) (leaf : PlacedToken → PlacedToken → Prop) : Prop :=
  ∀ f ∈ tree.nodes, declaresName f.node.kind → ∀ a a', f.node.name? = some a → leaf a a' →
    a'.text = a.text

namespace SymbolTable

open SymbolKind

/-- The same symbol in another project. If it is `exact`, also members, parameters and locals
have their names and keys. -/
structure Counterpart (exact : Prop) (data data' : SymbolData) : Prop where
  kind : data'.kind = data.kind
  container? : data'.container? = data.container?
  places : data'.declarations.map (·.place) = data.declarations.map (·.place)
  typeName? : data.kind ≠ .localVariable → data'.typeName? = data.typeName?
  arity : data'.arity = data.arity
  keyKind : data.key.kind = data.kind
  keyKind' : data'.key.kind = data'.kind
  same : exact ∨ ¬data.kind.isSingle → data'.key = data.key ∧ data'.name = data.name

/-- Tables of the same symbols, declared at the same nodes. -/
structure Counterparts (exact : Prop) (t t' : SymbolTable) : Prop where
  symbols : List.Forall₂ (Counterpart exact) t.symbols t'.symbols
  declared : t'.declared = t.declared

variable {exact : Prop} {t t' : SymbolTable} {data data' : SymbolData}

namespace Counterparts

theorem empty (exact : Prop) : Counterparts exact .empty .empty :=
  ⟨.nil, rfl⟩

theorem length (h : Counterparts exact t t') : t'.symbols.length = t.symbols.length :=
  h.symbols.length_eq.symm

theorem data? (h : Counterparts exact t t') (id : SymbolId) :
    Option.Rel (Counterpart exact) (t.data? id) (t'.data? id) :=
  rel_getElem? h.symbols id.index

theorem kind? (h : Counterparts exact t t') (id : SymbolId) : t'.kind? id = t.kind? id := by
  rw [SymbolTable.kind?, SymbolTable.kind?]
  obtain ⟨hnone, hnone'⟩ | ⟨data, data', hdata, hdata', hcounterpart⟩ := rel_cases (h.data? id)
  · rw [hnone, hnone']
  · rw [hdata, hdata', Option.map_some, Option.map_some, hcounterpart.kind]

theorem isType (h : Counterparts exact t t') (id : SymbolId) : t'.isType id = t.isType id := by
  rw [SymbolTable.isType, SymbolTable.isType, h.kind?]

theorem keyKinds (h : Counterparts exact t t') (id : SymbolId) (data : SymbolData)
    (hdata : t.data? id = some data) : data.key.kind = data.kind := by
  obtain ⟨hnone, _⟩ | ⟨_, _, hsome, _, hcounterpart⟩ := rel_cases (h.data? id)
  · rw [hnone] at hdata
    cases hdata
  · obtain rfl := Option.some.inj (hdata.symm.trans hsome)
    exact hcounterpart.keyKind

/-- What a key is compared with is the same, if keys of its kind are. -/
theorem beq_key {key : Key} (hkey : exact ∨ ¬key.kind.isSingle) (data data' : SymbolData)
    (h : Counterpart exact data data') : (data'.key == key) = (data.key == key) := by
  by_cases hsame : exact ∨ ¬data.kind.isSingle
  · rw [(h.same hsame).1]
  · -- The symbol goes by a key of its kind on both sides, and that is not the kind of `key`.
    obtain ⟨hexact, hsingle⟩ := not_or.mp hsame
    have hne : data.kind ≠ key.kind :=
      fun heq => hkey.resolve_left hexact (heq ▸ not_not.mp hsingle)
    rw [beq_eq_false_iff_ne.mpr, beq_eq_false_iff_ne.mpr]
    · exact fun heq => hne (h.keyKind.symm.trans (congrArg Key.kind heq))
    · exact fun heq => hne (h.kind.symm.trans (h.keyKind'.symm.trans (congrArg Key.kind heq)))

theorem find? (h : Counterparts exact t t') {key : Key} (hkey : exact ∨ ¬key.kind.isSingle) :
    t'.find? key = t.find? key := by
  rw [find?_eq, find?_eq, symbolWithKey?, symbolWithKey?, rel_findIdx? (beq_key hkey) h.symbols]

theorem hasKey (h : Counterparts exact t t') {key : Key} (hkey : exact ∨ ¬key.kind.isSingle) :
    t'.hasKey key = t.hasKey key :=
  congrArg Option.isSome (h.find? hkey)

theorem freshKey (h : Counterparts exact t t') {key : Key} (hkey : exact ∨ ¬key.kind.isSingle) :
    t'.freshKey key = t.freshKey key := by
  have hnumbered (n : Nat) : t'.hasKey { key with path := key.path ++ "#" ++ toString (n + 1) } =
      t.hasKey { key with path := key.path ++ "#" ++ toString (n + 1) } := h.hasKey hkey
  simp only [SymbolTable.freshKey, h.hasKey hkey, h.length, List.find?_map, Function.comp_def,
    hnumbered]

/-- A symbol has the same key in both tables if its container has. -/
theorem childKey (h : Counterparts exact t t') {container? : Option SymbolId}
    (hc : exact ∨ ∀ id ∈ container?, t.CanContain id) (kind : SymbolKind) (name : String) :
    t'.childKey container? kind name = t.childKey container? kind name := by
  cases container? with
  | none => rfl
  | some id =>
    rw [SymbolTable.childKey, SymbolTable.childKey, Option.bind_some, Option.bind_some]
    obtain ⟨hnone, hnone'⟩ | ⟨data, data', hdata, hdata', hcounterpart⟩ := rel_cases (h.data? id)
    · rw [hnone, hnone']
    · rw [hdata, hdata']
      have hsame : exact ∨ ¬data.kind.isSingle := by
        refine hc.imp_right fun hc => ?_
        obtain ⟨kind, hkind, hsingle⟩ := hc id rfl
        rw [SymbolTable.kind?, hdata] at hkind
        rwa [show data.kind = kind from Option.some.inj hkind]
      dsimp only
      rw [(hcounterpart.same hsame).1]

theorem declare (h : Counterparts exact t t') (place : Place) (id : SymbolId) :
    Counterparts exact (t.declare place id) (t'.declare place id) :=
  ⟨h.symbols, congrArg ((place, id) :: ·) h.declared⟩

/-- Counterparts added to both tables get the same number. -/
theorem add (h : Counterparts exact t t') (hdata : Counterpart exact data data') :
    (t'.add data').1 = (t.add data).1 ∧ Counterparts exact (t.add data).2 (t'.add data').2 := by
  refine ⟨congrArg SymbolId.mk h.length, List.rel_append h.symbols (.cons ?_ .nil), h.declared⟩
  refine ⟨hdata.kind, hdata.container?, hdata.places, hdata.typeName?, hdata.arity,
    (t.kind_freshKey _).trans hdata.keyKind, (t'.kind_freshKey _).trans hdata.keyKind',
    fun hsame => ?_⟩
  obtain ⟨hkey, hname⟩ := hdata.same hsame
  refine ⟨?_, hname⟩
  show t'.freshKey data'.key = t.freshKey data.key
  rw [hkey]
  exact h.freshKey (by rwa [hdata.keyKind])

/-- Declarations at the same places keep the tables counterparts. -/
theorem addDeclarations (h : Counterparts exact t t') (id : SymbolId)
    {declarations declarations' : List Declaration}
    (hplaces : declarations'.map (·.place) = declarations.map (·.place)) :
    Counterparts exact (t.addDeclarations id declarations)
      (t'.addDeclarations id declarations') := by
  refine ⟨?_, h.declared⟩
  refine List.forall₂_iff_get.mpr ⟨?_, fun i hi hi' => ?_⟩
  · simpa [SymbolTable.addDeclarations, extendDeclarations] using h.length.symm
  · simp only [SymbolTable.addDeclarations, extendDeclarations, List.length_modify] at hi hi'
    have hcounterpart := h.symbols.get hi hi'
    simp only [SymbolTable.addDeclarations, extendDeclarations, List.get_eq_getElem,
      List.getElem_modify] at hcounterpart ⊢
    split
    next =>
      refine ⟨hcounterpart.kind, hcounterpart.container?, ?_, hcounterpart.typeName?,
        hcounterpart.arity, hcounterpart.keyKind, hcounterpart.keyKind', hcounterpart.same⟩
      rw [List.map_append, List.map_append, hcounterpart.places, hplaces]
    next => exact hcounterpart

/-- Symbols that may be merged are merged in both tables or in none. -/
theorem merge (h : Counterparts exact t t') (hdata : Counterpart exact data data')
    (hsingle : ¬data.kind.isSingle) :
    (t'.merge data').1 = (t.merge data).1 ∧
      Counterparts exact (t.merge data).2 (t'.merge data').2 := by
  rw [SymbolTable.merge, SymbolTable.merge, (hdata.same (.inr hsingle)).1,
    h.find? (.inr (by rwa [hdata.keyKind]))]
  split
  next id _ => exact ⟨rfl, h.addDeclarations id hdata.places⟩
  next => exact h.add hdata

end Counterparts

/-! ## The first pass -/

/-- The table has grown, and the other one is its counterpart again. -/
structure Advances (exact : Prop) (t u u' : SymbolTable) : Prop where
  grows : Grows t u
  counterparts : Counterparts exact u u'

namespace Advances

theorem refl (h : Counterparts exact t t') : Advances exact t t t' :=
  ⟨.refl t, h⟩

theorem andThen {u u' v v' : SymbolTable} (h : Advances exact t u u')
    (h' : Grows t u → Counterparts exact u u' → Advances exact u v v') : Advances exact t v v' :=
  ⟨h.grows.trans (h' h.grows h.counterparts).grows, (h' h.grows h.counterparts).counterparts⟩

theorem foldl {α : Type} {r : α → α → Prop} {f f' : SymbolTable → α → SymbolTable} {xs xs' : List α}
    (h : Counterparts exact t t') (hxs : List.Forall₂ r xs xs')
    (hf : ∀ u u' x x', Grows t u → Counterparts exact u u' → x ∈ xs → r x x' →
      Advances exact u (f u x) (f' u' x')) : Advances exact t (xs.foldl f t) (xs'.foldl f' t') := by
  induction hxs generalizing t t' with
  | nil => exact .refl h
  | @cons x x' xs xs' hx _ ih =>
    refine (hf t t' x x' (.refl t) h List.mem_cons_self hx).andThen fun hgrows hu => ?_
    exact ih hu fun v v' y y' hv hcounterparts hy => hf v v' y y' (hgrows.trans hv) hcounterparts
      (List.mem_cons_of_mem x hy)

end Advances

section Pass

variable {document : DocumentId} {tree : Tree} {leaf : PlacedToken → PlacedToken → Prop}
  {node : Nat → Nat → Prop} {container? : Option SymbolId} {above : List PlacedNode}
  {n n' : PlacedNode}

/-- Where no name can be replaced, all texts are the same. -/
theorem texts_eq (hleaf : Rewords tree leaf) {ps ps' : List Placed} (h : Placed.Sited tree above ps)
    (ha : Placed.Alikes leaf node ps ps')
    (hfixed : ∀ f ∈ Placed.tokenFociOf above ps, ¬f.IsRenamable) :
    List.Forall₂ (fun a a' => leaf a a' ∧ a'.text = a.text) (Placed.tokensOf ps)
      (Placed.tokensOf ps') := by
  have htokens := ha.tokensOf
  rw [← Placed.leaf_tokenFociOf above ps, List.forall₂_map_left_iff] at htokens ⊢
  refine List.forall₂_iff_zip.mpr ⟨htokens.length_eq, fun {f a'} hmem => ?_⟩
  have ha' := (List.forall₂_iff_zip.mp htokens).2 hmem
  have hf := (List.of_mem_zip hmem).1
  exact ⟨ha', hleaf.same (h.tokens hf) (hfixed f hf) ha'⟩

/-- The tokens of written types are the same. -/
theorem typeTexts_eq (hleaf : Rewords tree leaf) {type type' m : PlacedNode}
    (h : Placed.Sited tree (m :: above) [type.placed]) (htype : type.kind.isType)
    (hm : ¬isExpressionContext m.kind) (ha : type.Alike leaf node type') :
    List.Forall₂ (fun a a' => leaf a a' ∧ a'.text = a.text) type.tokens type'.tokens :=
  texts_eq hleaf h.children ha.children fun f hf => not_isRenamable_of_isType h htype hm f hf

theorem join_texts_eq {as bs : List PlacedToken}
    (h : List.Forall₂ (fun a a' => leaf a a' ∧ a'.text = a.text) as bs) :
    String.join (bs.map (·.text)) = String.join (as.map (·.text)) := by
  have htexts : bs.map (·.text) = as.map (·.text) := by
    induction h with
    | nil => rfl
    | cons hab _ ih => rw [List.map_cons, List.map_cons, hab.2, ih]
  rw [htexts]

/-- The text of the type that a declaration writes is the same. -/
theorem typeText?_eq_of_rel (hleaf : Rewords tree leaf) (h : Placed.Sited tree above [n.placed])
    (hn : ¬isExpressionContext n.kind)
    (htypes : Option.Rel (PlacedNode.Alike leaf node) n.type? n'.type?) :
    n'.typeText? = n.typeText? := by
  rw [PlacedNode.typeText?, PlacedNode.typeText?]
  obtain ⟨hnone, hnone'⟩ | ⟨type, type', htype, htype', halike⟩ := rel_cases htypes
  · rw [hnone, hnone']
  · rw [htype, htype', Option.map_some, Option.map_some, PlacedNode.compactText,
      PlacedNode.compactText]
    have hmem : type ∈ n.childNodes := List.mem_of_find?_eq_some htype
    have hkind : type.kind.isType := by simpa using List.find?_some htype
    rw [join_texts_eq
      (typeTexts_eq hleaf (h.children.mem (PlacedNode.mem_childNodes.mp hmem)) hkind hn halike)]

theorem typeText?_eq (hleaf : Rewords tree leaf) (h : Placed.Sited tree above [n.placed])
    (hn : ¬isExpressionContext n.kind) (ha : n.Alike leaf node n') :
    n'.typeText? = n.typeText? :=
  typeText?_eq_of_rel hleaf h hn ha.type?

/-- The name of a type is no name that can be replaced. -/
theorem typeName_eq (hleaf : Rewords tree leaf) (h : Placed.Sited tree above [n.placed])
    (hn : n.kind = .classDeclaration ∨ n.kind = .structDeclaration) {name name' : PlacedToken}
    (hname : n.name? = some name) (hnames : leaf name name') : name'.text = name.text := by
  obtain ⟨hmem, _, _⟩ := PlacedNode.name?_mem hname
  have hfocus := (h.children.mem (PlacedNode.mem_childTokens.mp hmem)).tokenFocus_mem
  refine hleaf.same hfocus (fun hrenamable => ?_) hnames
  have hparent := hrenamable.parent_kind
  obtain hn | hn := hn <;> simp [hn, declaresName] at hparent

theorem alike_parametersOf (ha : n.Alike leaf node n') :
    List.Forall₂ (PlacedNode.Alike leaf node) (parametersOf n) (parametersOf n') := by
  rw [parametersOf, parametersOf]
  obtain ⟨hnone, hnone'⟩ | ⟨list, list', hlist, hlist', halike⟩ :=
    rel_cases (ha.child? .parameterList)
  · rw [hnone, hnone']
    exact .nil
  · rw [hlist, hlist']
    exact halike.childrenOf .parameter

/-- A symbol that cannot be merged is added to both tables. -/
theorem Counterparts.introduce (h : Counterparts exact t t') (hdata : Counterpart exact data data')
    (document : DocumentId) {i i' : Nat} (hindex : i = i') :
    Advances exact t ((t.add data).2.declare ⟨document, i⟩ (t.add data).1)
      ((t'.add data').2.declare ⟨document, i'⟩ (t'.add data').1) := by
  obtain ⟨hid, hadd⟩ := h.add hdata
  rw [hid, ← hindex]
  exact ⟨(Grows.add t data).trans (Grows.declare _ _ _), hadd.declare _ _⟩

/-- The parts of a namespace's name declare the same symbols. -/
theorem counterparts_declareSegments (h : Counterparts exact t t')
    (hc : ∀ id ∈ container?, t.CanContain id) (hindex : n.index = n'.index)
    {segments segments' : List PlacedToken}
    (hsegments : List.Forall₂ (fun a a' => leaf a a' ∧ a'.text = a.text) segments segments') :
    (t'.declareSegments document n' container? segments').1 =
      (t.declareSegments document n container? segments).1 ∧
      (∀ id ∈ (t.declareSegments document n container? segments).1,
        (t.declareSegments document n container? segments).2.CanContain id) ∧
        Advances exact t (t.declareSegments document n container? segments).2
          (t'.declareSegments document n' container? segments').2 := by
  induction hsegments generalizing t t' container? with
  | nil => exact ⟨rfl, hc, .refl h⟩
  | @cons segment segment' segments segments' hsegment _ ih =>
    let data := t.segmentData document n container? segment
    have hsingle : ¬data.kind.isSingle := fun h => h.1 rfl
    have hkind : data.key.kind = data.kind := t.kind_childKey container? .nameSpace segment.text
    have hcounterpart : Counterpart exact data
        (t'.segmentData document n' container? segment') := by
      refine ⟨rfl, rfl, ?_, fun _ => rfl, rfl, hkind, t'.kind_childKey .., fun _ => ?_⟩
      · exact congrArg (fun i => [Place.mk document i]) hindex.symm
      · simp only [data, segmentData, hsegment.2, h.childKey (.inr hc), and_self]
    obtain ⟨hid, hmerge⟩ := h.merge hcounterpart hsingle
    have hcontain := canContain_merge h.keyKinds hkind hsingle
    obtain ⟨hinner, hc', hadvances⟩ :=
      @ih _ _ (some (t.merge data).1) hmerge fun id hid => Option.some.inj hid ▸ hcontain
    rw [declareSegments_cons, declareSegments_cons, hid]
    exact ⟨hinner, hc', .andThen ⟨Grows.merge t data, hmerge⟩ fun _ _ => hadvances⟩

/-- Namespaces that are alike declare counterparts. -/
theorem counterparts_declareNamespace (hleaf : Rewords tree leaf) (h : Counterparts exact t t')
    (hc : ∀ id ∈ container?, t.CanContain id) (hsited : Placed.Sited tree above [n.placed])
    (ha : n.Alike leaf Eq n') (hn : ¬isExpressionContext n.kind) :
    (t'.declareNamespace document n' container?).1 = (t.declareNamespace document n container?).1 ∧
      (∀ id ∈ (t.declareNamespace document n container?).1,
        (t.declareNamespace document n container?).2.CanContain id) ∧
        Advances exact t (t.declareNamespace document n container?).2
          (t'.declareNamespace document n' container?).2 := by
  have hfound :=
    @rel_find? _ _ _ (fun c : PlacedNode => c.kind == .identifierName || c.kind == .qualifiedName)
      (fun c : PlacedNode => c.kind == .identifierName || c.kind == .qualifiedName)
      (fun _ _ h => by rw [h.kind]) _ _ ha.childNodes
  rw [declareNamespace, declareNamespace]
  dsimp only
  obtain ⟨hnone, hnone'⟩ | ⟨name, name', hname, hname', halike⟩ := rel_cases hfound
  · rw [hnone, hnone']
    exact ⟨rfl, hc, .refl h⟩
  · have hmem : name ∈ n.childNodes := List.mem_of_find?_eq_some hname
    have hkind : name.kind.isType := by
      have := List.find?_some hname
      simp only [Bool.or_eq_true, beq_iff_eq] at this
      obtain heq | heq := this <;> rw [heq] <;> rfl
    have hsegments : List.Forall₂ (fun a a' => leaf a a' ∧ a'.text = a.text) name.identifiers
        name'.identifiers := by
      refine List.rel_filter (fun a a' h => ?_)
        (typeTexts_eq hleaf (hsited.children.mem (PlacedNode.mem_childNodes.mp hmem)) hkind hn
          halike)
      simp only [hleaf.kind h.1, h.2]
    obtain ⟨hid, hc', hadvances⟩ := counterparts_declareSegments h hc ha.index hsegments
    rw [hname, hname']
    dsimp only
    generalize t.declareSegments document n container? name.identifiers =
      outcome at hid hc' hadvances ⊢
    generalize t'.declareSegments document n' container? name'.identifiers =
      outcome' at hid hadvances ⊢
    obtain ⟨innermost?, u⟩ := outcome
    obtain ⟨innermost?', u'⟩ := outcome'
    obtain rfl : innermost?' = innermost? := hid
    cases innermost?' with
    | none => exact ⟨rfl, fun id hid => absurd hid (Option.not_mem_none id), hadvances⟩
    | some id =>
      refine ⟨rfl, fun id' hid' => ?_, hadvances.andThen fun _ hu => ⟨Grows.declare _ _ _, ?_⟩⟩
      · exact (hc' id' hid').grows (Grows.declare _ _ _)
      · rw [← ha.index]
        exact hu.declare _ id

/-- A type is declared in both projects, or it has no name in either. -/
theorem counterparts_declareType? (hleaf : Rewords tree leaf) (h : Counterparts exact t t')
    (hc : ∀ id ∈ container?, t.CanContain id) (hsited : Placed.Sited tree above [n.placed])
    (ha : n.Alike leaf Eq n') (hn : n.kind = .classDeclaration ∨ n.kind = .structDeclaration) :
    Option.Rel (fun a a' => a'.1 = a.1 ∧ a.2.CanContain a.1 ∧ Advances exact t a.2 a'.2)
      (t.declareType? document n container?) (t'.declareType? document n' container?) := by
  rw [declareType?, declareType?]
  obtain ⟨hnone, hnone'⟩ | ⟨name, name', hname, hname', hnames⟩ :=
    rel_cases (ha.name? hleaf.toKeepsTokens)
  · rw [hnone, hnone']
    exact .none
  rw [hname, hname']
  have htext := typeName_eq hleaf hsited hn hname hnames
  let data := t.typeData document n container? name
  have hsingle : ¬data.kind.isSingle := fun h => h.2 rfl
  have hkind : data.key.kind = data.kind := t.kind_childKey container? .namedType name.text
  have hcounterpart : Counterpart exact data (t'.typeData document n' container? name') := by
    refine ⟨rfl, rfl, ?_, fun _ => rfl, rfl, hkind, t'.kind_childKey .., fun _ => ?_⟩
    · exact congrArg (fun i => [Place.mk document i]) ha.index.symm
    · simp only [data, typeData, htext, h.childKey (.inr hc), and_self]
  obtain ⟨hid, hmerge⟩ := h.merge hcounterpart hsingle
  refine .some ⟨hid, (canContain_merge h.keyKinds hkind hsingle).grows (Grows.declare _ _ _), ?_⟩
  refine ⟨(Grows.merge t data).trans (Grows.declare _ _ _), ?_⟩
  show Counterparts exact ((t.merge data).2.declare _ _)
    ((t'.merge (t'.typeData document n' container? name')).2.declare
    ⟨document, n'.index⟩ (t'.merge (t'.typeData document n' container? name')).1)
  rw [hid, ← ha.index]
  exact hmerge.declare _ _

/-- Members that are alike declare counterparts. -/
theorem advances_declareMember (hexact : exact → KeepsNames tree leaf) (h : Counterparts exact t t')
    (hsited : Placed.Sited tree above [n.placed]) (ha : n.Alike leaf Eq n')
    (hn : declaresName n.kind) {name name' : PlacedToken} (hname : n.name? = some name)
    (hnames : leaf name name') {kind : SymbolKind} (hkind : kind.isSingle)
    (container? : Option SymbolId) (typeName? : Option String) :
    Advances exact t (t.declareMember document n container? kind name typeName?)
      (t'.declareMember document n' container? kind name' typeName?) := by
  have hcounterpart : Counterpart exact (t.memberData document n container? kind name typeName?)
      (t'.memberData document n' container? kind name' typeName?) := by
    refine ⟨rfl, rfl, ?_, fun _ => rfl, rfl, t.kind_childKey .., t'.kind_childKey ..,
      fun hsame => ?_⟩
    · exact congrArg (fun i => [Place.mk document i]) ha.index.symm
    · have hsame := hsame.resolve_right (not_not.mpr hkind)
      have htext : name'.text = name.text :=
        hexact hsame _ hsited.focus_mem hn name name' hname hnames
      simp only [memberData, htext, h.childKey (.inl hsame), and_self]
  exact h.introduce hcounterpart document ha.index

section Members

variable (hleaf : Rewords tree leaf) (hexact : exact → KeepsNames tree leaf)
include hleaf hexact

/-- A node that declares a symbol if it has a name. -/
theorem advances_declareNamed (h : Counterparts exact t t')
    (hsited : Placed.Sited tree above [n.placed])
    (ha : n.Alike leaf Eq n') (hn : declaresName n.kind) {kind : SymbolKind} (hkind : kind.isSingle)
    (container? : Option SymbolId) {typeName? typeName?' : Option String}
    (htype : typeName?' = typeName?) :
    Advances exact t
      (match n.name? with
        | some name => t.declareMember document n container? kind name typeName?
        | none => t)
      (match n'.name? with
        | some name => t'.declareMember document n' container? kind name typeName?'
        | none => t') := by
  obtain ⟨hnone, hnone'⟩ | ⟨name, name', hname, hname', hnames⟩ :=
    rel_cases (ha.name? hleaf.toKeepsTokens)
  · rw [hnone, hnone']
    exact .refl h
  · rw [hname, hname', htype]
    exact advances_declareMember hexact h hsited ha hn hname hnames hkind container? typeName?

/-- Field declarations that are alike declare counterparts. -/
theorem advances_declareFields (h : Counterparts exact t t')
    (hsited : Placed.Sited tree above [n.placed]) (ha : n.Alike leaf Eq n')
    (container? : Option SymbolId) :
    Advances exact t (t.declareFields document n container?)
      (t'.declareFields document n' container?) := by
  rw [declareFields, declareFields]
  obtain ⟨hnone, hnone'⟩ | ⟨declaration, declaration', hfound, hfound', halike⟩ :=
    rel_cases (ha.child? .variableDeclaration)
  · rw [hnone, hnone']
    exact .refl h
  · rw [hfound, hfound']
    obtain ⟨hmem, hkind⟩ := PlacedNode.child?_some hfound
    have hdeclaration := hsited.children.mem (PlacedNode.mem_childNodes.mp hmem)
    have htype := typeText?_eq hleaf hdeclaration (by rw [hkind]; exact Bool.false_ne_true) halike
    refine .foldl h (halike.childrenOf .variableDeclarator)
      fun u u' declarator declarator' _ hu hdeclarator halike => ?_
    obtain ⟨hmem, hkind⟩ := List.mem_filter.mp hdeclarator
    exact advances_declareNamed hleaf hexact hu
      (hdeclaration.children.mem (PlacedNode.mem_childNodes.mp hmem)) halike
      (by rw [eq_of_beq hkind]; rfl) isSingle_field container? htype

theorem advances_declareProperty (h : Counterparts exact t t')
    (hsited : Placed.Sited tree above [n.placed]) (ha : n.Alike leaf Eq n')
    (hkind : n.kind = .propertyDeclaration) (container? : Option SymbolId) :
    Advances exact t (t.declareProperty document n container?)
      (t'.declareProperty document n' container?) :=
  advances_declareNamed hleaf hexact h hsited ha (by rw [hkind]; rfl) isSingle_property container?
    (typeText?_eq hleaf hsited (by rw [hkind]; exact Bool.false_ne_true) ha)

/-- Methods that are alike declare counterparts, and so do their parameters. -/
theorem advances_declareMethod (h : Counterparts exact t t')
    (hsited : Placed.Sited tree above [n.placed]) (ha : n.Alike leaf Eq n')
    (hkind : n.kind = .methodDeclaration ∨ n.kind = .constructorDeclaration)
    (container? : Option SymbolId) :
    Advances exact t (t.declareMethod document n container?)
      (t'.declareMethod document n' container?) := by
  have hparameters := alike_parametersOf ha
  have hcontext : ¬isExpressionContext n.kind := by
    obtain hkind | hkind := hkind <;> rw [hkind] <;> exact Bool.false_ne_true
  have hdeclares : declaresName n.kind := by
    obtain hkind | hkind := hkind <;> rw [hkind] <;> rfl
  obtain ⟨hnone, hnone'⟩ | ⟨name, name', hname, hname', hnames⟩ :=
    rel_cases (ha.name? hleaf.toKeepsTokens)
  · rw [declareMethod, declareMethod, hnone, hnone']
    exact .refl h
  rw [declareMethod_of_name hname, declareMethod_of_name hname']
  have hcounterpart : Counterpart exact (t.methodData document n container? name)
      (t'.methodData document n' container? name') := by
    refine ⟨rfl, rfl, ?_, fun _ => ?_, hparameters.length_eq.symm, t.kind_childKey ..,
      t'.kind_childKey .., fun hsame => ?_⟩
    · exact congrArg (fun i => [Place.mk document i]) ha.index.symm
    · rw [methodData, methodData, ha.kind, typeText?_eq hleaf hsited hcontext ha]
    · have hsame : exact := hsame.resolve_right (not_not.mpr isSingle_method)
      have htext : name'.text = name.text :=
        hexact hsame _ hsited.focus_mem hdeclares name name' hname hnames
      simp only [methodData, methodName, htext, ha.kind, hparameters.length_eq,
        h.childKey (.inl hsame), and_self]
  refine (h.introduce hcounterpart document ha.index).andThen fun _ hu => ?_
  dsimp only
  rw [(h.add hcounterpart).1] at hu ⊢
  refine .foldl hu hparameters fun u u' parameter parameter' _ hu hparameter halike => ?_
  obtain ⟨list, hlist, hmem, hkind⟩ := mem_parametersOf hparameter
  have hsited :=
    (hsited.children.mem (PlacedNode.mem_childNodes.mp hlist)).children.mem
      (PlacedNode.mem_childNodes.mp hmem)
  exact advances_declareNamed hleaf hexact hu hsited halike (by rw [hkind]; rfl) isSingle_parameter
    _
    (typeText?_eq hleaf hsited (by rw [hkind]; exact Bool.false_ne_true) halike)

end Members

mutual

/-- Alike elements declare counterparts. -/
theorem advances_declareElement (hleaf : Rewords tree leaf) (hexact : exact → KeepsNames tree leaf)
    {t t' : SymbolTable} {container? : Option SymbolId} {above : List PlacedNode} (p p' : Placed)
    (h : Counterparts exact t t') (hc : ∀ id ∈ container?, t.CanContain id)
    (hsited : Placed.Sited tree above [p]) (ha : Placed.Alike leaf Eq p p') :
    Advances exact t (t.declareElement document container? p)
      (t'.declareElement document container? p') := by
  match p with
  | .token _ =>
    obtain ⟨_, rfl, _⟩ := ha.exists_token
    exact .refl h
  | .node info children =>
    obtain ⟨⟨info', children'⟩, rfl, halike⟩ :=
      PlacedNode.Alike.exists_placed (n := ⟨info, children⟩) ha
    have hinType : container?.any t'.isType = container?.any t.isType :=
      congrArg container?.any (funext h.isType)
    have hkind' : info'.kind = info.kind := halike.kind
    have hin : Placed.Sited tree (⟨info, children⟩ :: above) children := hsited.children
    rw [declareElement, PlacedNode.placed, declareElement, hkind', hinType]
    dsimp only
    split
    next hkind =>
      have hcontext : ¬isExpressionContext info.kind := by rw [hkind]; exact Bool.false_ne_true
      obtain ⟨hid, hc', hadvances⟩ :=
        counterparts_declareNamespace hleaf h hc hsited halike hcontext
      rw [hid]
      exact hadvances.andThen fun _ hu => advances_declareAll hleaf hexact children children' hu hc'
        hin halike.children
    next hkind =>
      have hcontext : ¬isExpressionContext info.kind := by rw [hkind]; exact Bool.false_ne_true
      obtain ⟨hid, hc', hadvances⟩ :=
        counterparts_declareNamespace hleaf h hc hsited halike hcontext
      rw [hid]
      exact hadvances.andThen fun _ hu => advances_declareAll hleaf hexact children children' hu hc'
        hin halike.children
    next hkind =>
      obtain ⟨hnone, hnone'⟩ | ⟨⟨id, u⟩, ⟨_, u'⟩, hsome, hsome', rfl, hc', hadvances⟩ :=
        rel_cases (counterparts_declareType? hleaf h hc hsited halike (.inl hkind))
      · rw [hnone, hnone']
        exact .refl h
      · rw [hsome, hsome']
        exact hadvances.andThen fun _ hu => advances_declareAll hleaf hexact children children' hu
          (fun _ hid => Option.some.inj hid ▸ hc') hin halike.children
    next hkind =>
      obtain ⟨hnone, hnone'⟩ | ⟨⟨id, u⟩, ⟨_, u'⟩, hsome, hsome', rfl, hc', hadvances⟩ :=
        rel_cases (counterparts_declareType? hleaf h hc hsited halike (.inr hkind))
      · rw [hnone, hnone']
        exact .refl h
      · rw [hsome, hsome']
        exact hadvances.andThen fun _ hu => advances_declareAll hleaf hexact children children' hu
          (fun _ hid => Option.some.inj hid ▸ hc') hin halike.children
    next hkind =>
      split
      next => exact advances_declareFields hleaf hexact h hsited halike container?
      next => exact .refl h
    next hkind =>
      split
      next => exact advances_declareProperty hleaf hexact h hsited halike hkind container?
      next => exact .refl h
    next hkind =>
      split
      next => exact advances_declareMethod hleaf hexact h hsited halike (.inl hkind) container?
      next => exact .refl h
    next hkind =>
      split
      next => exact advances_declareMethod hleaf hexact h hsited halike (.inr hkind) container?
      next => exact .refl h
    next => exact .refl h

/-- Alike elements declare counterparts. The induction follows the first pass through the tree. -/
theorem advances_declareAll (hleaf : Rewords tree leaf) (hexact : exact → KeepsNames tree leaf)
    {t t' : SymbolTable} {container? : Option SymbolId} {above : List PlacedNode}
    (ps ps' : List Placed) (h : Counterparts exact t t') (hc : ∀ id ∈ container?, t.CanContain id)
    (hsited : Placed.Sited tree above ps) (ha : Placed.Alikes leaf Eq ps ps') :
    Advances exact t (t.declareAll document container? ps)
      (t'.declareAll document container? ps') := by
  match ps with
  | [] =>
    obtain rfl := ha.eq_nil
    rw [declareAll, declareAll]
    exact .refl h
  | p :: rest =>
    obtain ⟨p', rest', rfl, hp, hrest⟩ := ha.exists_cons
    rw [declareAll, declareAll]
    refine (advances_declareElement hleaf hexact p p' h hc hsited.head hp).andThen fun hgrows hu =>
      ?_
    exact advances_declareAll hleaf hexact rest rest' hu (fun id hid => (hc id hid).grows hgrows)
      hsited.tail hrest

end

end Pass

end SymbolTable

/-- The second tree has the shape of the first one, and other texts only where names can be
replaced. If it is `exact`, the names of members, parameters and locals are not among them. -/
def Tree.Reworded (exact : Prop) (tree tree' : Tree) : Prop :=
  ∃ leaf, Rewords tree leaf ∧ (exact → KeepsNames tree leaf) ∧
    Placed.Alikes leaf Eq tree.top.children tree'.top.children

namespace SymbolTable

/-- Projects of one shape declare counterparts. -/
theorem counterparts_declareDocuments {exact : Prop}
    {documents documents' : List (DocumentId × Tree)}
    (hconforms : ∀ d ∈ documents, d.2.root.element.Conforms)
    (h : List.Forall₂ (fun d d' => d'.1 = d.1 ∧ d.2.Reworded exact d'.2) documents documents') :
    Counterparts exact (declareDocuments documents) (declareDocuments documents') := by
  suffices hfold : ∀ t t', Counterparts exact t t' →
      Counterparts exact (documents.foldl (fun t d => t.declareDocument d.1 d.2) t)
        (documents'.foldl (fun t d => t.declareDocument d.1 d.2) t') from hfold _ _ (.empty exact)
  induction h with
  | nil => exact fun _ _ h => h
  | @cons d d' documents documents' hd _ ih =>
    obtain ⟨hid, leaf, hleaf, hexact, halike⟩ := hd
    obtain ⟨hfirst, hothers⟩ := List.forall_mem_cons.mp hconforms
    intro t t' ht
    have hnone : ∀ id ∈ (none : Option SymbolId), t.CanContain id := nofun
    refine ih hothers _ _ ?_
    dsimp only
    rw [hid]
    exact (advances_declareAll hleaf hexact _ _ ht hnone (d.2.sited hfirst) halike).counterparts

/-- A member or a parameter has a counterpart after both passes. -/
theorem Counterparts.exists_build {exact : Prop} {documents documents' : List (DocumentId × Tree)}
    (h : Counterparts exact (declareDocuments documents) (declareDocuments documents'))
    {id : SymbolId} {data : SymbolData} (hdata : (build documents).data? id = some data)
    (hkind : data.kind ≠ .localVariable) :
    ∃ data', (build documents').data? id = some data' ∧ Counterpart exact data data' := by
  rw [data?_build_iff hkind] at hdata
  obtain ⟨hnone, _⟩ | ⟨_, data', hsome, hdata', hcounterpart⟩ := rel_cases (h.data? id)
  · rw [hnone] at hdata
    cases hdata
  · obtain rfl := Option.some.inj (hdata.symm.trans hsome)
    exact ⟨data', (data?_build_iff (hcounterpart.kind ▸ hkind)).mpr hdata', hcounterpart⟩

end SymbolTable

end AutoProperty
