import AutoProperty.Proofs.Symbol.Names
import AutoProperty.Proofs.Symbol.Numbering

/-! # Declarations by key

What the first pass puts into a table can be told in keys alone, without the numbers of the
symbols and without what was declared before. A table is described by all that its documents
declare, in whatever order, as long as no two members ask for one key.
-/

namespace AutoProperty

open SymbolTable

/-- What one step of the first pass does. -/
inductive Entry where
  /-- A namespace or a type with the key is there, or is now. -/
  | scope (key : Key)
  /-- A member or a parameter is added in what has the key `outer?`. -/
  | member (outer? : Option Key) (data : SymbolData)
  /-- A node is noted for the symbol with the key. -/
  | note (place : Place) (key : Key)

namespace Entry

/-! ## The entries of a document -/

def ofMember (document : DocumentId) (n : PlacedNode) (outer? : Option Key) (kind : SymbolKind)
    (name : PlacedToken) (typeName? : Option String) : List Entry :=
  let key := Key.within outer? kind name.text
  [.member outer? ⟨kind, name.text, none, typeName?, 0, key, [declaration document n name]⟩,
    .note ⟨document, n.index⟩ key]

def ofNamed (document : DocumentId) (n : PlacedNode) (outer? : Option Key) (kind : SymbolKind)
    (typeName? : Option String) : List Entry :=
  match n.name? with
  | some name => ofMember document n outer? kind name typeName?
  | none => []

/-- The key of the innermost part of a namespace's name. -/
def innermost (outer? : Option Key) (segments : List PlacedToken) : Option Key :=
  segments.foldl (fun outer? segment => some (Key.within outer? .nameSpace segment.text)) outer?

def ofSegments (outer? : Option Key) : List PlacedToken → List Entry
  | [] => []
  | segment :: segments =>
    let key := Key.within outer? .nameSpace segment.text
    .scope key :: ofSegments (some key) segments

def ofNamespace (document : DocumentId) (n : PlacedNode) (outer? : Option Key) :
    Option Key × List Entry :=
  match n.childNodes.find? fun c => c.kind == .identifierName || c.kind == .qualifiedName with
  | none => (outer?, [])
  | some name =>
    let inner? := innermost outer? name.identifiers
    (inner?, ofSegments outer? name.identifiers ++ (inner?.map (.note ⟨document, n.index⟩)).toList)

def ofFields (document : DocumentId) (n : PlacedNode) (outer? : Option Key) : List Entry :=
  match n.child? .variableDeclaration with
  | none => []
  | some declaration =>
    (declaration.childrenOf .variableDeclarator).flatMap fun declarator =>
      ofNamed document declarator outer? .field declaration.typeText?

def ofMethod (document : DocumentId) (n : PlacedNode) (outer? : Option Key) : List Entry :=
  match n.name? with
  | none => []
  | some name =>
    let arity := (parametersOf n).length
    let key := Key.within outer? .method (methodName n name ++ "(" ++ toString arity ++ ")")
    let typeName? := if n.kind == .constructorDeclaration then none else n.typeText?
    [.member outer? ⟨.method, methodName n name, none, typeName?, arity, key,
      [declaration document n name]⟩, .note ⟨document, n.index⟩ key] ++
    (parametersOf n).flatMap fun parameter => ofNamed document parameter (some key) .parameter
      parameter.typeText?

mutual

def ofElement (document : DocumentId) (outer? : Option Key) : Placed → List Entry
  | .token _ => []
  | .node info children =>
    let n : PlacedNode := ⟨info, children⟩
    let inType := outer?.any (·.kind == .namedType)
    match info.kind with
    | .namespaceDeclaration | .fileScopedNamespaceDeclaration =>
      let opened := ofNamespace document n outer?
      opened.2 ++ ofElements document opened.1 children
    | .classDeclaration | .structDeclaration =>
      match n.name? with
      | some name =>
        let key := Key.within outer? .namedType name.text
        [.scope key, .note ⟨document, n.index⟩ key] ++ ofElements document (some key) children
      | none => []
    | .fieldDeclaration => if inType then ofFields document n outer? else []
    | .propertyDeclaration => if inType then ofNamed document n outer? .property n.typeText? else []
    | .methodDeclaration | .constructorDeclaration => if inType then ofMethod document n outer?
      else []
    | _ => []

def ofElements (document : DocumentId) (outer? : Option Key) : List Placed → List Entry
  | [] => []
  | p :: rest => ofElement document outer? p ++ ofElements document outer? rest

end

def ofDocuments (documents : List (DocumentId × Tree)) : List Entry :=
  documents.flatMap fun d => ofElements d.1 none d.2.top.children

/-! ## Entries in a table -/

def memberKey? : Entry → Option Key
  | .member _ data => some data.key
  | _ => none

def Distinct (entries : List Entry) : Prop :=
  (entries.filterMap memberKey?).Nodup

theorem Distinct.of_append {entries new : List Entry} (h : Distinct (entries ++ new)) :
    Distinct entries := by
  rw [Distinct, List.filterMap_append] at h
  exact h.of_append_left

theorem Distinct.perm {entries entries' : List Entry} (h : Distinct entries)
    (hperm : entries'.Perm entries) : Distinct entries' :=
  (hperm.filterMap memberKey?).nodup_iff.mpr h

end Entry

namespace SymbolTable

variable {t u v : SymbolTable} {entries new : List Entry} {outer? : Option Key}
  {container? : Option SymbolId} {data : SymbolData} {id : SymbolId}

/-- The symbol is the one that is told of, in a container with the key. -/
structure Matches (t : SymbolTable) (outer? : Option Key) (entry data : SymbolData) : Prop where
  container : t.HasKey? data.container? outer?
  same : ∃ more,
    data = { entry with container? := data.container?, declarations := entry.declarations ++ more }
  declared : entry.declarations ≠ []

theorem Matches.key_eq {entry : SymbolData} (h : t.Matches outer? entry data) :
    data.key = entry.key := by
  obtain ⟨_, heq⟩ := h.same
  rw [heq]

theorem Matches.grows {entry : SymbolData} (h : t.Matches outer? entry data) (hgrows : Grows t u)
    (more : List Declaration) :
    u.Matches outer? entry { data with declarations := data.declarations ++ more } := by
  obtain ⟨before, heq⟩ := h.same
  refine ⟨h.container.grows hgrows, ⟨before ++ more, ?_⟩, h.declared⟩
  rw [heq]
  simp

def Has (t : SymbolTable) : Entry → Prop
  | .scope key => ∃ id, t.Keyed id key
  | .member outer? entry => ∃ id data, t.data? id = some data ∧ t.Matches outer? entry data
  | .note place key => ∃ id, (place, id) ∈ t.declared ∧ t.Keyed id key

/-- What an entry says stays true while the table grows. -/
theorem Has.grows {e : Entry} (h : t.Has e) (hgrows : Grows t u)
    (hdeclared : t.declared ⊆ u.declared) : u.Has e := by
  cases e with
  | scope key =>
    obtain ⟨id, hid⟩ := h
    exact ⟨id, hid.grows hgrows⟩
  | member outer? entry =>
    obtain ⟨id, data, hdata, hmatches⟩ := h
    obtain ⟨more, hmore⟩ := hgrows id data hdata
    exact ⟨id, _, hmore, hmatches.grows hgrows more⟩
  | note place key =>
    obtain ⟨id, hmem, hid⟩ := h
    exact ⟨id, hdeclared hmem, hid.grows hgrows⟩

/-- A namespace or a type is nothing but its key. -/
structure IsScopeOf (t : SymbolTable) (outer? : Option Key) (data : SymbolData) : Prop where
  container : t.HasKey? data.container? outer?
  outer : ∀ key ∈ outer?, ¬key.kind.isSingle
  key : data.key = Key.within outer? data.kind data.name
  typeName? : data.typeName? = none
  arity : data.arity = 0

theorem IsScopeOf.grows (h : t.IsScopeOf outer? data) (hgrows : Grows t u)
    (more : List Declaration) :
    u.IsScopeOf outer? { data with declarations := data.declarations ++ more } :=
  ⟨h.container.grows hgrows, h.outer, h.key, h.typeName?, h.arity⟩

def Entered (t : SymbolTable) (entries : List Entry) (data : SymbolData) : Prop :=
  (data.kind.isSingle → ∃ outer? entry, .member outer? entry ∈ entries ∧
    t.Matches outer? entry data) ∧
    (¬data.kind.isSingle → .scope data.key ∈ entries ∧ ∃ outer?, t.IsScopeOf outer? data)

theorem Entered.grows (h : t.Entered entries data) (hgrows : Grows t u) (hentries : entries ⊆ new)
    (more : List Declaration) :
    u.Entered new { data with declarations := data.declarations ++ more } := by
  refine ⟨fun hsingle => ?_, fun hsingle => ?_⟩
  · obtain ⟨outer?, entry, hmem, hmatches⟩ := h.1 hsingle
    exact ⟨outer?, entry, hentries hmem, hmatches.grows hgrows more⟩
  · obtain ⟨hmem, outer?, hscope⟩ := h.2 hsingle
    exact ⟨hentries hmem, outer?, hscope.grows hgrows more⟩

/-- The table holds what the entries tell, and nothing else. -/
structure Describes (entries : List Entry) (t : SymbolTable) : Prop where
  has : ∀ e ∈ entries, t.Has e
  kinds : ∀ id data, t.data? id = some data → data.key.kind = data.kind
  entered : ∀ id data, t.data? id = some data → t.Entered entries data
  noted : ∀ place id, (place, id) ∈ t.declared → ∃ key, .note place key ∈ entries ∧ t.Keyed id key
  distinct : Entry.Distinct entries

/-- No key will have to be numbered: none of the keys that are asked for is asked for twice, or
no symbol has a numbered key in the end. -/
def Clean (entries : List Entry) (t : SymbolTable) : Prop :=
  Entry.Distinct entries ∨ ∃ u : SymbolTable, u.IsUnnumbered ∧ Grows t u

theorem Clean.before (h : Clean (entries ++ new) u) (hgrows : Grows t u) : Clean entries t :=
  h.imp Entry.Distinct.of_append fun ⟨v, hv, hu⟩ => ⟨v, hv, hgrows.trans hu⟩

namespace Describes

theorem empty : Describes [] .empty where
  has := fun _ h => absurd h List.not_mem_nil
  kinds _ _ h := by cases h
  entered _ _ h := by cases h
  noted _ _ h := absurd h List.not_mem_nil
  distinct := List.nodup_nil

/-- A table that has grown is described by more entries if what is new is. -/
theorem extend (h : Describes entries t) (hgrows : Grows t u) (hdeclared : t.declared ⊆ u.declared)
    (hnew : ∀ e ∈ new, u.Has e)
    (hdata : ∀ id data, u.data? id = some data →
      (∃ old more, t.data? id = some old ∧
        data = { old with declarations := old.declarations ++ more }) ∨
        data.key.kind = data.kind ∧ u.Entered (entries ++ new) data)
    (hnoted : ∀ place id, (place, id) ∈ u.declared → (place, id) ∈ t.declared ∨
      ∃ key, .note place key ∈ new ∧ u.Keyed id key) (hdistinct : Entry.Distinct (entries ++ new)) :
    Describes (entries ++ new) u where
  has := List.forall_mem_append.mpr ⟨fun e he => (h.has e he).grows hgrows hdeclared, hnew⟩
  kinds id data hu := by
    obtain ⟨old, more, hold, rfl⟩ | hnew := hdata id data hu
    · exact h.kinds id old hold
    · exact hnew.1
  entered id data hu := by
    obtain ⟨old, more, hold, rfl⟩ | hnew := hdata id data hu
    · exact (h.entered id old hold).grows hgrows (List.subset_append_left ..) more
    · exact hnew.2
  noted place id hmem := by
    obtain hmem | ⟨key, hmem, hkey⟩ := hnoted place id hmem
    · obtain ⟨key, hmem, hkey⟩ := h.noted place id hmem
      exact ⟨key, List.mem_append_left _ hmem, hkey.grows hgrows⟩
    · exact ⟨key, List.mem_append_right _ hmem, hkey⟩
  distinct := hdistinct

/-- A member asks for a free key. -/
theorem not_hasKey (h : Describes entries t) (hsingle : data.kind.isSingle)
    (hcontainer : t.HasKey? data.container? outer?) {label : String} (hlabel : data.IsLabel label)
    (hkey : data.key = Key.within outer? data.kind label) {entry : SymbolData}
    (hentry : entry.key = data.key)
    (hclean : Clean (entries ++ [.member outer? entry]) (t.add data).2) : ¬t.hasKey data.key := by
  obtain hdistinct | ⟨u, hu, hgrows⟩ := hclean
  · rw [hasKey_iff]
    intro hmem
    obtain ⟨old, hold, heq⟩ := List.mem_map.mp hmem
    obtain ⟨i, hi⟩ := List.getElem?_of_mem hold
    have hkind : old.kind = data.kind := by
      rw [← h.kinds ⟨i⟩ old hi, heq, hkey, Key.kind_within]
    obtain ⟨_, old', hentered, hmatches⟩ := (h.entered ⟨i⟩ old hi).1 (hkind ▸ hsingle)
    rw [Entry.Distinct, List.filterMap_append, List.nodup_append] at hdistinct
    refine hdistinct.2.2 old.key (List.mem_filterMap.mpr ⟨_, hentered, ?_⟩) data.key ?_ heq
    · rw [hmatches.key_eq]
      rfl
    · rw [← hentry]
      exact List.mem_singleton_self _
  · exact hu.not_hasKey hgrows hlabel hcontainer hkey

/-- A member or a parameter is added. -/
theorem add (h : Describes entries t) (data : SymbolData) (hsingle : data.kind.isSingle)
    (hcontainer : t.HasKey? data.container? outer?) {label : String} (hlabel : data.IsLabel label)
    (hkey : data.key = Key.within outer? data.kind label) (hdeclared : data.declarations ≠ [])
    (hclean : Clean (entries ++ [.member outer? { data with container? := none }]) (t.add data).2) :
    Describes (entries ++ [.member outer? { data with container? := none }]) (t.add data).2 ∧
      (t.add data).2.Keyed (t.add data).1 data.key := by
  have hfree : ¬t.hasKey data.key := h.not_hasKey hsingle hcontainer hlabel hkey
    (show ({ data with container? := none } : SymbolData).key = data.key from rfl) hclean
  have hfresh : t.freshKey data.key = data.key := if_neg hfree
  have hadded : (t.add data).2.data? (t.add data).1 = some data := by
    rw [data?_add, if_pos rfl, hfresh]
  have hmatches : (t.add data).2.Matches outer? { data with container? := none } data :=
    ⟨hcontainer.grows (Grows.add t data), ⟨[], by simp⟩, hdeclared⟩
  refine ⟨h.extend (Grows.add t data) (List.Subset.refl _) ?_ ?_ (fun place id hmem => .inl hmem)
    ?_, data, hadded, rfl⟩
  · exact List.forall_mem_singleton.mpr ⟨_, data, hadded, hmatches⟩
  · intro id data' hdata'
    rw [data?_add] at hdata'
    split at hdata'
    next =>
      obtain rfl := Option.some.inj hdata'
      rw [hfresh]
      refine .inr ⟨by rw [hkey, Key.kind_within], fun _ => ?_, absurd hsingle⟩
      exact ⟨outer?, _, List.mem_append_right _ (List.mem_singleton_self _), hmatches⟩
    next => exact .inl ⟨data', [], hdata', by simp⟩
  · rw [Entry.Distinct, List.filterMap_append, List.nodup_append]
    refine ⟨h.distinct, List.nodup_singleton _, fun key hmem key' hmem' => ?_⟩
    obtain rfl : key' = data.key := List.mem_singleton.mp hmem'
    rintro rfl
    obtain ⟨e, he, hekey⟩ := List.mem_filterMap.mp hmem
    cases e with
    | scope => cases hekey
    | note => cases hekey
    | member outer? entry =>
      obtain ⟨id, old, hold, hmatches⟩ := h.has _ he
      refine hfree (hasKey_iff.mpr (List.mem_map.mpr ⟨old, List.mem_of_getElem? hold, ?_⟩))
      rw [hmatches.key_eq]
      exact Option.some.inj hekey

/-- A namespace or a type is added, or declared again. -/
theorem merge (h : Describes entries t) (data : SymbolData) (hsingle : ¬data.kind.isSingle)
    (hscope : t.IsScopeOf outer? data) :
    Describes (entries ++ [.scope data.key]) (t.merge data).2 ∧
      (t.merge data).2.Keyed (t.merge data).1 data.key := by
  have hdistinct : Entry.Distinct (entries ++ [.scope data.key]) := by
    rw [Entry.Distinct, List.filterMap_append,
      show [Entry.scope data.key].filterMap Entry.memberKey? = [] from rfl, List.append_nil]
    exact h.distinct
  have hgrows := Grows.merge t data
  have hdeclared := declared_merge t data
  obtain ⟨hnone, heq⟩ | ⟨old, hold, hkey, hfind, heq⟩ := t.data?_merge data
  · have hadded : (t.add data).2.data? (t.add data).1 = some data := by
      rw [data?_add, if_pos rfl, freshKey_of_find?_eq_none hnone]
    rw [heq] at hgrows hdeclared ⊢
    have hkeyed : (t.add data).2.Keyed (t.add data).1 data.key := ⟨data, hadded, rfl⟩
    refine ⟨h.extend hgrows (hdeclared ▸ List.Subset.refl _)
      (List.forall_mem_singleton.mpr ⟨_, hkeyed⟩)
      (fun id data' hdata' => ?_) (fun place id hmem => .inl (hdeclared ▸ hmem)) hdistinct, hkeyed⟩
    rw [data?_add] at hdata'
    split at hdata'
    next =>
      obtain rfl := Option.some.inj hdata'
      rw [freshKey_of_find?_eq_none hnone]
      refine .inr ⟨by rw [hscope.key, Key.kind_within], fun hs => absurd hs hsingle, fun _ => ?_⟩
      refine ⟨List.mem_append_right _ (List.mem_singleton_self _), outer?, ?_⟩
      simpa using hscope.grows hgrows []
    next => exact .inl ⟨data', [], hdata', by simp⟩
  · have hkeyed : (t.merge data).2.Keyed (t.merge data).1 data.key :=
      (Keyed.grows ⟨old, hold, hkey⟩ hgrows)
    refine ⟨h.extend hgrows (hdeclared ▸ List.Subset.refl _)
      (List.forall_mem_singleton.mpr ⟨_, hkeyed⟩)
      (fun id data' hdata' => ?_) (fun place id hmem => .inl (hdeclared ▸ hmem)) hdistinct, hkeyed⟩
    rw [heq, data?_addDeclarations] at hdata'
    obtain ⟨before, hbefore, rfl⟩ := Option.map_eq_some_iff.mp hdata'
    split
    next => exact .inl ⟨before, _, hbefore, rfl⟩
    next => exact .inl ⟨before, [], hbefore, by simp⟩

/-- A node is noted for a symbol. -/
theorem declare (h : Describes entries t) {key : Key} (hid : t.Keyed id key) (place : Place) :
    Describes (entries ++ [.note place key]) (t.declare place id) := by
  have hgrows := Grows.declare t place id
  refine h.extend hgrows (List.subset_cons_self _ _)
    (List.forall_mem_singleton.mpr ⟨id, List.mem_cons_self, hid.grows hgrows⟩)
    (fun id' data hdata => .inl ⟨data, [], hdata, by simp⟩) (fun place' id' hmem => ?_) ?_
  · obtain heq | hmem := List.mem_cons.mp hmem
    · obtain ⟨rfl, rfl⟩ := Prod.mk.inj heq
      exact .inr ⟨key, List.mem_singleton_self _, hid.grows hgrows⟩
    · exact .inl hmem
  · rw [Entry.Distinct, List.filterMap_append,
      show [Entry.note place key].filterMap Entry.memberKey? = [] from rfl, List.append_nil]
    exact h.distinct

end Describes

/-! ## The first pass -/

theorem Grows.foldl {α : Type} {f : SymbolTable → α → SymbolTable} (hf : ∀ t x, Grows t (f t x))
    (xs : List α) (t : SymbolTable) : Grows t (xs.foldl f t) := by
  induction xs generalizing t with
  | nil => exact .refl t
  | cons x xs ih => exact (hf t x).trans (ih (f t x))

/-- Entries for a list of things follow each other, as the things do. Keys must stay clean to
the end. -/
theorem Describes.foldl {α : Type} {f : SymbolTable → α → SymbolTable} (entriesOf : α → List Entry)
    (hf : ∀ t x, Grows t (f t x)) {xs : List α} (h : Describes entries t)
    (hstep : ∀ entries u x, x ∈ xs → Grows t u → Describes entries u →
      Clean (entries ++ entriesOf x) (f u x) → Describes (entries ++ entriesOf x) (f u x))
    (hclean : Clean (entries ++ xs.flatMap entriesOf) (xs.foldl f t)) :
    Describes (entries ++ xs.flatMap entriesOf) (xs.foldl f t) := by
  induction xs generalizing entries t with
  | nil => simpa using h
  | cons x xs ih =>
    rw [List.flatMap_cons, ← List.append_assoc, List.foldl_cons] at hclean ⊢
    have hfirst :=
      hstep entries t x List.mem_cons_self (.refl t) h (hclean.before (.foldl hf xs (f t x)))
    refine ih hfirst (fun entries u y hy hgrows => ?_) hclean
    exact hstep entries u y (List.mem_cons_of_mem x hy) ((hf t x).trans hgrows)

section Pass

variable {document : DocumentId} {n : PlacedNode}

theorem grows_declareSegments (t : SymbolTable) (document : DocumentId) (n : PlacedNode)
    (container? : Option SymbolId) (segments : List PlacedToken) :
    Grows t (t.declareSegments document n container? segments).2 := by
  induction segments generalizing t container? with
  | nil => exact .refl t
  | cons segment segments ih => exact (Grows.merge t _).trans (ih _ _)

/-- The entries for the parts of a name tell what the parts declare. -/
theorem describes_declareSegments (h : Describes entries t)
    (hcontainer : t.HasKey? container? outer?) (houter : ∀ key ∈ outer?, ¬key.kind.isSingle)
    (segments : List PlacedToken) :
    Describes (entries ++ Entry.ofSegments outer? segments)
      (t.declareSegments document n container? segments).2 ∧
      (t.declareSegments document n container? segments).2.HasKey?
        (t.declareSegments document n container? segments).1 (Entry.innermost outer? segments) ∧
        ∀ key ∈ Entry.innermost outer? segments, ¬key.kind.isSingle := by
  induction segments generalizing entries t container? outer? with
  | nil =>
    rw [Entry.ofSegments, List.append_nil]
    exact ⟨h, hcontainer, houter⟩
  | cons segment segments ih =>
    let data := t.segmentData document n container? segment
    have hkey : data.key = Key.within outer? .nameSpace segment.text := hcontainer.childKey_eq ..
    obtain ⟨hmerge, hkeyed⟩ := h.merge data (fun h => h.1 rfl) ⟨hcontainer, houter, hkey, rfl, rfl⟩
    rw [hkey] at hmerge hkeyed
    have hinner : ∀ key ∈ some (Key.within outer? .nameSpace segment.text), ¬key.kind.isSingle := by
      intro key hmem
      obtain rfl := Option.some.inj hmem
      rw [Key.kind_within]
      exact fun h => h.1 rfl
    have hrest := ih hmerge (.some hkeyed) hinner
    rw [List.append_assoc, List.singleton_append] at hrest
    exact hrest

/-- Declaring a namespace adds symbols and takes none away. -/
theorem grows_declareNamespace (t : SymbolTable) (document : DocumentId) (n : PlacedNode)
    (container? : Option SymbolId) : Grows t (t.declareNamespace document n container?).2 := by
  rw [declareNamespace]
  dsimp only
  split
  next => exact .refl t
  next name _ =>
    have hgrows := t.grows_declareSegments document n container? name.identifiers
    split
    next => exact hgrows.trans (Grows.declare _ _ _)
    next => exact hgrows

/-- The entries for a namespace tell what its name declares, and where its members go. -/
theorem describes_declareNamespace (h : Describes entries t)
    (hcontainer : t.HasKey? container? outer?) (houter : ∀ key ∈ outer?, ¬key.kind.isSingle)
    (document : DocumentId) (n : PlacedNode) :
    Describes (entries ++ (Entry.ofNamespace document n outer?).2)
      (t.declareNamespace document n container?).2 ∧
      (t.declareNamespace document n container?).2.HasKey?
        (t.declareNamespace document n container?).1 (Entry.ofNamespace document n outer?).1 ∧
        ∀ key ∈ (Entry.ofNamespace document n outer?).1, ¬key.kind.isSingle := by
  rw [declareNamespace, Entry.ofNamespace]
  dsimp only
  cases n.childNodes.find? fun c => c.kind == .identifierName || c.kind == .qualifiedName with
  | none =>
    dsimp only
    rw [List.append_nil]
    exact ⟨h, hcontainer, houter⟩
  | some name =>
    obtain ⟨hsegments, hinner, hkinds⟩ :=
      @describes_declareSegments _ _ _ _ document n h hcontainer houter name.identifiers
    dsimp only
    generalize t.declareSegments document n container? name.identifiers =
      outcome at hsegments hinner ⊢
    generalize Entry.innermost outer? name.identifiers = inner? at hinner hkinds ⊢
    obtain ⟨innermost?, u⟩ := outcome
    cases hinner with
    | none => exact ⟨by simpa using hsegments, .none, hkinds⟩
    | some hid =>
      rw [← List.append_assoc]
      exact ⟨hsegments.declare hid _, .some (hid.grows (Grows.declare _ _ _)), hkinds⟩

theorem grows_declareMember (t : SymbolTable) (document : DocumentId) (n : PlacedNode)
    (container? : Option SymbolId) (kind : SymbolKind) (name : PlacedToken)
    (typeName? : Option String) :
    Grows t (t.declareMember document n container? kind name typeName?) :=
  (Grows.add t _).trans (Grows.declare _ _ _)

def declareNamed (t : SymbolTable) (document : DocumentId) (n : PlacedNode)
    (container? : Option SymbolId) (kind : SymbolKind) (typeName? : Option String) : SymbolTable :=
  match n.name? with
  | some name => t.declareMember document n container? kind name typeName?
  | none => t

theorem grows_declareNamed (t : SymbolTable) (document : DocumentId) (n : PlacedNode)
    (container? : Option SymbolId) (kind : SymbolKind) (typeName? : Option String) :
    Grows t (t.declareNamed document n container? kind typeName?) := by
  rw [declareNamed]
  split
  next => exact t.grows_declareMember _ _ _ _ _ _
  next => exact .refl t

/-- A declared name leaves one entry, if there is a name. -/
theorem describes_declareNamed (h : Describes entries t) (hcontainer : t.HasKey? container? outer?)
    {kind : SymbolKind} (hkind : kind = .field ∨ kind = .property ∨ kind = .parameter)
    {typeName? : Option String}
    (hclean : Clean (entries ++ Entry.ofNamed document n outer? kind typeName?)
      (t.declareNamed document n container? kind typeName?)) :
    Describes (entries ++ Entry.ofNamed document n outer? kind typeName?)
      (t.declareNamed document n container? kind typeName?) := by
  cases hname : n.name? with
  | none =>
    rw [declareNamed, Entry.ofNamed, hname]
    simpa using h
  | some name =>
    rw [declareNamed, Entry.ofNamed, hname] at hclean ⊢
    let data := t.memberData document n container? kind name typeName?
    have hkey : data.key = Key.within outer? kind name.text := hcontainer.childKey_eq ..
    have hsingle : data.kind.isSingle := by
      obtain rfl | rfl | rfl := hkind <;> exact ⟨nofun, nofun⟩
    have hlabel : data.IsLabel name.text := by
      obtain rfl | rfl | rfl := hkind <;> exact ⟨0, rfl⟩
    dsimp only at hclean ⊢
    rw [Entry.ofMember, ← hkey, List.append_cons] at hclean ⊢
    obtain ⟨hadd, hkeyed⟩ :=
      h.add data hsingle hcontainer hlabel hkey (List.cons_ne_nil _ _)
        (hclean.before (Grows.declare _ _ _))
    exact hadd.declare hkeyed _

theorem declareFields_eq (t : SymbolTable) (document : DocumentId) (n : PlacedNode)
    (container? : Option SymbolId) :
    t.declareFields document n container? = match n.child? .variableDeclaration with
      | none => t
      | some declaration => (declaration.childrenOf .variableDeclarator).foldl (fun t declarator =>
          t.declareNamed document declarator container? .field declaration.typeText?) t := rfl

theorem grows_declareFields (t : SymbolTable) (document : DocumentId) (n : PlacedNode)
    (container? : Option SymbolId) : Grows t (t.declareFields document n container?) := by
  rw [declareFields_eq]
  split
  next => exact .refl t
  next => exact .foldl (fun t declarator => t.grows_declareNamed _ _ _ _ _) _ t

/-- The entries for a field declaration tell what its declarators declare. -/
theorem describes_declareFields (h : Describes entries t) (hcontainer : t.HasKey? container? outer?)
    (hclean : Clean (entries ++ Entry.ofFields document n outer?)
      (t.declareFields document n container?)) :
    Describes (entries ++ Entry.ofFields document n outer?)
      (t.declareFields document n container?) := by
  cases hchild : n.child? .variableDeclaration with
  | none =>
    rw [declareFields_eq, Entry.ofFields, hchild]
    simpa using h
  | some declaration =>
    rw [declareFields_eq, Entry.ofFields, hchild] at hclean ⊢
    refine h.foldl _ (fun t declarator => t.grows_declareNamed _ _ _ _ _)
      (fun entries u declarator _ hgrows hu hclean => ?_) hclean
    exact describes_declareNamed hu (hcontainer.grows hgrows) (.inl rfl) hclean

theorem declareMethod_eq {name : PlacedToken} (h : n.name? = some name) :
    t.declareMethod document n container? =
    let added := t.add (t.methodData document n container? name)
    (parametersOf n).foldl (fun t parameter =>
      t.declareNamed document parameter (some added.1) .parameter parameter.typeText?)
      (added.2.declare ⟨document, n.index⟩ added.1) :=
  declareMethod_of_name h

/-- Declaring a method adds symbols and takes none away. -/
theorem grows_declareMethod (t : SymbolTable) (document : DocumentId) (n : PlacedNode)
    (container? : Option SymbolId) : Grows t (t.declareMethod document n container?) := by
  cases hname : n.name? with
  | none =>
    rw [declareMethod, hname]
    exact .refl t
  | some name =>
    rw [declareMethod_eq hname]
    exact ((Grows.add t _).trans (Grows.declare _ _ _)).trans
      (.foldl (fun t parameter => t.grows_declareNamed _ _ _ _ _) _ _)

/-- The entries for a method tell of it and of its parameters. -/
theorem describes_declareMethod (h : Describes entries t) (hcontainer : t.HasKey? container? outer?)
    (hclean : Clean (entries ++ Entry.ofMethod document n outer?)
      (t.declareMethod document n container?)) :
    Describes (entries ++ Entry.ofMethod document n outer?)
      (t.declareMethod document n container?) := by
  cases hname : n.name? with
  | none =>
    rw [declareMethod, Entry.ofMethod, hname]
    simpa using h
  | some name =>
    rw [declareMethod_eq hname, Entry.ofMethod, hname] at hclean ⊢
    let data := t.methodData document n container? name
    have hkey : data.key = Key.within outer? .method
        (methodName n name ++ "(" ++ toString (parametersOf n).length ++ ")") :=
      hcontainer.childKey_eq ..
    dsimp only at hclean ⊢
    rw [← hkey, ← List.append_assoc] at hclean ⊢
    have hparameter (u : SymbolTable) (parameter : PlacedNode) :=
      u.grows_declareNamed document parameter (some (t.add data).1) .parameter parameter.typeText?
    have hdeclared := hclean.before (Grows.foldl hparameter (parametersOf n) _)
    rw [List.append_cons] at hdeclared hclean ⊢
    obtain ⟨hadd, hkeyed⟩ := h.add data SymbolKind.isSingle_method hcontainer ⟨0, rfl⟩ hkey
      (List.cons_ne_nil _ _) (hdeclared.before (Grows.declare _ _ _))
    have hnoted := hadd.declare hkeyed ⟨document, n.index⟩
    refine hnoted.foldl _ hparameter (fun entries u parameter _ hgrows hu hclean => ?_) hclean
    exact describes_declareNamed hu (.some ((hkeyed.grows (Grows.declare _ _ _)).grows hgrows))
      (.inr (.inr rfl)) hclean

theorem declareType?_eq (t : SymbolTable) (document : DocumentId) (n : PlacedNode)
    (container? : Option SymbolId) :
    t.declareType? document n container? = n.name?.map fun name =>
      let merged := t.merge (t.typeData document n container? name)
      (merged.1, merged.2.declare ⟨document, n.index⟩ merged.1) := rfl

theorem grows_declareType? {u : SymbolTable}
    (h : t.declareType? document n container? = some (id, u)) : Grows t u := by
  rw [declareType?_eq] at h
  obtain ⟨name, _, heq⟩ := Option.map_eq_some_iff.mp h
  obtain ⟨_, rfl⟩ := Prod.mk.inj heq
  exact (Grows.merge t _).trans (Grows.declare _ _ _)

/-- A type with a name goes by the key that its name and its container say. -/
theorem describes_declareType? (h : Describes entries t) (hcontainer : t.HasKey? container? outer?)
    (houter : ∀ key ∈ outer?, ¬key.kind.isSingle) {name : PlacedToken}
    (hname : n.name? = some name) :
    ∃ id u, t.declareType? document n container? = some (id, u) ∧
      let key := Key.within outer? .namedType name.text
      Describes (entries ++ [.scope key, .note ⟨document, n.index⟩ key]) u ∧ u.Keyed id key := by
  let data := t.typeData document n container? name
  have hkey : data.key = Key.within outer? .namedType name.text := hcontainer.childKey_eq ..
  obtain ⟨hmerge, hkeyed⟩ := h.merge data (fun h => h.2 rfl) ⟨hcontainer, houter, hkey, rfl, rfl⟩
  rw [declareType?_eq, hname]
  refine ⟨_, _, rfl, ?_, hkey ▸ hkeyed.grows (Grows.declare _ _ _)⟩
  rw [← hkey, List.append_cons]
  exact hmerge.declare hkeyed _

mutual

/-- The first pass adds symbols and takes none away. -/
theorem grows_declareElement (t : SymbolTable) (document : DocumentId)
    (container? : Option SymbolId) (p : Placed) :
    Grows t (t.declareElement document container? p) := by
  match p with
  | .token _ => exact .refl t
  | .node info children =>
    have hnamespace := t.grows_declareNamespace document ⟨info, children⟩ container?
    rw [declareElement]
    dsimp only
    split
    next => exact hnamespace.trans (grows_declareAll _ document _ children)
    next => exact hnamespace.trans (grows_declareAll _ document _ children)
    next =>
      split
      next id u hu =>
        exact (grows_declareType? hu).trans (grows_declareAll u document (some id) children)
      next => exact .refl t
    next =>
      split
      next id u hu =>
        exact (grows_declareType? hu).trans (grows_declareAll u document (some id) children)
      next => exact .refl t
    next =>
      split
      next => exact t.grows_declareFields document _ container?
      next => exact .refl t
    next =>
      split
      next => exact t.grows_declareNamed document ⟨info, children⟩ container? .property _
      next => exact .refl t
    next =>
      split
      next => exact t.grows_declareMethod document _ container?
      next => exact .refl t
    next =>
      split
      next => exact t.grows_declareMethod document _ container?
      next => exact .refl t
    next => exact .refl t

/-- The first pass adds symbols and takes none away, whatever the elements are. -/
theorem grows_declareAll (t : SymbolTable) (document : DocumentId) (container? : Option SymbolId)
    (ps : List Placed) : Grows t (t.declareAll document container? ps) := by
  match ps with
  | [] =>
    rw [declareAll]
    exact .refl t
  | p :: rest =>
    rw [declareAll]
    exact (grows_declareElement t document container? p).trans
      (grows_declareAll _ document container? rest)

end

/-- Members are declared where the key of the container is that of a type. -/
theorem Describes.any_isType (h : Describes entries t) (hcontainer : t.HasKey? container? outer?) :
    container?.any t.isType = outer?.any (·.kind == .namedType) := by
  cases hcontainer with
  | none => rfl
  | @some id key hid =>
    obtain ⟨data, hdata, rfl⟩ := hid
    simp [isType, kind?, hdata, h.kinds id data hdata]

mutual

/-- An element declares its entries. -/
theorem describes_declareElement {t : SymbolTable} {entries : List Entry}
    {container? : Option SymbolId} {outer? : Option Key} (p : Placed) (h : Describes entries t)
    (hcontainer : t.HasKey? container? outer?) (houter : ∀ key ∈ outer?, ¬key.kind.isSingle)
    (hclean : Clean (entries ++ Entry.ofElement document outer? p)
      (t.declareElement document container? p)) :
    Describes (entries ++ Entry.ofElement document outer? p)
      (t.declareElement document container? p) := by
  match p with
  | .token _ =>
    rw [Entry.ofElement, List.append_nil]
    exact h
  | .node ⟨index, kind, full, extent?⟩ children =>
    let n : PlacedNode := ⟨⟨index, kind, full, extent?⟩, children⟩
    have hnamespace (hentries : Entry.ofElement document outer? n.placed =
          (Entry.ofNamespace document n outer?).2 ++ Entry.ofElements document
            (Entry.ofNamespace document n outer?).1 children)
        (htable : t.declareElement document container? n.placed =
          (t.declareNamespace document n container?).2.declareAll document
            (t.declareNamespace document n container?).1 children) :
        Describes (entries ++ Entry.ofElement document outer? n.placed)
          (t.declareElement document container? n.placed) := by
      obtain ⟨hopened, hinner, hkinds⟩ := describes_declareNamespace h hcontainer houter document n
      rw [PlacedNode.placed] at hentries htable ⊢
      rw [hentries, htable, ← List.append_assoc] at hclean ⊢
      exact describes_declareAll children hopened hinner hkinds hclean
    have htype (hentries : Entry.ofElement document outer? n.placed = match n.name? with
          | some name =>
            let key := Key.within outer? .namedType name.text
            [.scope key, .note ⟨document, n.index⟩ key] ++ Entry.ofElements document (some key)
            children
          | none => [])
        (htable : t.declareElement document container? n.placed = match t.declareType? document n
          container? with
          | some (id, t) => t.declareAll document (some id) children
          | none => t) :
        Describes (entries ++ Entry.ofElement document outer? n.placed)
          (t.declareElement document container? n.placed) := by
      rw [PlacedNode.placed] at hentries htable ⊢
      rw [hentries, htable] at hclean ⊢
      cases hname : n.name? with
      | none =>
        rw [declareType?_eq, hname]
        simpa using h
      | some name =>
        obtain ⟨id, u, htyped, hopened, hid⟩ :=
          @describes_declareType? _ _ _ _ document n h hcontainer houter name hname
        rw [hname, htyped] at hclean
        rw [htyped]
        dsimp only at hclean ⊢
        rw [← List.append_assoc] at hclean ⊢
        refine describes_declareAll children hopened (.some hid) (fun key hkey => ?_) hclean
        obtain rfl := Option.some.inj hkey
        rw [Key.kind_within]
        exact fun h => h.2 rfl
    have hmember {of : List Entry} {u : SymbolTable}
        (hentries : Entry.ofElement document outer? n.placed = if outer?.any (·.kind == .namedType)
          then of else [])
        (htable : t.declareElement document container? n.placed = if container?.any t.isType then u
          else t)
        (hstep : Clean (entries ++ of) u → Describes (entries ++ of) u) :
        Describes (entries ++ Entry.ofElement document outer? n.placed)
          (t.declareElement document container? n.placed) := by
      rw [PlacedNode.placed] at hentries htable ⊢
      rw [hentries, htable, h.any_isType hcontainer] at hclean ⊢
      by_cases htype : outer?.any (·.kind == .namedType)
      · rw [if_pos htype, if_pos htype] at hclean ⊢
        exact hstep hclean
      · rw [if_neg htype, if_neg htype, List.append_nil]
        exact h
    cases kind
    case namespaceDeclaration => exact hnamespace rfl rfl
    case fileScopedNamespaceDeclaration => exact hnamespace rfl rfl
    case classDeclaration => exact htype rfl rfl
    case structDeclaration => exact htype rfl rfl
    case fieldDeclaration => exact hmember rfl rfl (describes_declareFields h hcontainer)
    case propertyDeclaration =>
      exact hmember rfl rfl (describes_declareNamed h hcontainer (.inr (.inl rfl)))
    case methodDeclaration => exact hmember rfl rfl (describes_declareMethod h hcontainer)
    case constructorDeclaration => exact hmember rfl rfl (describes_declareMethod h hcontainer)
    all_goals
      rw [Entry.ofElement, List.append_nil]
      exact h

/-- Elements declare their entries. -/
theorem describes_declareAll {t : SymbolTable} {entries : List Entry} {container? : Option SymbolId}
    {outer? : Option Key} (ps : List Placed) (h : Describes entries t)
    (hcontainer : t.HasKey? container? outer?) (houter : ∀ key ∈ outer?, ¬key.kind.isSingle)
    (hclean : Clean (entries ++ Entry.ofElements document outer? ps)
      (t.declareAll document container? ps)) :
    Describes (entries ++ Entry.ofElements document outer? ps)
      (t.declareAll document container? ps) := by
  match ps with
  | [] =>
    rw [Entry.ofElements, declareAll, List.append_nil]
    exact h
  | p :: rest =>
    rw [Entry.ofElements, declareAll, ← List.append_assoc] at hclean ⊢
    have hfirst :=
      describes_declareElement p h hcontainer houter
        (hclean.before (grows_declareAll _ document container? rest))
    exact describes_declareAll rest hfirst
      (hcontainer.grows (grows_declareElement t document container? p)) houter hclean

end

end Pass

/-- A project declares its entries. -/
theorem describes_declareDocuments {documents : List (DocumentId × Tree)}
    (hclean : Clean (Entry.ofDocuments documents) (declareDocuments documents)) :
    Describes (Entry.ofDocuments documents) (declareDocuments documents) := by
  have hnone : ∀ key ∈ (none : Option Key), ¬key.kind.isSingle :=
    fun _ h => absurd h (Option.not_mem_none _)
  rw [← List.nil_append (Entry.ofDocuments documents)] at hclean ⊢
  refine Describes.empty.foldl (f :=
    fun (t : SymbolTable) (d : DocumentId × Tree) => t.declareDocument d.1 d.2)
    (fun d => Entry.ofElements d.1 none d.2.top.children) (fun t d => grows_declareAll t d.1 none _)
    (fun entries u d _ _ hu hclean => ?_) hclean
  exact describes_declareAll _ hu .none hnone hclean

end SymbolTable

end AutoProperty
