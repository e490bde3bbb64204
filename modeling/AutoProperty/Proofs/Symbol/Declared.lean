import AutoProperty.Proofs.Symbol.Recording
import AutoProperty.Proofs.Symbol.Table

/-! # What is declared

Every symbol in a table was declared by a node that fits it, and every member, parameter and
local by one node only. The first pass over a project keeps this, document by document.
-/

namespace AutoProperty

/-- Types and namespaces are all that can stand around a member in the root. -/
def Kind.isScope : Kind → Bool
  | .classDeclaration | .structDeclaration
  | .namespaceDeclaration | .fileScopedNamespaceDeclaration => true
  | _ => false

/-- The members whose types, initial values and bodies are bound. -/
def Kind.hasParts : Kind → Bool
  | .fieldDeclaration | .propertyDeclaration | .methodDeclaration | .constructorDeclaration => true
  | _ => false

/-- Members stand in scopes only, and never outside of the root, the last of what is around them. -/
def AreScopes (above : List PlacedNode) : Prop :=
  above ≠ [] ∧ ∀ n ∈ above.dropLast, n.kind.isScope

theorem AreScopes.root (n : PlacedNode) : AreScopes [n] :=
  ⟨List.cons_ne_nil _ _, nofun⟩

theorem AreScopes.cons {n : PlacedNode} {above : List PlacedNode} (h : AreScopes above)
    (hn : n.kind.isScope) : AreScopes (n :: above) := by
  refine ⟨List.cons_ne_nil _ _, ?_⟩
  rw [List.dropLast_cons_of_ne_nil h.1]
  exact List.forall_mem_cons.mpr ⟨hn, h.2⟩

def TokenFocus.InMember (f : TokenFocus) : Prop :=
  ∃ inner member outer, f.above = inner ++ member :: outer ∧ member.kind.hasParts ∧ AreScopes outer

def TokenFocus.InHead (f : TokenFocus) : Prop :=
  ∃ inner scope outer, f.above = inner ++ scope :: outer ∧ scope.kind.isScope ∧ AreScopes outer ∧
    ∀ c ∈ inner.getLast?, ¬c.kind.isScope ∧ ¬c.kind.hasParts

theorem Kind.not_hasParts_of_isScope {kind : Kind} (h : kind.isScope) : ¬kind.hasParts := by
  cases kind <;> first | exact absurd h Bool.false_ne_true | exact Bool.false_ne_true

/-- A member is no part of the head of a scope. -/
theorem TokenFocus.InMember.not_inHead {f : TokenFocus} (h : f.InMember) : ¬f.InHead := by
  rintro ⟨inner', scope, outer', habove', hscope, houter', hlast⟩
  obtain ⟨inner, member, outer, habove, hparts, houter⟩ := h
  rw [habove, List.append_eq_append_iff] at habove'
  obtain ⟨between, rfl, hrest⟩ | ⟨between, rfl, hrest⟩ := habove'
  · cases between with
    | nil =>
      obtain ⟨rfl, _⟩ := List.cons.inj hrest
      exact Kind.not_hasParts_of_isScope hscope hparts
    | cons _ between =>
      obtain ⟨rfl, rfl⟩ := List.cons.inj hrest
      rcases List.eq_nil_or_concat between with rfl | ⟨front, c, hconcat⟩
      · exact (hlast member List.getLast?_concat).2 hparts
      · -- The outermost node in the head would be a scope, as one of those around the member.
        rw [hconcat, List.concat_eq_append] at houter hlast
        have hc : c ∈ (front ++ [c] ++ scope :: outer').dropLast := by
          rw [List.dropLast_append_of_ne_nil (List.cons_ne_nil _ _)]
          exact List.mem_append_left _ (List.mem_append_right _ (List.mem_singleton_self c))
        refine (hlast c ?_).1 (houter.2 c hc)
        rw [← List.cons_append, ← List.append_assoc]
        exact List.getLast?_concat
  · cases between with
    | nil =>
      obtain ⟨rfl, _⟩ := List.cons.inj hrest
      exact Kind.not_hasParts_of_isScope hscope hparts
    | cons _ between =>
      obtain ⟨rfl, rfl⟩ := List.cons.inj hrest
      have hmember : member ∈ (between ++ member :: outer).dropLast := by
        rw [List.dropLast_append_of_ne_nil (List.cons_ne_nil _ _),
          List.dropLast_cons_of_ne_nil houter.1]
        exact List.mem_append_right _ List.mem_cons_self
      exact Kind.not_hasParts_of_isScope (houter'.2 member hmember) hparts

def Focus.IsField (f : Focus) : Prop :=
  f.node.kind = .variableDeclarator ∧ ∃ declaration field scopes,
    f.above = declaration :: field :: scopes ∧ declaration.kind = .variableDeclaration ∧
      field.kind = .fieldDeclaration ∧ AreScopes scopes

def Focus.IsProperty (f : Focus) : Prop :=
  f.node.kind = .propertyDeclaration ∧ AreScopes f.above

def Focus.IsLocal (f : Focus) : Prop :=
  f.node.kind = .variableDeclarator ∧ ∃ declaration statement above,
    f.above = declaration :: statement :: above ∧ statement.kind = .localDeclarationStatement

def Focus.Declares (f : Focus) : SymbolKind → Prop
  | .field => f.IsField
  | .property => f.IsProperty
  | .method => f.node.kind = .methodDeclaration ∨ f.node.kind = .constructorDeclaration
  | .parameter => f.node.kind = .parameter
  | .localVariable => f.IsLocal
  | .nameSpace | .namedType => False

/-- Not a namespace or a type: declared by one node, which carries the name. -/
def SymbolKind.isSingle (kind : SymbolKind) : Prop :=
  kind ≠ .nameSpace ∧ kind ≠ .namedType

namespace SymbolKind

theorem isSingle_field : isSingle .field := by simp [isSingle]

theorem isSingle_property : isSingle .property := by simp [isSingle]

theorem isSingle_method : isSingle .method := by simp [isSingle]

theorem isSingle_parameter : isSingle .parameter := by simp [isSingle]

theorem isSingle_localVariable : isSingle .localVariable := by simp [isSingle]

end SymbolKind

/-- A place declares the symbol: there is a node that fits it, and the name stands among its
children. -/
def SymbolData.DeclaredAt (documents : List (DocumentId × Tree)) (data : SymbolData)
    (d : Declaration) : Prop :=
  ∃ tree, (d.place.document, tree) ∈ documents ∧ ∃ f ∈ tree.nodes, f.node.index = d.place.index ∧
    f.Declares data.kind ∧ ∃ leaf, f.node.name? = some leaf ∧ leaf.span = d.nameSpan ∧
      (data.name = leaf.text ∨ f.node.kind = .constructorDeclaration ∧
        data.name = SymbolTable.constructorName)

/-- A name stands where the declaration of a symbol of the kind says, and if it is that of a
namespace or a type, it stands in the head of a scope. -/
def Declaration.IsNamed (documents : List (DocumentId × Tree)) (kind : SymbolKind)
    (d : Declaration) : Prop :=
  ∃ tree, (d.place.document, tree) ∈ documents ∧
    ∃ f ∈ tree.tokens, f.leaf.text ≠ "" ∧ f.leaf.span = d.nameSpan ∧ (¬kind.isSingle → f.InHead)

def Declaration.Writes (documents : List (DocumentId × Tree)) (text : String) (d : Declaration) :
    Prop :=
  text ≠ "" ∧ ∃ tree, (d.place.document, tree) ∈ documents ∧
    ∃ f ∈ tree.tokens, f.leaf.kind = .identifierToken ∧ f.leaf.text = text ∧
    f.leaf.span = d.nameSpan

def Key.EndsIn (key : Key) (name : String) : Prop :=
  key.path = name ∨ ∃ before, key.path = before ++ "." ++ name

theorem Key.EndsIn.path_ne {key : Key} {name : String} (h : key.EndsIn name) (hname : name ≠ "") :
    key.path ≠ "" := by
  obtain h | ⟨before, h⟩ := h
  · rwa [h]
  · rw [h]
    simp [hname]

/-- The key of a namespace or a type ends in its name and in what each of its declarations
writes. -/
structure SymbolData.IsTitled (documents : List (DocumentId × Tree)) (data : SymbolData) :
    Prop where
  ends : data.key.EndsIn data.name
  written : ∃ d ∈ data.declarations, d.Writes documents data.name
  declarations : ∀ d ∈ data.declarations, ∃ text, data.key.EndsIn text ∧ d.Writes documents text

def Place.IsScope (documents : List (DocumentId × Tree)) (place : Place) : Prop :=
  ∃ tree, (place.document, tree) ∈ documents ∧ ∃ f ∈ tree.nodes, f.node.index = place.index ∧
    f.node.kind.isScope

/-- A node and a name among its tokens make a declaration that is named. -/
theorem isNamed_declaration {documents : List (DocumentId × Tree)} {document : DocumentId}
    {tree : Tree} (hdocument : (document, tree) ∈ documents) {f : Focus} (hf : f ∈ tree.nodes)
    {name : PlacedToken} (hname : name ∈ f.node.tokens) (htext : name.text ≠ "") {kind : SymbolKind}
    (hkind : kind.isSingle) :
    (SymbolTable.declaration document f.node name).IsNamed documents kind := by
  obtain ⟨g, hg, rfl, _⟩ := Tree.exists_tokenFocus hf hname
  exact ⟨tree, hdocument, g, hg, htext, rfl, absurd hkind⟩

/-- A scope and a name in its head make a declaration that is named. -/
theorem isNamed_declaration_of_isScope {documents : List (DocumentId × Tree)}
    {document : DocumentId} {tree : Tree} (hdocument : (document, tree) ∈ documents)
    {n : PlacedNode} {above : List PlacedNode} (hn : n.kind.isScope) (habove : AreScopes above)
    {g : TokenFocus} (hg : g ∈ tree.tokens) {inner : List PlacedNode}
    (hinner : g.above = inner ++ n :: above)
    (hlast : ∀ c ∈ inner.getLast?, ¬c.kind.isScope ∧ ¬c.kind.hasParts) (htext : g.leaf.text ≠ "")
    (kind : SymbolKind) : (SymbolTable.declaration document n g.leaf).IsNamed documents kind :=
  ⟨tree, hdocument, g, hg, htext, rfl, fun _ => ⟨inner, n, above, hinner, hn, habove, hlast⟩⟩

instance (kind : SymbolKind) : Decidable kind.isSingle :=
  inferInstanceAs (Decidable (_ ∧ _))

/-- What can be put into a table that is made for the documents. -/
structure SymbolData.IsSound (documents : List (DocumentId × Tree)) (data : SymbolData) : Prop where
  kind : data.key.kind = data.kind
  path : data.key.path ≠ ""
  named : data.declarations ≠ [] ∧ ∀ d ∈ data.declarations, d.IsNamed documents data.kind
  titled : ¬data.kind.isSingle → data.IsTitled documents
  single : data.kind.isSingle → ∃ d, data.declarations = [d] ∧ data.DeclaredAt documents d

/-- The last part of the key that a symbol asks for: methods have the number of their parameters
in it, and locals their number among the locals of one name. -/
def SymbolData.label (data : SymbolData) (ordinal : Nat) : String :=
  match data.kind with
  | .method => data.name ++ "(" ++ toString data.arity ++ ")"
  | .localVariable => data.name ++ "#" ++ toString ordinal
  | _ => data.name

def SymbolData.IsLabel (data : SymbolData) (label : String) : Prop :=
  ∃ ordinal, label = data.label ordinal

namespace SymbolTable

/-- A key ends in the name of its symbol. -/
theorem endsIn_childKey (t : SymbolTable) (container? : Option SymbolId) (kind : SymbolKind)
    (name : String) : (t.childKey container? kind name).EndsIn name := by
  rw [childKey]
  split
  next container _ =>
    rw [Key.child]
    split
    next => exact .inl rfl
    next => exact .inr ⟨_, rfl⟩
  next => exact .inl rfl

/-- What holds of every table that is made for the documents. -/
structure Sound (documents : List (DocumentId × Tree)) (t : SymbolTable) : Prop where
  named : ∀ id data, t.data? id = some data →
    data.declarations ≠ [] ∧ ∀ d ∈ data.declarations, d.IsNamed documents data.kind
  keys : t.KeysNodup
  kinds : ∀ id data, t.data? id = some data → data.key.kind = data.kind
  paths : ∀ id data, t.data? id = some data → data.key.path ≠ ""
  titled : ∀ id data, t.data? id = some data → ¬data.kind.isSingle → data.IsTitled documents
  single : ∀ id data, t.data? id = some data → data.kind.isSingle →
    ∃ d, data.declarations = [d] ∧ data.DeclaredAt documents d
  declared : ∀ place id, (place, id) ∈ t.declared →
    ∃ data, t.data? id = some data ∧
    (data.kind.isSingle → ∃ d ∈ data.declarations, d.place = place) ∧
      (¬data.kind.isSingle → place.IsScope documents)

namespace Sound

variable {documents : List (DocumentId × Tree)} {t : SymbolTable} {data : SymbolData}

/-- The empty table is sound for any documents. -/
theorem empty (documents : List (DocumentId × Tree)) : Sound documents .empty where
  named _ _ h := by cases h
  keys := List.nodup_nil
  kinds _ _ h := by cases h
  paths _ _ h := by cases h
  titled _ _ h := by cases h
  single _ _ h := by cases h
  declared _ _ h := by cases h

/-- A sound symbol with a free key keeps the table sound. -/
theorem add (h : Sound documents t) (hdata : data.IsSound documents)
    (hfree : ¬data.kind.isSingle → t.find? data.key = none) : Sound documents (t.add data).2 where
  named id data' hdata' := by
    rw [data?_add] at hdata'
    split at hdata'
    next =>
      cases hdata'
      exact hdata.named
    next => exact h.named id data' hdata'
  keys := by
    have hkeys : (t.add data).2.symbols.map (·.key) = t.symbols.map (·.key) ++
        [t.freshKey data.key] := by
      simp [SymbolTable.add]
    rw [KeysNodup, hkeys, List.nodup_append]
    refine ⟨h.keys, List.nodup_singleton _, fun k hk k' hk' => ?_⟩
    have hfresh : k' = t.freshKey data.key := by simpa using hk'
    rw [hfresh]
    rintro rfl
    exact t.freshKey_notMem data.key hk
  kinds id data' hdata' := by
    rw [data?_add] at hdata'
    split at hdata'
    next =>
      cases hdata'
      exact (t.kind_freshKey _).trans hdata.kind
    next => exact h.kinds id data' hdata'
  paths id data' hdata' := by
    rw [data?_add] at hdata'
    split at hdata'
    next =>
      cases hdata'
      exact t.path_freshKey_ne hdata.path
    next => exact h.paths id data' hdata'
  titled id data' hdata' := by
    rw [data?_add] at hdata'
    split at hdata'
    next =>
      cases hdata'
      intro hsingle
      rw [freshKey_of_find?_eq_none (hfree hsingle)]
      exact hdata.titled hsingle
    next => exact h.titled id data' hdata'
  single id data' hdata' := by
    rw [data?_add] at hdata'
    split at hdata'
    next =>
      cases hdata'
      exact hdata.single
    next => exact h.single id data' hdata'
  declared place id hmem := by
    obtain ⟨data', hdata', hsingle, hscope⟩ := h.declared place id hmem
    obtain ⟨more, hmore⟩ := Grows.add t data id data' hdata'
    refine ⟨_, hmore, fun hs => ?_, hscope⟩
    obtain ⟨d, hd, hplace⟩ := hsingle hs
    exact ⟨d, List.mem_append_left _ hd, hplace⟩

/-- A node may declare a symbol that has a declaration there, or a scope that stands there. -/
theorem declare (h : Sound documents t) {place : Place} {id : SymbolId}
    (hid : ∃ data, t.data? id = some data ∧
      (data.kind.isSingle → ∃ d ∈ data.declarations, d.place = place) ∧
      (¬data.kind.isSingle → place.IsScope documents)) : Sound documents (t.declare place id) where
  named := h.named
  keys := h.keys
  kinds := h.kinds
  paths := h.paths
  titled := h.titled
  single := h.single
  declared place' id' hmem := by
    obtain heq | hmem := List.mem_cons.mp hmem
    · obtain ⟨rfl, rfl⟩ := Prod.mk.inj heq
      exact hid
    · exact h.declared place' id' hmem

/-- A namespace or a type may be declared again under the name it has. -/
theorem addDeclarations (h : Sound documents t) {id : SymbolId} {old : SymbolData}
    (hold : t.data? id = some old) (hkind : ¬old.kind.isSingle) {declarations : List Declaration}
    (hnamed : ∀ d ∈ declarations, d.IsNamed documents old.kind)
    (htitled : ∀ d ∈ declarations, ∃ text, old.key.EndsIn text ∧ d.Writes documents text) :
    Sound documents (t.addDeclarations id declarations) where
  named id' data hdata := by
    rw [data?_addDeclarations] at hdata
    obtain ⟨data', hdata', rfl⟩ := Option.map_eq_some_iff.mp hdata
    obtain ⟨hne, hbefore⟩ := h.named id' data' hdata'
    split
    next heq =>
      rw [heq, hold] at hdata'
      cases hdata'
      exact ⟨List.append_ne_nil_of_left_ne_nil hne _, List.forall_mem_append.mpr ⟨hbefore, hnamed⟩⟩
    next => exact ⟨hne, hbefore⟩
  keys := by
    rw [KeysNodup, map_key_addDeclarations]
    exact h.keys
  kinds id' data hdata := by
    rw [data?_addDeclarations] at hdata
    obtain ⟨data', hdata', rfl⟩ := Option.map_eq_some_iff.mp hdata
    split <;> exact h.kinds id' data' hdata'
  paths id' data hdata := by
    rw [data?_addDeclarations] at hdata
    obtain ⟨data', hdata', rfl⟩ := Option.map_eq_some_iff.mp hdata
    split <;> exact h.paths id' data' hdata'
  titled id' data hdata := by
    rw [data?_addDeclarations] at hdata
    obtain ⟨data', hdata', rfl⟩ := Option.map_eq_some_iff.mp hdata
    split
    next heq =>
      rw [heq, hold] at hdata'
      cases hdata'
      intro hsingle
      obtain ⟨hends, ⟨d, hd, hwritten⟩, hdeclarations⟩ := h.titled id old hold hsingle
      exact ⟨hends, ⟨d, List.mem_append_left _ hd, hwritten⟩,
        List.forall_mem_append.mpr ⟨hdeclarations, htitled⟩⟩
    next => exact h.titled id' data' hdata'
  single id' data hdata := by
    rw [data?_addDeclarations] at hdata
    obtain ⟨data', hdata', rfl⟩ := Option.map_eq_some_iff.mp hdata
    split
    next heq =>
      rw [heq, hold] at hdata'
      cases hdata'
      exact fun hsingle => absurd hsingle hkind
    next => exact h.single id' data' hdata'
  declared place id' hmem := by
    obtain ⟨data', hdata', hsingle, hscope⟩ := h.declared place id' hmem
    obtain ⟨more, hmore⟩ := Grows.addDeclarations t id declarations id' data' hdata'
    refine ⟨_, hmore, fun hs => ?_, hscope⟩
    obtain ⟨d, hd, hplace⟩ := hsingle hs
    exact ⟨d, List.mem_append_left _ hd, hplace⟩

theorem merge (h : Sound documents t) (hdata : data.IsSound documents)
    (hsingle : ¬data.kind.isSingle) : Sound documents (t.merge data).2 := by
  obtain ⟨hnone, heq⟩ | ⟨old, hold, hkey, _, heq⟩ := t.data?_merge data
  · rw [heq]
    exact h.add hdata fun _ => hnone
  · rw [heq]
    have hsame : old.kind = data.kind := by rw [← h.kinds _ old hold, hkey, hdata.kind]
    exact h.addDeclarations hold (hsame ▸ hsingle) (hsame ▸ hdata.named.2)
      (hkey ▸ (hdata.titled hsingle).declarations)

end Sound

/-- The symbol can contain others: it is a namespace or a type. -/
def CanContain (t : SymbolTable) (id : SymbolId) : Prop :=
  ∃ kind, t.kind? id = some kind ∧ ¬kind.isSingle

theorem CanContain.grows {t u : SymbolTable} {id : SymbolId} (h : t.CanContain id)
    (hg : Grows t u) : u.CanContain id := by
  obtain ⟨kind, hkind, hsingle⟩ := h
  exact ⟨kind, hg.kind? hkind, hsingle⟩

theorem CanContain.declare {documents : List (DocumentId × Tree)} {t : SymbolTable} {id : SymbolId}
    (h : t.CanContain id) (hs : Sound documents t) {place : Place}
    (hplace : place.IsScope documents) : Sound documents (t.declare place id) := by
  obtain ⟨kind, hkind, hsingle⟩ := h
  obtain ⟨data, hdata, rfl⟩ := Option.map_eq_some_iff.mp hkind
  exact hs.declare ⟨data, hdata, fun h => absurd h hsingle, fun _ => hplace⟩

theorem CanContain.lt {t : SymbolTable} {id : SymbolId} (h : t.CanContain id) :
    id.index < t.symbols.length := by
  obtain ⟨kind, hkind, _⟩ := h
  obtain ⟨data, hdata, _⟩ := Option.map_eq_some_iff.mp hkind
  exact (List.getElem?_eq_some_iff.mp hdata).1

/-- A merged symbol can contain others if its kind allows it. -/
theorem canContain_merge {t : SymbolTable}
    (hkinds : ∀ id data, t.data? id = some data → data.key.kind = data.kind) {data : SymbolData}
    (hkind : data.key.kind = data.kind) (hsingle : ¬data.kind.isSingle) :
    (t.merge data).2.CanContain (t.merge data).1 := by
  obtain ⟨_, heq⟩ | ⟨old, hold, hkey, _, heq⟩ := t.data?_merge data
  · rw [heq]
    exact ⟨data.kind, by simp [kind?, data?_add], hsingle⟩
  · rw [heq]
    refine ⟨old.kind, by simp [kind?, data?_addDeclarations, hold], ?_⟩
    rw [← hkinds _ old hold, hkey, hkind]
    exact hsingle

/-! ## What is noted -/

/-- Every place that declares a symbol is noted for it, those of namespaces apart. -/
def IsNoted (t : SymbolTable) : Prop :=
  ∀ id data, t.data? id = some data → data.kind ≠ .nameSpace → ∀ d ∈ data.declarations,
    (d.place, id) ∈ t.declared

def HasNoLocals (t : SymbolTable) : Prop :=
  ∀ id data, t.data? id = some data → data.kind ≠ .localVariable

def IsLayered (t : SymbolTable) : Prop :=
  ∀ id data, t.data? id = some data → ∀ outer ∈ data.container?, outer.index < id.index

/-- Where containers come first, a type has all that it contains as its members. -/
theorem IsLayered.members_eq {t : SymbolTable} (h : t.IsLayered) (type : SymbolId) :
    t.members type =
    if t.isType type then
      t.select fun data => data.container? == some type && data.isListed
    else [] := by
  rw [SymbolTable.members_eq, membersIn, isTypeIn_symbols, select]
  refine if_congr Iff.rfl (symbolsWhere_congr fun id data hdata => ?_) rfl
  by_cases hcontainer : data.container? = some type
  · rw [decide_eq_true (h id data hdata type hcontainer), Bool.true_and]
  · rw [beq_eq_false_iff_ne.mpr hcontainer, Bool.and_false]

/-- The symbol belongs to a type, and goes by the key that it asked for, perhaps with a number
behind it. -/
def IsFiled (t : SymbolTable) (data : SymbolData) : Prop :=
  ∃ type outer number, data.container? = some type ∧ t.data? type = some outer ∧
    outer.kind = .namedType ∧ IsNumber number ∧
    data.key.path = outer.key.path ++ "." ++ data.label 0 ++ number

/-- Fields, properties and methods belong to types. -/
def HasFiledMembers (t : SymbolTable) : Prop :=
  ∀ id data, t.data? id = some data → data.kind.isMember → t.IsFiled data

section Noted

variable {t : SymbolTable} {data : SymbolData} {place : Place}

theorem declared_merge (t : SymbolTable) (data : SymbolData) :
    (t.merge data).2.declared = t.declared := by
  rw [SymbolTable.merge]
  split <;> rfl

theorem length_add (t : SymbolTable) (data : SymbolData) :
    (t.add data).2.symbols.length = t.symbols.length + 1 := by
  simp [SymbolTable.add]

theorem Grows.length_le {u : SymbolTable} (h : Grows t u) :
    t.symbols.length ≤ u.symbols.length := by
  by_contra hlt
  obtain ⟨_, hdata⟩ := h ⟨u.symbols.length⟩ _ (List.getElem?_eq_getElem (Nat.lt_of_not_le hlt))
  exact absurd (List.getElem?_eq_some_iff.mp hdata).1 (Nat.lt_irrefl _)

/-- A symbol that is put into the table is noted for the place that declares it. -/
theorem IsNoted.introduce (h : t.IsNoted) (hplace : ∀ d ∈ data.declarations, d.place = place) :
    ((t.add data).2.declare place (t.add data).1).IsNoted := by
  intro id data' hdata' hkind d hd
  rw [data?_declare, data?_add] at hdata'
  split at hdata'
  next heq =>
    cases hdata'
    rw [hplace d hd, heq]
    exact List.mem_cons_self
  next => exact List.mem_cons_of_mem _ (h id data' hdata' hkind d hd)

/-- So is one that was declared before and is declared again. -/
theorem IsNoted.join (h : t.IsNoted) (hplace : ∀ d ∈ data.declarations, d.place = place) :
    ((t.merge data).2.declare place (t.merge data).1).IsNoted := by
  obtain ⟨_, heq⟩ | ⟨old, hold, _, _, heq⟩ := t.data?_merge data
  · rw [heq]
    exact h.introduce hplace
  · rw [heq]
    intro id data' hdata' hkind d hd
    rw [data?_declare, data?_addDeclarations] at hdata'
    obtain ⟨data'', hdata'', rfl⟩ := Option.map_eq_some_iff.mp hdata'
    split at hkind
    next hid =>
      rw [if_pos hid] at hd
      obtain hd | hd := List.mem_append.mp hd
      · exact List.mem_cons_of_mem _ (h id data'' hdata'' hkind d hd)
      · rw [hplace d hd, hid]
        exact List.mem_cons_self
    next hid =>
      rw [if_neg hid] at hd
      exact List.mem_cons_of_mem _ (h id data'' hdata'' hkind d hd)

/-- Namespaces are not noted for places, so merging one keeps what is noted. -/
theorem IsNoted.merge (h : t.IsNoted)
    (hkinds : ∀ id data, t.data? id = some data → data.key.kind = data.kind)
    (hkey : data.key.kind = .nameSpace) (hkind : data.kind = .nameSpace) :
    (t.merge data).2.IsNoted := by
  intro id data' hdata' hother d hd
  rw [declared_merge]
  obtain ⟨_, heq⟩ | ⟨old, hold, hsame, _, heq⟩ := t.data?_merge data
  · rw [heq, data?_add] at hdata'
    split at hdata'
    next =>
      cases hdata'
      exact absurd hkind hother
    next => exact h id data' hdata' hother d hd
  · rw [heq, data?_addDeclarations] at hdata'
    obtain ⟨data'', hdata'', rfl⟩ := Option.map_eq_some_iff.mp hdata'
    split at hother
    next hid =>
      rw [hid, hold] at hdata''
      cases hdata''
      rw [← hkinds _ old hold, hsame, hkey] at hother
      exact absurd rfl hother
    next hid =>
      rw [if_neg hid] at hd
      exact h id data'' hdata'' hother d hd

theorem IsNoted.declare (h : t.IsNoted) (place : Place) (id : SymbolId) :
    (t.declare place id).IsNoted :=
  fun id' data hdata hkind d hd => List.mem_cons_of_mem _ (h id' data hdata hkind d hd)

/-- A symbol comes behind its container, which the table has already. -/
theorem IsLayered.add (h : t.IsLayered)
    (hcontainer : ∀ outer ∈ data.container?, outer.index < t.symbols.length) :
    (t.add data).2.IsLayered := by
  intro id data' hdata' outer houter
  rw [data?_add] at hdata'
  split at hdata'
  next heq =>
    cases hdata'
    rw [heq]
    exact hcontainer outer houter
  next => exact h id data' hdata' outer houter

/-- A merged symbol is new and comes behind its container, or it is there already. -/
theorem IsLayered.merge (h : t.IsLayered)
    (hcontainer : ∀ outer ∈ data.container?, outer.index < t.symbols.length) :
    (t.merge data).2.IsLayered := by
  obtain ⟨_, heq⟩ | ⟨old, _, _, _, heq⟩ := t.data?_merge data
  · rw [heq]
    exact h.add hcontainer
  · rw [heq]
    intro id data' hdata' outer houter
    rw [data?_addDeclarations] at hdata'
    obtain ⟨data'', hdata'', rfl⟩ := Option.map_eq_some_iff.mp hdata'
    split at houter <;> exact h id data'' hdata'' outer houter

/-- No local is declared in the first pass. -/
theorem HasNoLocals.add (h : t.HasNoLocals) (hkind : data.kind ≠ .localVariable) :
    (t.add data).2.HasNoLocals := by
  intro id data' hdata'
  rw [data?_add] at hdata'
  split at hdata'
  next =>
    cases hdata'
    exact hkind
  next => exact h id data' hdata'

/-- No local is declared by merging. -/
theorem HasNoLocals.merge (h : t.HasNoLocals) (hkind : data.kind ≠ .localVariable) :
    (t.merge data).2.HasNoLocals := by
  obtain ⟨_, heq⟩ | ⟨old, _, _, _, heq⟩ := t.data?_merge data
  · rw [heq]
    exact h.add hkind
  · rw [heq]
    intro id data' hdata'
    rw [data?_addDeclarations] at hdata'
    obtain ⟨data'', hdata'', rfl⟩ := Option.map_eq_some_iff.mp hdata'
    split <;> exact h id data'' hdata''

theorem IsFiled.grows {u : SymbolTable} (h : t.IsFiled data) (hgrows : Grows t u) :
    u.IsFiled data := by
  obtain ⟨type, outer, number, hcontainer, houter, hkind, hnumber, hpath⟩ := h
  obtain ⟨more, hmore⟩ := hgrows type outer houter
  exact ⟨type, _, number, hcontainer, hmore, hkind, hnumber, hpath⟩

/-- A new member must belong to a type. -/
theorem HasFiledMembers.add (h : t.HasFiledMembers)
    (hfiled : data.kind.isMember → t.IsFiled { data with key := t.freshKey data.key }) :
    (t.add data).2.HasFiledMembers := by
  intro id data' hdata' hmember
  rw [data?_add] at hdata'
  split at hdata'
  next =>
    cases hdata'
    exact (hfiled hmember).grows (Grows.add t data)
  next => exact (h id data' hdata' hmember).grows (Grows.add t data)

/-- Namespaces and types are no members, so merging one adds none. -/
theorem HasFiledMembers.merge (h : t.HasFiledMembers) (hkind : ¬data.kind.isMember) :
    (t.merge data).2.HasFiledMembers := by
  obtain ⟨_, heq⟩ | ⟨old, _, _, _, heq⟩ := t.data?_merge data
  · rw [heq]
    exact h.add fun hmember => absurd hmember hkind
  · rw [heq]
    intro id data' hdata' hmember
    have hgrows := Grows.addDeclarations t (t.merge data).1 data.declarations
    rw [data?_addDeclarations] at hdata'
    obtain ⟨data'', hdata'', rfl⟩ := Option.map_eq_some_iff.mp hdata'
    split at hmember
    next hid =>
      rw [if_pos hid]
      exact (h id data'' hdata'' hmember).grows hgrows
    next hid =>
      rw [if_neg hid]
      exact (h id data'' hdata'' hmember).grows hgrows

end Noted

/-! ## The first pass -/

/-- The table has grown from another one and is still sound. Nothing was bound. Symbols are
noted for some of the places, for each of them once, and nothing is noted that was not declared
there. -/
structure Extends (documents : List (DocumentId × Tree)) (places : List Place) (t u : SymbolTable) :
    Prop where
  grows : Grows t u
  sound : Sound documents u
  bindings : u.bindings = t.bindings
  declared : ∃ new, u.declared.map (·.1) = new ++ t.declared.map (·.1) ∧ new.reverse.Sublist places
  noted : t.IsNoted → u.IsNoted
  layered : t.IsLayered → u.IsLayered
  noLocals : t.HasNoLocals → u.HasNoLocals
  filed : t.HasFiledMembers → u.HasFiledMembers

namespace Extends

variable {documents : List (DocumentId × Tree)} {places places' : List Place} {t u v : SymbolTable}

theorem refl (h : Sound documents t) : Extends documents [] t t :=
  ⟨.refl t, h, rfl, ⟨[], rfl, .slnil⟩, id, id, id, id⟩

/-- Two extensions in a row extend the table by the places of both. -/
theorem trans (h : Extends documents places t u) (h' : Extends documents places' u v) :
    Extends documents (places ++ places') t v := by
  obtain ⟨new, heq, hnew⟩ := h.declared
  obtain ⟨new', heq', hnew'⟩ := h'.declared
  refine ⟨h.grows.trans h'.grows, h'.sound, h'.bindings.trans h.bindings, ⟨new' ++ new, ?_, ?_⟩,
    fun ht => h'.noted (h.noted ht), fun ht => h'.layered (h.layered ht),
    fun ht => h'.noLocals (h.noLocals ht), fun ht => h'.filed (h.filed ht)⟩
  · rw [heq', heq, List.append_assoc]
  · rw [List.reverse_append]
    exact hnew.append hnew'

theorem weaken (h : Extends documents places t u) (hplaces : places.Sublist places') :
    Extends documents places' t u := by
  obtain ⟨new, heq, hnew⟩ := h.declared
  exact ⟨h.grows, h.sound, h.bindings, ⟨new, heq, hnew.trans hplaces⟩, h.noted, h.layered,
    h.noLocals, h.filed⟩

theorem none (h : Extends documents [] t u) : Extends documents places t u :=
  h.weaken (List.nil_sublist _)

theorem andThen (h : Extends documents places t u)
    (h' : Grows t u → Sound documents u → Extends documents places' u v) :
    Extends documents (places ++ places') t v :=
  h.trans (h' h.grows h.sound)

theorem declare {place : Place} {id : SymbolId} (hsound : Sound documents (t.declare place id)) :
    Extends documents [place] t (t.declare place id) :=
  ⟨.declare _ _ _, hsound, rfl, ⟨[place], rfl, .refl _⟩, fun h => h.declare place id, fun h => h,
    fun h => h, fun h => h⟩

theorem merge (hs : Sound documents t) {data : SymbolData} (hdata : data.IsSound documents)
    (hkind : data.kind = .nameSpace)
    (hcontainer : ∀ outer ∈ data.container?, outer.index < t.symbols.length) :
    Extends documents [] t (t.merge data).2 :=
  ⟨Grows.merge t data, hs.merge hdata (fun h => h.1 hkind), bindings_merge t data,
    ⟨[], by rw [declared_merge]; rfl, .slnil⟩,
    fun h => h.merge hs.kinds (hdata.kind.trans hkind) hkind, fun h => h.merge hcontainer,
    fun h => h.merge (fun hlocal => by cases hkind.symm.trans hlocal),
    fun h => h.merge (by rw [hkind]; nofun)⟩

end Extends

/-- What the part of a namespace's name puts into the table. -/
def segmentData (t : SymbolTable) (document : DocumentId) (n : PlacedNode)
    (container? : Option SymbolId) (segment : PlacedToken) : SymbolData :=
  { kind := .nameSpace, name := segment.text, container? := container?, typeName? := none,
    arity := 0, key := t.childKey container? .nameSpace segment.text,
    declarations := [declaration document n segment] }

def typeData (t : SymbolTable) (document : DocumentId) (n : PlacedNode)
    (container? : Option SymbolId) (name : PlacedToken) : SymbolData :=
  { kind := .namedType, name := name.text, container? := container?, typeName? := none, arity := 0,
    key := t.childKey container? .namedType name.text,
      declarations := [declaration document n name] }

/-- What a field, a property or a parameter puts into the table. -/
def memberData (t : SymbolTable) (document : DocumentId) (n : PlacedNode)
    (container? : Option SymbolId) (kind : SymbolKind) (name : PlacedToken)
    (typeName? : Option String) : SymbolData :=
  { kind, name := name.text, container? := container?, typeName? := typeName?, arity := 0,
    key := t.childKey container? kind name.text, declarations := [declaration document n name] }

/-- The name of a method; all constructors have the same. -/
def methodName (n : PlacedNode) (name : PlacedToken) : String :=
  if n.kind == .constructorDeclaration then constructorName else name.text

def methodData (t : SymbolTable) (document : DocumentId) (n : PlacedNode)
    (container? : Option SymbolId) (name : PlacedToken) : SymbolData :=
  { kind := .method, name := methodName n name, container? := container?,
    typeName? := if n.kind == .constructorDeclaration then none else n.typeText?,
    arity := (parametersOf n).length,
    key := t.childKey container? .method
      (methodName n name ++ "(" ++ toString (parametersOf n).length ++ ")"),
    declarations := [declaration document n name] }

/-- The part of a name is put into the table, or joined with what has its key, and holds the
other parts. -/
theorem declareSegments_cons (t : SymbolTable) (document : DocumentId) (n : PlacedNode)
    (container? : Option SymbolId) (segment : PlacedToken) (segments : List PlacedToken) :
    t.declareSegments document n container? (segment :: segments) =
      (t.merge (t.segmentData document n container? segment)).2.declareSegments document n
        (some (t.merge (t.segmentData document n container? segment)).1) segments := rfl

/-- A method is put into the table, then its parameters. -/
theorem declareMethod_of_name {t : SymbolTable} {document : DocumentId} {n : PlacedNode}
    {container? : Option SymbolId} {name : PlacedToken} (h : n.name? = some name) :
    t.declareMethod document n container? =
      let added := t.add (t.methodData document n container? name)
      (parametersOf n).foldl (fun t parameter =>
        match parameter.name? with
        | some name =>
          t.declareMember document parameter (some added.1) .parameter name parameter.typeText?
        | none => t) (added.2.declare ⟨document, n.index⟩ added.1) := by
  rw [declareMethod, h]
  rfl

def placesOf (document : DocumentId) (nodes : List PlacedNode) : List Place :=
  nodes.map fun n => ⟨document, n.index⟩

theorem placesOf_sublist {nodes nodes' : List PlacedNode} (h : nodes.Sublist nodes')
    (document : DocumentId) : (placesOf document nodes).Sublist (placesOf document nodes') :=
  h.map _

section Pass

variable {documents : List (DocumentId × Tree)} {t : SymbolTable} {document : DocumentId}
  {tree : Tree} {container? : Option SymbolId}

/-- A namespace or a type that is declared once so far, under its own name. -/
theorem isSound_of_title {data : SymbolData} {d : Declaration} (hkind : data.key.kind = data.kind)
    (hsingle : ¬data.kind.isSingle) (hends : data.key.EndsIn data.name)
    (hdeclarations : data.declarations = [d]) (hnamed : d.IsNamed documents data.kind)
    (hwrites : d.Writes documents data.name) : data.IsSound documents where
  kind := hkind
  path := hends.path_ne hwrites.1
  named := by
    rw [hdeclarations]
    exact ⟨List.cons_ne_nil _ _, List.forall_mem_singleton.mpr hnamed⟩
  titled _ := by
    refine ⟨hends, ?_, ?_⟩
    · exact ⟨d, by rw [hdeclarations]; exact List.mem_singleton_self d, hwrites⟩
    · rw [hdeclarations]
      exact List.forall_mem_singleton.mpr ⟨data.name, hends, hwrites⟩
  single h := absurd h hsingle

/-- Each part of a namespace's name is found or added below the part in front of it. -/
theorem extends_declareSegments (hs : Sound documents t) (hc : ∀ id ∈ container?, t.CanContain id)
    (n : PlacedNode) (segments : List PlacedToken)
    (hnamed : ∀ segment ∈ segments, (declaration document n segment).IsNamed documents .nameSpace ∧
      (declaration document n segment).Writes documents segment.text) :
    Extends documents [] t (t.declareSegments document n container? segments).2 ∧
      ∀ id ∈ (t.declareSegments document n container? segments).1,
        (t.declareSegments document n container? segments).2.CanContain id := by
  induction segments generalizing t container? with
  | nil => exact ⟨.refl hs, hc⟩
  | cons segment segments ih =>
    obtain ⟨⟨hsegment, hwrites⟩, hothers⟩ := List.forall_mem_cons.mp hnamed
    let data := t.segmentData document n container? segment
    have hkind : data.key.kind = data.kind := t.kind_childKey container? .nameSpace segment.text
    have hsingle : ¬data.kind.isSingle := fun h => h.1 rfl
    have hdata : data.IsSound documents :=
      isSound_of_title hkind hsingle (t.endsIn_childKey container? .nameSpace segment.text) rfl
        hsegment hwrites
    have hmerge := Extends.merge hs hdata rfl fun outer houter => (hc outer houter).lt
    obtain ⟨hrest, hcontain⟩ := @ih _ (some (t.merge data).1) hmerge.sound
      (fun id hid => Option.some.inj hid ▸ canContain_merge hs.kinds hkind hsingle) hothers
    exact ⟨hmerge.trans hrest, hcontain⟩

/-- A namespace declares nothing but the parts of its name. -/
theorem extends_declareNamespace (hs : Sound documents t) (hc : ∀ id ∈ container?, t.CanContain id)
    (hdocument : (document, tree) ∈ documents) {f : Focus} (hf : f ∈ tree.nodes)
    (hscope : f.node.kind.isScope) (habove : AreScopes f.above) :
    Extends documents [⟨document, f.node.index⟩] t
      (t.declareNamespace document f.node container?).2 ∧
      ∀ id ∈ (t.declareNamespace document f.node container?).1,
      (t.declareNamespace document f.node container?).2.CanContain id := by
  rw [declareNamespace]
  dsimp only
  split
  next => exact ⟨(Extends.refl hs).none, hc⟩
  next name hname =>
    have hchild : ⟨name, f.node :: f.above⟩ ∈ tree.nodes :=
      Tree.child_mem hf (List.mem_of_find?_eq_some hname)
    have hkind : ¬name.kind.isScope ∧ ¬name.kind.hasParts := by
      have hisName := List.find?_some hname
      simp only [Bool.or_eq_true, beq_iff_eq] at hisName
      obtain hkind | hkind :=
        hisName <;> rw [hkind] <;> exact ⟨Bool.false_ne_true, Bool.false_ne_true⟩
    have hnamed : ∀ segment ∈ name.identifiers,
        (declaration document f.node segment).IsNamed documents .nameSpace ∧
        (declaration document f.node segment).Writes documents segment.text := by
      intro segment hsegment
      obtain ⟨hmem, hidentifier⟩ := List.mem_filter.mp hsegment
      simp only [Bool.and_eq_true, beq_iff_eq, Bool.not_eq_true', String.isEmpty_eq_false_iff]
        at hidentifier
      obtain ⟨g, hg, rfl, inner, hinner⟩ := Tree.exists_tokenFocus hchild hmem
      rw [← List.singleton_append, ← List.append_assoc] at hinner
      refine ⟨isNamed_declaration_of_isScope hdocument hscope habove hg hinner (fun c hc => ?_)
        hidentifier.2 _, hidentifier.2, tree, hdocument, g, hg, hidentifier.1, rfl, rfl⟩
      obtain rfl := Option.some.inj (List.getLast?_concat.symm.trans hc)
      exact hkind
    obtain ⟨hext, hcontain⟩ := extends_declareSegments hs hc f.node name.identifiers hnamed
    generalize t.declareSegments document f.node container? name.identifiers =
      outcome at hext hcontain ⊢
    obtain ⟨innermost?, u⟩ := outcome
    cases innermost? with
    | none => exact ⟨hext.none, nofun⟩
    | some id =>
      have hid := hcontain id rfl
      have hplace : Place.IsScope documents ⟨document, f.node.index⟩ :=
        ⟨tree, hdocument, f, hf, rfl, hscope⟩
      refine ⟨hext.trans (.declare (hid.declare hext.sound hplace)), fun id' hid' => ?_⟩
      obtain rfl := Option.some.inj hid'
      exact hid.grows (Grows.declare _ _ _)

/-- A type declares a symbol, or another part of one with its key. -/
theorem extends_declareType? (hs : Sound documents t) (hc : ∀ id ∈ container?, t.CanContain id)
    (hdocument : (document, tree) ∈ documents) {f : Focus} (hf : f ∈ tree.nodes)
    (hscope : f.node.kind.isScope) (habove : AreScopes f.above) {id : SymbolId} {u : SymbolTable}
    (h : t.declareType? document f.node container? = some (id, u)) :
    Extends documents [⟨document, f.node.index⟩] t u ∧ u.CanContain id := by
  obtain ⟨name, hname, heq⟩ := Option.map_eq_some_iff.mp h
  let data := t.typeData document f.node container? name
  obtain ⟨rfl, rfl⟩ :
      (t.merge data).1 = id ∧ (t.merge data).2.declare ⟨document, f.node.index⟩ (t.merge data).1 =
        u :=
    Prod.mk.inj heq
  have hkind : data.key.kind = data.kind := t.kind_childKey container? .namedType name.text
  have hsingle : ¬data.kind.isSingle := fun h => h.2 rfl
  have hid := canContain_merge hs.kinds hkind hsingle
  obtain ⟨hmem, hidentifier, htext⟩ := PlacedNode.name?_mem hname
  have hfocus := Tree.tokenFocus_mem hf hmem
  have hnamed :=
    isNamed_declaration_of_isScope hdocument hscope habove hfocus (List.nil_append _).symm nofun
      htext .namedType
  have hdata : data.IsSound documents :=
    isSound_of_title hkind hsingle (t.endsIn_childKey container? .namedType name.text) rfl hnamed
      ⟨htext, tree, hdocument, _, hfocus, hidentifier, rfl, rfl⟩
  have hplace : Place.IsScope documents ⟨document, f.node.index⟩ :=
    ⟨tree, hdocument, f, hf, rfl, hscope⟩
  refine ⟨⟨(Grows.merge t data).trans (Grows.declare _ _ _),
    hid.declare (hs.merge hdata hsingle) hplace, bindings_merge t data,
    ⟨[⟨document, f.node.index⟩], ?_, .refl _⟩, fun ht => ht.join ?_, fun ht => ?_,
    fun ht => ht.merge nofun, fun ht => ht.merge nofun⟩,
    hid.grows (Grows.declare _ _ _)⟩
  · exact congrArg (fun declared => _ :: declared.map (·.1)) (declared_merge t data)
  · exact List.forall_mem_singleton.mpr rfl
  · exact ht.merge fun outer houter => (hc outer houter).lt

/-- A node that declares a symbol of its own. -/
theorem sound_introduce (hs : Sound documents t) (data : SymbolData) {f : Focus}
    {name : PlacedToken} (hkind : data.key.kind = data.kind) (hpath : data.key.path ≠ "")
    (hsingle : data.kind.isSingle) (hdocument : (document, tree) ∈ documents) (hf : f ∈ tree.nodes)
    (hdeclares : f.Declares data.kind) (hname : f.node.name? = some name)
    (hnames : data.name = name.text ∨ f.node.kind = .constructorDeclaration ∧
      data.name = constructorName)
    (hdeclarations : data.declarations = [declaration document f.node name]) :
    Sound documents ((t.add data).2.declare ⟨document, f.node.index⟩ (t.add data).1) := by
  obtain ⟨hmem, _, htext⟩ := PlacedNode.name?_mem hname
  have hdata : data.IsSound documents := by
    refine ⟨hkind, hpath, ?_, absurd hsingle, fun _ => ?_⟩
    · rw [hdeclarations]
      exact ⟨List.cons_ne_nil _ _, List.forall_mem_singleton.mpr
        (isNamed_declaration hdocument hf (PlacedNode.childTokens_subset hmem) htext hsingle)⟩
    · exact ⟨_, hdeclarations, tree, hdocument, f, hf, rfl, hdeclares, name, hname, rfl, hnames⟩
  refine (hs.add hdata (absurd hsingle)).declare ?_
  refine ⟨{ data with key := t.freshKey data.key }, by rw [data?_add,
    if_pos rfl], fun _ => ?_, absurd hsingle⟩
  exact ⟨_, by rw [hdeclarations]; exact List.mem_singleton_self _, rfl⟩

/-- The symbol comes behind what contains it. -/
theorem extends_introduce (hs : Sound documents t) (data : SymbolData) {f : Focus}
    {name : PlacedToken} (hkind : data.key.kind = data.kind) (hpath : data.key.path ≠ "")
    (hsingle : data.kind.isSingle) (hdocument : (document, tree) ∈ documents) (hf : f ∈ tree.nodes)
    (hdeclares : f.Declares data.kind) (hname : f.node.name? = some name)
    (hnames : data.name = name.text ∨ f.node.kind = .constructorDeclaration ∧
      data.name = constructorName)
    (hdeclarations : data.declarations = [declaration document f.node name])
    (hcontainer : ∀ outer ∈ data.container?, outer.index < t.symbols.length)
    (hlocal : data.kind ≠ .localVariable)
    (hasked : data.key = t.childKey data.container? data.kind (data.label 0))
    (htype : data.kind.isMember → data.container?.any t.isType) :
    Extends documents [⟨document, f.node.index⟩] t
      ((t.add data).2.declare ⟨document, f.node.index⟩ (t.add data).1) where
  grows := (Grows.add t data).trans (Grows.declare _ _ _)
  sound :=
    sound_introduce hs data hkind hpath hsingle hdocument hf hdeclares hname hnames hdeclarations
  bindings := rfl
  declared := ⟨[⟨document, f.node.index⟩], rfl, .refl _⟩
  noted ht := ht.introduce (by rw [hdeclarations]; exact List.forall_mem_singleton.mpr rfl)
  layered ht := ht.add hcontainer
  noLocals ht := ht.add hlocal
  filed ht := ht.add fun hmember => by
    obtain ⟨type, htypeOf, htype⟩ := (Option.any_eq_true ..).mp (htype hmember)
    obtain ⟨outer, houter, hkind⟩ := Option.map_eq_some_iff.mp (beq_iff_eq.mp htype)
    obtain ⟨number, hnumber, hfresh⟩ := t.exists_number data.key
    have hkey : data.key.path = outer.key.path ++ "." ++ data.label 0 := by
      have hpath : ¬outer.key.path.isEmpty := by simpa using hs.paths type outer houter
      rw [hasked, htypeOf, childKey, Option.bind_some, houter]
      exact congrArg Key.path (if_neg hpath)
    refine ⟨type, outer, number, htypeOf, houter, hkind, hnumber, ?_⟩
    rw [show ({ data with key := t.freshKey data.key } : SymbolData).key.path = _ from congrArg
      Key.path hfresh, hkey]
    rfl

theorem extends_declareMember (hs : Sound documents t) {f : Focus} {name : PlacedToken}
    {kind : SymbolKind} (hkind : kind.isSingle) (hlocal : kind ≠ .localVariable)
    (hdocument : (document, tree) ∈ documents) (hf : f ∈ tree.nodes) (hdeclares : f.Declares kind)
    (hname : f.node.name? = some name)
    (hcontainer : ∀ outer ∈ container?, outer.index < t.symbols.length)
    (htype : kind.isMember → container?.any t.isType) (hmethod : kind ≠ .method)
    (typeName? : Option String) :
    Extends documents [⟨document, f.node.index⟩] t
      (t.declareMember document f.node container? kind name typeName?) :=
  extends_introduce hs (t.memberData document f.node container? kind name typeName?)
    (t.kind_childKey ..)
    ((t.endsIn_childKey ..).path_ne (PlacedNode.name?_mem hname).2.2) hkind hdocument hf hdeclares
    hname (.inl rfl) rfl
    hcontainer hlocal
    (by cases kind <;> first | rfl | exact absurd rfl hmethod | exact absurd rfl hlocal) htype

theorem extends_foldl {α : Type} {f : SymbolTable → α → SymbolTable} (places : α → List Place)
    {xs : List α}
    (hf : ∀ u x, x ∈ xs → Grows t u → Sound documents u → Extends documents (places x) u (f u x))
    (hs : Sound documents t) : Extends documents (xs.flatMap places) t (xs.foldl f t) := by
  induction xs generalizing t with
  | nil => exact .refl hs
  | cons x xs ih =>
    have hx := hf t x List.mem_cons_self (.refl t) hs
    exact hx.trans
      (ih (fun u y hy hu => hf u y (List.mem_cons_of_mem x hy) (hx.grows.trans hu)) hx.sound)

variable {above : List PlacedNode} {n : PlacedNode}

/-- A field declaration declares one field for each declarator with a name. -/
theorem extends_declareFields (hs : Sound documents t) (hdocument : (document, tree) ∈ documents)
    (habove : AreScopes above) (hkind : n.kind = .fieldDeclaration)
    (hfoci : Placed.fociOf (n :: above) n.children ⊆ tree.nodes)
    (hcontainer : ∀ outer ∈ container?, outer.index < t.symbols.length)
    (htype : container?.any t.isType) :
    Extends documents (placesOf document (Placed.nodesOf n.children)) t
      (t.declareFields document n container?) := by
  rw [declareFields]
  split
  next => exact (Extends.refl hs).none
  next declaration hdeclaration =>
    obtain ⟨hchild, hdeclarationKind⟩ := PlacedNode.child?_some hdeclaration
    have hsublist : (declaration.childrenOf .variableDeclarator).Sublist
        (Placed.nodesOf n.children) :=
      (List.filter_sublist.trans declaration.childNodes_sublist).trans
        (PlacedNode.nodesOf_sublist hchild)
    refine (extends_foldl (fun declarator => [⟨document, declarator.index⟩])
      (fun u declarator hmem hgrows hu => ?_) hs).weaken
      (List.map_eq_flatMap ▸ placesOf_sublist hsublist document)
    obtain ⟨hdeclarator, hdeclaratorKind⟩ := List.mem_filter.mp hmem
    split
    next name hname =>
      have hf : ⟨declarator, declaration :: n :: above⟩ ∈ tree.nodes :=
        hfoci (PlacedNode.foci_subset hchild (PlacedNode.focus_mem hdeclarator))
      have hfield : Focus.Declares ⟨declarator, declaration :: n :: above⟩ .field :=
        ⟨by
            simpa using hdeclaratorKind, declaration, n, above, rfl, hdeclarationKind, hkind,
              habove⟩
      exact extends_declareMember hu SymbolKind.isSingle_field nofun hdocument hf hfield hname
        (fun outer houter => Nat.lt_of_lt_of_le (hcontainer outer houter) hgrows.length_le)
        (fun _ => hgrows.any_isType htype) nofun _
    next => exact (Extends.refl hu).none

/-- A property declares one symbol, if it has a name. -/
theorem extends_declareProperty (hs : Sound documents t) (hdocument : (document, tree) ∈ documents)
    (habove : AreScopes above) (hkind : n.kind = .propertyDeclaration)
    (hf : ⟨n, above⟩ ∈ tree.nodes)
    (hcontainer : ∀ outer ∈ container?, outer.index < t.symbols.length)
    (htype : container?.any t.isType) :
    Extends documents [⟨document, n.index⟩] t (t.declareProperty document n container?) := by
  rw [declareProperty]
  split
  next name hname =>
    have hproperty : Focus.Declares ⟨n, above⟩ .property := ⟨hkind, habove⟩
    exact extends_declareMember hs SymbolKind.isSingle_property nofun hdocument hf hproperty hname
      hcontainer
      (fun _ => htype) nofun _
  next => exact (Extends.refl hs).none

/-- Parameters stand in the parameter list. -/
theorem mem_parametersOf {parameter : PlacedNode} (h : parameter ∈ parametersOf n) :
    ∃ list ∈ n.childNodes, parameter ∈ list.childNodes ∧ parameter.kind = .parameter := by
  rw [parametersOf] at h
  cases hlist : n.child? .parameterList with
  | none => simp [hlist] at h
  | some list =>
    rw [hlist] at h
    obtain ⟨hmem, hkind⟩ := List.mem_filter.mp h
    exact ⟨list, (PlacedNode.child?_some hlist).1, hmem, eq_of_beq hkind⟩

theorem parametersOf_sublist (n : PlacedNode) :
    (parametersOf n).Sublist (Placed.nodesOf n.children) := by
  rw [parametersOf]
  cases hlist : n.child? .parameterList with
  | none => exact List.nil_sublist _
  | some list =>
    exact (List.filter_sublist.trans list.childNodes_sublist).trans
      (PlacedNode.nodesOf_sublist (PlacedNode.child?_some hlist).1)

/-- A method declares one symbol for itself and one for each parameter. -/
theorem extends_declareMethod (hs : Sound documents t) (hdocument : (document, tree) ∈ documents)
    (hkind : n.kind = .methodDeclaration ∨ n.kind = .constructorDeclaration)
    (hf : ⟨n, above⟩ ∈ tree.nodes) (hfoci : Placed.fociOf (n :: above) n.children ⊆ tree.nodes)
    (hcontainer : ∀ outer ∈ container?, outer.index < t.symbols.length)
    (htype : container?.any t.isType) :
    Extends documents (placesOf document n.placed.nodes) t
      (t.declareMethod document n container?) := by
  cases hname : n.name? with
  | none =>
    rw [declareMethod, hname]
    exact (Extends.refl hs).none
  | some name =>
    have hnames : methodName n name = name.text ∨
        n.kind = .constructorDeclaration ∧ methodName n name = constructorName := by
      rw [methodName]
      split
      next hctor => exact .inr ⟨by simpa using hctor, rfl⟩
      next => exact .inl rfl
    let data := t.methodData document n container? name
    have hpath : data.key.path ≠ "" := (t.endsIn_childKey ..).path_ne (by simp)
    have hmethod :=
      extends_introduce hs data (t.kind_childKey ..) hpath SymbolKind.isSingle_method hdocument hf
        hkind hname
      hnames rfl hcontainer nofun rfl fun _ => htype
    rw [declareMethod_of_name hname]
    refine hmethod.trans ((extends_foldl (fun parameter => [⟨document, parameter.index⟩])
      (fun u parameter hmem hgrows hu => ?_) hmethod.sound).weaken
        (List.map_eq_flatMap ▸ placesOf_sublist (parametersOf_sublist n) document))
    split
    next parameterName hparameter =>
      obtain ⟨list, hchild, hparameterNode, hparameterKind⟩ := mem_parametersOf hmem
      have hf' : ⟨parameter, list :: n :: above⟩ ∈ tree.nodes :=
        hfoci (PlacedNode.foci_subset hchild (PlacedNode.focus_mem hparameterNode))
      have hdeclares : Focus.Declares ⟨parameter, list :: n :: above⟩ .parameter := hparameterKind
      refine extends_declareMember hu SymbolKind.isSingle_parameter nofun hdocument hf' hdeclares
        hparameter (fun outer houter => ?_)
        nofun nofun _
      obtain rfl := Option.some.inj houter
      refine Nat.lt_of_lt_of_le ?_ hgrows.length_le
      show t.symbols.length < (t.add data).2.symbols.length
      rw [length_add]
      exact Nat.lt_succ_self _
    next => exact (Extends.refl hu).none

mutual

/-- Everything in an element is declared where it stands. -/
theorem extends_declareElement {t : SymbolTable} {container? : Option SymbolId}
    {above : List PlacedNode} (hdocument : (document, tree) ∈ documents) (p : Placed)
    (hs : Sound documents t) (hc : ∀ id ∈ container?, t.CanContain id) (habove : AreScopes above)
    (hfoci : p.foci above ⊆ tree.nodes) :
    Extends documents (placesOf document p.nodes) t (t.declareElement document container? p) := by
  match p with
  | .token _ => exact .refl hs
  | .node info children =>
    have hf : ⟨⟨info, children⟩, above⟩ ∈ tree.nodes := hfoci List.mem_cons_self
    have hchildren : Placed.fociOf (⟨info, children⟩ :: above) children ⊆ tree.nodes := fun f hf =>
      hfoci (List.mem_cons_of_mem _ hf)
    let n : PlacedNode := ⟨info, children⟩
    have hinner (hkind : info.kind.isScope) : AreScopes (n :: above) := habove.cons hkind
    have hothers : (placesOf document (Placed.nodesOf children)).Sublist
        (placesOf document n.placed.nodes) :=
      placesOf_sublist (List.sublist_cons_self _ _) document
    have hlt : ∀ outer ∈ container?, outer.index < t.symbols.length :=
      fun outer houter => (hc outer houter).lt
    rw [declareElement]
    split
    next hkind =>
      have hscope : n.kind.isScope := (congrArg Kind.isScope hkind).trans rfl
      obtain ⟨hext, hcontain⟩ :=
        @extends_declareNamespace _ _ _ _ _ hs hc hdocument ⟨n, above⟩ hf hscope habove
      exact hext.andThen fun _ hu => extends_declareAll hdocument children hu hcontain
        (hinner (by rw [hkind]; rfl)) hchildren
    next hkind =>
      have hscope : n.kind.isScope := (congrArg Kind.isScope hkind).trans rfl
      obtain ⟨hext, hcontain⟩ :=
        @extends_declareNamespace _ _ _ _ _ hs hc hdocument ⟨n, above⟩ hf hscope habove
      exact hext.andThen fun _ hu => extends_declareAll hdocument children hu hcontain
        (hinner (by rw [hkind]; rfl)) hchildren
    next hkind =>
      split
      next id u hu =>
        have hscope : n.kind.isScope := (congrArg Kind.isScope hkind).trans rfl
        obtain ⟨hext, hcontain⟩ :=
          @extends_declareType? _ _ _ _ _ hs hc hdocument ⟨n, above⟩ hf hscope habove _ _ hu
        exact hext.andThen fun _ hu => extends_declareAll hdocument children hu
          (fun id' hid => Option.some.inj hid ▸ hcontain) (hinner (by rw [hkind]; rfl)) hchildren
      next => exact (Extends.refl hs).none
    next hkind =>
      split
      next id u hu =>
        have hscope : n.kind.isScope := (congrArg Kind.isScope hkind).trans rfl
        obtain ⟨hext, hcontain⟩ :=
          @extends_declareType? _ _ _ _ _ hs hc hdocument ⟨n, above⟩ hf hscope habove _ _ hu
        exact hext.andThen fun _ hu => extends_declareAll hdocument children hu
          (fun id' hid => Option.some.inj hid ▸ hcontain) (hinner (by rw [hkind]; rfl)) hchildren
      next => exact (Extends.refl hs).none
    next hkind =>
      split
      next htype =>
        exact (@extends_declareFields _ _ _ _ _ _ n hs hdocument habove hkind hchildren hlt
          htype).weaken hothers
      next => exact (Extends.refl hs).none
    next hkind =>
      split
      next htype =>
        exact (@extends_declareProperty _ _ _ _ _ _ n hs hdocument habove hkind hf hlt htype).weaken
          (List.singleton_sublist.mpr List.mem_cons_self)
      next => exact (Extends.refl hs).none
    next hkind =>
      split
      next htype =>
        exact @extends_declareMethod _ _ _ _ _ _ n hs hdocument (.inl hkind) hf hchildren hlt htype
      next => exact (Extends.refl hs).none
    next hkind =>
      split
      next htype =>
        exact @extends_declareMethod _ _ _ _ _ _ n hs hdocument (.inr hkind) hf hchildren hlt htype
      next => exact (Extends.refl hs).none
    next => exact (Extends.refl hs).none

/-- Everything in a list of elements is declared where it stands. -/
theorem extends_declareAll {t : SymbolTable} {container? : Option SymbolId}
    {above : List PlacedNode} (hdocument : (document, tree) ∈ documents) (ps : List Placed)
    (hs : Sound documents t) (hc : ∀ id ∈ container?, t.CanContain id) (habove : AreScopes above)
    (hfoci : Placed.fociOf above ps ⊆ tree.nodes) :
    Extends documents (placesOf document (Placed.nodesOf ps)) t
      (t.declareAll document container? ps) := by
  match ps with
  | [] =>
    rw [declareAll]
    exact .refl hs
  | p :: rest =>
    have hfirst :=
      extends_declareElement hdocument p hs hc habove fun f hf => hfoci (List.mem_append_left _ hf)
    rw [declareAll, Placed.nodesOf, placesOf, List.map_append]
    exact hfirst.andThen fun hgrows hu => extends_declareAll hdocument rest hu
      (fun id hid => (hc id hid).grows hgrows) habove fun f hf => hfoci (List.mem_append_right _ hf)

end

/-- All symbols of a document are declared where they stand. -/
theorem extends_declareDocument (hdocument : (document, tree) ∈ documents)
    (hs : Sound documents t) :
    Extends documents (placesOf document (Placed.nodesOf tree.top.children)) t
      (t.declareDocument document tree) :=
  extends_declareAll hdocument _ hs nofun (.root tree.top) tree.fociOf_subset_nodes

end Pass

end SymbolTable

end AutoProperty
