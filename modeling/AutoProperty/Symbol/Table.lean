import AutoProperty.Symbol.Search

/-! # Symbol tables

The symbols of a project in the order in which they were declared, the nodes that declare them,
and what the names in the source refer to. The container of a symbol always comes before it.
Lookups by key, by type and by simple name have tables of their own, which are kept up with
every symbol that is added: each of them answers as a search through all symbols would.
-/

namespace AutoProperty

structure SymbolTable where
  symbols : List SymbolData
  /-- The symbol with each key, in the order of the symbols. -/
  keys : List (Key × SymbolId)
  /-- The members of each type that has some, the latest list first. -/
  memberLists : List (SymbolId × List SymbolId)
  /-- The types with each simple name, the latest list first. -/
  typeLists : List (String × List SymbolId)
  /-- The symbol that each declaring node declares, the latest first. -/
  declared : List (Place × SymbolId)
  /-- The symbols that each name refers to, the latest first. -/
  bindings : List (Place × List SymbolId)
  lookup_keys : ∀ key, keys.lookup key = symbolWithKey? symbols key
  lookup_memberLists : ∀ type, (memberLists.lookup type).getD [] = membersIn symbols type
  lookup_typeLists : ∀ name,
    (typeLists.lookup name).getD [] = symbolsWhere symbols fun _ => SymbolData.isTypeNamed name

namespace SymbolTable

def empty : SymbolTable where
  symbols := []
  keys := []
  memberLists := []
  typeLists := []
  declared := []
  bindings := []
  lookup_keys _ := rfl
  lookup_memberLists _ := rfl
  lookup_typeLists _ := rfl

def data? (t : SymbolTable) (id : SymbolId) : Option SymbolData :=
  t.symbols[id.index]?

def kind? (t : SymbolTable) (id : SymbolId) : Option SymbolKind :=
  (t.data? id).map (·.kind)

def isType (t : SymbolTable) (id : SymbolId) : Bool :=
  t.kind? id == some .namedType

def find? (t : SymbolTable) (key : Key) : Option SymbolId :=
  t.keys.lookup key

def hasKey (t : SymbolTable) (key : Key) : Bool :=
  (t.find? key).isSome

def members (t : SymbolTable) (type : SymbolId) : List SymbolId :=
  (t.memberLists.lookup type).getD []

def typesNamed (t : SymbolTable) (name : String) : List SymbolId :=
  (t.typeLists.lookup name).getD []

def declared? (t : SymbolTable) (place : Place) : Option SymbolId :=
  t.declared.lookup place

/-- The symbols that a name token refers to; none if it refers to nothing. -/
def bound (t : SymbolTable) (place : Place) : List SymbolId :=
  (t.bindings.lookup place).getD []

/-- The names that refer to something, each once. -/
def boundPlaces (t : SymbolTable) : List Place :=
  (t.bindings.map (·.1)).eraseDups

/-- The symbol that a name token refers to, if there is only one. -/
def single? (t : SymbolTable) (place : Place) : Option SymbolId :=
  match t.bound place with
  | [id] => some id
  | _ => none

def membersNamed (t : SymbolTable) (type : SymbolId) (name : String) : List SymbolId :=
  (t.members type).filter fun id => (t.data? id).any (·.name == name)

/-- Follows containers outwards, at most `steps` of them. -/
def outwardFrom (t : SymbolTable) : Nat → Option SymbolId → List SymbolId
  | 0, _ => []
  | _, none => []
  | steps + 1, some id =>
    match t.data? id with
    | some data => id :: t.outwardFrom steps data.container?
    | none => []

def outward (t : SymbolTable) (id? : Option SymbolId) : List SymbolId :=
  t.outwardFrom t.symbols.length id?

def containingType? (t : SymbolTable) (data : SymbolData) : Option SymbolId :=
  (t.outward data.container?).find? t.isType

/-- The key of a symbol in a container, or at the outermost level. -/
def childKey (t : SymbolTable) (container? : Option SymbolId) (kind : SymbolKind)
    (name : String) : Key :=
  match container?.bind t.data? with
  | some container => container.key.child kind name
  | none => ⟨kind, name⟩

/-! ## Growing a table -/

theorem isTypeIn_symbols (t : SymbolTable) (id : SymbolId) :
    isTypeIn t.symbols id = t.isType id := by
  rw [isTypeIn, isType, kind?, data?]
  cases t.symbols[id.index]? <;> rfl

/-- Puts a value at the end of the list under a name. -/
def file {α β : Type} [BEq α] (lists : List (α × List β)) (name : α) (value : β) :
    List (α × List β) :=
  (name, (lists.lookup name).getD [] ++ [value]) :: lists

theorem lookup_file {α β : Type} [BEq α] [LawfulBEq α] (lists : List (α × List β)) (name : α)
    (value : β) (other : α) : ((file lists name value).lookup other).getD [] =
      (lists.lookup other).getD [] ++ if other == name then [value] else [] := by
  rw [file, List.lookup_cons]
  by_cases h : other == name
  · simp [eq_of_beq h]
  · simp [h]

/-- A key that no symbol has yet: the key itself, or with the first free number behind it. -/
def freshKey (t : SymbolTable) (key : Key) : Key :=
  if t.hasKey key then
    let numbered := (List.range (t.symbols.length + 1)).map fun n =>
      { key with path := key.path ++ "#" ++ toString (n + 1) }
    (numbered.find? (!t.hasKey ·)).getD key
  else
    key

/-- The member lists with a new symbol: it is listed with its container, if that is a type. -/
def listMember (t : SymbolTable) (data : SymbolData) : List (SymbolId × List SymbolId) :=
  match data.container? with
  | some container =>
    if data.isListed && t.isType container then
      file t.memberLists container ⟨t.symbols.length⟩
    else
      t.memberLists
  | none => t.memberLists

def listType (t : SymbolTable) (data : SymbolData) : List (String × List SymbolId) :=
  if data.kind == .namedType then
    file t.typeLists data.name ⟨t.symbols.length⟩
  else
    t.typeLists

/-- A listed member stands behind the members that the type had already. -/
theorem lookup_listMember (t : SymbolTable) (data : SymbolData) (type : SymbolId) :
    ((t.listMember data).lookup type).getD [] = membersIn (t.symbols ++ [data]) type := by
  rw [membersIn_append, isTypeIn_symbols, ← t.lookup_memberLists type, listMember]
  cases hcontainer : data.container? with
  | none => simp
  | some container =>
    dsimp only
    by_cases hlisted : data.isListed && t.isType container
    · rw [if_pos hlisted, lookup_file]
      obtain ⟨hlisted, htype⟩ := Bool.and_eq_true_iff.mp hlisted
      by_cases heq : type = container
      · simp [heq, hlisted, htype]
      · simp [heq, Ne.symm heq]
    · rw [if_neg hlisted]
      by_cases heq : type = container
      · rw [heq]
        simp only [Bool.and_eq_true, not_and, Bool.not_eq_true] at hlisted
        cases hisListed : data.isListed with
        | true => simp [hlisted hisListed]
        | false => simp
      · simp [Ne.symm heq]

theorem lookup_listType (t : SymbolTable) (data : SymbolData) (name : String) :
    ((t.listType data).lookup name).getD [] =
      symbolsWhere (t.symbols ++ [data]) fun _ => SymbolData.isTypeNamed name := by
  rw [symbolsWhere_append, ← t.lookup_typeLists name, listType]
  by_cases htype : data.kind == .namedType
  · rw [if_pos htype, lookup_file]
    simp [SymbolData.isTypeNamed, htype, eq_comm (a := name)]
  · simp [SymbolData.isTypeNamed, htype]

/-- Adds a symbol under a key of its own. -/
def add (t : SymbolTable) (data : SymbolData) : SymbolId × SymbolTable :=
  let data := { data with key := t.freshKey data.key }
  (⟨t.symbols.length⟩,
    { t with
      symbols := t.symbols ++ [data]
      keys := t.keys ++ [(data.key, ⟨t.symbols.length⟩)]
      memberLists := t.listMember data
      typeLists := t.listType data
      lookup_keys := fun key => by
        rw [List.lookup_append, t.lookup_keys, symbolWithKey?_append, List.lookup_cons,
          List.lookup_nil, Bool.beq_comm]
        cases symbolWithKey? t.symbols key with
        | some id => rfl
        | none => by_cases h : data.key == key <;> simp [h]
      lookup_memberLists := t.lookup_listMember data
      lookup_typeLists := t.lookup_listType data })

def addDeclarations (t : SymbolTable) (id : SymbolId) (declarations : List Declaration) :
    SymbolTable :=
  { t with
    symbols := extendDeclarations t.symbols id declarations
    lookup_keys := fun key => by
      rw [symbolWithKey?_extendDeclarations, t.lookup_keys]
    lookup_memberLists := fun type => by
      rw [membersIn_extendDeclarations, t.lookup_memberLists]
    lookup_typeLists := fun name => by
      rw [symbolsWhere_extendDeclarations _ _ _ fun _ _ _ => rfl, t.lookup_typeLists] }

/-- Adds a symbol that may be declared in several places: one with the same key takes the
declarations. -/
def merge (t : SymbolTable) (data : SymbolData) : SymbolId × SymbolTable :=
  match t.find? data.key with
  | some id => (id, t.addDeclarations id data.declarations)
  | none => t.add data

def declare (t : SymbolTable) (place : Place) (id : SymbolId) : SymbolTable :=
  { t with declared := (place, id) :: t.declared }

/-- Notes what a name refers to, if it refers to anything. -/
def bind (t : SymbolTable) (place : Place) (candidates : List SymbolId) : SymbolTable :=
  if candidates.isEmpty then t else { t with bindings := (place, candidates) :: t.bindings }

end SymbolTable

end AutoProperty
