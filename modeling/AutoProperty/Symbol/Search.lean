import AutoProperty.Symbol.Key
import AutoProperty.Text.Span
import AutoProperty.Workspace.Identity

/-! # Symbols in a list

What a symbol is, and how symbols are searched for in a list of all of them: by key, by simple name,
or by the type that contains them. A symbol is numbered by its place in the list.
-/

namespace AutoProperty

structure SymbolId where
  index : Nat
deriving DecidableEq

/-- A node or a token of a document, by its number in the tree of the document. -/
structure Place where
  document : DocumentId
  index : Nat
deriving DecidableEq

/-- A piece of source that declares a symbol: its node, and where it writes the name. -/
structure Declaration where
  place : Place
  nameSpan : Span
deriving DecidableEq

structure SymbolData where
  kind : SymbolKind
  name : String
  container? : Option SymbolId
  /-- The type as it is written; for an inferred local the path of the type that was found. -/
  typeName? : Option String
  /-- The number of parameters of a method. -/
  arity : Nat
  key : Key
  declarations : List Declaration

namespace SymbolData

/-- Fields, properties, methods and types are listed with the type that contains them. -/
def isListed (data : SymbolData) : Bool :=
  data.kind.isMember || data.kind == .namedType

def isTypeNamed (name : String) (data : SymbolData) : Bool :=
  data.kind == .namedType && data.name == name

end SymbolData

/-! ## Searching a list of symbols -/

/-- The numbers of the symbols that satisfy `p`, in order. -/
def symbolsWhere (symbols : List SymbolData) (p : SymbolId → SymbolData → Bool) : List SymbolId :=
  symbols.zipIdx.filterMap fun (data, i) => if p ⟨i⟩ data then some ⟨i⟩ else none

def symbolWithKey? (symbols : List SymbolData) (key : Key) : Option SymbolId :=
  (symbols.findIdx? (·.key == key)).map (⟨·⟩)

def isTypeIn (symbols : List SymbolData) (id : SymbolId) : Bool :=
  symbols[id.index]?.any (·.kind == .namedType)

def membersIn (symbols : List SymbolData) (type : SymbolId) : List SymbolId :=
  if isTypeIn symbols type then
    symbolsWhere symbols fun id data =>
      type.index < id.index && data.container? == some type && data.isListed
  else
    []

theorem symbolsWhere_append (symbols : List SymbolData) (data : SymbolData)
    (p : SymbolId → SymbolData → Bool) : symbolsWhere (symbols ++ [data]) p =
      symbolsWhere symbols p ++ if p ⟨symbols.length⟩ data then [⟨symbols.length⟩] else [] := by
  simp only [symbolsWhere, List.zipIdx_append, List.filterMap_append, Nat.zero_add]
  congr 1
  by_cases h : p ⟨symbols.length⟩ data <;> simp [h]

theorem symbolWithKey?_append (symbols : List SymbolData) (data : SymbolData) (key : Key) :
    symbolWithKey? (symbols ++ [data]) key =
      (symbolWithKey? symbols key <|> if data.key == key then some ⟨symbols.length⟩ else none) := by
  simp only [symbolWithKey?, List.findIdx?_append]
  cases symbols.findIdx? (·.key == key) with
  | some i => rfl
  | none => by_cases h : data.key == key <;> simp [List.findIdx?_cons, h]

theorem symbolsWhere_eq_nil {symbols : List SymbolData} {p : SymbolId → SymbolData → Bool}
    (h : ∀ id data, id.index < symbols.length → p id data = false) :
    symbolsWhere symbols p = [] := by
  rw [symbolsWhere, List.filterMap_eq_nil_iff]
  rintro ⟨data, i⟩ hmem
  have hlt := List.snd_lt_of_mem_zipIdx hmem
  simp [h ⟨i⟩ data (by simpa using hlt)]

/-- Only a type that is there already gets the new symbol as a member. -/
theorem membersIn_append (symbols : List SymbolData) (data : SymbolData) (type : SymbolId) :
    membersIn (symbols ++ [data]) type = membersIn symbols type ++
      if isTypeIn symbols type && data.container? == some type && data.isListed then
        [⟨symbols.length⟩] else [] := by
  by_cases hlt : type.index < symbols.length
  · have htype : isTypeIn (symbols ++ [data]) type = isTypeIn symbols type := by
      rw [isTypeIn, isTypeIn, List.getElem?_append_left hlt]
    rw [membersIn, membersIn, htype]
    by_cases h : isTypeIn symbols type
    · simp [h, symbolsWhere_append, hlt]
    · simp [h]
  · have hnone : isTypeIn symbols type = false := by
      rw [isTypeIn, List.getElem?_eq_none (Nat.le_of_not_lt hlt), Option.any_none]
    have hnothing : membersIn (symbols ++ [data]) type = [] := by
      rw [membersIn]
      split
      · refine symbolsWhere_eq_nil fun id _ hid => ?_
        have hle : ¬type.index < id.index := by
          simp only [List.length_append, List.length_singleton] at hid
          omega
        simp [hle]
      · rfl
    rw [hnothing, membersIn, hnone]
    simp

/-! ## More declarations -/

def extendDeclarations (symbols : List SymbolData) (id : SymbolId)
    (declarations : List Declaration) : List SymbolData :=
  symbols.modify id.index fun data =>
    { data with declarations := data.declarations ++ declarations }

section Extended

variable (symbols : List SymbolData) (id : SymbolId) (declarations : List Declaration)

theorem getElem?_extendDeclarations (i : Nat) :
    (extendDeclarations symbols id declarations)[i]? = symbols[i]?.map fun data =>
      if id.index = i then { data with declarations := data.declarations ++ declarations }
      else data := by
  rw [extendDeclarations, List.getElem?_modify]
  split <;> simp

/-- What does not look at declarations finds the same symbols as before. -/
theorem symbolsWhere_extendDeclarations {p : SymbolId → SymbolData → Bool}
    (h : ∀ id data declarations, p id { data with declarations } = p id data) :
    symbolsWhere (extendDeclarations symbols id declarations) p = symbolsWhere symbols p := by
  have hpairs : (extendDeclarations symbols id declarations).zipIdx.map
        (fun (data, i) => (p ⟨i⟩ data, i)) = symbols.zipIdx.map fun (data, i) =>
        (p ⟨i⟩ data, i) := by
    refine List.ext_getElem? fun i => ?_
    simp only [List.getElem?_map, List.getElem?_zipIdx, getElem?_extendDeclarations]
    cases symbols[i]? with
    | none => rfl
    | some data =>
      simp only [Option.map_some, Nat.zero_add]
      split <;> simp [h]
  have hselect (symbols : List SymbolData) : symbolsWhere symbols p =
      (symbols.zipIdx.map fun (data, i) => (p ⟨i⟩ data, i)).filterMap fun (selected, i) =>
        if selected then some ⟨i⟩ else none := by
    rw [List.filterMap_map]
    rfl
  rw [hselect, hselect, hpairs]

theorem map_key_extendDeclarations :
    (extendDeclarations symbols id declarations).map (·.key) = symbols.map (·.key) := by
  refine List.ext_getElem? fun i => ?_
  rw [List.getElem?_map, List.getElem?_map, getElem?_extendDeclarations, Option.map_map]
  refine congrArg (Option.map · _) (funext fun data => ?_)
  dsimp only [Function.comp_apply]
  split <;> rfl

theorem symbolWithKey?_extendDeclarations (key : Key) :
    symbolWithKey? (extendDeclarations symbols id declarations) key = symbolWithKey? symbols
      key := by
  have hfind (symbols : List SymbolData) : symbols.findIdx? (·.key == key) =
      (symbols.map (·.key)).findIdx? (· == key) := by
    rw [List.findIdx?_map]
    rfl
  rw [symbolWithKey?, symbolWithKey?, hfind, hfind, map_key_extendDeclarations]

theorem membersIn_extendDeclarations (type : SymbolId) :
    membersIn (extendDeclarations symbols id declarations) type = membersIn symbols type := by
  have htype : isTypeIn (extendDeclarations symbols id declarations) type = isTypeIn symbols
      type := by
    rw [isTypeIn, isTypeIn, getElem?_extendDeclarations, Option.any_map]
    refine congrArg (Option.any · _) (funext fun data => ?_)
    split <;> rfl
  rw [membersIn, membersIn, htype, symbolsWhere_extendDeclarations]
  exact fun _ _ _ => rfl

end Extended

end AutoProperty
