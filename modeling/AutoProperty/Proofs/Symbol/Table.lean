import AutoProperty.Symbol.Table
import Mathlib.Data.List.Nodup

/-! # Growing tables

A table only grows. A symbol that is added gets a key that no other one has, so a key leads back
to its symbol, and what was found once is found in every later table.
-/

namespace AutoProperty

theorem SymbolData.isListed_iff {data : SymbolData} :
    data.isListed ↔ data.kind.isMember ∨ data.kind = .namedType := by
  simp [isListed]

namespace SymbolTable

variable {t : SymbolTable} {id : SymbolId} {data : SymbolData} {key : Key}

/-! ## Keys -/

theorem find?_eq (t : SymbolTable) (key : Key) : t.find? key = symbolWithKey? t.symbols key :=
  t.lookup_keys key

theorem hasKey_iff : t.hasKey key ↔ key ∈ t.symbols.map (·.key) := by
  simp [hasKey, find?_eq, symbolWithKey?, List.findIdx?_isSome]

theorem numbered_injective (key : Key) :
    Function.Injective fun n : Nat => { key with path := key.path ++ "#" ++ toString (n + 1) } := by
  intro m n h
  have hpath : key.path ++ "#" ++ toString (m + 1) = key.path ++ "#" ++ toString (n + 1) :=
    congrArg Key.path h
  -- The number is read back from its digits.
  have hnumber := congrArg (Nat.ofDigitChars 10 ·.toList 0) (String.append_right_inj _ |>.mp hpath)
  simpa [Nat.toList_repr, Nat.ofDigitChars_ten_toDigits] using hnumber

/-- The keys that are tried where a key is taken. -/
def numberedKeys (t : SymbolTable) (key : Key) : List Key :=
  (List.range (t.symbols.length + 1)).map fun n =>
    { key with path := key.path ++ "#" ++ toString (n + 1) }

theorem freshKey_of_taken (h : t.hasKey key) :
    t.freshKey key = ((t.numberedKeys key).find? (!t.hasKey ·)).getD key :=
  if_pos h

/-- The numbered keys outnumber the symbols, so they cannot all be taken. -/
theorem exists_numbered (t : SymbolTable) (key : Key) :
    ∃ fresh ∈ t.numberedKeys key, (t.numberedKeys key).find? (!t.hasKey ·) = some fresh := by
  cases hfind : (t.numberedKeys key).find? (!t.hasKey ·) with
  | some fresh => exact ⟨fresh, List.mem_of_find?_eq_some hfind, rfl⟩
  | none =>
    rw [List.find?_eq_none] at hfind
    have hsubset : t.numberedKeys key ⊆ t.symbols.map (·.key) := by
      intro k hk
      rw [← hasKey_iff]
      simpa using hfind k hk
    have hnodup : (t.numberedKeys key).Nodup := List.nodup_range.map (numbered_injective key)
    have hlength := hnodup.length_le_of_subset hsubset
    simp only [numberedKeys, List.length_map, List.length_range] at hlength
    exact absurd hlength (Nat.not_succ_le_self _)

/-- A fresh key is new. -/
theorem freshKey_notMem (t : SymbolTable) (key : Key) : t.freshKey key ∉ t.symbols.map (·.key) := by
  by_cases h : t.hasKey key
  · obtain ⟨fresh, _, hfind⟩ := t.exists_numbered key
    have hfresh := List.find?_some hfind
    rw [freshKey_of_taken h, hfind, ← hasKey_iff]
    simpa using hfresh
  · rwa [freshKey, if_neg h, ← hasKey_iff]

theorem kind_freshKey (t : SymbolTable) (key : Key) : (t.freshKey key).kind = key.kind := by
  by_cases h : t.hasKey key
  · obtain ⟨fresh, hmem, hfind⟩ := t.exists_numbered key
    rw [freshKey_of_taken h, hfind]
    obtain ⟨n, _, rfl⟩ := List.mem_map.mp hmem
    rfl
  · rw [freshKey, if_neg h]

/-- What a fresh key may have behind the key that was asked for: nothing, or a number. -/
def IsNumber (text : String) : Prop :=
  text = "" ∨ ∃ n : Nat, text = "#" ++ toString n

/-- A key that is taken gets a number. -/
theorem exists_number_of_hasKey (h : t.hasKey key) :
    ∃ n : Nat, (t.freshKey key).path = key.path ++ "#" ++ toString n := by
  obtain ⟨fresh, hmem, hfind⟩ := t.exists_numbered key
  obtain ⟨n, _, rfl⟩ := List.mem_map.mp hmem
  exact ⟨n + 1, by rw [freshKey_of_taken h, hfind]; rfl⟩

/-- A fresh key is the key that was asked for, perhaps with a number behind it. -/
theorem exists_number (t : SymbolTable) (key : Key) :
    ∃ number, IsNumber number ∧ t.freshKey key = { key with path := key.path ++ number } := by
  have hkind := t.kind_freshKey key
  by_cases htaken : t.hasKey key
  · obtain ⟨n, hpath⟩ := exists_number_of_hasKey htaken
    refine ⟨"#" ++ toString n, .inr ⟨n, rfl⟩, ?_⟩
    rw [← String.append_assoc, ← hpath, ← hkind]
  · exact ⟨"", .inl rfl, by rw [freshKey, if_neg htaken, String.append_empty]⟩

theorem path_freshKey_ne (t : SymbolTable) (h : key.path ≠ "") : (t.freshKey key).path ≠ "" := by
  obtain ⟨number, _, heq⟩ := t.exists_number key
  rw [heq]
  simp [h]

theorem find?_some (h : t.find? key = some id) :
    ∃ data, t.data? id = some data ∧ data.key = key := by
  rw [find?_eq] at h
  obtain ⟨i, hi, rfl⟩ := Option.map_eq_some_iff.mp h
  obtain ⟨hlt, hkey, _⟩ := List.findIdx?_eq_some_iff_getElem.mp hi
  exact ⟨t.symbols[i], List.getElem?_eq_getElem hlt, by simpa using hkey⟩

abbrev KeysNodup (t : SymbolTable) : Prop :=
  (t.symbols.map (·.key)).Nodup

/-- A key leads back to its symbol. -/
theorem KeysNodup.find? (h : t.KeysNodup) (hdata : t.data? id = some data) :
    t.find? data.key = some id := by
  obtain ⟨hlt, heq⟩ := List.getElem?_eq_some_iff.mp hdata
  have hfound : t.symbols.findIdx? (·.key == data.key) = some id.index := by
    refine List.findIdx?_eq_some_iff_getElem.mpr ⟨hlt, by simp [heq], fun j hj => ?_⟩
    have hne := List.pairwise_iff_getElem.mp h j id.index (by simp; omega) (by simpa using hlt) hj
    simpa [heq] using hne
  rw [find?_eq, symbolWithKey?, hfound]
  rfl

theorem find?_eq_none_iff : t.find? key = none ↔ key ∉ t.symbols.map (·.key) := by
  simp [find?_eq, symbolWithKey?]

/-- A key that no symbol has stays as it is. -/
theorem freshKey_of_find?_eq_none (h : t.find? key = none) : t.freshKey key = key := by
  rw [find?_eq_none_iff, ← hasKey_iff] at h
  exact if_neg h

/-! ## Selections -/

/-- The symbols of a list that satisfy `p`, each at its own place. -/
theorem mem_symbolsWhere {symbols : List SymbolData} {p : SymbolId → SymbolData → Bool} :
    id ∈ symbolsWhere symbols p ↔ ∃ data, symbols[id.index]? = some data ∧ p id data := by
  simp only [symbolsWhere, List.mem_filterMap, Prod.exists]
  constructor
  · rintro ⟨data, i, hmem, heq⟩
    split at heq
    next hp =>
      cases heq
      exact ⟨data, List.mk_mem_zipIdx_iff_getElem?.mp hmem, hp⟩
    next => cases heq
  · rintro ⟨data, hdata, hp⟩
    exact ⟨data, id.index, List.mk_mem_zipIdx_iff_getElem?.mpr hdata, if_pos hp⟩

theorem symbolsWhere_congr {symbols : List SymbolData} {p q : SymbolId → SymbolData → Bool}
    (h : ∀ id data, symbols[id.index]? = some data → p id data = q id data) :
    symbolsWhere symbols p = symbolsWhere symbols q := by
  refine List.filterMap_congr fun (data, i) hmem => ?_
  dsimp only
  rw [h ⟨i⟩ data (List.mk_mem_zipIdx_iff_getElem?.mp hmem)]

/-- Symbols that are found come in the order of the list. -/
theorem pairwise_symbolsWhere (symbols : List SymbolData) (p : SymbolId → SymbolData → Bool) :
    (symbolsWhere symbols p).Pairwise fun a b => a.index < b.index := by
  have hzip : symbols.zipIdx.Pairwise fun a b => a.2 < b.2 := by
    rw [← List.pairwise_map, List.zipIdx_map_snd]
    exact List.pairwise_lt_range'
  refine List.Pairwise.filterMap _ (fun a b hlt id hid id' hid' => ?_) hzip
  obtain ⟨_, hid⟩ := (Option.ite_none_right_eq_some ..).mp hid
  obtain ⟨_, hid'⟩ := (Option.ite_none_right_eq_some ..).mp hid'
  obtain rfl := Option.some.inj hid
  obtain rfl := Option.some.inj hid'
  exact hlt

/-- The symbols that satisfy `p`, in order. -/
def select (t : SymbolTable) (p : SymbolData → Bool) : List SymbolId :=
  symbolsWhere t.symbols fun _ => p

theorem mem_select {p : SymbolData → Bool} :
    id ∈ t.select p ↔ ∃ data, t.data? id = some data ∧ p data :=
  mem_symbolsWhere

theorem pairwise_select (t : SymbolTable) (p : SymbolData → Bool) :
    (t.select p).Pairwise fun a b => a.index < b.index :=
  pairwise_symbolsWhere _ _

theorem nodup_of_pairwise {ids : List SymbolId} (h : ids.Pairwise fun a b => a.index < b.index) :
    ids.Nodup := by
  refine h.imp fun hlt => ?_
  rintro rfl
  exact Nat.lt_irrefl _ hlt

theorem nodup_select (t : SymbolTable) (p : SymbolData → Bool) : (t.select p).Nodup :=
  nodup_of_pairwise (t.pairwise_select p)

/-- The list of the types with a name is what a search for them finds. -/
theorem typesNamed_eq (t : SymbolTable) (name : String) :
    t.typesNamed name = t.select (SymbolData.isTypeNamed name) :=
  t.lookup_typeLists name

theorem pairwise_typesNamed (t : SymbolTable) (name : String) :
    (t.typesNamed name).Pairwise fun a b => a.index < b.index :=
  t.typesNamed_eq name ▸ t.pairwise_select _

theorem mem_typesNamed {name : String} : id ∈ t.typesNamed name ↔
    ∃ data, t.data? id = some data ∧ data.kind = .namedType ∧ data.name = name := by
  simp [typesNamed_eq, mem_select, SymbolData.isTypeNamed]

theorem members_eq (t : SymbolTable) (type : SymbolId) :
    t.members type = membersIn t.symbols type :=
  t.lookup_memberLists type

/-- The list of the members of a type has what it contains, behind the type itself. -/
theorem mem_members {type : SymbolId} :
    id ∈ t.members type ↔ t.isType type ∧ type.index < id.index ∧ ∃ data, t.data? id = some data ∧
      data.container? = some type ∧ data.isListed := by
  rw [members_eq, membersIn, isTypeIn_symbols]
  by_cases htype : t.isType type
  · rw [if_pos htype, mem_symbolsWhere]
    simp only [htype, Bool.and_eq_true, decide_eq_true_eq, beq_iff_eq, true_and, and_assoc]
    constructor
    · rintro ⟨data, hdata, hlt, hmember⟩
      exact ⟨hlt, data, hdata, hmember⟩
    · rintro ⟨hlt, data, hdata, hmember⟩
      exact ⟨data, hdata, hlt, hmember⟩
  · simp [htype]

theorem pairwise_members (t : SymbolTable) (type : SymbolId) :
    (t.members type).Pairwise fun a b => a.index < b.index := by
  rw [members_eq, membersIn]
  split
  next => exact pairwise_symbolsWhere _ _
  next => exact List.Pairwise.nil

theorem nodup_members (t : SymbolTable) (type : SymbolId) : (t.members type).Nodup :=
  nodup_of_pairwise (t.pairwise_members type)

/-! ## Growth -/

/-- The later table has all symbols of the earlier one, with their declarations and perhaps more. -/
def Grows (t u : SymbolTable) : Prop :=
  ∀ id data, t.data? id = some data →
    ∃ more, u.data? id = some { data with declarations := data.declarations ++ more }

theorem Grows.refl (t : SymbolTable) : Grows t t :=
  fun _ data h => ⟨[], by simpa using h⟩

theorem Grows.trans {t u v : SymbolTable} (h : Grows t u) (h' : Grows u v) : Grows t v := by
  intro id data hdata
  obtain ⟨more, hu⟩ := h id data hdata
  obtain ⟨more', hv⟩ := h' id _ hu
  exact ⟨more ++ more', by simpa using hv⟩

theorem data?_of_initial {t u : SymbolTable} (h : t.symbols <+: u.symbols) {id : SymbolId}
    {data : SymbolData} (hdata : t.data? id = some data) : u.data? id = some data := by
  obtain ⟨more, heq⟩ := h
  rw [data?, ← heq, List.getElem?_append_left (List.getElem?_eq_some_iff.mp hdata).1]
  exact hdata

theorem Grows.of_initial {t u : SymbolTable} (h : t.symbols <+: u.symbols) : Grows t u :=
  fun id data hdata => ⟨[], by simpa using data?_of_initial h hdata⟩

theorem Grows.kind? {t u : SymbolTable} (h : Grows t u) {kind : SymbolKind}
    (hkind : t.kind? id = some kind) : u.kind? id = some kind := by
  obtain ⟨data, hdata, rfl⟩ := Option.map_eq_some_iff.mp hkind
  obtain ⟨more, hu⟩ := h id data hdata
  simp [SymbolTable.kind?, hu]

theorem Grows.isType {t u : SymbolTable} (h : Grows t u) {id : SymbolId} (hid : t.isType id) :
    u.isType id := by
  simp only [SymbolTable.isType, beq_iff_eq] at hid ⊢
  exact h.kind? hid

theorem Grows.any_isType {t u : SymbolTable} (h : Grows t u) {id? : Option SymbolId}
    (hid : id?.any t.isType) : id?.any u.isType := by
  obtain ⟨id, rfl, hid⟩ := (Option.any_eq_true ..).mp hid
  exact h.isType hid

@[simp]
theorem data?_declare (t : SymbolTable) (place : Place) (id id' : SymbolId) :
    (t.declare place id).data? id' = t.data? id' := rfl

@[simp]
theorem data?_bind (t : SymbolTable) (place : Place) (ids : List SymbolId) (id : SymbolId) :
    (t.bind place ids).data? id = t.data? id := by
  rw [bind]
  split <;> rfl

/-- Adding a symbol changes no other one. -/
theorem data?_add (t : SymbolTable) (data : SymbolData) (id : SymbolId) :
    (t.add data).2.data? id = if id = (t.add data).1 then
      some { data with key := t.freshKey data.key } else t.data? id := by
  have hdata : (t.add data).2.data? id =
      (t.symbols ++ [{ data with key := t.freshKey data.key }])[id.index]? := rfl
  by_cases hid : id = (t.add data).1
  · have hindex : id.index = t.symbols.length := by rw [hid]; rfl
    rw [if_pos hid, hdata, hindex, List.getElem?_concat_length]
  · have hne : id.index ≠ t.symbols.length := fun heq => hid (by cases id; simp [add, ← heq])
    rw [if_neg hid, hdata]
    obtain hlt | hlt := Nat.lt_or_gt_of_ne hne
    · rw [List.getElem?_append_left hlt]
      rfl
    · rw [List.getElem?_eq_none (by simp; omega)]
      exact (List.getElem?_eq_none (by omega)).symm

theorem data?_fresh (t : SymbolTable) (data : SymbolData) : t.data? (t.add data).1 = none :=
  List.getElem?_eq_none (Nat.le_refl _)

/-- An added symbol comes behind all others. -/
theorem Grows.add (t : SymbolTable) (data : SymbolData) : Grows t (t.add data).2 := by
  intro id data' h
  refine ⟨[], ?_⟩
  have hne : id ≠ (t.add data).1 := by
    rintro rfl
    rw [data?_fresh] at h
    cases h
  rw [data?_add, if_neg hne, List.append_nil, h]

theorem data?_addDeclarations (t : SymbolTable) (id id' : SymbolId)
    (declarations : List Declaration) :
    (t.addDeclarations id declarations).data? id' = (t.data? id').map fun data => if id' = id then
      { data with declarations := data.declarations ++ declarations } else data := by
  have hid : id' = id ↔ id.index = id'.index := by
    cases id
    cases id'
    simp [eq_comm]
  simp only [addDeclarations, data?, getElem?_extendDeclarations, hid]

theorem map_key_addDeclarations (t : SymbolTable) (id : SymbolId)
    (declarations : List Declaration) :
    (t.addDeclarations id declarations).symbols.map (·.key) = t.symbols.map (·.key) :=
  map_key_extendDeclarations ..

theorem kind_childKey (t : SymbolTable) (container? : Option SymbolId) (kind : SymbolKind)
    (name : String) : (t.childKey container? kind name).kind = kind := by
  rw [childKey]
  split
  next container _ =>
    rw [Key.child]
    split <;> rfl
  next => rfl

theorem Grows.addDeclarations (t : SymbolTable) (id : SymbolId) (declarations : List Declaration) :
    Grows t (t.addDeclarations id declarations) := by
  intro id' data h
  rw [data?_addDeclarations, h]
  by_cases heq : id' = id
  · exact ⟨declarations, by simp [heq]⟩
  · exact ⟨[], by simp [heq]⟩

theorem Grows.merge (t : SymbolTable) (data : SymbolData) : Grows t (t.merge data).2 := by
  rw [SymbolTable.merge]
  split
  next id _ => exact Grows.addDeclarations t id _
  next => exact Grows.add t data

theorem bindings_merge (t : SymbolTable) (data : SymbolData) :
    (t.merge data).2.bindings = t.bindings := by
  rw [SymbolTable.merge]
  split <;> rfl

theorem Grows.declare (t : SymbolTable) (place : Place) (id : SymbolId) :
    Grows t (t.declare place id) :=
  fun _ _ h => ⟨[], by simpa using h⟩

theorem Grows.bind (t : SymbolTable) (place : Place) (ids : List SymbolId) :
    Grows t (t.bind place ids) :=
  fun _ _ h => ⟨[], by simpa using h⟩

/-- A merged symbol is in the table, with its key and with the new declarations. -/
theorem data?_merge (t : SymbolTable) (data : SymbolData) :
    (t.find? data.key = none ∧ t.merge data = t.add data) ∨
      ∃ old, t.data? (t.merge data).1 = some old ∧ old.key = data.key ∧
        t.find? data.key = some (t.merge data).1 ∧
        (t.merge data).2 = t.addDeclarations (t.merge data).1 data.declarations := by
  rw [SymbolTable.merge]
  split
  next id hfind =>
    obtain ⟨old, hold, hkey⟩ := find?_some hfind
    exact .inr ⟨old, hold, hkey, hfind, rfl⟩
  next hnone => exact .inl ⟨hnone, rfl⟩

end SymbolTable

end AutoProperty
