import AutoProperty.Proofs.Symbol.Declared

/-! # Keys that are asked for

A symbol asks for the key that its container, its kind and its name make up. Where no key is
asked for twice none has to be numbered, and a key tells what it is the key of, in whatever
order the symbols were declared.
-/

namespace AutoProperty

/-! ## Labels -/

theorem notMem_toString {c : Char} (hc : c.isDigit = false) (n : Nat) :
    c ∉ (toString n).toList := by
  intro hmem
  have hdigits : c ∈ Nat.toDigits 10 n := by
    rw [← Nat.toList_repr]
    exact hmem
  exact Bool.false_ne_true
    (hc.symm.trans (Nat.isDigit_of_mem_toDigits (by decide) (by decide) hdigits))

/-- A label is not another one with a number behind it. -/
theorem SymbolData.IsLabel.ne_numbered {data : SymbolData} {label label' : String}
    (h : data.IsLabel label) (h' : data.IsLabel label') (n : Nat) :
    label' ≠ label ++ "#" ++ toString n := by
  have hself (text : String) : text ≠ text ++ "#" ++ toString n := by
    intro heq
    have hlength := congrArg String.length heq
    simp only [String.length_append, show "#".length = 1 from rfl] at hlength
    omega
  obtain ⟨ordinal, rfl⟩ := h
  obtain ⟨ordinal', rfl⟩ := h'
  rw [SymbolData.label, SymbolData.label]
  split
  next => exact hself _
  next =>
    intro heq
    simp only [String.append_assoc, String.append_right_inj] at heq
    refine notMem_toString rfl ordinal' (c := '#') ?_
    rw [heq]
    simp
  next => exact hself _

theorem Key.eq_of_parts {key key' : Key} (hkind : key.kind = key'.kind)
    (hpath : key.path = key'.path) : key = key' := by
  obtain ⟨kind, path⟩ := key
  obtain ⟨kind', path'⟩ := key'
  obtain rfl : kind = kind' := hkind
  obtain rfl : path = path' := hpath
  rfl

namespace Key

/-- The key of a symbol inside the one with the key, or at the outermost level. -/
def within (outer? : Option Key) (kind : SymbolKind) (label : String) : Key :=
  match outer? with
  | some outer => outer.child kind label
  | none => ⟨kind, label⟩

@[simp]
theorem kind_within (outer? : Option Key) (kind : SymbolKind) (label : String) :
    (within outer? kind label).kind = kind := by
  cases outer? with
  | none => rfl
  | some outer =>
    rw [within, child]
    split <;> rfl

/-- What stands in front of a label depends on the container only. -/
theorem exists_path_within (outer? : Option Key) (kind : SymbolKind) :
    ∃ before, ∀ label, (within outer? kind label).path = before ++ label := by
  cases outer? with
  | none => exact ⟨"", fun label => String.empty_append.symm⟩
  | some outer =>
    by_cases hpath : outer.path.isEmpty
    · exact ⟨"", fun label => by simp [within, child, hpath]⟩
    · exact ⟨outer.path ++ ".", fun label => by simp [within, child, hpath]⟩

theorem within_append (outer? : Option Key) (kind : SymbolKind) (label more : String) :
    within outer? kind (label ++ more) =
      { within outer? kind label with path := (within outer? kind label).path ++ more } := by
  obtain ⟨before, hbefore⟩ := exists_path_within outer? kind
  refine eq_of_parts ?_ ?_
  · rw [kind_within]
    exact (kind_within ..).symm
  · rw [hbefore, hbefore, String.append_assoc]

end Key

namespace SymbolTable

/-- Every symbol goes by the key that it asked for: none had to be numbered to be told from
another one. -/
def IsUnnumbered (t : SymbolTable) : Prop :=
  ∀ id data, t.data? id = some data →
    ∃ label, data.IsLabel label ∧ data.key = t.childKey data.container? data.kind label

/-- It is enough to look at the keys, and to find the number of each local. -/
theorem IsUnnumbered.of_labels {t : SymbolTable}
    (h : ∀ data ∈ t.symbols, ∃ ordinal ∈ List.range t.symbols.length,
      data.key = t.childKey data.container? data.kind (data.label ordinal)) : t.IsUnnumbered := by
  intro id data hdata
  obtain ⟨ordinal, _, hkey⟩ := h data (List.mem_of_getElem? hdata)
  exact ⟨_, ⟨ordinal, rfl⟩, hkey⟩

variable {t u : SymbolTable} {id : SymbolId} {key : Key} {outer? : Option Key}
  {container? : Option SymbolId}

/-! ## The keys of containers -/

def Keyed (t : SymbolTable) (id : SymbolId) (key : Key) : Prop :=
  ∃ data, t.data? id = some data ∧ data.key = key

theorem Keyed.grows (h : t.Keyed id key) (hgrows : Grows t u) : u.Keyed id key := by
  obtain ⟨data, hdata, hkey⟩ := h
  obtain ⟨more, hmore⟩ := hgrows id data hdata
  exact ⟨_, hmore, hkey⟩

theorem Keyed.eq {key' : Key} (h : t.Keyed id key) (h' : t.Keyed id key') : key = key' := by
  obtain ⟨data, hdata, rfl⟩ := h
  obtain ⟨data', hdata', rfl⟩ := h'
  rw [Option.some.inj (hdata.symm.trans hdata')]

/-- The container goes by the key; both are missing at the outermost level. -/
abbrev HasKey? (t : SymbolTable) : Option SymbolId → Option Key → Prop :=
  Option.Rel t.Keyed

theorem HasKey?.grows (h : t.HasKey? container? outer?) (hgrows : Grows t u) :
    u.HasKey? container? outer? := by
  cases h with
  | none => exact .none
  | some h => exact .some (h.grows hgrows)

theorem HasKey?.childKey_eq (h : t.HasKey? container? outer?) (kind : SymbolKind) (label : String) :
    t.childKey container? kind label = Key.within outer? kind label := by
  cases h with
  | none => rfl
  | some h =>
    obtain ⟨data, hdata, rfl⟩ := h
    simp [childKey, hdata, Key.within]

/-! ## Numbers -/

/-- The key that a symbol asked for was free if in the end no symbol has been numbered. -/
theorem IsUnnumbered.not_hasKey (h : u.IsUnnumbered) {data : SymbolData}
    (hgrows : Grows (t.add data).2 u) {label : String} (hlabel : data.IsLabel label)
    (hcontainer : t.HasKey? data.container? outer?)
    (hkey : data.key = Key.within outer? data.kind label) : ¬t.hasKey data.key := by
  intro htaken
  obtain ⟨more, hmore⟩ := hgrows (t.add data).1 _ (by rw [data?_add, if_pos rfl])
  obtain ⟨label', hlabel', hasked⟩ := h _ _ hmore
  have hcontainer' := hcontainer.grows ((Grows.add t data).trans hgrows)
  obtain ⟨before, hbefore⟩ := Key.exists_path_within outer? data.kind
  obtain ⟨n, hnumber⟩ := exists_number_of_hasKey htaken
  refine hlabel.ne_numbered hlabel' n (String.append_right_inj before |>.mp ?_)
  calc before ++ label' = (Key.within outer? data.kind label').path := (hbefore label').symm
    _ = (t.freshKey data.key).path :=
    congrArg Key.path (hasked.trans (hcontainer'.childKey_eq ..)).symm
    _ = data.key.path ++ "#" ++ toString n := hnumber
    _ = before ++ (label ++ "#" ++ toString n) := by
      rw [hkey, hbefore]
      simp only [String.append_assoc]

end SymbolTable

end AutoProperty
