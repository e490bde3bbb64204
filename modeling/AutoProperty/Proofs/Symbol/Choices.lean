import AutoProperty.Proofs.Symbol.Counterparts
import AutoProperty.Proofs.Symbol.Images
import AutoProperty.Proofs.Symbol.Tracing

/-! # What names may mean

A name means at most one symbol, or members of one type that have one name. So a member whose
name no other member of its type has is never one of several that a name may mean.
-/

namespace AutoProperty

namespace SymbolTable

variable {t u : SymbolTable} {ids : List SymbolId}

/-- The type has the symbol under the name, as a member or as a nested type. -/
def HasMember (t : SymbolTable) (type : SymbolId) (name : String) (id : SymbolId) : Prop :=
  ∃ data, t.data? id = some data ∧ data.container? = some type ∧ data.name = name ∧
    (data.kind.isMember ∨ data.kind = .namedType)

theorem HasMember.grows {type id : SymbolId} {name : String} (h : t.HasMember type name id)
    (hgrows : Grows t u) : u.HasMember type name id := by
  obtain ⟨data, hdata, hcontainer, hname, hkind⟩ := h
  obtain ⟨more, hmore⟩ := hgrows id data hdata
  exact ⟨_, hmore, hcontainer, hname, hkind⟩

theorem hasMember_of_mem_membersNamed {type id : SymbolId} {name : String}
    (h : id ∈ t.membersNamed type name) : t.HasMember type name id := by
  obtain ⟨hmember, hname⟩ := List.mem_filter.mp h
  obtain ⟨data, hdata, hname⟩ := (Option.any_eq_true ..).mp hname
  obtain ⟨_, _, data', hdata', hcontainer, hlisted⟩ := mem_members.mp hmember
  obtain rfl := Option.some.inj (hdata.symm.trans hdata')
  exact ⟨data, hdata, hcontainer, eq_of_beq hname, SymbolData.isListed_iff.mp hlisted⟩

def IsChoice (t : SymbolTable) (ids : List SymbolId) : Prop :=
  ids.Nodup ∧ (ids.length ≤ 1 ∨ ∃ type name, ∀ id ∈ ids, t.HasMember type name id)

theorem IsChoice.grows (h : t.IsChoice ids) (hgrows : Grows t u) : u.IsChoice ids :=
  ⟨h.1,
    h.2.imp_right fun ⟨type, name, hall⟩ => ⟨type, name, fun id hid => (hall id hid).grows hgrows⟩⟩

theorem Candidates.isChoice (h : t.Candidates ids) : t.IsChoice ids :=
  ⟨h.nodup,
    h.alike.imp_right fun ⟨type, name, hall⟩ =>
      ⟨type, name, fun _ hid => hasMember_of_mem_membersNamed (hall hid)⟩⟩

/-- Each name that is bound may mean all that it is bound to. -/
def HasChoices (t : SymbolTable) : Prop :=
  ∀ e ∈ t.bindings, t.IsChoice e.2

theorem HasChoices.grows (h : t.HasChoices) (hgrows : Grows t u)
    (hbindings : u.bindings = t.bindings) : u.HasChoices :=
  fun e he => (h e (hbindings ▸ he)).grows hgrows

/-- A name with a single choice of meanings keeps the choices disjoint. -/
theorem HasChoices.bind (h : t.HasChoices) (place : Place) (hids : t.IsChoice ids) :
    (t.bind place ids).HasChoices := by
  have hgrows := Grows.bind t place ids
  intro e he
  refine IsChoice.grows ?_ hgrows
  rw [SymbolTable.bind] at he
  split at he
  · exact h e he
  · obtain rfl | he := List.mem_cons.mp he
    · exact hids
    · exact h e he

end SymbolTable

namespace Binding

/-- Binding keeps it so. -/
theorem hasChoices_traces (ctx : BodyContext) (ps : List Placed) :
    Traces ctx ps fun s s' => s.table.HasChoices → s'.table.HasChoices where
  refl _ h := h
  trans h h' hs := h' (h hs)
  frame h := h
  record _ _ hids h := h.bind _ hids.isChoice
  declareLocal type s _ _ _ h := by
    rw [declareLocal_run]
    split
    next => exact h.grows ((SymbolTable.Grows.add _ _).trans (.declare _ _ _)) rfl
    next => exact h

end Binding

namespace SymbolTable

mutual

/-- Binding a member keeps every name at one choice of meanings. -/
theorem hasChoices_bindElement (t : SymbolTable) (h : t.HasChoices) (document : DocumentId)
    (type? : Option SymbolId) (p : Placed) : (t.bindElement document type? p).HasChoices := by
  cases p with
  | token _ => exact h
  | node info children =>
    let n : PlacedNode := ⟨info, children⟩
    rw [show Placed.node info children = n.placed from rfl]
    by_cases hparts : info.kind.hasParts
    · rw [bindElement_member t type? (show n.kind.hasParts from hparts)]
      have htraces := Binding.traces_memberParts fun b =>
        Binding.hasChoices_traces ((t.memberContext document type? n).assigning b) [n.placed]
      exact htraces { table := t, scopes := t.memberScopes document n } h
    by_cases hscope : info.kind.isScope
    · rw [bindElement_scope t type? (show n.kind.isScope from hscope)]
      exact hasChoices_bindAll t h document _ children
    · rw [bindElement_other t type? (show ¬n.kind.isScope from hscope) hparts]
      exact h

theorem hasChoices_bindAll (t : SymbolTable) (h : t.HasChoices) (document : DocumentId)
    (type? : Option SymbolId) (ps : List Placed) : (t.bindAll document type? ps).HasChoices := by
  cases ps with
  | nil => exact h
  | cons p rest =>
    rw [bindAll]
    exact hasChoices_bindAll _ (hasChoices_bindElement t h document type? p) document type? rest

end

theorem hasChoices_build (documents : List (DocumentId × Tree)) : (build documents).HasChoices := by
  rw [build_eq]
  refine List.foldlRecOn documents _ ?_ fun t ht d _ => hasChoices_bindAll t ht d.1 none _
  intro e he
  rw [bindings_declareDocuments] at he
  exact absurd he List.not_mem_nil

/-- A member whose name no other member of its type has is all that a name means that may mean
it. -/
theorem bound_eq_singleton {documents : List (DocumentId × Tree)} {id type : SymbolId}
    {name : String} (hmember : (build documents).HasMember type name id)
    (honly : ∀ other, (build documents).HasMember type name other → other = id) {place : Place}
    (hbound : id ∈ (build documents).bound place) : (build documents).bound place = [id] := by
  rw [bound] at hbound ⊢
  cases hlookup : (build documents).bindings.lookup place with
  | none =>
    rw [hlookup] at hbound
    exact absurd hbound List.not_mem_nil
  | some ids =>
    rw [hlookup, Option.getD_some] at hbound
    rw [Option.getD_some]
    obtain ⟨before, after, hbindings, _⟩ := List.lookup_eq_some_iff.mp hlookup
    have hchoice : (build documents).IsChoice ids :=
      hasChoices_build documents (place, ids)
        (hbindings ▸ List.mem_append_right _ List.mem_cons_self)
    -- All that the name means is the one member, and it is not named twice.
    suffices hall : ∀ other ∈ ids, other = id from
      List.perm_singleton.mp
        ((List.perm_ext_iff_of_nodup hchoice.1 (List.nodup_singleton id)).mpr fun other =>
          ⟨fun hother => List.mem_singleton.mpr (hall other hother),
            fun hother => List.mem_singleton.mp hother ▸ hbound⟩)
    obtain hlength | ⟨type', name', hall⟩ := hchoice.2
    · intro other hother
      obtain ⟨only, rfl⟩ :=
        List.length_eq_one_iff.mp (Nat.le_antisymm hlength (List.length_pos_of_mem hbound))
      rw [List.mem_singleton.mp hother, List.mem_singleton.mp hbound]
    · obtain ⟨data, hdata, hcontainer, hname, _⟩ := hmember
      obtain ⟨data', hdata', hcontainer', hname', _⟩ := hall id hbound
      obtain rfl := Option.some.inj (hdata.symm.trans hdata')
      obtain rfl := Option.some.inj (hcontainer.symm.trans hcontainer')
      obtain rfl := hname.symm.trans hname'
      exact fun other hother => honly other (hall other hother)

/-! ## Two members of one type -/

/-- A field and a property are members of one type and have the same written type, and no other
member of the type goes by the name of either. -/
structure Joint (t : SymbolTable) (type i j : SymbolId) (field property : SymbolData) : Prop where
  isField : t.data? i = some field
  isProperty : t.data? j = some property
  kinds : field.kind = .field ∧ property.kind = .property
  containers : field.container? = some type ∧ property.container? = some type
  typeName? : property.typeName? = field.typeName?
  names : field.name ≠ property.name
  onlyField {other : SymbolId} : t.HasMember type field.name other → other = i
  onlyProperty {other : SymbolId} : t.HasMember type property.name other → other = j

/-- All members are there after the first pass. -/
theorem hasMember_build_iff {documents : List (DocumentId × Tree)} {type id : SymbolId}
    {name : String} :
    (build documents).HasMember type name id ↔
      (declareDocuments documents).HasMember type name id := by
  refine exists_congr fun data => ?_
  by_cases hkind : data.kind = .localVariable
  · have hnot : ¬(data.kind.isMember ∨ data.kind = .namedType) := by
      rw [hkind]
      decide
    exact iff_of_false (fun h => hnot h.2.2.2) fun h => hnot h.2.2.2
  · rw [data?_build_iff hkind]

theorem Counterparts.hasMember_iff {type id : SymbolId} {name : String}
    (h : Counterparts True t u) : u.HasMember type name id ↔ t.HasMember type name id := by
  rw [HasMember, HasMember]
  obtain ⟨hnone, hnone'⟩ | ⟨data, data', hdata, hdata', hsame⟩ := rel_cases (h.data? id)
  · simp [hnone, hnone']
  · simp [hdata, hdata', hsame.container?, hsame.kind, (hsame.same (.inl trivial)).2]

/-- A symbol has its key where the same symbols are declared. -/
theorem Counterparts.sameKey (h : Counterparts True t u) {id : SymbolId}
    (hlt : id.index < t.symbols.length) : SameKey t u id id := by
  have hdata : t.data? id = some t.symbols[id.index] := List.getElem?_eq_getElem hlt
  obtain ⟨hnone, _⟩ | ⟨_, _, hsome, hdata', hsame⟩ := rel_cases (h.data? id)
  · rw [hdata] at hnone
    cases hnone
  · obtain rfl := Option.some.inj (hdata.symm.trans hsome)
    exact ⟨_, ⟨_, hdata, rfl⟩, _, hdata', (hsame.same (.inl trivial)).1⟩

namespace Joint

variable {documents : List (DocumentId × Tree)} {type i j : SymbolId} {field property : SymbolData}

/-- Where the same symbols are declared, the members are the same. -/
theorem counterparts (h : Joint t type i j field property) (hu : Counterparts True t u) :
    ∃ field' property', Joint u type i j field' property' ∧ Counterpart True field field' ∧
      Counterpart True property property' := by
  obtain ⟨hnone, _⟩ | ⟨_, field', hfield, hfield', hsame⟩ := rel_cases (hu.data? i)
  · rw [h.isField] at hnone
    cases hnone
  obtain ⟨hnone, _⟩ | ⟨_, property', hproperty, hproperty', hsame'⟩ := rel_cases (hu.data? j)
  · rw [h.isProperty] at hnone
    cases hnone
  obtain rfl := Option.some.inj (h.isField.symm.trans hfield)
  obtain rfl := Option.some.inj (h.isProperty.symm.trans hproperty)
  have hname := (hsame.same (.inl trivial)).2
  have hname' := (hsame'.same (.inl trivial)).2
  refine ⟨field', property',
    ⟨hfield', hproperty', ⟨hsame.kind.trans h.kinds.1, hsame'.kind.trans h.kinds.2⟩,
    ⟨hsame.container?.trans h.containers.1, hsame'.container?.trans h.containers.2⟩, ?_, ?_,
    fun hother => ?_, fun hother => ?_⟩, hsame, hsame'⟩
  · rw [hsame.typeName? (by rw [h.kinds.1]; decide), hsame'.typeName? (by rw [h.kinds.2]; decide),
      h.typeName?]
  · rw [hname, hname']
    exact h.names
  · rw [hname] at hother
    exact h.onlyField (hu.hasMember_iff.mp hother)
  · rw [hname'] at hother
    exact h.onlyProperty (hu.hasMember_iff.mp hother)

theorem type_lt (h : Joint t type i j field property) (hlayered : t.IsLayered) :
    type.index < t.symbols.length :=
  Nat.lt_trans (hlayered i field h.isField type h.containers.1)
    (List.getElem?_eq_some_iff.mp h.isField).1

variable (h : Joint (declareDocuments documents) type i j field property) {place : Place}
include h

/-- A name that may mean the field means nothing else. -/
theorem bound_field (hbound : i ∈ (build documents).bound place) :
    (build documents).bound place = [i] :=
  bound_eq_singleton
    (hasMember_build_iff.mpr ⟨field, h.isField, h.containers.1, rfl, .inl (by rw [h.kinds.1]; rfl)⟩)
    (fun _ hother => h.onlyField (hasMember_build_iff.mp hother)) hbound

/-- A name that may mean the property means nothing else. -/
theorem bound_property (hbound : j ∈ (build documents).bound place) :
    (build documents).bound place = [j] :=
  bound_eq_singleton
    (hasMember_build_iff.mpr ⟨property, h.isProperty, h.containers.2, rfl,
      .inl (by rw [h.kinds.2]; rfl)⟩)
    (fun _ hother => h.onlyProperty (hasMember_build_iff.mp hother)) hbound

end Joint

end SymbolTable

end AutoProperty
