import AutoProperty.Proofs.Symbol.Coherence
import AutoProperty.Proofs.Symbol.Entries
import AutoProperty.Proofs.Symbol.Mirrors

/-! # The order of declarations

Two tables that are described by the same entries mirror each other. So it does not matter in
which order the documents of a project are declared, if no key had to be numbered and no path
names both a type and a namespace.
-/

namespace AutoProperty

/-- The path of a container can be read off the keys in it. -/
theorem Key.path_eq_of_within_eq {outer? outer?' : Option Key} {kind : SymbolKind} {label : String}
    (h : within outer? kind label = within outer?' kind label)
    (hpath : ∀ key ∈ outer?, key.path ≠ "") (hpath' : ∀ key ∈ outer?', key.path ≠ "") :
    outer?.map (·.path) = outer?'.map (·.path) := by
  have hinside {key : Key} (hpath : key.path ≠ "") : (key.child kind label).path = key.path ++
      "." ++ label := by
    rw [child, if_neg (by simpa using hpath)]
  have hlonger {key : Key} (hpath : key.path ≠ "") : (key.child kind label).path ≠ label := by
    intro heq
    have hlength := congrArg String.length heq
    simp only [hinside hpath, String.length_append, show ".".length = 1 from rfl] at hlength
    omega
  have heq := congrArg Key.path h
  cases outer? with
  | none =>
    cases outer?' with
    | none => rfl
    | some key' => exact absurd heq.symm (hlonger (hpath' key' rfl))
  | some key =>
    cases outer?' with
    | none => exact absurd heq (hlonger (hpath key rfl))
    | some key' =>
      simp only [within, hinside (hpath key rfl), hinside (hpath' key' rfl), String.append_left_inj]
        at heq
      simp [heq]

theorem SymbolKind.eq_of_not_isSingle {kind : SymbolKind} (h : ¬kind.isSingle) :
    kind = .nameSpace ∨ kind = .namedType := by
  rw [isSingle, not_and_or, not_not, not_not] at h
  exact h

namespace SymbolTable

def PathsApart (t : SymbolTable) : Prop :=
  ∀ i j data data', t.data? i = some data → t.data? j = some data' → data.kind = .namedType →
    data'.kind = .nameSpace →
    data.key.path ≠ data'.key.path

theorem pathsApart_iff {t : SymbolTable} :
    t.PathsApart ↔ ∀ a ∈ t.symbols, ∀ b ∈ t.symbols, a.kind = .namedType → b.kind = .nameSpace →
      a.key.path ≠ b.key.path := by
  constructor
  · intro h a ha b hb
    obtain ⟨i, hi⟩ := List.getElem?_of_mem ha
    obtain ⟨j, hj⟩ := List.getElem?_of_mem hb
    exact h ⟨i⟩ ⟨j⟩ a b hi hj
  · exact fun h i j a b hi hj => h a (List.mem_of_getElem? hi) b (List.mem_of_getElem? hj)

variable {t u : SymbolTable} {entries entries' : List Entry}
  {documents documents' : List (DocumentId × Tree)}

/-- Containers under one key are the same. -/
theorem HasKey?.sameKey {container? container?' : Option SymbolId} {outer? : Option Key}
    (h : t.HasKey? container? outer?) (h' : u.HasKey? container?' outer?) :
    Option.Rel (SameKey t u) container? container?' := by
  cases h with
  | none =>
    cases h'
    exact .none
  | some h =>
    cases h' with
    | some h' => exact .some ⟨_, h, h'⟩

/-- Only the outermost level has no path. -/
theorem Sound.path_ne (h : Sound documents t) {container? : Option SymbolId} {outer? : Option Key}
    (hcontainer : t.HasKey? container? outer?) : ∀ key ∈ outer?, key.path ≠ "" := by
  intro key hmem
  cases hcontainer with
  | none => cases hmem
  | some hkeyed =>
    obtain rfl := Option.some.inj hmem
    obtain ⟨outer, houter, rfl⟩ := hkeyed
    exact h.paths _ outer houter

namespace Describes

/-- A symbol has an image in every table that is described by the same entries. -/
theorem exists_sameKey (h : Describes entries t) (h' : Describes entries' u)
    (hsubset : entries ⊆ entries') {id : SymbolId} {data : SymbolData}
    (hdata : t.data? id = some data) : ∃ j, SameKey t u id j := by
  by_cases hsingle : data.kind.isSingle
  · obtain ⟨outer?, entry, hmem, hmatches⟩ := (h.entered id data hdata).1 hsingle
    obtain ⟨j, data', hdata', hmatches'⟩ := h'.has _ (hsubset hmem)
    exact ⟨j, data.key, ⟨data, hdata, rfl⟩, data', hdata',
      hmatches'.key_eq.trans hmatches.key_eq.symm⟩
  · obtain ⟨j, hj⟩ := h'.has _ (hsubset ((h.entered id data hdata).2 hsingle).1)
    exact ⟨j, data.key, ⟨data, hdata, rfl⟩, hj⟩

theorem exists_noted (h : Describes entries t) (h' : Describes entries' u)
    (hsubset : entries ⊆ entries') {place : Place} {id : SymbolId}
    (hmem : (place, id) ∈ t.declared) : ∃ j, (place, j) ∈ u.declared ∧ SameKey t u id j := by
  obtain ⟨key, hentry, hkey⟩ := h.noted place id hmem
  obtain ⟨j, hj, hkey'⟩ := h'.has _ (hsubset hentry)
  exact ⟨j, hj, key, hkey, hkey'⟩

/-- The same nodes declare the same symbols. -/
theorem rel_declared? (h : Describes entries t) (h' : Describes entries' u)
    (hperm : entries.Perm entries') (honce : (t.declared.map (·.1)).Nodup)
    (honce' : (u.declared.map (·.1)).Nodup) (place : Place) :
    Option.Rel (SameKey t u) (t.declared? place) (u.declared? place) := by
  cases hfound : t.declared? place with
  | some i =>
    obtain ⟨j, hj, hij⟩ := h.exists_noted h' hperm.subset (mem_declared_of_declared? hfound)
    rw [show u.declared? place = some j from lookup_of_mem honce' hj]
    exact .some hij
  | none =>
    cases hfound' : u.declared? place with
    | none => exact .none
    | some j =>
      obtain ⟨i, hi, _⟩ := h'.exists_noted h hperm.symm.subset (mem_declared_of_declared? hfound')
      rw [show t.declared? place = some i from lookup_of_mem honce hi] at hfound
      cases hfound

/-- A member or a parameter and its image are told of by one entry. -/
theorem twin_of_isSingle (h : Describes entries t) (h' : Describes entries' u)
    (hsubset : entries ⊆ entries') (hs : Sound documents t) (hs' : Sound documents' u)
    {i j : SymbolId} {data data' : SymbolData} (hdata : t.data? i = some data)
    (hdata' : u.data? j = some data') (hkey : data'.key = data.key) (hsingle : data.kind.isSingle) :
    Twin t u data data' := by
  obtain ⟨outer?, entry, hmem, hmatches⟩ := (h.entered i data hdata).1 hsingle
  obtain ⟨j', data₂, hdata₂, hmatches'⟩ := h'.has _ (hsubset hmem)
  obtain rfl : j' = j :=
    hs'.keys.eq_of_keyed ⟨data₂, hdata₂, hmatches'.key_eq⟩
      ⟨data', hdata', hkey.trans hmatches.key_eq⟩
  obtain rfl := Option.some.inj (hdata'.symm.trans hdata₂)
  obtain ⟨more, hsame⟩ := hmatches.same
  obtain ⟨more', hsame'⟩ := hmatches'.same
  refine ⟨?_, ?_, ?_, hmatches.container.sameKey hmatches'.container, fun _ => ?_⟩
  · rw [hsame, hsame']
  · rw [hsame, hsame']
  · rw [hsame, hsame']
  · -- There is one declaration on either side, and that is the one in the entry.
    have hkind : data'.kind = data.kind := by rw [hsame, hsame']
    obtain ⟨d, hd, _⟩ := hs.single i data hdata hsingle
    obtain ⟨d', hd', _⟩ := hs'.single j' data' hdata' (hkind ▸ hsingle)
    obtain ⟨e, rest, hdeclared⟩ := List.exists_cons_of_ne_nil hmatches.declared
    have heq : data.declarations = entry.declarations ++ more := by rw [hsame]
    have heq' : data'.declarations = entry.declarations ++ more' := by rw [hsame']
    rw [hd, hdeclared] at heq
    rw [hd', hdeclared] at heq'
    rw [hd, hd', (List.cons.inj heq).1, (List.cons.inj heq').1]

/-- The key of a container of namespaces and types is known by its path, which names nothing
else. -/
theorem key_eq_of_path_eq (h : Describes entries t) (h' : Describes entries' u)
    (hsubset : entries ⊆ entries') (hs' : Sound documents' u) (hapart : u.PathsApart)
    {i j : SymbolId} {key key' : Key} (hi : t.Keyed i key) (hj : u.Keyed j key')
    (hkey : ¬key.kind.isSingle) (hkey' : ¬key'.kind.isSingle) (hpath : key.path = key'.path) :
    key = key' := by
  obtain ⟨outer, hdata, rfl⟩ := hi
  obtain ⟨i', key₂, ⟨_, hdata₂, rfl⟩, inner, hinner, hinnerKey⟩ := h.exists_sameKey h' hsubset hdata
  obtain rfl := Option.some.inj (hdata.symm.trans hdata₂)
  obtain ⟨outer', hdata', rfl⟩ := hj
  rw [← hinnerKey] at hkey hpath ⊢
  have hkinds := hs'.kinds i' inner hinner
  have hkinds' := hs'.kinds j outer' hdata'
  have hkind : inner.key.kind = outer'.key.kind := by
    obtain hspace | htype := SymbolKind.eq_of_not_isSingle hkey <;> obtain hspace' | htype' :=
      SymbolKind.eq_of_not_isSingle hkey'
    · rw [hspace, hspace']
    · exact absurd hpath.symm
        (hapart j i' outer' inner hdata' hinner (hkinds' ▸ htype') (hkinds ▸ hspace))
    · exact absurd hpath
        (hapart i' j inner outer' hinner hdata' (hkinds ▸ htype) (hkinds' ▸ hspace'))
    · rw [htype, htype']
  exact Key.eq_of_parts hkind hpath

/-- A namespace or a type and its image are known by their key alone. -/
theorem twin_of_not_isSingle (h : Describes entries t) (h' : Describes entries' u)
    (hsubset : entries ⊆ entries') (hs : Sound documents t) (hs' : Sound documents' u)
    (hwords : ∀ d ∈ documents, d.2.HasWords) (hwords' : ∀ d ∈ documents', d.2.HasWords)
    (hapart : u.PathsApart) {i j : SymbolId} {data data' : SymbolData}
    (hdata : t.data? i = some data) (hdata' : u.data? j = some data') (hkey : data'.key = data.key)
    (hsingle : ¬data.kind.isSingle) : Twin t u data data' := by
  have hkind : data'.kind = data.kind := by
    rw [← hs'.kinds j data' hdata', hkey, hs.kinds i data hdata]
  have hsingle' : ¬data'.kind.isSingle := hkind ▸ hsingle
  have hname : data'.name = data.name := by
    rw [hs'.name_eq hwords' hdata' hsingle', hkey, ← hs.name_eq hwords hdata hsingle]
  obtain ⟨_, outer?, hscope⟩ := (h.entered i data hdata).2 hsingle
  obtain ⟨_, outer?', hscope'⟩ := (h'.entered j data' hdata').2 hsingle'
  have hwithin : Key.within outer? data.kind data.name = Key.within outer?' data.kind
      data.name := by
    rw [← hscope.key, ← hkey, hscope'.key, hkind, hname]
  have hpaths :=
    Key.path_eq_of_within_eq hwithin (hs.path_ne hscope.container) (hs'.path_ne hscope'.container)
  have houter : outer? = outer?' := by
    obtain ⟨hcontainer, hkinds, _⟩ := hscope
    obtain ⟨hcontainer', hkinds', _⟩ := hscope'
    generalize data.container? = container? at hcontainer
    generalize data'.container? = container?' at hcontainer'
    cases hcontainer with
    | none =>
      cases hcontainer' with
      | none => rfl
      | some => cases hpaths
    | some hi =>
      cases hcontainer' with
      | none => cases hpaths
      | some hj =>
        exact congrArg
          some (h.key_eq_of_path_eq h' hsubset hs' hapart hi hj (hkinds _ rfl) (hkinds' _ rfl)
            (Option.some.inj hpaths))
  subst houter
  refine ⟨hname, ?_, ?_, hscope.container.sameKey hscope'.container, fun h => absurd h hsingle⟩
  · rw [hscope.typeName?, hscope'.typeName?]
  · rw [hscope.arity, hscope'.arity]

/-- Tables that are described by the same entries mirror each other. -/
theorem mirrors (h : Describes entries t) (h' : Describes entries' u)
    (hperm : entries.Perm entries') (hs : Sound documents t) (hs' : Sound documents' u)
    (hwords : ∀ d ∈ documents, d.2.HasWords) (hwords' : ∀ d ∈ documents', d.2.HasWords)
    (hapart : u.PathsApart) : Mirrors t u where
  forth _ _ hdata _ := h.exists_sameKey h' hperm.subset hdata
  back _ _ hdata _ := by
    obtain ⟨i, hij⟩ := h'.exists_sameKey h hperm.symm.subset hdata
    exact ⟨i, hij.symm⟩
  twin i j data data' hdata hdata' hkey := by
    by_cases hsingle : data.kind.isSingle
    · exact h.twin_of_isSingle h' hperm.subset hs hs' hdata hdata' hkey hsingle
    · exact h.twin_of_not_isSingle h' hperm.subset hs hs' hwords hwords' hapart hdata hdata' hkey
        hsingle

end Describes

/-! ## Projects -/

/-- The second pass only adds locals. -/
theorem prefix_build (documents : List (DocumentId × Tree)) :
    (declareDocuments documents).symbols <+: (build documents).symbols := by
  obtain ⟨locals, hsymbols, _⟩ := symbols_build documents
  exact ⟨locals, hsymbols.symm⟩

theorem PathsApart.before (h : u.PathsApart) (hgrows : Grows t u) : t.PathsApart := by
  intro i j data data' hdata hdata' hkind hkind'
  obtain ⟨_, hmore⟩ := hgrows i data hdata
  obtain ⟨_, hmore'⟩ := hgrows j data' hdata'
  exact (h i j _ _ hmore hmore' hkind hkind' :)

variable (hperm : documents.Perm documents') (hunnumbered : (build documents').IsUnnumbered)
include hperm hunnumbered

/-- If no key is numbered in one order, the table of any other order is described by the same
entries. -/
theorem describes_reordered : Describes (Entry.ofDocuments documents) (declareDocuments documents) ∧
    Describes (Entry.ofDocuments documents') (declareDocuments documents') ∧
      (Entry.ofDocuments documents).Perm (Entry.ofDocuments documents') := by
  have hdescribes :=
    @describes_declareDocuments documents'
      (.inr ⟨_, hunnumbered, Grows.of_initial (prefix_build documents')⟩)
  have hentries : (Entry.ofDocuments documents).Perm (Entry.ofDocuments documents') :=
    hperm.flatMap_right _
  exact ⟨describes_declareDocuments (.inl (hdescribes.distinct.perm hentries)), hdescribes,
    hentries⟩

/-- In any order the same symbols are declared. -/
theorem mirrors_declareDocuments (hwords : ∀ d ∈ documents', d.2.HasWords)
    (hapart : (build documents').PathsApart) :
    Mirrors (declareDocuments documents) (declareDocuments documents') := by
  obtain ⟨hdescribes, hdescribes', hentries⟩ := describes_reordered hperm hunnumbered
  exact hdescribes.mirrors hdescribes' hentries (extends_declareDocuments documents).sound
    (extends_declareDocuments documents').sound (fun d hd => hwords d (hperm.subset hd)) hwords
    (hapart.before (.of_initial (prefix_build documents')))

/-- In any order they are declared by the same nodes. -/
theorem rel_declared?_declareDocuments (hnodup : (documents'.map (·.1)).Nodup) (place : Place) :
    Option.Rel (SameKey (declareDocuments documents) (declareDocuments documents'))
      ((declareDocuments documents).declared? place)
      ((declareDocuments documents').declared? place) := by
  obtain ⟨hdescribes, hdescribes', hentries⟩ := describes_reordered hperm hunnumbered
  exact hdescribes.rel_declared? hdescribes' hentries
    (nodup_declared ((hperm.map _).nodup_iff.mpr hnodup)) (nodup_declared hnodup) place

end SymbolTable

end AutoProperty
