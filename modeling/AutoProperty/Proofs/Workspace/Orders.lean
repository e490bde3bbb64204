import AutoProperty.Proofs.Symbol.Reordering
import AutoProperty.Proofs.Workspace.Compilations

/-! # The order of the documents

It does not matter in which order the documents of a project are bound. Other orders number the
symbols otherwise, but they go by the same keys, and every name means the symbols of the same
keys.
-/

namespace AutoProperty

/-- What is known of a symbol in every order: its key, its kind, its name, its type and the
number of its parameters. -/
def Symbol.traits (s : Symbol) : Key × SymbolKind × String × Option String × Nat :=
  (s.key, s.kind, s.name, s.data.typeName?, s.data.arity)

namespace Compilation

open SymbolTable

variable {c c' : Compilation}

theorem nodup_map_traits (h : c.table.KeysNodup) : (c.symbols.map Symbol.traits).Nodup := by
  have hkeys : (c.symbols.map Symbol.traits).map Prod.fst =
      (c.table.symbols.zipIdx.map Prod.fst).map SymbolData.key := by
    rw [symbols, List.map_map, List.map_map, List.map_map]
    rfl
  rw [List.zipIdx_map_fst] at hkeys
  exact List.Nodup.of_map Prod.fst (hkeys ▸ h)

/-- The keys of the symbols that a token refers to. -/
theorem map_key_boundAt (c : Compilation) (document : DocumentId) (index : Nat) :
    (c.boundAt document index).map Symbol.key = (c.table.bound ⟨document, index⟩).filterMap
      fun id => (c.table.data? id).map (·.key) := by
  rw [boundAt, List.map_filterMap]
  refine List.filterMap_congr fun id _ => ?_
  rw [symbol?, Option.map_map]
  rfl

theorem mem_map_key_boundAt {document : DocumentId} {index : Nat} {key : Key} :
    key ∈ (c.boundAt document index).map Symbol.key ↔
      ∃ id ∈ c.table.bound ⟨document, index⟩, c.table.Keyed id key := by
  rw [map_key_boundAt, List.mem_filterMap]
  simp only [Option.map_eq_some_iff, Keyed]

theorem nodup_map_key_boundAt (hkeys : c.table.KeysNodup) (honce : c.table.BindsOnce)
    (document : DocumentId) (index : Nat) : ((c.boundAt document index).map Symbol.key).Nodup := by
  rw [map_key_boundAt]
  refine (honce.nodup_bound _).filterMap fun i j key hi hj => ?_
  exact hkeys.eq_of_keyed (Option.map_eq_some_iff.mp hi) (Option.map_eq_some_iff.mp hj)

/-- Tokens that mean symbols with the same keys mean them as often. -/
theorem perm_map_key_boundAt (hkeys : c.table.KeysNodup) (hkeys' : c'.table.KeysNodup)
    (honce : c.table.BindsOnce) (honce' : c'.table.BindsOnce) {document document' : DocumentId}
    {index index' : Nat}
    (h : Matched (SameKey c.table c'.table) (c.table.bound ⟨document, index⟩)
      (c'.table.bound ⟨document', index'⟩)) :
    ((c'.boundAt document' index').map Symbol.key).Perm
      ((c.boundAt document index).map Symbol.key) := by
  refine (List.perm_ext_iff_of_nodup (nodup_map_key_boundAt hkeys' honce' ..)
    (nodup_map_key_boundAt hkeys honce ..)).mpr fun key => ?_
  rw [mem_map_key_boundAt, mem_map_key_boundAt]
  constructor
  · rintro ⟨j, hj, hkey⟩
    obtain ⟨i, hi, key', hkey', himage⟩ := h.2 j hj
    exact ⟨i, hi, hkey.eq himage ▸ hkey'⟩
  · rintro ⟨i, hi, hkey⟩
    obtain ⟨j, hj, key', hkey', himage⟩ := h.1 i hi
    exact ⟨j, hj, hkey.eq hkey' ▸ himage⟩

namespace IsBuilt

theorem reorders (h : c.IsBuilt) (hparsed : AllParsed c.documents)
    (hperm : c'.documents.Perm c.documents) (hunnumbered : c.table.IsUnnumbered)
    (hapart : c.table.PathsApart) : Reorders c'.documents c.documents where
  perm := hperm
  conforms := hparsed.conforms
  words := hparsed.hasWords
  nodup := h.nodup
  unnumbered := h.table ▸ hunnumbered
  apart := h.table ▸ hapart

/-- In whatever order the documents are bound, there are the same symbols, and every token means
the same ones. -/
theorem order_irrelevant (h : c.IsBuilt) (h' : c'.IsBuilt) (hparsed : AllParsed c.documents)
    (hperm : c'.documents.Perm c.documents) (hunnumbered : c.table.IsUnnumbered)
    (hapart : c.table.PathsApart) :
    (c'.symbols.map Symbol.traits).Perm (c.symbols.map Symbol.traits) ∧ ∀ document index,
      ((c'.boundAt document index).map Symbol.key).Perm
        ((c.boundAt document index).map Symbol.key) := by
  have hr := h.reorders hparsed hperm hunnumbered hapart
  have hcoherent : Coherent c.documents _ c.table := h.table ▸ hr.coherent
  have hcoherent' : Coherent c'.documents _ c'.table := h'.table ▸ hr.symm.coherent
  constructor
  · have hsubset {d d' : Compilation} (hd : d.IsBuilt) (hd' : d'.IsBuilt)
        (hr : Reorders d.documents d'.documents) :
        d.symbols.map Symbol.traits ⊆ d'.symbols.map Symbol.traits := by
      intro traits htraits
      obtain ⟨s, hs, rfl⟩ := List.mem_map.mp htraits
      obtain ⟨_, hdata⟩ := mem_symbols.mp hs
      obtain ⟨j, data', hj, hkey, hkind, htwin⟩ := hr.exists_image (hd.table ▸ hdata)
      refine List.mem_map.mpr ⟨⟨d'.id, j, data'⟩, mem_symbols.mpr ⟨rfl, hd'.table ▸ hj⟩, ?_⟩
      simp only [Symbol.traits, Symbol.key, Symbol.kind, Symbol.name, hkey, hkind, htwin.name,
        htwin.typeName?, htwin.arity]
    refine (List.perm_ext_iff_of_nodup (nodup_map_traits hcoherent'.keys)
      (nodup_map_traits hcoherent.keys)).mpr fun traits => ?_
    exact ⟨fun htraits => hsubset h' h hr htraits, fun htraits => hsubset h h' hr.symm htraits⟩
  · intro document index
    have hmatched := hr.matched_bound ⟨document, index⟩
    rw [← h.table, ← h'.table] at hmatched
    exact (perm_map_key_boundAt hcoherent'.keys hcoherent.keys hcoherent'.bindsOnce
      hcoherent.bindsOnce hmatched).symm

end IsBuilt

/-- The type in two parts is the same with its parts the other way round. Its symbols come in
another order, so the field is another number in the table, but it has its key, and the name in
the method means it. -/
theorem IsBuilt.order_irrelevant_use :
    let c := build ⟨0⟩ ⟨0⟩ twoParts
    let c' := build ⟨1⟩ ⟨0⟩ twoParts.reverse
    (c'.symbols.map Symbol.traits).Perm (c.symbols.map Symbol.traits) ∧
      c'.symbols.map (·.key.display) = ["T:C", "M:C.M(1)", "A:C.M(1).p", "F:C.a", "L:C.M(1).x#0"] ∧
      c.symbols.map (·.key.display) = ["T:C", "F:C.a", "M:C.M(1)", "A:C.M(1).p", "L:C.M(1).x#0"] ∧
      (∀ document index,
        ((c'.boundAt document index).map Symbol.key).Perm
          ((c.boundAt document index).map Symbol.key)) ∧
      c'.table.bindings = [(⟨⟨1⟩, 16⟩, [⟨4⟩]), (⟨⟨1⟩, 13⟩, [⟨3⟩])] ∧
      c.table.bindings = [(⟨⟨1⟩, 16⟩, [⟨4⟩]), (⟨⟨1⟩, 13⟩, [⟨1⟩])] ∧
      (c'.boundAt ⟨1⟩ 13).map (·.key.display) = ["F:C.a"] := by
  intro c c'
  have hbuilt : c'.IsBuilt := ⟨rfl, by decide⟩
  have hunnumbered : c.table.IsUnnumbered := .of_labels (by decide +kernel)
  have hapart : c.table.PathsApart := SymbolTable.pathsApart_iff.mpr (by decide +kernel)
  obtain ⟨hsymbols, hbound⟩ :=
    IsBuilt.order_irrelevant isBuilt_twoParts hbuilt allParsed_twoParts (List.reverse_perm _)
      hunnumbered hapart
  exact ⟨hsymbols, by decide +kernel, by decide +kernel, hbound, by decide +kernel, by
      decide +kernel, by decide +kernel⟩

end Compilation

end AutoProperty
