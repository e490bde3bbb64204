import AutoProperty.Proofs.Symbol.Images

/-! # Tables that mirror each other

Two tables may number their symbols differently and still mean the same: each symbol has a
mirror image under its key. What is looked up in one table is then the mirror image of what is
looked up in the other one.
-/

namespace AutoProperty

namespace SymbolTable

/-- What two symbols of the same key have in common. -/
structure Twin (t u : SymbolTable) (data data' : SymbolData) : Prop where
  name : data'.name = data.name
  typeName? : data'.typeName? = data.typeName?
  arity : data'.arity = data.arity
  container : Option.Rel (SameKey t u) data.container? data'.container?
  declarations : data.kind.isSingle → data'.declarations = data.declarations

/-- All symbols of either table but the locals have mirror images in the other one, and mirror
images are alike. -/
structure Mirrors (t u : SymbolTable) : Prop where
  forth : ∀ i data, t.data? i = some data → data.kind ≠ .localVariable → ∃ j, SameKey t u i j
  back : ∀ j data, u.data? j = some data → data.kind ≠ .localVariable → ∃ i, SameKey t u i j
  twin : ∀ i j data data', t.data? i = some data → u.data? j = some data' → data'.key = data.key →
    Twin t u data data'

namespace Mirrors

variable {t u : SymbolTable} {i j : SymbolId} {i? j? : Option SymbolId}

theorem images (h : Mirrors t u) (ht : t.IsKeyed) (hu : u.IsKeyed) :
    Images (·.kind == .localVariable) t u where
  forth i data hdata hkey :=
    h.forth i data hdata fun heq => hkey (by rw [ht.kinds i data hdata, heq]; rfl)
  back j data hdata hkey :=
  h.back j data hdata fun heq => hkey (by rw [hu.kinds j data hdata, heq]; rfl)
  resembles i j data data' hdata hdata' hkey :=
    let htwin := h.twin i j data data' hdata hdata' hkey
    ⟨htwin.name, htwin.typeName?, htwin.arity, htwin.container⟩

/-- The data of a symbol and of its mirror image. -/
theorem exists_data (h : Mirrors t u) (ht : t.IsKeyed) (hu : u.IsKeyed) (hij : SameKey t u i j) :
    ∃ data data', t.data? i = some data ∧ u.data? j = some data' ∧ data'.key = data.key ∧
      data'.kind = data.kind ∧ Twin t u data data' := by
  obtain ⟨data, data', hdata, hdata', hkey, hkind, _⟩ := (h.images ht hu).exists_data ht hu hij
  exact ⟨data, data', hdata, hdata', hkey, hkind, h.twin i j data data' hdata hdata' hkey⟩

theorem ne_namedType_of_local (key : Key) (hkey : key.kind == .localVariable) :
    key.kind ≠ .namedType := by
  rw [eq_of_beq hkey]
  nofun

section Lookups

variable (h : Mirrors t u) (ht : t.IsKeyed) (hu : u.IsKeyed)
include h ht hu

theorem lookupMember (hij : SameKey t u i j) (name : String) (arity? : Option Nat) :
    Matched (SameKey t u) (t.lookupMember i name arity?) (u.lookupMember j name arity?) := by
  refine (h.images ht hu).lookupMember ht hu hij name arity? ?_
    (clear_members hu (fun _ => eq_of_beq) j)
  exact (clear_members ht (fun _ => eq_of_beq) i).of_subset (t.lookupMember_subset i name arity?)

/-- A written type means mirror images, seen from mirror images. -/
theorem resolveType? (text : String) (hij : Option.Rel (SameKey t u) i? j?) :
    Option.Rel (SameKey t u) (t.resolveType? text i?) (u.resolveType? text j?) :=
  (h.images ht hu).resolveType? ht hu ne_namedType_of_local text hij

theorem typeOfSymbol? (hij : SameKey t u i j) :
    Option.Rel (SameKey t u) (t.typeOfSymbol? i) (u.typeOfSymbol? j) :=
  (h.images ht hu).typeOfSymbol? ht hu ne_namedType_of_local hij

/-- Alike expressions have mirrored types if the names in them are bound alike. -/
theorem typeOf? {leaf : PlacedToken → PlacedToken → Prop} {node : Nat → Nat → Prop}
    (hleaf : KeepsTokens leaf) {document document' : DocumentId}
    (hbound : ∀ a a', leaf a a' →
      Option.Rel (SameKey t u) (t.single? ⟨document, a.index⟩) (u.single? ⟨document', a'.index⟩))
    (hthis : Option.Rel (SameKey t u) i? j?) (depth : Nat) {n n' : PlacedNode}
    (ha : n.Alike leaf node n') :
    Option.Rel (SameKey t u) (t.typeOf? document i? depth n) (u.typeOf? document' j? depth n') := by
  refine rel_typeOf? hleaf (fun _ => True) (fun _ _ _ _ _ => trivial) (fun a a' haa => ?_)
    (fun n n' _ _ ha => ?_)
    hthis depth trivial ha
  · exact rel_bind (fun _ _ hab => h.typeOfSymbol? ht hu hab) (hbound a a' haa)
  · exact rel_bind (fun _ _ ha => rel_bind hbound (ha.lastIdentifier? hleaf)) ha.type?

end Lookups

end Mirrors

end SymbolTable

end AutoProperty
