import Mathlib.Data.List.Find
import AutoProperty.Proofs.Symbol.Numbering
import AutoProperty.Proofs.Symbol.WrittenTypes

/-! # Images of symbols

A symbol of one table has an image in another one: the symbol with its key. Some keys may be
gone from the second table. What is looked up in the first table is then matched by what is
looked up in the second one, unless it comes to a symbol that is gone.
-/

namespace AutoProperty

/-! ## Related lists -/

/-- Everything in either list is related to something in the other one. -/
def Matched {α β : Type} (r : α → β → Prop) (as : List α) (bs : List β) : Prop :=
  (∀ a ∈ as, ∃ b ∈ bs, r a b) ∧ ∀ b ∈ bs, ∃ a ∈ as, r a b

def onlyOne? {α : Type} : List α → Option α
  | [a] => some a
  | _ => none

namespace Matched

variable {α β : Type} {r : α → β → Prop} {as : List α} {bs : List β}

theorem nil : Matched r [] [] :=
  ⟨nofun, nofun⟩

theorem singleton {a : α} {b : β} (h : r a b) : Matched r [a] [b] :=
  ⟨List.forall_mem_singleton.mpr ⟨b, List.mem_singleton_self b, h⟩,
    List.forall_mem_singleton.mpr ⟨a, List.mem_singleton_self a, h⟩⟩

theorem toList {a? : Option α} {b? : Option β} (h : Option.Rel r a? b?) :
    Matched r a?.toList b?.toList := by
  cases h with
  | none => exact nil
  | some h => exact singleton h

theorem imp {r' : α → β → Prop} (hr : ∀ a b, r a b → r' a b) (h : Matched r as bs) :
    Matched r' as bs := by
  refine ⟨fun a ha => ?_, fun b hb => ?_⟩
  · obtain ⟨b, hb, hab⟩ := h.1 a ha
    exact ⟨b, hb, hr a b hab⟩
  · obtain ⟨a, ha, hab⟩ := h.2 b hb
    exact ⟨a, ha, hr a b hab⟩

/-- Matched lists are both empty, or neither is. -/
theorem isEmpty_eq (h : Matched r as bs) : bs.isEmpty = as.isEmpty := by
  cases as with
  | nil =>
    cases bs with
    | nil => rfl
    | cons b bs =>
      obtain ⟨_, hmem, _⟩ := h.2 b List.mem_cons_self
      cases hmem
  | cons a as =>
    obtain ⟨b, hmem, _⟩ := h.1 a List.mem_cons_self
    cases bs with
    | nil => cases hmem
    | cons => rfl

/-- Lists stay matched if the same elements are dropped from both. -/
theorem filter (h : Matched r as bs) {p : α → Bool} {q : β → Bool}
    (hpq : ∀ a b, r a b → q b = p a) : Matched r (as.filter p) (bs.filter q) := by
  refine ⟨fun a ha => ?_, fun b hb => ?_⟩
  · obtain ⟨ha, hp⟩ := List.mem_filter.mp ha
    obtain ⟨b, hb, hab⟩ := h.1 a ha
    exact ⟨b, List.mem_filter.mpr ⟨hb, (hpq a b hab).trans hp⟩, hab⟩
  · obtain ⟨hb, hq⟩ := List.mem_filter.mp hb
    obtain ⟨a, ha, hab⟩ := h.2 b hb
    exact ⟨a, List.mem_filter.mpr ⟨ha, (hpq a b hab).symm.trans hq⟩, hab⟩

/-- Where the relation pairs off what it relates, a list of one is matched by a list of one. -/
theorem rel_single (h : Matched r as bs) (hleft : ∀ a a' b, r a b → r a' b → a = a')
    (hright : ∀ a b b', r a b → r a b' → b = b') (has : as.Nodup) (hbs : bs.Nodup) :
    Option.Rel r (onlyOne? as) (onlyOne? bs) := by
  match as with
  | [] =>
    obtain rfl : bs = [] := List.isEmpty_iff.mp h.isEmpty_eq
    exact .none
  | [a] =>
    obtain ⟨b, hb, hab⟩ := h.1 a List.mem_cons_self
    have hall : ∀ c ∈ bs, c = b := by
      intro c hc
      obtain ⟨a', ha', hac⟩ := h.2 c hc
      obtain rfl := List.mem_singleton.mp ha'
      exact hright _ _ _ hac hab
    obtain rfl : bs = [b] :=
      List.perm_singleton.mp ((List.perm_ext_iff_of_nodup hbs (List.nodup_singleton b)).mpr fun c =>
      ⟨fun hc => List.mem_singleton.mpr (hall c hc), fun hc => List.mem_singleton.mp hc ▸ hb⟩)
    exact .some hab
  | a :: a' :: as =>
    match bs with
    | [] => exact absurd h.isEmpty_eq.symm Bool.false_ne_true
    | [b] =>
      have hall : ∀ c ∈ a :: a' :: as, r c b := by
        intro c hc
        obtain ⟨b', hb', hcb⟩ := h.1 c hc
        exact List.mem_singleton.mp hb' ▸ hcb
      have heq :=
        hleft _ _ _ (hall a List.mem_cons_self)
          (hall a' (List.mem_cons_of_mem _ List.mem_cons_self))
      exact absurd (heq ▸ List.mem_cons_self) (List.nodup_cons.mp has).1
    | _ :: _ :: _ => exact .none

end Matched

/-- The first results among related lists are related. -/
theorem rel_findSome? {α β γ δ : Type} {r : α → β → Prop} {r' : γ → δ → Prop} {f : α → Option γ}
    {g : β → Option δ} (hfg : ∀ a b, r a b → Option.Rel r' (f a) (g b)) {as : List α} {bs : List β}
    (h : List.Forall₂ r as bs) : Option.Rel r' (as.findSome? f) (bs.findSome? g) := by
  induction h with
  | nil => exact .none
  | @cons a b as bs hab _ ih =>
    rw [List.findSome?_cons, List.findSome?_cons]
    obtain ⟨hnone, hnone'⟩ | ⟨c, d, hc, hd, hcd⟩ := rel_cases (hfg a b hab)
    · rw [hnone, hnone']
      exact ih
    · rw [hc, hd]
      exact .some hcd

/-- The fronts of related lists are related. -/
theorem rel_takeWhile {α β : Type} {r : α → β → Prop} {p : α → Bool} {q : β → Bool}
    (hpq : ∀ a b, r a b → q b = p a) {as : List α} {bs : List β} (h : List.Forall₂ r as bs) :
    List.Forall₂ r (as.takeWhile p) (bs.takeWhile q) := by
  induction h with
  | nil => exact .nil
  | @cons a b as bs hab _ ih =>
    rw [List.takeWhile_cons, List.takeWhile_cons, hpq a b hab]
    split
    next => exact .cons hab ih
    next => exact .nil

theorem rel_or {α β : Type} {r : α → β → Prop} {a? a?' : Option α} {b? b?' : Option β}
    (h : Option.Rel r a? b?) (h' : Option.Rel r a?' b?') :
    Option.Rel r (a?.or a?') (b?.or b?') := by
  cases h with
  | none => exact h'
  | some h => exact .some h

theorem rel_imp {α β : Type} {r r' : α → β → Prop} (hr : ∀ a b, r a b → r' a b) {a? : Option α}
    {b? : Option β} (h : Option.Rel r a? b?) : Option.Rel r' a? b? := by
  cases h with
  | none => exact .none
  | some h => exact .some (hr _ _ h)

namespace SymbolTable

/-- A table in which keys tell the symbols apart, and containers come first. -/
structure IsKeyed (t : SymbolTable) : Prop where
  keys : t.KeysNodup
  kinds : ∀ id data, t.data? id = some data → data.key.kind = data.kind
  layered : t.IsLayered

/-- A name token that refers to one symbol. -/
theorem single?_eq (t : SymbolTable) (place : Place) :
    t.single? place = onlyOne? (t.bound place) := by
  rw [single?]
  rcases t.bound place with _ | ⟨_, _ | _⟩ <;> rfl

/-- A written type means a type from the inside outwards, then one at the outermost level, then
the only one of its name. -/
theorem resolveType?_eq (t : SymbolTable) (text : String) (from? : Option SymbolId) :
    t.resolveType? text from? =
    if (unmarked text).isEmpty || (unmarked text).getLast? == some ']' then none else
      ((t.outward from?).findSome? fun scope =>
        t.find? (t.childKey (some scope) .namedType (String.ofList (unmarked text)))).or
        ((t.find? ⟨.namedType, String.ofList (unmarked text)⟩).or
          (onlyOne? (t.typesNamed (simpleTypeName (unmarked text))))) := by
  simp only [resolveType?, Option.orElse_eq_orElse, Option.orElse_eq_or, unmarked]
  generalize t.typesNamed _ = named
  rcases named with _ | ⟨_, _ | _⟩ <;> rfl

theorem KeysNodup.eq_of_keyed {t : SymbolTable} (h : t.KeysNodup) {i j : SymbolId} {key : Key}
    (hi : t.Keyed i key) (hj : t.Keyed j key) : i = j := by
  obtain ⟨data, hdata, rfl⟩ := hi
  obtain ⟨data', hdata', heq⟩ := hj
  have hfind := h.find? hdata'
  rw [heq, h.find? hdata] at hfind
  exact Option.some.inj hfind

def SameKey (t u : SymbolTable) (i j : SymbolId) : Prop :=
  ∃ key, t.Keyed i key ∧ u.Keyed j key

namespace SameKey

variable {t t' u u' : SymbolTable} {i i' j j' : SymbolId}

theorem grows (h : SameKey t u i j) (ht : Grows t t') (hu : Grows u u') : SameKey t' u' i j := by
  obtain ⟨key, hi, hj⟩ := h
  exact ⟨key, hi.grows ht, hj.grows hu⟩

theorem left_unique (ht : t.KeysNodup) (h : SameKey t u i j) (h' : SameKey t u i' j) : i = i' := by
  obtain ⟨key, hi, hj⟩ := h
  obtain ⟨key', hi', hj'⟩ := h'
  obtain rfl := hj.eq hj'
  exact ht.eq_of_keyed hi hi'

theorem right_unique (hu : u.KeysNodup) (h : SameKey t u i j) (h' : SameKey t u i j') : j = j' := by
  obtain ⟨key, hi, hj⟩ := h
  obtain ⟨key', hi', hj'⟩ := h'
  obtain rfl := hi.eq hi'
  exact hu.eq_of_keyed hj hj'

theorem symm (h : SameKey t u i j) : SameKey u t j i := by
  obtain ⟨key, hi, hj⟩ := h
  exact ⟨key, hj, hi⟩

end SameKey

/-- The containers go by one key. -/
theorem exists_hasKey? {t t' : SymbolTable} {i? j? : Option SymbolId}
    (h : Option.Rel (SameKey t t') i? j?) :
    ∃ outer?, t.HasKey? i? outer? ∧ t'.HasKey? j? outer? := by
  cases h with
  | none => exact ⟨none, .none, .none⟩
  | some h =>
    obtain ⟨key, hi, hj⟩ := h
    exact ⟨some key, .some hi, .some hj⟩

/-- What two symbols of the same key have in common, wherever they are declared. -/
structure Resembles (t u : SymbolTable) (data data' : SymbolData) : Prop where
  name : data'.name = data.name
  typeName? : data'.typeName? = data.typeName?
  arity : data'.arity = data.arity
  container : Option.Rel (SameKey t u) data.container? data'.container?

theorem Resembles.grows {t t' u u' : SymbolTable} {data data' : SymbolData}
    (h : Resembles t u data data') (ht : Grows t t') (hu : Grows u u') :
    Resembles t' u' data data' :=
  ⟨h.name, h.typeName?, h.arity, rel_imp (fun _ _ hij => hij.grows ht hu) h.container⟩

def IsGone (gone : Key → Bool) (t : SymbolTable) (i : SymbolId) : Bool :=
  (t.data? i).any fun data => gone data.key

def Clear (gone : Key → Bool) (t : SymbolTable) (ids : List SymbolId) : Prop :=
  ∀ i ∈ ids, ¬t.IsGone gone i

/-- All symbols of either table but those that are gone have images in the other one, and images
resemble each other. -/
structure Images (gone : Key → Bool) (t u : SymbolTable) : Prop where
  forth : ∀ i data, t.data? i = some data → ¬gone data.key → ∃ j, SameKey t u i j
  back : ∀ j data, u.data? j = some data → ¬gone data.key → ∃ i, SameKey t u i j
  resembles : ∀ i j data data', t.data? i = some data → u.data? j = some data' →
    data'.key = data.key →
    Resembles t u data data'

variable {gone : Key → Bool} {t u : SymbolTable} {i j : SymbolId} {i? j? : Option SymbolId}

theorem isGone_eq {data : SymbolData} (hdata : t.data? i = some data) :
    t.IsGone gone i = gone data.key := by
  rw [IsGone, hdata, Option.any_some]

theorem SameKey.isGone_eq (h : SameKey t u i j) : u.IsGone gone j = t.IsGone gone i := by
  obtain ⟨_, ⟨data, hdata, rfl⟩, data', hdata', heq⟩ := h
  rw [SymbolTable.isGone_eq hdata, SymbolTable.isGone_eq hdata', heq]

/-- Looking up a member gives members only. -/
theorem lookupMember_subset (t : SymbolTable) (type : SymbolId) (name : String)
    (arity? : Option Nat) : t.lookupMember type name arity? ⊆ t.members type := by
  have hnamed : t.membersNamed type name ⊆ t.members type := List.filter_subset_self _
  cases arity? with
  | none => exact hnamed
  | some arity =>
    rw [lookupMember]
    split
    next => exact hnamed
    next => exact List.Subset.trans (List.filter_subset_self _) hnamed

def remaining (gone : Key → Bool) (t : SymbolTable) (ids : List SymbolId) : List SymbolId :=
  ids.filter fun i => !t.IsGone gone i

theorem mem_remaining {ids : List SymbolId} :
    i ∈ t.remaining gone ids ↔ i ∈ ids ∧ ¬t.IsGone gone i := by
  simp [remaining]

theorem Clear.remaining_eq {ids : List SymbolId} (h : t.Clear gone ids) :
    t.remaining gone ids = ids :=
  List.filter_eq_self.mpr fun i hi => by simpa using h i hi

theorem Clear.of_subset {ids ids' : List SymbolId} (h : t.Clear gone ids) (hsubset : ids' ⊆ ids) :
    t.Clear gone ids' :=
  fun i hi => h i (hsubset hi)

/-- Locals are not members. -/
theorem clear_members (ht : t.IsKeyed) (hlocal : ∀ key, gone key → key.kind = .localVariable)
    (i : SymbolId) : t.Clear gone (t.members i) := by
  intro k hk
  obtain ⟨_, _, data, hdata, _, hlisted⟩ := mem_members.mp hk
  rw [isGone_eq hdata]
  intro hgone
  have hkind : data.kind = .localVariable := (ht.kinds k data hdata).symm.trans (hlocal _ hgone)
  rw [SymbolData.isListed, hkind] at hlisted
  exact Bool.false_ne_true hlisted

theorem remaining_filter (t : SymbolTable) (p : SymbolId → Bool) (ids : List SymbolId) :
    t.remaining gone (ids.filter p) = (t.remaining gone ids).filter p :=
  List.filter_comm _ _ ids

def declaredType? (t : SymbolTable) (data : SymbolData) : Option SymbolId :=
  data.typeName?.bind fun written => t.resolveType? written
    ((t.outward data.container?).find? fun c => t.kind? c == some .namedType || t.kind? c ==
      some .nameSpace)

theorem typeOfSymbol?_eq {data : SymbolData} (hdata : t.data? i = some data)
    (hsingle : data.kind.isSingle) : t.typeOfSymbol? i = t.declaredType? data := by
  rw [typeOfSymbol?, hdata]
  simp only [Option.bind_eq_bind, Option.bind_some]
  split
  next heq => exact absurd heq hsingle.2
  next heq => exact absurd heq hsingle.1
  next => rfl

namespace Images

/-- The data of a symbol and of its image. -/
theorem exists_data (h : Images gone t u) (ht : t.IsKeyed) (hu : u.IsKeyed)
    (hij : SameKey t u i j) :
    ∃ data data', t.data? i = some data ∧ u.data? j = some data' ∧ data'.key = data.key ∧
      data'.kind = data.kind ∧ Resembles t u data data' := by
  obtain ⟨_, ⟨data, hdata, rfl⟩, data', hdata', heq⟩ := hij
  refine ⟨data, data', hdata, hdata', heq, ?_, h.resembles i j data data' hdata hdata' heq⟩
  rw [← hu.kinds j data' hdata', heq, ht.kinds i data hdata]

section Lookups

variable (h : Images gone t u) (ht : t.IsKeyed) (hu : u.IsKeyed)
include h ht hu

theorem kind?_eq (hij : SameKey t u i j) : u.kind? j = t.kind? i := by
  obtain ⟨data, data', hdata, hdata', _, hkind, _⟩ := h.exists_data ht hu hij
  rw [kind?, kind?, hdata, hdata', Option.map_some, Option.map_some, hkind]

theorem isType_eq (hij : SameKey t u i j) : u.isType j = t.isType i := by
  rw [isType, isType, h.kind?_eq ht hu hij]

/-- The symbol with a key that is not gone is the same one in both tables. -/
theorem find? {key : Key} (hkey : ¬gone key) :
    Option.Rel (SameKey t u) (t.find? key) (u.find? key) := by
  cases hfind : t.find? key with
  | some i =>
    obtain ⟨data, hdata, rfl⟩ := find?_some hfind
    obtain ⟨j, hij⟩ := h.forth i data hdata hkey
    obtain ⟨_, data', hdata₂, hdata', heq, _⟩ := h.exists_data ht hu hij
    obtain rfl := Option.some.inj (hdata.symm.trans hdata₂)
    rw [← heq, hu.keys.find? hdata']
    exact .some hij
  | none =>
    cases hfind' : u.find? key with
    | none => exact .none
    | some j =>
      obtain ⟨data', hdata', rfl⟩ := find?_some hfind'
      obtain ⟨i, hij⟩ := h.back j data' hdata' hkey
      obtain ⟨data, _, hdata, hdata₂, heq, _⟩ := h.exists_data ht hu hij
      obtain rfl := Option.some.inj (hdata'.symm.trans hdata₂)
      rw [heq, ht.keys.find? hdata] at hfind
      cases hfind

/-- The ways outwards lead over images, however long they may be. -/
theorem outwardFrom (steps steps' : Nat) (hij : Option.Rel (SameKey t u) i? j?)
    (hi : ∀ i ∈ i?, i.index < steps) (hj : ∀ j ∈ j?, j.index < steps') :
    List.Forall₂ (SameKey t u) (t.outwardFrom steps i?) (u.outwardFrom steps' j?) := by
  induction steps generalizing steps' i? j? with
  | zero =>
    cases hij with
    | none => cases steps' <;> exact .nil
    | some => exact absurd (hi _ rfl) (Nat.not_lt_zero _)
  | succ steps ih =>
    cases hij with
    | none => cases steps' <;> exact .nil
    | @some i j hij =>
      cases steps' with
      | zero => exact absurd (hj _ rfl) (Nat.not_lt_zero _)
      | succ steps' =>
        obtain ⟨data, data', hdata, hdata', _, _, hresembles⟩ := h.exists_data ht hu hij
        rw [SymbolTable.outwardFrom, SymbolTable.outwardFrom, hdata, hdata']
        refine .cons hij
          (ih steps' hresembles.container (fun outer houter => ?_) fun outer houter => ?_)
        · exact Nat.lt_of_lt_of_le (ht.layered i data hdata outer houter)
            (Nat.le_of_lt_succ (hi i rfl))
        · exact Nat.lt_of_lt_of_le (hu.layered j data' hdata' outer houter)
            (Nat.le_of_lt_succ (hj j rfl))

/-- What contains a symbol is the same in both tables. -/
theorem outward (hij : Option.Rel (SameKey t u) i? j?) :
    List.Forall₂ (SameKey t u) (t.outward i?) (u.outward j?) := by
  refine h.outwardFrom ht hu _ _ hij (fun i hi => ?_) fun j hj => ?_
  · cases hij with
    | none => cases hi
    | some hij =>
      obtain rfl := Option.some.inj hi
      obtain ⟨_, ⟨_, hdata, _⟩, _⟩ := hij
      exact (List.getElem?_eq_some_iff.mp hdata).1
  · cases hij with
    | none => cases hj
    | some hij =>
      obtain rfl := Option.some.inj hj
      obtain ⟨_, _, _, hdata, _⟩ := hij
      exact (List.getElem?_eq_some_iff.mp hdata).1

/-- What is selected for what images have in common is matched, but for what is gone. -/
theorem select {p q : SymbolData → Bool}
    (hpq : ∀ data data', data'.kind = data.kind → Resembles t u data data' → q data' = p data) :
    Matched (SameKey t u) (t.remaining gone (t.select p)) (u.remaining gone (u.select q)) := by
  refine ⟨fun i hi => ?_, fun j hj => ?_⟩
  · obtain ⟨hi, hclear⟩ := mem_remaining.mp hi
    obtain ⟨data, hdata, hselected⟩ := mem_select.mp hi
    obtain ⟨j, hij⟩ := h.forth i data hdata (by rwa [isGone_eq hdata] at hclear)
    obtain ⟨_, data', hdata₂, hdata', _, hkind, hresembles⟩ := h.exists_data ht hu hij
    obtain rfl := Option.some.inj (hdata.symm.trans hdata₂)
    refine ⟨j, mem_remaining.mpr ⟨mem_select.mpr ⟨data', hdata', ?_⟩, hij.isGone_eq ▸ hclear⟩, hij⟩
    exact (hpq _ _ hkind hresembles).trans hselected
  · obtain ⟨hj, hclear⟩ := mem_remaining.mp hj
    obtain ⟨data', hdata', hselected⟩ := mem_select.mp hj
    obtain ⟨i, hij⟩ := h.back j data' hdata' (by rwa [isGone_eq hdata'] at hclear)
    obtain ⟨data, _, hdata, hdata₂, _, hkind, hresembles⟩ := h.exists_data ht hu hij
    obtain rfl := Option.some.inj (hdata'.symm.trans hdata₂)
    refine ⟨i,
      mem_remaining.mpr ⟨mem_select.mpr ⟨data, hdata, ?_⟩,
        (show u.IsGone gone _ = t.IsGone gone _ from hij.isGone_eq) ▸ hclear⟩, hij⟩
    exact (hpq _ _ hkind hresembles).symm.trans hselected

/-- The members that are not gone are the same in both tables. -/
theorem members (hij : SameKey t u i j) :
    Matched (SameKey t u) (t.remaining gone (t.members i)) (u.remaining gone (u.members j)) := by
  rw [ht.layered.members_eq, hu.layered.members_eq, h.isType_eq ht hu hij]
  split
  swap
  · exact .nil
  refine h.select ht hu fun data data' hkind hresembles => ?_
  have hcontainer : (data'.container? == some j) = (data.container? == some i) := by
    rw [Bool.eq_iff_iff, beq_iff_eq, beq_iff_eq]
    obtain ⟨hnone, hnone'⟩ | ⟨outer, outer', hsome, hsome', houter⟩ :=
      rel_cases hresembles.container
    · rw [hnone, hnone']
      exact ⟨nofun, nofun⟩
    · rw [hsome, hsome']
      constructor
      · intro heq
        obtain rfl := Option.some.inj heq
        rw [houter.left_unique ht.keys hij]
      · intro heq
        obtain rfl := Option.some.inj heq
        rw [houter.right_unique hu.keys hij]
  rw [hcontainer, SymbolData.isListed, SymbolData.isListed, hkind]

/-- The members with a name are matched if the lookup does not come to a member that is gone. -/
theorem lookupMember (hij : SameKey t u i j) (name : String) (arity? : Option Nat)
    (hclear : t.Clear gone (t.lookupMember i name arity?)) (hclear' : u.Clear gone (u.members j)) :
    Matched (SameKey t u) (t.lookupMember i name arity?) (u.lookupMember j name arity?) := by
  have hnamed' : u.Clear gone (u.membersNamed j name) :=
    hclear'.of_subset (List.filter_subset_self _)
  have hnamed : Matched (SameKey t u) (t.remaining gone (t.membersNamed i name))
      (u.membersNamed j name) := by
    have hfiltered :=
      (h.members ht hu hij).filter (p := fun id => (t.data? id).any (·.name == name))
        (q := fun id => (u.data? id).any (·.name == name)) fun a b hab => by
          obtain ⟨data, data', hdata, hdata', _, _, hresembles⟩ := h.exists_data ht hu hab
          rw [hdata, hdata', Option.any_some, Option.any_some, hresembles.name]
    rwa [← remaining_filter, ← remaining_filter, ← membersNamed, ← membersNamed,
      hnamed'.remaining_eq] at hfiltered
  cases arity? with
  | none =>
    have hall : t.remaining gone (t.membersNamed i name) = t.membersNamed i name :=
      Clear.remaining_eq hclear
    rwa [hall] at hnamed
  | some arity =>
    rw [SymbolTable.lookupMember] at hclear ⊢
    rw [SymbolTable.lookupMember]
    have hmatching :=
      hnamed.filter (p :=
      fun id => (t.data? id).any fun data => data.kind == .method && data.arity == arity)
      (q := fun id => (u.data? id).any fun data => data.kind == .method && data.arity == arity)
      fun a b hab => by
        obtain ⟨data, data', hdata, hdata', _, hkind, hresembles⟩ := h.exists_data ht hu hab
        rw [hdata, hdata', Option.any_some, Option.any_some, hresembles.arity, hkind]
    rw [← remaining_filter] at hmatching
    split at hclear
    next hempty =>
      -- No method has as many parameters, so the lookup comes to all members with the name.
      rw [List.isEmpty_iff.mp hempty] at hmatching
      rw [hclear.remaining_eq] at hnamed
      rw [if_pos hempty, if_pos (show _ = true from hmatching.isEmpty_eq)]
      exact hnamed
    next hsome =>
      rw [hclear.remaining_eq] at hmatching
      rw [if_neg hsome, if_neg (by rwa [hmatching.isEmpty_eq])]
      exact hmatching

/-- A written type means images, seen from images, if types and namespaces are never gone. -/
theorem resolveType? (hkinds : ∀ key, gone key → key.kind ≠ .namedType) (text : String)
    (hij : Option.Rel (SameKey t u) i? j?) :
    Option.Rel (SameKey t u) (t.resolveType? text i?) (u.resolveType? text j?) := by
  have hkey {key : Key} (hkind : key.kind = .namedType) : ¬gone key :=
    fun hgone => hkinds key hgone hkind
  rw [resolveType?_eq, resolveType?_eq]
  split
  next => exact .none
  next =>
    refine rel_or (rel_findSome? (fun a b hab => ?_) (h.outward ht hu hij))
      (rel_or (h.find? ht hu (hkey rfl)) ?_)
    · obtain ⟨key, ha, hb⟩ := hab
      have ha' : t.HasKey? (some a) (some key) := .some ha
      have hb' : u.HasKey? (some b) (some key) := .some hb
      rw [ha'.childKey_eq, hb'.childKey_eq]
      exact h.find? ht hu (hkey (Key.kind_within ..))
    · have hclear {v : SymbolTable} (hv : v.IsKeyed) :
          v.Clear gone (v.select (SymbolData.isTypeNamed (simpleTypeName (unmarked text)))) := by
        intro i hi
        obtain ⟨data, hdata, hselected⟩ := mem_select.mp hi
        rw [isGone_eq hdata]
        exact hkey ((hv.kinds i data hdata).trans (eq_of_beq (Bool.and_eq_true_iff.mp hselected).1))
      rw [typesNamed_eq, typesNamed_eq]
      have hselected :=
        h.select ht hu (p := SymbolData.isTypeNamed (simpleTypeName (unmarked text)))
          (q := SymbolData.isTypeNamed (simpleTypeName (unmarked text)))
          fun data data' hkind hresembles => by
            simp only [SymbolData.isTypeNamed, hkind, hresembles.name]
      rw [(hclear ht).remaining_eq, (hclear hu).remaining_eq] at hselected
      exact hselected.rel_single (fun _ _ _ => SameKey.left_unique ht.keys)
        (fun _ _ _ => SameKey.right_unique hu.keys)
        (t.nodup_select _) (u.nodup_select _)

/-- A declared type is the same in both tables, as no types are gone. -/
theorem declaredType? (hkinds : ∀ key, gone key → key.kind ≠ .namedType) {data data' : SymbolData}
    (htype : data'.typeName? = data.typeName?)
    (hcontainer : Option.Rel (SameKey t u) data.container? data'.container?) :
    Option.Rel (SameKey t u) (t.declaredType? data) (u.declaredType? data') := by
  have hscope :=
    rel_find? (p := fun c => t.kind? c == some .namedType || t.kind? c == some .nameSpace)
      (q := fun c => u.kind? c == some .namedType || u.kind? c == some .nameSpace)
      (fun a b hab => by rw [h.kind?_eq ht hu hab]) (h.outward ht hu hcontainer)
  rw [SymbolTable.declaredType?, SymbolTable.declaredType?, htype]
  cases data.typeName? with
  | none => exact .none
  | some written => exact h.resolveType? ht hu hkinds written hscope

/-- The type of a symbol is the same in both tables, as no types are gone. -/
theorem typeOfSymbol? (hkinds : ∀ key, gone key → key.kind ≠ .namedType) (hij : SameKey t u i j) :
    Option.Rel (SameKey t u) (t.typeOfSymbol? i) (u.typeOfSymbol? j) := by
  obtain ⟨data, data', hdata, hdata', _, hkind, hresembles⟩ := h.exists_data ht hu hij
  by_cases hsingle : data.kind.isSingle
  · rw [typeOfSymbol?_eq hdata hsingle, typeOfSymbol?_eq hdata' (hkind ▸ hsingle)]
    exact h.declaredType? ht hu hkinds hresembles.typeName? hresembles.container
  · rw [SymbolTable.typeOfSymbol?, SymbolTable.typeOfSymbol?, hdata, hdata']
    simp only [Option.bind_eq_bind, Option.bind_some]
    rw [hkind]
    split
    next => exact .some hij
    next => exact .none
    next hspace htype => exact absurd ⟨htype, hspace⟩ hsingle

end Lookups

end Images

/-! ## Growing tables -/

section Growth

variable {t' u' : SymbolTable} {data data' : SymbolData}

def IsClear (gone : Key → Bool) (u : SymbolTable) : Prop :=
  ∀ j data, u.data? j = some data → ¬gone data.key

theorem IsClear.clear (h : u.IsClear gone) (ids : List SymbolId) : u.Clear gone ids := by
  intro j _
  rw [IsGone, Option.any_eq_true]
  rintro ⟨data, hdata, hgone⟩
  exact h j data hdata hgone

/-- The later table has no symbols but those of the earlier one, perhaps with more declarations. -/
def AddsNone (t t' : SymbolTable) : Prop :=
  ∀ i data', t'.data? i = some data' →
    ∃ data more, t.data? i = some data ∧
    data' = { data with declarations := data.declarations ++ more }

theorem AddsNone.of_symbols (h : t'.symbols = t.symbols) : AddsNone t t' :=
  fun i data' hdata' => ⟨data', [], by rwa [data?, ← h], by simp⟩

theorem AddsNone.addDeclarations (t : SymbolTable) (id : SymbolId)
    (declarations : List Declaration) : AddsNone t (t.addDeclarations id declarations) := by
  intro i data' hdata'
  rw [data?_addDeclarations] at hdata'
  obtain ⟨data, hdata, rfl⟩ := Option.map_eq_some_iff.mp hdata'
  split
  next => exact ⟨data, declarations, hdata, rfl⟩
  next => exact ⟨data, [], hdata, by simp⟩

theorem IsClear.addsNone (h : u.IsClear gone) (hnone : AddsNone u u') : u'.IsClear gone := by
  intro j data' hdata'
  obtain ⟨data, _, hdata, rfl⟩ := hnone j data' hdata'
  exact h j data hdata

namespace Images

/-- The symbols may be declared in more places. -/
theorem grows (h : Images gone t u) (ht : Grows t t') (hu : Grows u u') (hnone : AddsNone t t')
    (hnone' : AddsNone u u') : Images gone t' u' where
  forth i data' hdata' hkey := by
    obtain ⟨data, _, hdata, rfl⟩ := hnone i data' hdata'
    obtain ⟨j, hij⟩ := h.forth i data hdata hkey
    exact ⟨j, hij.grows ht hu⟩
  back j data' hdata' hkey := by
    obtain ⟨data, _, hdata, rfl⟩ := hnone' j data' hdata'
    obtain ⟨i, hij⟩ := h.back j data hdata hkey
    exact ⟨i, hij.grows ht hu⟩
  resembles i j data₂ data₂' hdata₂ hdata₂' hkey := by
    obtain ⟨data, _, hdata, rfl⟩ := hnone i data₂ hdata₂
    obtain ⟨data', _, hdata', rfl⟩ := hnone' j data₂' hdata₂'
    have hresembles := (h.resembles i j data data' hdata hdata' hkey).grows ht hu
    exact ⟨hresembles.name, hresembles.typeName?, hresembles.arity, hresembles.container⟩

/-- The first table may get symbols that are gone from the second one. -/
theorem grows_gone (h : Images gone t u) (hclear : u.IsClear gone) (ht : Grows t t')
    (hnew : ∀ i data', t'.data? i = some data' → t.data? i = some data' ∨ gone data'.key) :
    Images gone t' u where
  forth i data' hdata' hkey := by
    obtain ⟨j, hij⟩ := h.forth i data' ((hnew i data' hdata').resolve_right hkey) hkey
    exact ⟨j, hij.grows ht (.refl u)⟩
  back j data hdata hkey := by
    obtain ⟨i, hij⟩ := h.back j data hdata hkey
    exact ⟨i, hij.grows ht (.refl u)⟩
  resembles i j data data' hdata hdata' hkey := by
    obtain hdata | hgone := hnew i data hdata
    · exact (h.resembles i j data data' hdata hdata' hkey).grows ht (.refl u)
    · exact absurd (hkey ▸ hgone) (hclear j data' hdata')

section Fresh

variable (h : Images gone t u) (ht : t.IsKeyed) (hu : u.IsKeyed)
include h ht hu

theorem hasKey_eq {key : Key} (hkey : ¬gone key) : u.hasKey key = t.hasKey key := by
  have hnone {v : SymbolTable} : v.hasKey key = (v.find? key).isSome := by
    rw [Bool.eq_iff_iff, hasKey_iff, ← not_iff_not, ← find?_eq_none_iff,
      Option.not_isSome_iff_eq_none]
  rw [hnone, hnone]
  obtain ⟨hnone, hnone'⟩ | ⟨_, _, hsome, hsome', _⟩ := rel_cases (h.find? ht hu hkey)
  · rw [hnone, hnone']
  · rw [hsome, hsome', Option.isSome_some, Option.isSome_some]

/-- A key is numbered alike in both tables if none of the keys that come into question is gone. -/
theorem freshKey_eq {key : Key}
    (hkey : ∀ number, IsNumber number → ¬gone { key with path := key.path ++ number }) :
    u.freshKey key = t.freshKey key := by
  have hasked : ¬gone key := by simpa using hkey "" (.inl rfl)
  by_cases htaken : t.hasKey key
  · have htaken' : u.hasKey key := (h.hasKey_eq ht hu hasked).trans htaken
    have hsame (fresh : Key) (hmem : fresh ∈ t.numberedKeys key ++ u.numberedKeys key) :
        (!u.hasKey fresh) = (!t.hasKey fresh) := by
      obtain hmem | hmem := List.mem_append.mp hmem
      all_goals
        obtain ⟨n, _, rfl⟩ := List.mem_map.mp hmem
        rw [h.hasKey_eq ht hu
          (by simpa only [String.append_assoc] using hkey _ (.inr ⟨n + 1, rfl⟩))]
    rw [freshKey_of_taken htaken, freshKey_of_taken htaken']
    obtain ⟨fresh, _, hfresh⟩ := t.exists_numbered key
    obtain ⟨fresh', _, hfresh'⟩ := u.exists_numbered key
    have hfound : (u.numberedKeys key).find? (!t.hasKey ·) = some fresh' := by
      rw [← hfresh']
      exact List.find?_congr fun fresh hmem => (hsame fresh (List.mem_append_right _ hmem)).symm
    -- Both tables try the same keys in the same order, one of them perhaps more of them.
    have hinitial : t.numberedKeys key <+: u.numberedKeys key ∨
        u.numberedKeys key <+: t.numberedKeys key := by
      have hrange {m n : Nat} (hle : m ≤ n) : List.range (m + 1) <+: List.range (n + 1) := by
        rw [← Nat.min_eq_left (Nat.add_le_add_right hle 1), ← List.take_range]
        exact List.take_prefix _ _
      obtain hle | hle := Nat.le_total t.symbols.length u.symbols.length
      · exact .inl ((hrange hle).map _)
      · exact .inr ((hrange hle).map _)
    have heq : fresh' = fresh := by
      obtain hinitial | hinitial := hinitial
      · exact Option.some.inj (hfound.symm.trans (hinitial.find?_eq_some hfresh))
      · exact (Option.some.inj (hfresh.symm.trans (hinitial.find?_eq_some hfound))).symm
    rw [hfresh, hfresh', heq]
  · have hfree : ¬u.hasKey key := by rwa [h.hasKey_eq ht hu hasked]
    rw [freshKey, freshKey, if_neg htaken, if_neg hfree]

/-- A symbol that is added to both tables goes by the same key in both. -/
theorem add (hkey : data'.key = data.key)
    (hfree : ∀ number, IsNumber number → ¬gone { data.key with path := data.key.path ++ number })
    (hresembles : Resembles t u data data') :
    Images gone (t.add data).2 (u.add data').2 ∧
      SameKey (t.add data).2 (u.add data').2 (t.add data).1 (u.add data').1 := by
  have hfresh : u.freshKey data'.key = t.freshKey data.key := by
    rw [hkey]
    exact h.freshKey_eq ht hu hfree
  have hgrows := Grows.add t data
  have hgrows' := Grows.add u data'
  have hnew : (t.add data).2.data? (t.add data).1 =
      some { data with key := t.freshKey data.key } := by rw [data?_add, if_pos rfl]
  have hnew' : (u.add data').2.data? (u.add data').1 =
      some { data' with key := u.freshKey data'.key } := by
    rw [data?_add, if_pos rfl]
  have hsame : SameKey (t.add data).2 (u.add data').2 (t.add data).1 (u.add data').1 :=
    ⟨t.freshKey data.key, ⟨_, hnew, rfl⟩, _, hnew', hfresh⟩
  have hnot {v : SymbolTable} {k : SymbolId} {old : SymbolData} (key : Key)
      (hold : v.data? k = some old) : old.key ≠ v.freshKey key :=
    fun heq => v.freshKey_notMem key (heq ▸ List.mem_map_of_mem (List.mem_of_getElem? hold))
  refine ⟨⟨fun i old hi hkept => ?_, fun j old hj hkept => ?_, fun i j old old' hi hj hkeys => ?_⟩,
    hsame⟩
  · rw [data?_add] at hi
    split at hi
    next heq => exact ⟨_, heq ▸ hsame⟩
    next =>
      obtain ⟨j, hij⟩ := h.forth i old hi hkept
      exact ⟨j, hij.grows hgrows hgrows'⟩
  · rw [data?_add] at hj
    split at hj
    next heq => exact ⟨_, heq ▸ hsame⟩
    next =>
      obtain ⟨i, hij⟩ := h.back j old hj hkept
      exact ⟨i, hij.grows hgrows hgrows'⟩
  · rw [data?_add] at hi hj
    split at hi <;> split at hj
    next =>
      obtain rfl := Option.some.inj hi
      obtain rfl := Option.some.inj hj
      have hboth := hresembles.grows hgrows hgrows'
      exact ⟨hboth.name, hboth.typeName?, hboth.arity, hboth.container⟩
    next =>
      obtain rfl := Option.some.inj hi
      exact absurd (hkeys.trans hfresh.symm) (hnot _ hj)
    next =>
      obtain rfl := Option.some.inj hj
      exact absurd (hkeys.symm.trans hfresh) (hnot _ hi)
    next => exact (h.resembles i j old old' hi hj hkeys).grows hgrows hgrows'

end Fresh

end Images

/-- An added symbol has a key of its own. -/
theorem IsKeyed.add (h : t.IsKeyed) (hkind : data.key.kind = data.kind)
    (hcontainer : ∀ outer ∈ data.container?, outer.index < t.symbols.length) :
    (t.add data).2.IsKeyed where
  keys := by
    show (List.map SymbolData.key (t.symbols ++ [{ data with key := t.freshKey data.key }])).Nodup
    rw [List.map_append, List.nodup_append]
    refine ⟨h.keys, List.nodup_singleton _, fun key hmem key' hmem' => ?_⟩
    rw [List.mem_singleton.mp hmem']
    rintro rfl
    exact freshKey_notMem t data.key hmem
  kinds id old hold := by
    rw [data?_add] at hold
    split at hold
    next =>
      obtain rfl := Option.some.inj hold
      exact (t.kind_freshKey data.key).trans hkind
    next => exact h.kinds id old hold
  layered := h.layered.add hcontainer

theorem IsKeyed.of_symbols (h : t.IsKeyed) (heq : t'.symbols = t.symbols) : t'.IsKeyed where
  keys := by
    rw [KeysNodup, heq]
    exact h.keys
  kinds id data hdata := h.kinds id data (by rwa [data?, ← heq])
  layered id data hdata := h.layered id data (by rwa [data?, ← heq])

/-- A merged symbol has a key of its own, or it is there already. -/
theorem IsKeyed.merge (h : t.IsKeyed) (hkind : data.key.kind = data.kind)
    (hcontainer : ∀ outer ∈ data.container?, outer.index < t.symbols.length) :
    (t.merge data).2.IsKeyed := by
  have hlayered := h.layered.merge hcontainer
  obtain ⟨_, heq⟩ | ⟨_, _, _, _, heq⟩ := t.data?_merge data
  · rw [heq]
    exact h.add hkind hcontainer
  · rw [heq] at hlayered ⊢
    refine ⟨?_, fun id data' hdata' => ?_, hlayered⟩
    · rw [KeysNodup, map_key_addDeclarations]
      exact h.keys
    · rw [data?_addDeclarations] at hdata'
      obtain ⟨old, hold, rfl⟩ := Option.map_eq_some_iff.mp hdata'
      split <;> exact h.kinds id old hold

/-- A symbol that may be declared in several places is merged in both tables, or added to both. -/
theorem Images.merge (h : Images gone t u) (ht : t.IsKeyed) (hu : u.IsKeyed)
    (hkey : data'.key = data.key)
    (hfree : ∀ number, IsNumber number → ¬gone { data.key with path := data.key.path ++ number })
    (hresembles : Resembles t u data data') :
    Images gone (t.merge data).2 (u.merge data').2 ∧
      SameKey (t.merge data).2 (u.merge data').2 (t.merge data).1 (u.merge data').1 := by
  have hasked : ¬gone data.key := by simpa using hfree "" (.inl rfl)
  rw [SymbolTable.merge, SymbolTable.merge, hkey]
  obtain ⟨hnone, hnone'⟩ | ⟨i, j, hi, hj, hij⟩ := rel_cases (h.find? ht hu hasked)
  · rw [hnone, hnone']
    exact h.add ht hu hkey hfree hresembles
  · rw [hi, hj]
    have hgrows := Grows.addDeclarations t i data.declarations
    have hgrows' := Grows.addDeclarations u j data'.declarations
    exact ⟨h.grows hgrows hgrows' (AddsNone.addDeclarations t i _) (AddsNone.addDeclarations u j _),
      hij.grows hgrows hgrows'⟩

/-- An added symbol is not gone, whichever number its key gets. -/
theorem IsClear.add (h : u.IsClear gone)
    (hfree : ∀ number, IsNumber number → ¬gone { data.key with path := data.key.path ++ number }) :
    (u.add data).2.IsClear gone := by
  intro j old hold
  rw [data?_add] at hold
  split at hold
  next =>
    obtain rfl := Option.some.inj hold
    obtain ⟨number, hnumber, hkey⟩ := u.exists_number data.key
    rw [hkey]
    exact hfree number hnumber
  next => exact h j old hold

theorem IsClear.merge (h : u.IsClear gone)
    (hfree : ∀ number, IsNumber number → ¬gone { data.key with path := data.key.path ++ number }) :
    (u.merge data).2.IsClear gone := by
  rw [SymbolTable.merge]
  split
  next id _ => exact h.addsNone (AddsNone.addDeclarations u id _)
  next => exact h.add hfree

theorem HasKey?.lt {container? : Option SymbolId} {outer? : Option Key}
    (h : t.HasKey? container? outer?) : ∀ outer ∈ container?, outer.index < t.symbols.length := by
  rintro outer rfl
  cases h with
  | some hkeyed =>
    obtain ⟨data, hdata, _⟩ := hkeyed
    exact (List.getElem?_eq_some_iff.mp hdata).1

end Growth

/-! ## Types of expressions -/

/-- The type that an object creation names. -/
def createdType? (t : SymbolTable) (document : DocumentId) (n : PlacedNode) : Option SymbolId :=
  n.type?.bind fun type => type.lastIdentifier?.bind fun token => t.single? ⟨document, token.index⟩

/-- Alike expressions have types that are images, if the names in them have types that are, and
so have the types that are created in them. `Within` holds of an expression and of those in
parentheses in it. -/
theorem rel_typeOf? {leaf : PlacedToken → PlacedToken → Prop} {node : Nat → Nat → Prop}
    (hleaf : KeepsTokens leaf) {document document' : DocumentId} (Within : PlacedNode → Prop)
    (hinner : ∀ n, Within n → n.kind = .parenthesizedExpression → ∀ m ∈ n.childNodes.head?,
      Within m)
    (hnamed : ∀ a a', leaf a a' →
      Option.Rel (SameKey t u) ((t.single? ⟨document, a.index⟩).bind t.typeOfSymbol?)
        ((u.single? ⟨document', a'.index⟩).bind u.typeOfSymbol?))
    (hcreated : ∀ n n' : PlacedNode, Within n → n.kind = .objectCreationExpression →
      n.Alike leaf node n' →
      Option.Rel (SameKey t u) (t.createdType? document n) (u.createdType? document' n'))
    (hthis : Option.Rel (SameKey t u) i? j?) (depth : Nat) {n n' : PlacedNode} (hn : Within n)
    (ha : n.Alike leaf node n') :
    Option.Rel (SameKey t u) (t.typeOf? document i? depth n) (u.typeOf? document' j? depth n') := by
  induction depth generalizing n n' with
  | zero => exact .none
  | succ depth ih =>
    have hname {m m' : PlacedNode} (ha : m.Alike leaf node m') : Option.Rel (SameKey t u)
        (m.referenceName?.bind fun token => (t.single? ⟨document, token.index⟩).bind
          t.typeOfSymbol?)
        (m'.referenceName?.bind fun token => (u.single? ⟨document', token.index⟩).bind
          u.typeOfSymbol?) :=
      rel_bind hnamed (ha.referenceName? hleaf)
    rw [SymbolTable.typeOf?, SymbolTable.typeOf?, ha.kind]
    dsimp only
    split
    next => exact hname ha
    next => exact hname ha
    next => exact rel_bind (fun _ _ ha => hname ha) ha.firstNode?
    next => exact hthis
    next hkind => exact hcreated n n' hn hkind ha
    next hkind =>
      obtain ⟨hnone, hnone'⟩ | ⟨m, m', hm, hm', halike⟩ := rel_cases ha.firstNode?
      · rw [hnone, hnone']
        exact .none
      · rw [hm, hm']
        exact ih (hinner n hn hkind m hm) halike
    next => exact .none

end SymbolTable

end AutoProperty
