import AutoProperty.Proofs.Syntax.Foci
import AutoProperty.Symbol.Lookup
import Mathlib.Data.List.Forall2

/-! # Trees of one shape

Two elements are alike if they have the same nodes in the same order, and tokens that
correspond. How tokens and the numbers of nodes correspond is a parameter: before and after a
rename they have the same numbers, and some tokens have other texts.
-/

namespace AutoProperty

mutual

/-- The same shape, with tokens that `leaf` relates and nodes whose numbers `node` relates. -/
inductive Placed.Alike (leaf : PlacedToken → PlacedToken → Prop) (node : Nat → Nat → Prop) :
    Placed → Placed → Prop where
  | token {a a' : PlacedToken} : leaf a a' → Alike leaf node (.token a) (.token a')
  | node {info info' : NodeInfo} {children children' : List Placed} : node info.index info'.index →
      info'.kind = info.kind → Placed.Alikes leaf node children children' →
      Alike leaf node (.node info children) (.node info' children')

inductive Placed.Alikes (leaf : PlacedToken → PlacedToken → Prop) (node : Nat → Nat → Prop) :
    List Placed → List Placed → Prop where
  | nil : Alikes leaf node [] []
  | cons {p p' : Placed} {ps ps' : List Placed} : Placed.Alike leaf node p p' →
      Alikes leaf node ps ps' → Alikes leaf node (p :: ps) (p' :: ps')

end

/-- Related tokens have the same kind, and are present or missing together. -/
structure KeepsTokens (leaf : PlacedToken → PlacedToken → Prop) : Prop where
  kind {a a' : PlacedToken} : leaf a a' → a'.kind = a.kind
  present {a a' : PlacedToken} : leaf a a' → a'.text.isEmpty = a.text.isEmpty

theorem keepsTokens_eq : KeepsTokens Eq where
  kind h := congrArg PlacedToken.kind h.symm
  present h := congrArg (·.text.isEmpty) h.symm

variable {leaf : PlacedToken → PlacedToken → Prop} {node : Nat → Nat → Prop}

namespace Placed

mutual

theorem Alike.refl (hleaf : ∀ a, leaf a a) (hnode : ∀ i, node i i) (p : Placed) :
    Alike leaf node p p := by
  cases p with
  | token a => exact .token (hleaf a)
  | node info children => exact .node (hnode _) rfl (Alikes.refl hleaf hnode children)

theorem Alikes.refl (hleaf : ∀ a, leaf a a) (hnode : ∀ i, node i i) (ps : List Placed) :
    Alikes leaf node ps ps := by
  cases ps with
  | nil => exact .nil
  | cons p ps => exact .cons (Alike.refl hleaf hnode p) (Alikes.refl hleaf hnode ps)

end

mutual

theorem Alike.tokens {p p' : Placed} (h : Alike leaf node p p') :
    List.Forall₂ leaf p.tokens p'.tokens := by
  cases h with
  | token h => exact .cons h .nil
  | node _ _ h => exact Alikes.tokensOf h

theorem Alikes.tokensOf {ps ps' : List Placed} (h : Alikes leaf node ps ps') :
    List.Forall₂ leaf (tokensOf ps) (tokensOf ps') := by
  cases h with
  | nil => exact .nil
  | cons h hs => exact List.rel_append (Alike.tokens h) (Alikes.tokensOf hs)

end

theorem Alike.exists_token {a : PlacedToken} {q : Placed} (h : Alike leaf node (.token a) q) :
    ∃ a', q = .token a' ∧ leaf a a' := by
  cases h with
  | token h => exact ⟨_, rfl, h⟩

theorem Alikes.exists_cons {p : Placed} {ps qs : List Placed} (h : Alikes leaf node (p :: ps) qs) :
    ∃ p' ps', qs = p' :: ps' ∧ Alike leaf node p p' ∧ Alikes leaf node ps ps' := by
  cases h with
  | cons h hs => exact ⟨_, _, rfl, h, hs⟩

theorem Alikes.eq_nil {qs : List Placed} (h : Alikes leaf node [] qs) : qs = [] := by
  cases h
  rfl

mutual

/-- The relation of the tokens may be another one, as long as it holds of the tokens of the
elements. -/
theorem Alike.restrict {leaf' : PlacedToken → PlacedToken → Prop} {p p' : Placed}
    (h : Alike leaf node p p') (hleaf : ∀ a ∈ p.tokens, ∀ a', leaf a a' → leaf' a a') :
    Alike leaf' node p p' := by
  cases h with
  | token h => exact .token (hleaf _ (List.mem_singleton_self _) _ h)
  | node hindex hkind hchildren => exact .node hindex hkind (hchildren.restrict hleaf)

theorem Alikes.restrict {leaf' : PlacedToken → PlacedToken → Prop} {ps ps' : List Placed}
    (h : Alikes leaf node ps ps') (hleaf : ∀ a ∈ tokensOf ps, ∀ a', leaf a a' → leaf' a a') :
    Alikes leaf' node ps ps' := by
  cases h with
  | nil => exact .nil
  | cons hp hps =>
    exact .cons (hp.restrict fun a ha => hleaf a (List.mem_append_left _ ha))
      (hps.restrict fun a ha => hleaf a (List.mem_append_right _ ha))

end

/-- The node children of alike elements correspond, one by one. -/
theorem Alikes.nodes {ps ps' : List Placed} (h : Alikes leaf node ps ps') :
    List.Forall₂ (fun n n' : PlacedNode => Alike leaf node n.placed n'.placed)
      (ps.filterMap node?) (ps'.filterMap node?) := by
  induction ps generalizing ps' with
  | nil =>
    cases h
    exact .nil
  | cons p ps ih =>
    cases h with
    | cons h hs =>
      cases h with
      | token =>
        have hrest := ih hs
        exact hrest
      | node hindex hkind hchildren => exact .cons (.node hindex hkind hchildren) (ih hs)

/-- Alike elements have alike tokens in the same places. -/
theorem Alikes.leaves {ps ps' : List Placed} (h : Alikes leaf node ps ps') :
    List.Forall₂ leaf (ps.filterMap token?) (ps'.filterMap token?) := by
  induction ps generalizing ps' with
  | nil =>
    cases h
    exact .nil
  | cons p ps ih =>
    cases h with
    | cons h hs =>
      cases h with
      | token h => exact .cons h (ih hs)
      | node =>
        have hrest := ih hs
        exact hrest

end Placed

/-! ## Corresponding searches -/

section Search

variable {α β : Type} {r : α → β → Prop}

/-- In related lists, an element of the first one has a partner in the second one. -/
theorem exists_of_forall₂ {as : List α} {bs : List β} (h : List.Forall₂ r as bs) {a : α}
    (ha : a ∈ as) : ∃ b ∈ bs, r a b := by
  induction h with
  | nil => simp at ha
  | cons hr _ ih =>
    rcases List.mem_cons.mp ha with rfl | ha
    · exact ⟨_, List.mem_cons_self, hr⟩
    · obtain ⟨b, hb, hr⟩ := ih ha
      exact ⟨b, List.mem_cons_of_mem _ hb, hr⟩

theorem rel_cases {a? : Option α} {b? : Option β} (h : Option.Rel r a? b?) :
    a? = none ∧ b? = none ∨ ∃ a b, a? = some a ∧ b? = some b ∧ r a b := by
  cases h with
  | none => exact .inl ⟨rfl, rfl⟩
  | some h => exact .inr ⟨_, _, rfl, rfl, h⟩

/-- The first results of related lists are related, if the tests agree. -/
theorem rel_find? {p : α → Bool} {q : β → Bool} (hpq : ∀ a b, r a b → q b = p a) {as : List α}
    {bs : List β} (h : List.Forall₂ r as bs) : Option.Rel r (as.find? p) (bs.find? q) := by
  induction h with
  | nil => exact .none
  | @cons a b _ _ hab _ ih =>
    rw [List.find?_cons, List.find?_cons, hpq a b hab]
    cases p a with
    | true => exact .some hab
    | false => exact ih

theorem rel_getLast? {as : List α} {bs : List β} (h : List.Forall₂ r as bs) :
    Option.Rel r as.getLast? bs.getLast? := by
  induction h with
  | nil => exact .none
  | @cons a b as bs hab h ih =>
    cases h with
    | nil => exact .some hab
    | cons => simpa [List.getLast?_cons_cons] using ih

/-- Related values pass related tests alike. -/
theorem rel_optionFilter {p : α → Bool} {q : β → Bool} (hpq : ∀ a b, r a b → q b = p a)
    {a? : Option α} {b? : Option β} (h : Option.Rel r a? b?) :
    Option.Rel r (a?.filter p) (b?.filter q) := by
  cases h with
  | none => exact .none
  | @some a b hab =>
    rw [Option.filter_some, Option.filter_some, hpq a b hab]
    split
    next => exact .some hab
    next => exact .none

theorem rel_getElem? {as : List α} {bs : List β} (h : List.Forall₂ r as bs) (i : Nat) :
    Option.Rel r as[i]? bs[i]? := by
  induction h generalizing i with
  | nil => exact .none
  | cons hab _ ih =>
    cases i with
    | zero => exact .some hab
    | succ i => simpa using ih i

theorem rel_findIdx? {p : α → Bool} {q : β → Bool} (hpq : ∀ a b, r a b → q b = p a) {as : List α}
    {bs : List β} (h : List.Forall₂ r as bs) : bs.findIdx? q = as.findIdx? p := by
  induction h with
  | nil => rfl
  | cons hab _ ih => rw [List.findIdx?_cons, List.findIdx?_cons, hpq _ _ hab, ih]

theorem any_of_rel {p : α → Bool} {q : β → Bool} (hpq : ∀ a b, r a b → q b = p a) {a? : Option α}
    {b? : Option β} (h : Option.Rel r a? b?) : b?.any q = a?.any p := by
  cases h with
  | none => rfl
  | some h => exact hpq _ _ h

theorem rel_bind {γ δ : Type} {r' : γ → δ → Prop} {f : α → Option γ} {g : β → Option δ}
    (hfg : ∀ a b, r a b → Option.Rel r' (f a) (g b)) {a? : Option α} {b? : Option β}
    (h : Option.Rel r a? b?) : Option.Rel r' (a?.bind f) (b?.bind g) := by
  cases h with
  | none => exact .none
  | some hab => exact hfg _ _ hab

end Search

namespace PlacedNode

def Alike (leaf : PlacedToken → PlacedToken → Prop) (node : Nat → Nat → Prop) (n n' : PlacedNode) :
    Prop :=
  Placed.Alike leaf node n.placed n'.placed

namespace Alike

variable {n n' : PlacedNode}

theorem exists_placed {q : Placed} (h : Placed.Alike leaf node n.placed q) :
    ∃ n', q = n'.placed ∧ Alike leaf node n n' := by
  cases h with
  | node hindex hkind hchildren => exact ⟨⟨_, _⟩, rfl, .node hindex hkind hchildren⟩

theorem exists_cons {ps qs : List Placed} (h : Placed.Alikes leaf node (n.placed :: ps) qs) :
    ∃ n' ps', qs = n'.placed :: ps' ∧ Alike leaf node n n' ∧ Placed.Alikes leaf node ps ps' := by
  obtain ⟨_, ps', rfl, hn, hps⟩ := h.exists_cons
  obtain ⟨n', rfl, hn⟩ := exists_placed hn
  exact ⟨n', ps', rfl, hn, hps⟩

/-- What is alike to a node, a point and a simple name. -/
theorem exists_memberAccess {dot a : PlacedToken} {nameInfo : NodeInfo} {qs : List Placed}
    (h : Placed.Alikes leaf node [n.placed, .token dot, .node nameInfo [.token a]] qs) :
    ∃ (n' : PlacedNode) (dot' : PlacedToken) (nameInfo' : NodeInfo) (a' : PlacedToken),
      qs = [n'.placed, .token dot', .node nameInfo' [.token a']] ∧ Alike leaf node n n' ∧
      leaf a a' := by
  obtain ⟨n', _, rfl, hn, hrest⟩ := exists_cons h
  obtain ⟨_, _, rfl, hdot, hlast⟩ := hrest.exists_cons
  obtain ⟨dot', rfl, _⟩ := hdot.exists_token
  obtain ⟨_, _, rfl, hname, hnil⟩ := hlast.exists_cons
  obtain rfl := hnil.eq_nil
  cases hname with
  | @node _ nameInfo' _ _ _ _ hname =>
    obtain ⟨_, _, rfl, htoken, hnil⟩ := hname.exists_cons
    obtain rfl := hnil.eq_nil
    obtain ⟨a', rfl, ha⟩ := htoken.exists_token
    exact ⟨n', dot', nameInfo', a', rfl, hn, ha⟩

theorem index (h : Alike leaf node n n') : node n.index n'.index := by
  cases h
  assumption

theorem kind (h : Alike leaf node n n') : n'.kind = n.kind := by
  cases h
  assumption

theorem children (h : Alike leaf node n n') : Placed.Alikes leaf node n.children n'.children := by
  cases h
  assumption

theorem childNodes (h : Alike leaf node n n') :
    List.Forall₂ (Alike leaf node) n.childNodes n'.childNodes :=
  h.children.nodes

theorem firstNode? (h : Alike leaf node n n') :
    Option.Rel (Alike leaf node) n.childNodes.head? n'.childNodes.head? := by
  rw [List.head?_eq_getElem?, List.head?_eq_getElem?]
  exact rel_getElem? h.childNodes 0

theorem childTokens (h : Alike leaf node n n') : List.Forall₂ leaf n.childTokens n'.childTokens :=
  h.children.leaves

theorem tokens (h : Alike leaf node n n') : List.Forall₂ leaf n.tokens n'.tokens :=
  h.children.tokensOf

theorem child? (h : Alike leaf node n n') (kind : Kind) :
    Option.Rel (Alike leaf node) (n.child? kind) (n'.child? kind) :=
  rel_find? (fun _ _ h => by rw [h.kind]) h.childNodes

theorem childrenOf (h : Alike leaf node n n') (kind : Kind) :
    List.Forall₂ (Alike leaf node) (n.childrenOf kind) (n'.childrenOf kind) :=
  List.rel_filter (fun _ _ h => by simp only [h.kind]) h.childNodes

theorem type? (h : Alike leaf node n n') : Option.Rel (Alike leaf node) n.type? n'.type? :=
  rel_find? (fun _ _ h => by rw [h.kind]) h.childNodes

variable (hleaf : KeepsTokens leaf)
include hleaf

theorem name? (h : Alike leaf node n n') : Option.Rel leaf n.name? n'.name? := by
  refine rel_optionFilter (fun a b h => by rw [hleaf.present h]) ?_
  exact rel_find? (fun a b h => by rw [hleaf.kind h]) h.childTokens

theorem identifiers (h : Alike leaf node n n') : List.Forall₂ leaf n.identifiers n'.identifiers :=
  List.rel_filter (fun _ _ h => by simp only [hleaf.kind h, hleaf.present h]) h.tokens

theorem lastIdentifier? (h : Alike leaf node n n') :
    Option.Rel leaf n.lastIdentifier? n'.lastIdentifier? :=
  rel_getLast? (h.identifiers hleaf)

theorem referenceName? (h : Alike leaf node n n') :
    Option.Rel leaf n.referenceName? n'.referenceName? := by
  rw [PlacedNode.referenceName?, PlacedNode.referenceName?, h.kind]
  split
  next => exact h.name? hleaf
  next => exact rel_bind (fun _ _ h => h.name? hleaf) (rel_getLast? h.childNodes)
  next => exact .none

end Alike

end PlacedNode

end AutoProperty
