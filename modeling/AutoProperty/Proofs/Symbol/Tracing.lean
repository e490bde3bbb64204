import AutoProperty.Proofs.Symbol.Locals
import AutoProperty.Proofs.Symbol.Coherence

/-! # What binding a body does step by step

Binding a body notes what names refer to, declares locals, and opens and closes frames. What
holds from before to after each of these steps holds from before to after the body.
-/

namespace AutoProperty

def Placed.Undeclaring (ps : List Placed) : Prop :=
  ∀ n ∈ Placed.nodesOf ps, n.kind ≠ .localDeclarationStatement

/-- What one name may refer to: a single symbol, or members of one type with one name. -/
structure SymbolTable.Candidates (t : SymbolTable) (ids : List SymbolId) : Prop where
  nodup : ids.Nodup
  alike : ids.length ≤ 1 ∨ ∃ type name, ids ⊆ t.membersNamed type name

namespace SymbolTable

theorem candidates_toList (t : SymbolTable) (id? : Option SymbolId) : t.Candidates id?.toList :=
  ⟨Option.toList_nodup _, .inl (by cases id? <;> simp)⟩

/-- A member that is looked up is a symbol of the table, and no other has its place. -/
theorem candidates_lookupMember (t : SymbolTable) (type : SymbolId) (name : String)
    (arity? : Option Nat) : t.Candidates (t.lookupMember type name arity?) := by
  refine ⟨(t.allNamed_lookupMember type name arity?).1, .inr ⟨type, name, ?_⟩⟩
  cases arity? with
  | none => exact List.Subset.refl _
  | some arity =>
    rw [lookupMember]
    split
    next => exact List.Subset.refl _
    next => exact fun _ hid => (List.mem_filter.mp hid).1

end SymbolTable

namespace Binding

open SymbolTable

variable {ctx : BodyContext} {rel : BodyState → BodyState → Prop}

/-- A simple name that is looked up means symbols of the table, each listed once. -/
theorem candidates_lookupSimple (ctx : BodyContext) (s : BodyState) (name : String)
    (arity? : Option Nat) : s.table.Candidates (lookupSimple ctx s name arity?) := by
  rw [lookupSimple]
  split
  next id _ => exact candidates_toList s.table (some id)
  split
  next => exact candidates_toList s.table none
  dsimp only
  split
  next candidates hfound =>
    obtain ⟨type, _, rfl⟩ := List.mem_map.mp (List.mem_of_find?_eq_some hfound)
    exact s.table.candidates_lookupMember type name arity?
  next => exact candidates_toList _ _

theorem candidates_accessed (ctx : BodyContext) (t : SymbolTable) (receiver : PlacedNode)
    (name : String) (arity? : Option Nat) : t.Candidates (accessed ctx t receiver name arity?) := by
  rw [accessed]
  split
  next => exact t.candidates_lookupMember _ name arity?
  next => exact candidates_toList t none

def Leads (rel : BodyState → BodyState → Prop) (b : Binding) : Prop :=
  ∀ s : BodyState, rel s (b s).2

/-- The single steps of binding the elements lead to related states. -/
structure Traces (ctx : BodyContext) (ps : List Placed) (rel : BodyState → BodyState → Prop) :
    Prop where
  refl (s : BodyState) : rel s s
  trans {s s' s'' : BodyState} : rel s s' → rel s' s'' → rel s s''
  frame {s s' : BodyState} : rel { s with scopes := [] :: s.scopes } s' →
    rel s { s' with scopes := s'.scopes.tail }
  record {a : PlacedToken} {ids : List SymbolId} (s : BodyState) : a ∈ Placed.tokensOf ps →
    s.table.Candidates ids →
    rel s { s with table := s.table.bind ⟨ctx.document, a.index⟩ ids }
  declareLocal {n : PlacedNode} (type : LocalType) (s : BodyState) : n ∈ Placed.nodesOf ps →
    n.kind = .variableDeclarator →
    ¬Placed.Undeclaring ps → rel s (Binding.declareLocal ctx type n s).2

namespace Traces

variable {p : Placed} {ps qs : List Placed} {info : NodeInfo} {b c : Binding}

theorem inside (h : Traces ctx ps rel) (htokens : Placed.tokensOf qs ⊆ Placed.tokensOf ps)
    (hnodes : Placed.nodesOf qs ⊆ Placed.nodesOf ps) : Traces ctx qs rel where
  refl := h.refl
  trans := h.trans
  frame := h.frame
  record s ha := h.record s (htokens ha)
  declareLocal type s hn hkind hdeclares :=
  h.declareLocal type s (hnodes hn) hkind fun hnone => hdeclares fun m hm => hnone m (hnodes hm)

theorem head (h : Traces ctx (p :: ps) rel) : Traces ctx [p] rel :=
  h.inside (by simp [Placed.tokensOf]) (by simp [Placed.nodesOf])

theorem tail (h : Traces ctx (p :: ps) rel) : Traces ctx ps rel :=
  h.inside (List.subset_append_right _ _) (List.subset_append_right _ _)

theorem children (h : Traces ctx [.node info ps] rel) : Traces ctx ps rel :=
  h.inside (by simp [Placed.tokensOf, Placed.tokens]) (by simp [Placed.nodesOf, Placed.nodes])

/-- What holds of a node's parts holds of those of its children. -/
theorem child {n m : PlacedNode} (h : Traces ctx [n.placed] rel) (hm : m ∈ n.childNodes) :
    Traces ctx [m.placed] rel := by
  have hchildren : Traces ctx n.children rel := h.children
  refine hchildren.inside (fun a ha => PlacedNode.childNode_tokens_subset hm ?_) fun k hk => ?_
  · simpa [Placed.tokensOf, Placed.tokens, PlacedNode.placed, PlacedNode.tokens] using ha
  · simp only [Placed.nodesOf, Placed.nodes, PlacedNode.placed, List.append_nil, List.mem_cons]
      at hk
    obtain rfl | hk := hk
    · exact n.childNodes_sublist.subset hm
    · exact (PlacedNode.nodesOf_sublist hm).subset hk

theorem nothing (h : Traces ctx ps rel) : Leads rel (pure ()) :=
  h.refl

theorem seq (h : Traces ctx ps rel) (hb : Leads rel b) (hc : Leads rel c) :
    Leads rel (b >>= fun _ => c) :=
  fun s => h.trans (hb s) (hc (b s).2)

theorem get {k : BodyState → Binding} (hk : ∀ s, Leads rel (k s)) : Leads rel (get >>= k) :=
  fun s => hk s s

theorem forM (h : Traces ctx ps rel) {α : Type} {b : α → Binding} {xs : List α}
    (hb : ∀ x ∈ xs, Leads rel (b x)) : Leads rel (xs.forM b) := by
  induction xs with
  | nil => exact h.nothing
  | cons x xs ih =>
    exact h.seq (hb x List.mem_cons_self) (ih fun y hy => hb y (List.mem_cons_of_mem x hy))

theorem inFrame (h : Traces ctx ps rel) (hb : Leads rel b) : Leads rel (inFrame b) :=
  fun s => h.frame (hb { s with scopes := [] :: s.scopes })

/-- Binding a written type only records a name. -/
theorem type {n : PlacedNode} (h : Traces ctx [n.placed] rel) : Leads rel (type ctx n) := by
  rw [Binding.type]
  split
  next => exact h.nothing
  next name hname =>
    split
    next => exact h.nothing
    next token htoken =>
      refine fun s => h.record s ?_ (candidates_toList _ _)
      have hmem := namedType?_tokens _ hname (PlacedNode.lastIdentifier?_mem htoken).1
      simpa [Placed.tokensOf] using hmem

theorem simpleName {n : PlacedNode} (h : Traces ctx [n.placed] rel) (arity? : Option Nat) :
    Leads rel (simpleName ctx n arity?) := by
  rw [Binding.simpleName]
  split
  next => exact h.nothing
  next token htoken =>
    have hchildren : Traces ctx n.children rel := h.children
    exact fun s =>
      hchildren.record s (PlacedNode.childTokens_subset (PlacedNode.name?_mem htoken).1)
        (candidates_lookupSimple ctx s _ arity?)

/-- Binding the name behind a point only records it. -/
theorem memberName {n : PlacedNode} (h : Traces ctx [n.placed] rel) (arity? : Option Nat) :
    Leads rel (memberName ctx n arity?) := by
  rw [Binding.memberName]
  split
  next => exact h.nothing
  next => exact h.nothing
  next receiver members _ hnodes =>
    split
    next => exact h.nothing
    next token htoken =>
      obtain ⟨member, hmember, hname⟩ := Option.bind_eq_some_iff.mp htoken
      have hmem : member ∈ n.childNodes := by
        rw [hnodes]
        exact List.mem_cons_of_mem _ (List.mem_of_getLast? hmember)
      have hchildren : Traces ctx member.children rel := (h.child hmem).children
      exact fun s =>
        hchildren.record s (PlacedNode.childTokens_subset (PlacedNode.name?_mem hname).1)
          (candidates_accessed ctx s.table receiver token.text arity?)

end Traces

mutual

/-- A relation that each single step keeps is kept by binding an element. -/
theorem traces_element (arity? : Option Nat) (p : Placed) (h : Traces ctx [p] rel) :
    Leads rel (element ctx arity? p) := by
  cases p with
  | token => exact h.nothing
  | node info children =>
    have hchildren := h.children
    rw [element]
    dsimp only
    split
    next => exact h.inFrame (traces_elements false children hchildren)
    next hkind =>
      have hdeclares : ¬Placed.Undeclaring [.node info children] := fun hnone =>
        hnone ⟨info, children⟩ (by simp [Placed.nodesOf, Placed.nodes]) hkind
      exact traces_localDeclaration children hchildren fun type s n hn hdeclarator =>
        h.declareLocal type s
          (by simpa [Placed.nodesOf, Placed.nodes] using Or.inr hn) hdeclarator hdeclares
    next => exact Traces.simpleName (n := ⟨info, children⟩) h arity?
    next =>
      exact h.seq (traces_first none _ children hchildren)
        (Traces.memberName (n := ⟨info, children⟩) h arity?)
    next =>
      have harguments := traces_first none (· == .argumentList) children hchildren
      split
      next => exact h.seq (traces_first _ _ children hchildren) harguments
      next => exact harguments
    next => exact traces_elements true children hchildren
    next => exact traces_elements false children hchildren

/-- A relation that each single step keeps is kept by binding elements. -/
theorem traces_elements (types : Bool) (ps : List Placed) (h : Traces ctx ps rel) :
    Leads rel (elements ctx types ps) := by
  cases ps with
  | nil => exact h.nothing
  | cons p rest =>
    cases p with
    | token => exact traces_elements types rest h.tail
    | node info children =>
      have hrest := traces_elements types rest h.tail
      rw [elements]
      split
      next => exact h.seq (Traces.type (n := ⟨info, children⟩) h.head) hrest
      next => exact h.seq (traces_element none (.node info children) h.head) hrest

/-- A relation that each single step keeps is kept by binding the first node of a kind. -/
theorem traces_first (arity? : Option Nat) (wanted : Kind → Bool) (ps : List Placed)
    (h : Traces ctx ps rel) : Leads rel (first ctx arity? wanted ps) := by
  cases ps with
  | nil => exact h.nothing
  | cons p rest =>
    cases p with
    | token => exact traces_first arity? wanted rest h.tail
    | node info children =>
      rw [first]
      split
      next => exact traces_element arity? (.node info children) h.head
      next => exact traces_first arity? wanted rest h.tail

/-- A relation that also declaring locals keeps is kept by declarations of locals. -/
theorem traces_localDeclaration (ps : List Placed) (h : Traces ctx ps rel)
    (hlocal : ∀ type s, ∀ n ∈ Placed.nodesOf ps, n.kind = .variableDeclarator →
      rel s (declareLocal ctx type n s).2) : Leads rel (localDeclaration ctx ps) := by
  cases ps with
  | nil => exact h.nothing
  | cons p rest =>
    cases p with
    | token => exact traces_localDeclaration rest h.tail hlocal
    | node info children =>
      rw [localDeclaration]
      split
      next =>
        have hdeclarators (type : LocalType) :=
          traces_declarators type children h.head.children fun type s n hn =>
          hlocal type s n (by simpa [Placed.nodesOf, Placed.nodes] using Or.inr (Or.inl hn))
        dsimp only
        split
        next written hwritten =>
          have hmem : written ∈ (PlacedNode.mk info children).childNodes :=
            List.mem_of_find?_eq_some hwritten
          exact h.seq (Traces.child (n := ⟨info, children⟩) h.head hmem).type
            (Traces.get fun s => hdeclarators _)
        next => exact Traces.get fun s => hdeclarators _
      next =>
        exact traces_localDeclaration rest h.tail fun type s n hn =>
          hlocal type s n (List.mem_append_right _ hn)

/-- A relation that also declaring locals keeps is kept by declarators. -/
theorem traces_declarators (type : LocalType) (ps : List Placed) (h : Traces ctx ps rel)
    (hlocal : ∀ type s, ∀ n ∈ Placed.nodesOf ps, n.kind = .variableDeclarator →
      rel s (declareLocal ctx type n s).2) : Leads rel (declarators ctx type ps) := by
  cases ps with
  | nil => exact h.nothing
  | cons p rest =>
    cases p with
    | token => exact traces_declarators type rest h.tail hlocal
    | node info children =>
      have hrest :=
        traces_declarators type rest h.tail fun type s n hn =>
          hlocal type s n (List.mem_append_right _ hn)
      rw [declarators]
      split
      next hkind =>
        have hself :=
          fun s => hlocal type s ⟨info, children⟩ (by simp [Placed.nodesOf, Placed.nodes])
            (eq_of_beq hkind)
        exact h.seq (traces_first none _ children h.head.children) (h.seq hself hrest)
      next => exact hrest

end

variable {n : PlacedNode}

theorem traces_node (h : Traces ctx [n.placed] rel) : Leads rel (node ctx n) :=
  traces_element none n.placed h

/-- A part of a field declaration keeps what its names keep. -/
theorem traces_fieldPart (h : Traces ctx [n.placed] rel) :
    Leads rel (if n.kind.isType then type ctx n else
      match n.child? .equalsValueClause with
      | some value => node ctx value
      | none => pure ()) := by
  split
  next => exact h.type
  next =>
    split
    next value hvalue => exact traces_node (h.child (PlacedNode.child?_some hvalue).1)
    next => exact h.nothing

theorem traces_fields (h : Traces ctx [n.placed] rel) : Leads rel (fields ctx n) :=
  h.forM fun _ hpart => traces_fieldPart (h.child hpart)

theorem traces_parameterTypes (h : Traces ctx [n.placed] rel) :
    Leads rel (parameterTypes ctx n) := by
  refine h.forM fun parameter hparameter => ?_
  split
  next written hwritten =>
    exact ((h.child hparameter).child (List.mem_of_find?_eq_some hwritten)).type
  next => exact h.nothing

section Parts

variable (h : ∀ b, Traces (ctx.assigning b) [n.placed] rel)
include h

theorem traces_accessor : Leads rel (accessor (ctx.assigning false) n) :=
  (h false).inFrame ((h false).forM fun _ hpart => traces_node ((h _).child hpart))

/-- A part of a member keeps what its names and its locals keep. -/
theorem traces_memberPart : Leads rel (if n.kind.isType then type (ctx.assigning false) n else
    match n.kind with
    | .variableDeclaration => fields (ctx.assigning false) n
    | .parameterList => parameterTypes (ctx.assigning false) n
    | .accessorList => n.childNodes.forM (accessor (ctx.assigning false))
    | _ => node (ctx.assigning false) n) := by
  split
  next => exact (h false).type
  next =>
    split
    next => exact traces_fields (h false)
    next => exact traces_parameterTypes (h false)
    next => exact (h false).forM fun _ hpart => traces_accessor fun b => (h b).child hpart
    next => exact traces_node (h false)

theorem traces_memberParts : Leads rel (memberParts (ctx.assigning false) n) :=
  (h false).forM fun _ hpart => traces_memberPart fun b => (h b).child hpart

end Parts

/-! ## Values -/

/-- The binding adds no symbols, and leaves as many frames as there were. -/
def AddsNothing (b : Binding) : Prop :=
  Leads (fun s s' => s'.table.symbols = s.table.symbols ∧ s'.scopes.length = s.scopes.length) b

/-- Elements without statements add no symbols. -/
theorem addsNothing_traces {ps : List Placed} (h : Placed.Undeclaring ps) (ctx : BodyContext) :
    Traces ctx ps fun s s' => s'.table.symbols = s.table.symbols ∧
      s'.scopes.length = s.scopes.length where
  refl _ := ⟨rfl, rfl⟩
  trans h h' := ⟨h'.1.trans h.1, h'.2.trans h.2⟩
  frame h := ⟨h.1, by rw [List.length_tail, h.2, List.length_cons, Nat.add_sub_cancel]⟩
  record s _ _ := ⟨SymbolTable.symbols_bind s.table _ _, rfl⟩
  declareLocal _ _ _ _ hdeclares := absurd h hdeclares

end Binding

/-- Values and types hold no statements. -/
theorem Placed.Sited.undeclaring {tree : Tree} {above : List PlacedNode} {p : Placed}
    (h : Sited tree above [p]) (hkind : p.kind.isToken ∨ p.kind.isValuePart) : Undeclaring [p] := by
  intro n hn heq
  rw [nodesOf, nodesOf, List.append_nil, ← node_foci above p] at hn
  obtain ⟨f, hf, rfl⟩ := List.mem_map.mp hn
  have hvalue := isValuePart_of_mem_foci h hkind hf
  rw [heq] at hvalue
  exact Bool.false_ne_true hvalue

/-- A node declares no locals if its children declare none. -/
theorem Placed.Undeclaring.node {n : PlacedNode} (hkind : n.kind ≠ .localDeclarationStatement)
    (h : ∀ p ∈ n.children, Undeclaring [p]) : Undeclaring [n.placed] := by
  have hchildren : Undeclaring n.children := by
    intro m hm
    generalize n.children = ps at h hm
    induction ps with
    | nil => exact absurd hm List.not_mem_nil
    | cons p ps ih =>
      obtain ⟨hp, hps⟩ := List.forall_mem_cons.mp h
      obtain hm | hm := List.mem_append.mp hm
      · exact hp m (by simpa [nodesOf] using hm)
      · exact ih hps hm
  intro m hm
  simp only [nodesOf, nodes, PlacedNode.placed, List.append_nil, List.mem_cons] at hm
  obtain rfl | hm := hm
  · exact hkind
  · exact hchildren m hm

theorem Placed.Undeclaring.child {n : PlacedNode} {p : Placed} (h : Undeclaring [n.placed])
    (hp : p ∈ n.children) : Undeclaring [p] := by
  obtain ⟨before, after, hchildren⟩ := List.append_of_mem hp
  intro m hm
  refine h m ?_
  simp only [nodesOf, nodes, PlacedNode.placed, List.append_nil, List.mem_cons] at hm ⊢
  rw [hchildren, nodesOf_append]
  exact .inr (List.mem_append_right _ (List.mem_append_left _ hm))

/-- A field is declared without statements. -/
theorem Placed.Sited.undeclaring_field {tree : Tree} {above : List PlacedNode} {n : PlacedNode}
    (h : Sited tree above [n.placed]) (hkind : n.kind = .fieldDeclaration) :
    Undeclaring [n.placed] := by
  have hfit : ChildrenFit n.kind (n.children.map Placed.kind) := h.fit
  rw [hkind] at hfit
  obtain ⟨modifiers, hmodifiers, hkinds⟩ := hfit
  refine .node (by rw [hkind]; decide) fun p hp => ?_
  have hin : Sited tree (n :: above) n.children := h.children
  have hp' := hin.mem hp
  have hpart : p.kind.isToken ∨ p.kind = .variableDeclaration := by
    have hmem := hkinds ▸ List.mem_map_of_mem (f := Placed.kind) hp
    obtain hmem | hmem := List.mem_append.mp hmem
    · exact .inl (Kind.isToken_of_isModifier (hmodifiers _ hmem))
    · simp only [List.mem_cons, List.not_mem_nil, or_false] at hmem
      exact hmem.symm.imp (fun heq => by rw [heq]; rfl) id
  obtain htoken | hdeclaration := hpart
  · exact hp'.undeclaring (.inl htoken)
  obtain ⟨m, rfl⟩ := hp'.exists_node (by rw [hdeclaration]; rfl)
  have hdeclaration : m.kind = .variableDeclaration := hdeclaration
  have hfit : ChildrenFit m.kind (m.children.map Placed.kind) := hp'.fit
  rw [hdeclaration] at hfit
  obtain ⟨type, declarators, htype, hdeclarators, hkinds⟩ := hfit
  refine .node (by rw [hdeclaration]; decide) fun q hq => ?_
  have hin : Sited tree (m :: n :: above) m.children := hp'.children
  have hq' := hin.mem hq
  obtain heq | hmem := List.mem_cons.mp (hkinds ▸ List.mem_map_of_mem (f := Placed.kind) hq)
  · exact hq'.undeclaring (.inr (isValuePart_of_isType (heq ▸ htype)))
  obtain hdeclarator | hcomma := mem_of_separated hdeclarators hmem
  swap
  · exact hq'.undeclaring (.inl (by rw [hcomma]; rfl))
  obtain ⟨k, rfl⟩ := hq'.exists_node (by rw [hdeclarator]; rfl)
  have hdeclarator : k.kind = .variableDeclarator := hdeclarator
  have hfit : ChildrenFit k.kind (k.children.map Placed.kind) := hq'.fit
  rw [hdeclarator] at hfit
  refine .node (by rw [hdeclarator]; decide) fun e he => ?_
  have hin : Sited tree (k :: m :: n :: above) k.children := hq'.children
  exact (hin.mem he).undeclaring (isValuePart_of_declarator hfit _ (List.mem_map_of_mem he))


end AutoProperty
