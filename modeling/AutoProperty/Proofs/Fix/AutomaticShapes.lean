import AutoProperty.Proofs.Fix.Automatic
import AutoProperty.Proofs.Fix.Splicing
import AutoProperty.Proofs.Symbol.Ledgered
import AutoProperty.Proofs.Symbol.Tracing

/-! # Shapes of automatic properties

A property that becomes automatic keeps its shape, but for the bodies of its accessors, its
expression body, and what comes in for them. The splice takes out these bodies and a field.
-/

namespace AutoProperty

/-- The bodies that a property loses when it becomes automatic. -/
def PlacedNode.bodies (property : PlacedNode) : List PlacedNode :=
  property.childrenOf .arrowExpressionClause ++
    (property.childrenOf .accessorList).flatMap fun list =>
      list.childNodes.flatMap PlacedNode.childNodes

theorem PlacedNode.mem_bodies {n b : PlacedNode} :
    b ∈ n.bodies ↔ b ∈ n.childNodes ∧ b.kind = .arrowExpressionClause ∨ ∃ list ∈ n.childNodes,
      list.kind = .accessorList ∧ ∃ accessor ∈ list.childNodes, b ∈ accessor.childNodes := by
  simp only [bodies, childrenOf, List.mem_append, List.mem_filter, List.mem_flatMap, beq_iff_eq,
    and_assoc]

/-! ## What the splice does to a document -/

/-- What is taken out of a document with a field, and the property that becomes automatic there. -/
structure Cut where
  removed? : Option PlacedNode
  property? : Option PlacedNode

namespace Cut

/-- What goes away from the document. -/
def gone (cut : Cut) : List PlacedNode :=
  cut.removed?.toList ++ cut.property?.toList.flatMap PlacedNode.bodies

theorem mem_gone {cut : Cut} {n : PlacedNode} :
    n ∈ cut.gone ↔
      cut.removed? = some n ∨ ∃ property, cut.property? = some property ∧ n ∈ property.bodies := by
  simp [gone]

/-- Fields and bodies go away, with punctuation around them. Punctuation comes in, and a
property gets an accessor list, or an initial value if it has none. -/
def change (cut : Cut) : Reshaping where
  kept p :=
    (¬p.kind.isScope ∧ p.kind ≠ .block ∧ p.kind ≠ .arrowExpressionClause ∧ p.kind ≠ .accessorList ∧
      ¬p.kind.isAccessor) ∧
    ∀ n ∈ p.nodes, n ∉ cut.gone ∧ cut.property? ≠ some n
  opened n :=
  n ∉ cut.gone ∧ (n.kind.isScope ∨ n.kind = .fieldDeclaration ∨ n.kind = .variableDeclaration ∨
    cut.property? = some n ∨
    n.kind = .accessorList ∨ n.kind.isAccessor)
  dropped p := (∃ n ∈ cut.gone, p = n.placed) ∨ ∃ a : PlacedToken,
  p = .token a ∧ a.kind ≠ .identifierToken ∧ a.kind.isToken
  added m p := (∃ a : PlacedToken, p = .token a ∧ a.kind ≠ .identifierToken ∧ a.kind.isToken) ∨
  cut.property? = some m ∧ Placed.Undeclaring [p] ∧
    (p.kind = .accessorList ∧ (∀ a ∈ p.tokens, a.kind ≠ .identifierToken) ∨
      p.kind = .equalsValueClause ∧ m.child? .equalsValueClause = none)

/-- What may go away. -/
structure Allowed (cut : Cut) : Prop where
  gone : ∀ n ∈ cut.gone, n.kind = .fieldDeclaration ∨ n.kind = .variableDeclarator ∨
    n.kind = .block ∨ n.kind = .arrowExpressionClause
  property : ∀ n, cut.property? = some n → n.kind = .propertyDeclaration

/-- A property and what makes up its accessor list does not go away. -/
theorem Allowed.notMem_gone {cut : Cut} (h : cut.Allowed) {n : PlacedNode}
    (hkind : n.kind = .propertyDeclaration ∨ n.kind = .accessorList ∨ n.kind.isAccessor ∨
      n.kind = .skippedTokens) : n ∉ cut.gone := by
  intro hgone
  obtain hn | hn | hn | hn := h.gone n hgone <;> rw [hn] at hkind <;> revert hkind <;> decide

/-- A cut takes out only what may go away, and opens only what may be opened. -/
theorem Allowed.isRevising {cut : Cut} (h : cut.Allowed) : Ledger.IsRevising cut.change where
  opened hn := by
    obtain ⟨_, hn⟩ := hn
    obtain hn | hn | hn | hn | hn | hn := hn
    · exact .inl hn
    · exact .inr (.inl hn)
    · exact .inr (.inr (.inl hn))
    · exact .inr (.inr (.inr (.inl (h.property _ hn))))
    · exact .inr (.inr (.inr (.inr (.inl hn))))
    · exact .inr (.inr (.inr (.inr (.inr hn))))
  dropped {p} hp := by
    obtain ⟨n, hn, rfl⟩ | ⟨a, rfl, hne, htoken⟩ := hp
    · have hkind : n.placed.kind = n.kind := rfl
      rw [hkind]
      obtain hn | hn | hn | hn := h.gone n hn <;> rw [hn] <;> decide
    · exact ⟨hne, .inl htoken⟩
  added {n p} hp := by
    obtain ⟨a, rfl, hne, htoken⟩ | ⟨_, _, ⟨hkind, _⟩ | ⟨hkind, _⟩⟩ := hp
    · exact ⟨hne, .inl htoken⟩
    · exact ⟨by rw [hkind]; decide, .inr (.inl hkind)⟩
    · exact ⟨by rw [hkind]; decide, .inr (.inr hkind)⟩
  kept hp := hp.1
  undeclaring hp := by
    obtain ⟨a, rfl, _⟩ | ⟨_, hnone, _⟩ := hp
    · exact fun _ hn => absurd hn List.not_mem_nil
    · exact hnone

end Cut

/-! ## What elements hold -/

theorem Tree.exists_focus_of_descendant {tree : Tree} {f : Focus} (hf : f ∈ tree.nodes)
    {n : PlacedNode} (hn : n ∈ f.node.descendants) : ∃ g ∈ tree.nodes, g.node = n := by
  rw [PlacedNode.descendants, ← Placed.node_foci f.above] at hn
  obtain ⟨g, hg, rfl⟩ := List.mem_map.mp hn
  obtain rfl | hg := List.mem_cons.mp hg
  · exact ⟨_, hf, rfl⟩
  · rw [nodes_eq] at hf ⊢
    exact ⟨g, Placed.foci_of_mem_foci _ hf hg, rfl⟩

/-- A node is in another one if that is around it. -/
theorem Tree.mem_descendants_iff {tree : Tree} {f g : Focus} (hf : f ∈ tree.nodes)
    (hg : g ∈ tree.nodes) : g.node ∈ f.node.descendants ↔ f.node ∈ g.ancestors := by
  rw [← isIn_iff hf hg]
  exact any_index hf fun m hm => (exists_focus_of_ancestor hg hm).elim fun _ ⟨after, _, hafter⟩ =>
    ⟨after, hafter⟩

namespace Placed

variable {leaf : PlacedToken → PlacedToken → Prop} {node : Nat → Nat → Prop}

mutual

theorem Alike.exists_node {p p' : Placed} (h : Alike leaf node p p') :
    ∀ n' ∈ p'.nodes, ∃ n ∈ p.nodes, n'.kind = n.kind := by
  cases h with
  | token => exact fun _ hn => absurd hn List.not_mem_nil
  | @node info info' children children' _ hkind hchildren =>
    refine List.forall_mem_cons.mpr ⟨⟨_, List.mem_cons_self, hkind⟩, fun n' hn' => ?_⟩
    obtain ⟨n, hn, hkind⟩ := Alikes.exists_node hchildren n' hn'
    exact ⟨n, List.mem_cons_of_mem _ hn, hkind⟩

/-- Alike elements have nodes of the same kinds. -/
theorem Alikes.exists_node {ps ps' : List Placed} (h : Alikes leaf node ps ps') :
    ∀ n' ∈ nodesOf ps', ∃ n ∈ nodesOf ps, n'.kind = n.kind := by
  cases h with
  | nil => exact fun _ hn => absurd hn List.not_mem_nil
  | cons hp hps =>
    refine List.forall_mem_append.mpr ⟨fun n' hn' => ?_, fun n' hn' => ?_⟩
    · obtain ⟨n, hn, hkind⟩ := Alike.exists_node hp n' hn'
      exact ⟨n, List.mem_append_left _ hn, hkind⟩
    · obtain ⟨n, hn, hkind⟩ := Alikes.exists_node hps n' hn'
      exact ⟨n, List.mem_append_right _ hn, hkind⟩

end

theorem Undeclaring.of_alike {p q : Placed} (h : Undeclaring [p]) (ha : Alike leaf node p q) :
    Undeclaring [q] := by
  intro n' hn'
  rw [nodesOf, nodesOf, List.append_nil] at hn'
  obtain ⟨n, hn, hkind⟩ := ha.exists_node n' hn'
  rw [hkind]
  exact h n (by rwa [nodesOf, nodesOf, List.append_nil])

/-- What an element is, its placed form is, too. -/
theorem exists_of_node {p : Placed} {kind : Kind} {es : List Element}
    (h : p.element = .node kind es) :
    ∃ n : PlacedNode, p = n.placed ∧ n.kind = kind ∧ elementsOf n.children = es := by
  cases p with
  | token a => cases h
  | node info children =>
    obtain ⟨hkind, hchildren⟩ := Element.node.inj h
    exact ⟨⟨info, children⟩, rfl, hkind, hchildren⟩

theorem exists_of_token {p : Placed} {t : Token} (h : p.element = .token t) :
    ∃ a : PlacedToken, p = .token a ∧ a.token = t := by
  cases p with
  | token a => exact ⟨a, rfl, Element.token.inj h⟩
  | node info children => cases h

theorem exists_of_elementsOf_append {ps : List Placed} {es fs : List Element}
    (h : elementsOf ps = es ++ fs) :
    ∃ qs rs, ps = qs ++ rs ∧ elementsOf qs = es ∧ elementsOf rs = fs := by
  rw [elementsOf_eq_map] at h
  obtain ⟨qs, rs, rfl, hqs, hrs⟩ := List.map_eq_append_iff.mp h
  exact ⟨qs, rs, rfl, by rw [elementsOf_eq_map, hqs], by rw [elementsOf_eq_map, hrs]⟩

theorem exists_of_elementsOf_cons {ps : List Placed} {e : Element} {es : List Element}
    (h : elementsOf ps = e :: es) : ∃ q qs, ps = q :: qs ∧ q.element = e ∧ elementsOf qs = es := by
  cases ps with
  | nil => cases h
  | cons q qs => exact ⟨q, qs, rfl, List.cons.inj h⟩

theorem Sited.append {tree : Tree} {above : List PlacedNode} {ps qs : List Placed}
    (h : Sited tree above (ps ++ qs)) : Sited tree above ps ∧ Sited tree above qs := by
  obtain ⟨hconforms, hnodes, htokens⟩ := h
  rw [fociOf_append] at hnodes
  rw [tokenFociOf_append] at htokens
  obtain ⟨hps, hqs⟩ := List.forall_mem_append.mp hconforms
  exact ⟨⟨hps, fun f hf => hnodes (List.mem_append_left _ hf),
    fun f hf => htokens (List.mem_append_left _ hf)⟩,
    ⟨hqs, fun f hf => hnodes (List.mem_append_right _ hf),
      fun f hf => htokens (List.mem_append_right _ hf)⟩⟩

theorem nodesOf_eq_nil {ps : List Placed} (h : ∀ p ∈ ps, ∃ a, p = .token a) : nodesOf ps = [] := by
  induction ps with
  | nil => rfl
  | cons p ps ih =>
    obtain ⟨⟨a, rfl⟩, hps⟩ := List.forall_mem_cons.mp h
    rw [nodesOf, ih hps]
    rfl

theorem Becomes.dropAll {c : Reshaping} {m : PlacedNode} {ps : List Placed} {es : List Element}
    (h : ∀ p ∈ ps, c.dropped p) (hes : Becomes c m [] es) : Becomes c m ps es := by
  induction ps with
  | nil => exact hes
  | cons p ps ih =>
    obtain ⟨hp, hps⟩ := List.forall_mem_cons.mp h
    exact .drop hp (ih hps)

theorem kind_of_core {q : Placed} {e : Element} (h : q.element.map Token.core = e.map Token.core) :
    q.kind = e.kind := by
  have hcore : KeepsKinds Token.core := ⟨fun _ _ => rfl, fun _ => rfl⟩
  have hkinds := congrArg Element.kind h
  rwa [Element.kind_map hcore, Element.kind_map hcore, Placed.kind_element] at hkinds

theorem Becomes.keepAll {c : Reshaping} (m : PlacedNode) {ps : List Placed}
    (h : ∀ p ∈ ps, c.kept p) : Becomes c m ps (elementsOf ps) := by
  induction ps with
  | nil => exact .nil
  | cons p ps ih =>
    obtain ⟨hp, hps⟩ := List.forall_mem_cons.mp h
    exact .keep hp rfl (ih hps)

end Placed

/-! ## The property -/

namespace Cut

variable {cut : Cut} {tree : Tree} {above : List PlacedNode} {n : PlacedNode}

/-- The property becomes automatic, and the field is not in it. -/
structure Strips (cut : Cut) (n : PlacedNode) : Prop where
  property : cut.property? = some n
  apart : ∀ m, cut.removed? = some m → m ∉ n.descendants

namespace Strips

theorem bodies (h : cut.Strips n) : ∀ b ∈ n.bodies, b ∈ cut.gone :=
  fun _ hb => mem_gone.mpr (.inr ⟨n, h.property, hb⟩)

theorem only (h : cut.Strips n) : ∀ b ∈ cut.gone, b ∈ n.descendants → b ∈ n.bodies := by
  intro b hgone hb
  obtain hremoved | ⟨property, hproperty, hbody⟩ := mem_gone.mp hgone
  · exact absurd hb (h.apart b hremoved)
  · obtain rfl := Option.some.inj (h.property.symm.trans hproperty)
    exact hbody

end Strips

theorem kept_token (cut : Cut) {a : PlacedToken} (h : a.kind.isToken) :
    cut.change.kept (.token a) := by
  refine ⟨?_, fun _ hn => absurd hn List.not_mem_nil⟩
  show ¬a.kind.isScope ∧ a.kind ≠ .block ∧ a.kind ≠ .arrowExpressionClause ∧
    a.kind ≠ .accessorList ∧ ¬a.kind.isAccessor
  revert h
  cases a.kind <;> decide

/-- Tokens are kept, if nothing else is to be done with them. -/
theorem kept_tokens (cut : Cut) {ps : List Placed} {ts : List Token}
    (hsited : Placed.Sited tree above ps) (h : Placed.elementsOf ps = ts.map .token) :
    ∀ p ∈ ps, cut.change.kept p := by
  intro p hp
  have hmem : p.element ∈ ts.map Element.token := by
    rw [← h, Placed.elementsOf_eq_map]
    exact List.mem_map_of_mem hp
  obtain ⟨t, _, ht⟩ := List.mem_map.mp hmem
  obtain ⟨a, rfl, _⟩ := Placed.exists_of_token ht.symm
  exact kept_token cut (hsited.mem hp).isToken

/-- Punctuation goes away. -/
theorem dropped_semicolon (cut : Cut) {p : Placed} (hsited : Placed.Sited tree above [p])
    (hkind : p.kind = .semicolonToken) : cut.change.dropped p := by
  obtain ⟨a, rfl⟩ := hsited.exists_token (by rw [hkind]; rfl)
  have hkind : a.kind = .semicolonToken := hkind
  exact .inr ⟨a, rfl, by rw [hkind]; decide, by rw [hkind]; rfl⟩

/-- Punctuation may come in anywhere. -/
theorem added_token (cut : Cut) (m : PlacedNode) {t : Token} (hkind : t.kind = .semicolonToken)
    {q : Placed} (hq : q.element.map Token.core = (Element.token t).map Token.core) :
    cut.change.added m q := by
  cases q with
  | token a =>
    have ha : a.kind = .semicolonToken := (Placed.kind_of_core hq).trans hkind
    exact .inl ⟨a, rfl, by rw [ha]; decide, by rw [ha]; rfl⟩
  | node info children =>
    rw [Placed.element, Element.map_node, Element.map_token] at hq
    cases hq

section Property

variable (h : cut.Strips n) (hsited : Placed.Sited tree above [n.placed])
include h hsited

/-- What is neither an accessor list nor an expression body is kept. -/
theorem Strips.kept {p : Placed} (hp : p ∈ n.children)
    (hkind : p.kind.isToken ∨ p.kind.isType ∨ p.kind = .equalsValueClause) : cut.change.kept p := by
  have hin : Placed.Sited tree (n :: above) n.children := hsited.children
  have hp' := hin.mem hp
  obtain htoken | hnode : p.kind.isToken ∨ p.kind.isType ∨ p.kind = .equalsValueClause := hkind
  · obtain ⟨a, rfl⟩ := hp'.exists_token htoken
    exact kept_token cut htoken
  have hkinds : ¬p.kind.isScope ∧ p.kind ≠ .block ∧ p.kind ≠ .arrowExpressionClause ∧
      p.kind ≠ .accessorList ∧ ¬p.kind.isAccessor := by
    revert hnode
    cases p.kind <;> decide
  obtain ⟨m, rfl⟩ := hp'.exists_node (by revert hnode; cases p.kind <;> decide)
  have hself := hsited.focus_mem
  have hm := hp'.focus_mem
  -- Nothing that is around the element or in an accessor list is in the element.
  have houtside {q : PlacedNode} (hq : q ∈ n :: above) : q ≠ m :=
    fun heq => Tree.index_ne_of_above_self hm hq (congrArg PlacedNode.index heq)
  refine ⟨hkinds, fun b hb => ⟨fun hgone => ?_, fun hproperty => ?_⟩⟩
  swap
  · obtain rfl := Option.some.inj (h.property.symm.trans hproperty)
    exact houtside ((Tree.mem_descendants_iff hm hself).mp hb) rfl
  have hbody := h.only b hgone <| by
    refine List.mem_cons_of_mem _ ?_
    obtain ⟨before, after, hchildren⟩ := List.append_of_mem hp
    rw [hchildren, Placed.nodesOf_append]
    exact List.mem_append_right _ (List.mem_append_left _ hb)
  obtain ⟨hchild, harrow⟩ | ⟨list, hlist, hlistKind, accessor, haccessor, hchild⟩ :=
    PlacedNode.mem_bodies.mp hbody
  · have hb' := Tree.child_mem hself hchild
    have habove := (Tree.mem_descendants_iff hm hb').mp hb
    obtain rfl | habove := List.mem_cons.mp habove
    · exact hkinds.2.2.1 harrow
    · exact houtside habove rfl
  · have ha := Tree.child_mem (Tree.child_mem hself hlist) haccessor
    have hb' := Tree.child_mem ha hchild
    -- The element stands right in the property, and what is in an accessor list does not.
    have hdeeper {g : Focus} (hg : g ∈ tree.nodes) (hlength : above.length + 1 < g.above.length) :
        g.node ≠ m := by
      rintro rfl
      have heq := congrArg (fun f => f.above.length) (Tree.focus_eq hm hg rfl)
      exact absurd hlength (by simp only [List.length_cons] at heq; omega)
    obtain heq | habove := List.mem_cons.mp ((Tree.mem_descendants_iff hm hb').mp hb)
    · exact hdeeper hb' (by simp) heq.symm
    obtain heq | habove := List.mem_cons.mp habove
    · exact hdeeper ha (by simp) heq.symm
    obtain rfl | habove := List.mem_cons.mp habove
    · exact hkinds.2.2.2.1 hlistKind
    · exact houtside habove rfl

omit hsited in
/-- The body of an accessor goes away. -/
theorem Strips.dropped_body {list accessor : PlacedNode} (hlist : list ∈ n.childNodes)
    (hlistKind : list.kind = .accessorList) (haccessor : accessor ∈ list.childNodes) {p : Placed}
    (hp : p ∈ accessor.children) {above : List PlacedNode} (hsited : Placed.Sited tree above [p])
    (hkind : p.kind = .block ∨ p.kind = .arrowExpressionClause ∨ p.kind = .semicolonToken) :
    cut.change.dropped p := by
  have hgone (hnode : p.kind.isNode) : cut.change.dropped p := by
    obtain ⟨b, rfl⟩ := hsited.exists_node hnode
    have hbody : b ∈ n.bodies :=
      PlacedNode.mem_bodies.mpr
        (.inr ⟨list, hlist, hlistKind, accessor, haccessor, PlacedNode.mem_childNodes.mpr hp⟩)
    exact .inl ⟨b, h.bodies b hbody, rfl⟩
  obtain hblock | harrow | hsemicolon := hkind
  · exact hgone (by rw [hblock]; rfl)
  · exact hgone (by rw [harrow]; rfl)
  · exact dropped_semicolon cut hsited hsemicolon

omit h hsited in
/-- Tokens that are skipped stay. -/
theorem kept_skipped (hcut : cut.Allowed) {a : PlacedNode}
    (hsited : Placed.Sited tree above [a.placed]) (hkind : a.kind = .skippedTokens) :
    cut.change.kept a.placed := by
  have hinner : Placed.Sited tree (a :: above) a.children := hsited.children
  have hfit : ChildrenFit a.kind (a.children.map Placed.kind) := hsited.fit
  rw [hkind] at hfit
  refine ⟨?_, fun b hb => ?_⟩
  · show ¬a.kind.isScope ∧ a.kind ≠ .block ∧ a.kind ≠ .arrowExpressionClause ∧
      a.kind ≠ .accessorList ∧ ¬a.kind.isAccessor
    rw [hkind]
    decide
  obtain rfl | hb := List.mem_cons.mp hb
  · refine ⟨hcut.notMem_gone (.inr (.inr (.inr hkind))), fun hproperty => ?_⟩
    exact absurd (hkind.symm.trans (hcut.property _ hproperty)) (by decide)
  · rw [Placed.nodesOf_eq_nil fun q hq => (hinner.mem hq).exists_token
      (hfit.2 _ (List.mem_map_of_mem hq))] at hb
    exact absurd hb List.not_mem_nil

/-- What an accessor becomes without its body. -/
theorem Strips.becomes_accessor (hcut : cut.Allowed) {list : PlacedNode}
    (hlist : list ∈ n.childNodes) (hlistKind : list.kind = .accessorList) {p : Placed}
    (hp : p ∈ list.children) {e : Element} (hstripped : p.element.Stripped e) :
    Placed.Becomes cut.change list [p] [e] := by
  have hin : Placed.Sited tree (list :: n :: above) list.children := by
    have hchildren : Placed.Sited tree (n :: above) n.children := hsited.children
    exact (hchildren.mem (PlacedNode.mem_childNodes.mp hlist)).children
  have hp' := hin.mem hp
  have hopened {a : PlacedNode} (ha : a.kind.isAccessor) : cut.change.opened a :=
    ⟨hcut.notMem_gone (.inr (.inr (.inl ha))), .inr (.inr (.inr (.inr (.inr ha))))⟩
  generalize helement : p.element = old at hstripped
  cases hstripped with
  | @bodiless kind modifiers keyword semicolon hkind _ _ _ =>
    obtain ⟨a, rfl, rfl, hchildren⟩ := Placed.exists_of_node helement
    have htokens : Placed.elementsOf a.children = (modifiers ++ [keyword, semicolon]).map
        .token := by
      rw [hchildren, List.map_append]
      rfl
    have hkept := Placed.Becomes.keepAll a (kept_tokens cut hp'.children htokens)
    rw [hchildren] at hkept
    exact .inside (hopened hkind) hkept .nil
  | @body kind modifiers keyword last body comments hkind _ _ hbody _ _ =>
    obtain ⟨a, rfl, rfl, hchildren⟩ := Placed.exists_of_node helement
    have hinner : Placed.Sited tree (a :: list :: n :: above) a.children := hp'.children
    obtain ⟨front, rest, hsplit, hfront, hrest⟩ := Placed.exists_of_elementsOf_append hchildren
    obtain ⟨word, bodies, rfl, hword, hbodies⟩ := Placed.exists_of_elementsOf_cons hrest
    have hmem {q : Placed} (hq : q ∈ front ∨ q = word ∨ q ∈ bodies) : q ∈ a.children := by
      rw [hsplit]
      simpa using hq
    have hfrontSited : Placed.Sited tree (a :: list :: n :: above) front :=
      (hsplit ▸ hinner).append.1
    obtain ⟨leaf, rfl, hleaf⟩ := Placed.exists_of_token hword
    have hdropped : ∀ q ∈ bodies, cut.change.dropped q := by
      intro q hq
      have hq' := hmem (.inr (.inr hq))
      refine h.dropped_body hlist hlistKind (PlacedNode.mem_childNodes.mpr hp) hq' (hinner.mem hq')
        ?_
      have hqKind : q.kind ∈ body.map Element.kind := by
        rw [← hbodies, Placed.map_kind_elementsOf]
        exact List.mem_map_of_mem hq
      obtain hbody | hbody := hbody <;> rw [hbody] at hqKind <;> simp at hqKind
      · exact .inl hqKind
      · exact .inr hqKind
    have hsemicolon : Placed.Becomes cut.change a bodies
        [.token ⟨.semicolonToken, ";", [], comments ++ last.trailing⟩] :=
      .dropAll hdropped (.add (fun q hq => added_token cut a rfl hq) .nil)
    have hkeyword : Placed.Becomes cut.change a (.token leaf :: bodies)
        (.token { keyword with trailing := [] } ::
          [.token ⟨.semicolonToken, ";", [], comments ++ last.trailing⟩]) := by
      refine .keep (kept_token cut (hinner.mem (hmem (.inr (.inl rfl)))).isToken) ?_ hsemicolon
      rw [Placed.element, Element.map_token, Element.map_token, hleaf]
      rfl
    have hall := (Placed.Becomes.keepAll a (kept_tokens cut hfrontSited hfront)).append hkeyword
    rw [hfront, ← hsplit] at hall
    exact .inside (hopened hkind) hall .nil
  | @skipped children =>
    obtain ⟨a, rfl, hkind, _⟩ := Placed.exists_of_node helement
    exact .keep (kept_skipped hcut hp' hkind) (by rw [helement]) .nil

/-- What the accessors become without their bodies. -/
theorem Strips.becomes_accessors (hcut : cut.Allowed) {list : PlacedNode}
    (hlist : list ∈ n.childNodes) (hlistKind : list.kind = .accessorList) {ps : List Placed}
    (hps : ∀ p ∈ ps, p ∈ list.children) {es fs : List Element} (hes : Placed.elementsOf ps = es)
    (hstripped : List.Forall₂ Element.Stripped es fs) : Placed.Becomes cut.change list ps fs := by
  induction hstripped generalizing ps with
  | nil =>
    obtain rfl : ps = [] := by simpa [Placed.elementsOf_eq_map] using hes
    exact .nil
  | cons hfirst _ ih =>
    obtain ⟨p, ps, rfl, rfl, hothers⟩ := Placed.exists_of_elementsOf_cons hes
    obtain ⟨hp, hps⟩ := List.forall_mem_cons.mp hps
    exact (h.becomes_accessor hsited hcut hlist hlistKind hp hfirst).append (ih hps hothers)

omit hsited in
/-- The accessor list in the place of an expression body has no names in it. -/
theorem Strips.added_getter {keyword inner opening closing : Token}
    (hwords : words [opening, keyword, inner, closing] =
      [(.openBraceToken, "\x7b"), (.getKeyword, "get"), (.semicolonToken, ";"),
        (.closeBraceToken, "\x7d")]) {q : Placed}
    (hq : q.element.map Token.core =
      (Element.ofAccessors opening [.ofAccessor .getAccessorDeclaration [] keyword [.token inner]]
        closing).map Token.core) : cut.change.added n q := by
  let getter :=
    Element.ofAccessors opening [.ofAccessor .getAccessorDeclaration [] keyword [.token inner]]
      closing
  have halike :=
    Placed.alike_of_core (getter.place Cursor.start).1 q (by rw [Element.element_place]; exact hq)
  refine .inr ⟨h.property, .of_alike ?_ halike, .inl ⟨?_, fun a' ha' => ?_⟩⟩
  · simp [getter, Placed.Undeclaring, Element.ofAccessors, Element.ofAccessor, Element.place,
      Element.placeAll, Placed.nodesOf, Placed.nodes, PlacedNode.kind]
  · exact Placed.kind_of_core hq
  · obtain ⟨a, ha, hcore⟩ := exists_of_forall₂ halike.tokens.flip ha'
    have hcore : a.SameCore a' := hcore
    rw [(Element.tokens_place _ _).1] at ha
    have hmem := (mem_leavesFrom ha).2.2.2.2
    have htokens : getter.tokens = [opening, keyword, inner, closing] := by
      simp [getter, Element.ofAccessors, Element.ofAccessor, Element.tokens, Element.tokensOf]
    rw [htokens] at hmem
    rw [hcore.kind]
    have hkind : (a.token.kind, a.token.text) ∈ words [opening, keyword, inner, closing] :=
      List.mem_map_of_mem hmem
    rw [hwords] at hkind
    show a.token.kind ≠ _
    simp only [List.mem_cons, Prod.mk.injEq, List.not_mem_nil, or_false] at hkind
    obtain ⟨heq, _⟩ | ⟨heq, _⟩ | ⟨heq, _⟩ | ⟨heq, _⟩ := hkind <;> rw [heq] <;> decide

/-- What stands behind the name of a property becomes an accessor list without bodies, and an
initial value of its own stays. -/
theorem Strips.becomes_body (hcut : cut.Allowed) {ps : List Placed} (hps : ∀ p ∈ ps, p ∈ n.children)
    {body own : List Element} {list : Element} (hbody : Placed.elementsOf ps = body)
    (hstripped : BodyStripped body list own) :
    ∃ qs rs, ps = qs ++ rs ∧ Placed.elementsOf rs = own ∧
      Placed.Becomes cut.change n qs [list] := by
  have hin : Placed.Sited tree (n :: above) n.children := hsited.children
  cases hstripped with
  | @accessors opening closing accessors stripped own haccessors hown =>
    obtain ⟨p, rs, rfl, hp, hrs⟩ := Placed.exists_of_elementsOf_cons hbody
    obtain ⟨l, rfl, hkind, hchildren⟩ := Placed.exists_of_node hp
    obtain ⟨hl, _⟩ := List.forall_mem_cons.mp hps
    have hinner : Placed.Sited tree (l :: n :: above) l.children := (hin.mem hl).children
    obtain ⟨first, others, hsplit, hfirst, hothers⟩ := Placed.exists_of_elementsOf_cons hchildren
    obtain ⟨middle, lasts, rfl, hmiddle, hlasts⟩ := Placed.exists_of_elementsOf_append hothers
    obtain ⟨last, nothing, rfl, hlast, hnothing⟩ := Placed.exists_of_elementsOf_cons hlasts
    obtain rfl : nothing = [] := by simpa [Placed.elementsOf_eq_map] using hnothing
    have hkept {q : Placed} (hq : q ∈ l.children) {t : Token} (hqt : q.element = .token t) :
        Placed.Becomes cut.change l [q] [.token t] := by
      obtain ⟨a, rfl, rfl⟩ := Placed.exists_of_token hqt
      exact .keep (kept_token cut (hinner.mem hq).isToken) rfl .nil
    have haccessors := h.becomes_accessors hsited hcut (PlacedNode.mem_childNodes.mpr hl) hkind
      (fun q (hq : q ∈ middle) => by rw [hsplit]; exact List.mem_cons_of_mem _ (List.mem_append_left
        _ hq)) hmiddle haccessors
    have hall := (hkept (by rw [hsplit]; exact List.mem_cons_self) hfirst).append
      (haccessors.append (hkept (by rw [hsplit]; simp) hlast))
    rw [List.singleton_append, ← hsplit] at hall
    have hopened : cut.change.opened l :=
      ⟨hcut.notMem_gone (.inr (.inl hkind)), .inr (.inr (.inr (.inr (.inl hkind))))⟩
    refine ⟨[l.placed], rs, rfl, hrs, ?_⟩
    have hinside := Placed.Becomes.inside (m := n) hopened hall .nil
    rw [hkind] at hinside
    exact hinside
  | @arrow value semicolon opening keyword inner closing hsemicolon hwords _ =>
    obtain ⟨p, others, rfl, hp, hothers⟩ := Placed.exists_of_elementsOf_cons hbody
    obtain ⟨q, nothing, rfl, hq, hnothing⟩ := Placed.exists_of_elementsOf_cons hothers
    obtain rfl : nothing = [] := by simpa [Placed.elementsOf_eq_map] using hnothing
    obtain ⟨b, rfl, hkind, _⟩ := Placed.exists_of_node hp
    obtain ⟨hb, hrest⟩ := List.forall_mem_cons.mp hps
    have hgone : b ∈ cut.gone :=
      h.bodies b (PlacedNode.mem_bodies.mpr (.inl ⟨PlacedNode.mem_childNodes.mpr hb, hkind⟩))
    have hqKind : q.kind = .semicolonToken := by
      rw [← Placed.kind_element, hq]
      exact hsemicolon
    refine ⟨_, [], (List.append_nil _).symm, rfl,
      .drop (.inl ⟨b, hgone, rfl⟩) (.drop ?_ (.add (fun q' hq' => ?_) .nil))⟩
    · exact dropped_semicolon cut (hin.mem (hrest q List.mem_cons_self)) hqKind
    · exact h.added_getter hwords hq'

omit hsited in
/-- An initial value comes into a property that has none. -/
theorem Strips.added_value {new : Element} (hnew : new.kind = .equalsValueClause)
    (hnone : ∀ e ∈ n.node.children, e.kind ≠ .equalsValueClause) {p : Placed} (hp : p.element = new)
    (hundeclaring : Placed.Undeclaring [p]) {q : Placed}
    (hq : q.element.map Token.core = new.map Token.core) : cut.change.added n q := by
  refine .inr ⟨h.property, hundeclaring.of_alike (Placed.alike_of_core p q (by rw [hp, hq])),
    .inr ⟨?_, ?_⟩⟩
  · exact (Placed.kind_of_core hq).trans hnew
  · refine List.find?_eq_none.mpr fun child hchild => ?_
    have hmem : child.placed.element ∈ n.node.children := by
      show _ ∈ Placed.elementsOf n.children
      rw [Placed.elementsOf_eq_map]
      exact List.mem_map_of_mem (PlacedNode.mem_childNodes.mp hchild)
    have hne := hnone _ hmem
    rw [Placed.kind_element] at hne
    exact fun heq => hne (beq_iff_eq.mp heq)

/-- A property becomes automatic. The initial value that comes in declares no locals. -/
theorem Strips.becomes_automated (hcut : cut.Allowed) {initializer? : Option Node} {new : Node}
    (hauto : n.node.Automated initializer? new)
    (hvalue : ∀ e ∈ new.children, e.kind = .equalsValueClause → e ∈ n.node.children ∨
      ∃ p, p.element = e ∧ Placed.Undeclaring [p]) (m : PlacedNode) :
    Placed.Becomes cut.change m [n.placed] [new.element] := by
  have hin : Placed.Sited tree (n :: above) n.children := hsited.children
  obtain ⟨hkind,
      ⟨modifiers, type, name, body, list, own, final, hmodifiers, htype, hname, hstripped, hvalued,
        hold, hnew⟩, _⟩ := hauto
  obtain ⟨front, rest, hsplit, hfront, hrest⟩ := Placed.exists_of_elementsOf_append hold
  have hmem {q : Placed} (hq : q ∈ front ∨ q ∈ rest) : q ∈ n.children := by
    rw [hsplit]
    exact List.mem_append.mpr hq
  have hkeptFront : ∀ q ∈ front, cut.change.kept q := by
    intro q hq
    refine h.kept hsited (hmem (.inl hq)) ?_
    have hqe : q.element ∈ modifiers ++ [type, .token name] := by
      rw [← hfront, Placed.elementsOf_eq_map]
      exact List.mem_map_of_mem hq
    rw [← Placed.kind_element]
    simp only [List.mem_append, List.mem_cons, List.not_mem_nil, or_false] at hqe
    obtain hqe | hqe | hqe := hqe
    · exact .inl (Kind.isToken_of_isModifier (hmodifiers _ hqe))
    · exact .inr (.inl (hqe ▸ htype))
    · rw [hqe, Element.kind_token, hname]
      exact .inl rfl
  have hfrontBecomes := Placed.Becomes.keepAll n hkeptFront
  obtain ⟨qs, rs, rfl, hrs, hlist⟩ :=
    h.becomes_body hsited hcut (fun q hq => hmem (.inr hq)) hrest hstripped
  have hown : Placed.Becomes cut.change n rs own := by
    rw [← hrs]
    refine .keepAll n fun q hq => h.kept hsited (hmem (.inr (List.mem_append_right _ hq))) ?_
    have hqKind : q.kind ∈ own.map Element.kind := by
      rw [← hrs, Placed.map_kind_elementsOf]
      exact List.mem_map_of_mem hq
    cases hstripped with
    | accessors _ hown =>
      obtain rfl | hown := hown
      · exact absurd hqKind List.not_mem_nil
      · rw [hown] at hqKind
        simp only [List.mem_cons, List.not_mem_nil, or_false] at hqKind
        obtain hqKind | hqKind := hqKind
        · exact .inr (.inr hqKind)
        · exact .inl (by rw [hqKind]; rfl)
    | arrow => exact absurd hqKind List.not_mem_nil
  have hrestBecomes : Placed.Becomes cut.change n (qs ++ rs) final := by
    cases hvalued with
    | own => exact hlist.append hown
    | @given expression value opening closing equals accessors _ _ _ =>
      obtain rfl : rs = [] := by simpa [Placed.elementsOf_eq_map] using hrs
      have hnone : ∀ e ∈ n.node.children, e.kind ≠ .equalsValueClause := by
        intro e he hkind
        rw [hold] at he
        obtain he | he := List.mem_append.mp he
        · exact (front_kinds hmodifiers htype hname e he).2 hkind
        · exact hstripped.mem_kinds_iff.mp (hkind ▸ List.mem_map_of_mem he) rfl
      have hadded : ∀ q : Placed, q.element.map Token.core =
          (Element.node .equalsValueClause [.token equals, value.element]).map Token.core →
          cut.change.added n q := by
        intro q hq
        obtain hown | ⟨p, hp, hundeclaring⟩ :=
          hvalue (.node .equalsValueClause [.token equals, value.element]) (by rw [hnew]; simp) rfl
        · exact absurd rfl (hnone _ hown)
        · exact h.added_value rfl hnone hp hundeclaring hq
      rw [List.append_nil]
      have hsemicolon : Placed.Becomes cut.change n []
          [.token ⟨.semicolonToken, ";", [], closing.trailing⟩] :=
        .add (fun q hq => added_token cut n rfl hq) .nil
      have hall := hlist.append (.add hadded hsemicolon)
      rw [List.append_nil] at hall
      refine hall.of_core ?_
      simp [Element.ofAccessors, Token.core, Token.bare]
  have hall := hfrontBecomes.append hrestBecomes
  rw [← hsplit, hfront, ← hnew] at hall
  have hopened : cut.change.opened n :=
    ⟨hcut.notMem_gone (.inl (hcut.property n h.property)), .inr (.inr (.inr (.inl h.property)))⟩
  have hinside := Placed.Becomes.inside (m := m) hopened hall .nil
  rw [Node.element, hkind]
  exact hinside

end Property

end Cut

end AutoProperty
