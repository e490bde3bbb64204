import AutoProperty.Proofs.Syntax.BlankLines
import AutoProperty.Proofs.Syntax.Halves
import AutoProperty.Proofs.Syntax.Ledgers

/-! # Shapes of edited trees

A batch of edits reshapes a tree: nodes that are removed go away with their commas, what a node
is replaced with is up to the batch, and the rest keeps its shape. Only the trivia around tokens
is moved.
-/

namespace AutoProperty

/-- The tokens differ in the trivia around them, if at all. -/
def PlacedToken.SameCore (a a' : PlacedToken) : Prop :=
  a'.token.core = a.token.core

namespace PlacedToken.SameCore

variable {a a' : PlacedToken}

theorem kind (h : a.SameCore a') : a'.kind = a.kind := by
  have hkind := congrArg Token.kind h
  exact hkind

theorem text (h : a.SameCore a') : a'.text = a.text := by
  have htext := congrArg Token.text h
  exact htext

end PlacedToken.SameCore

/-! ## Elements that differ in trivia -/

namespace Element

variable {f : Token → Token}

mutual

/-- A change that keeps the core of tokens keeps that of the first one. -/
theorem core_mapFirst? (hf : ∀ t, (f t).core = t.core) (e : Element) {e' : Element}
    (h : e.mapFirst? f = some e') : e'.map Token.core = e.map Token.core := by
  cases e with
  | token t =>
    obtain rfl := Option.some.inj h
    rw [map_token, map_token, hf]
  | node kind children =>
    obtain ⟨children', hchildren, rfl⟩ := Option.map_eq_some_iff.mp h
    rw [map_node, map_node, core_mapFirstOf? hf children hchildren]

/-- A change that keeps the core of tokens keeps that of the first one of a list. -/
theorem core_mapFirstOf? (hf : ∀ t, (f t).core = t.core) (es : List Element) {es' : List Element}
    (h : mapFirstOf? f es = some es') : mapAll Token.core es' = mapAll Token.core es := by
  cases es with
  | nil => cases h
  | cons e es =>
    rw [mapFirstOf?] at h
    cases hfirst : e.mapFirst? f with
    | some e' =>
      rw [hfirst] at h
      obtain rfl := Option.some.inj h
      rw [mapAll_cons, mapAll_cons, core_mapFirst? hf e hfirst]
    | none =>
      rw [hfirst] at h
      obtain ⟨es', hothers, rfl⟩ := Option.map_eq_some_iff.mp h
      rw [mapAll_cons, mapAll_cons, core_mapFirstOf? hf es hothers]

end

mutual

/-- A change that keeps the core of tokens keeps that of the last one. -/
theorem core_mapLast? (hf : ∀ t, (f t).core = t.core) (e : Element) {e' : Element}
    (h : e.mapLast? f = some e') : e'.map Token.core = e.map Token.core := by
  cases e with
  | token t =>
    obtain rfl := Option.some.inj h
    rw [map_token, map_token, hf]
  | node kind children =>
    obtain ⟨children', hchildren, rfl⟩ := Option.map_eq_some_iff.mp h
    rw [map_node, map_node, core_mapLastOf? hf children hchildren]

/-- A change that keeps the core of tokens keeps that of the last one of a list. -/
theorem core_mapLastOf? (hf : ∀ t, (f t).core = t.core) (es : List Element) {es' : List Element}
    (h : mapLastOf? f es = some es') : mapAll Token.core es' = mapAll Token.core es := by
  cases es with
  | nil => cases h
  | cons e es =>
    rw [mapLastOf?] at h
    cases hlast : mapLastOf? f es with
    | some es'' =>
      rw [hlast] at h
      obtain rfl := Option.some.inj h
      rw [mapAll_cons, mapAll_cons, core_mapLastOf? hf es hlast]
    | none =>
      rw [hlast] at h
      obtain ⟨e', he, rfl⟩ := Option.map_eq_some_iff.mp h
      rw [mapAll_cons, mapAll_cons, core_mapLast? hf e he]

end

end Element

theorem Token.core_prepend (trivia : List Trivia) (t : Token) : (t.prepend trivia).core = t.core :=
  rfl

theorem core_receive (pending : List Trivia) (n : Node) :
    (receive pending n).1.element.map Token.core = n.element.map Token.core := by
  rw [receive]
  split
  next children hchildren =>
    rw [Node.element, Node.element, Element.map_node, Element.map_node]
    exact congrArg _ (Element.core_mapFirstOf? (Token.core_prepend pending) _ hchildren)
  next => rfl

namespace EditPlan.Spares

variable {plan : EditPlan}

/-- What is left as it is keeps its shape. -/
theorem core_rebuild (pending : List Trivia) {p : Placed} (h : plan.Spares [p]) :
    ∃ e, (plan.rebuild pending p).1 = some e ∧ e.map Token.core = p.element.map Token.core := by
  rw [h.rebuild pending]
  cases hfirst : p.element.mapFirst? (Token.prepend pending) with
  | some e => exact ⟨e, rfl, Element.core_mapFirst? (Token.core_prepend pending) _ hfirst⟩
  | none => exact ⟨_, rfl, rfl⟩

end EditPlan.Spares

namespace Placed

theorem Sited.isToken {tree : Tree} {above : List PlacedNode} {leaf : PlacedToken}
    (h : Sited tree above [.token leaf]) : leaf.kind.isToken := by
  cases h.conforms _ List.mem_cons_self with
  | token hkind => exact hkind

mutual

/-- Elements that are the same but for trivia are alike wherever they stand. -/
theorem alike_of_core (p q : Placed) (h : q.element.map Token.core = p.element.map Token.core) :
    Alike PlacedToken.SameCore (fun _ _ => True) p q := by
  cases p with
  | token a =>
    cases q with
    | token b =>
      rw [element, element, Element.map_token, Element.map_token] at h
      exact .token (Element.token.inj h)
    | node info children =>
      rw [element, element, Element.map_token, Element.map_node] at h
      cases h
  | node info children =>
    cases q with
    | token b =>
      rw [element, element, Element.map_token, Element.map_node] at h
      cases h
    | node info' children' =>
      rw [element, element, Element.map_node, Element.map_node] at h
      obtain ⟨hkind, hchildren⟩ := Element.node.inj h
      exact .node trivial hkind (alikes_of_core children children' hchildren)

/-- Elements with the same cores are alike. -/
theorem alikes_of_core (ps qs : List Placed)
    (h : Element.mapAll Token.core (elementsOf qs) = Element.mapAll Token.core (elementsOf ps)) :
    Alikes PlacedToken.SameCore (fun _ _ => True) ps qs := by
  cases ps with
  | nil =>
    cases qs with
    | nil => exact .nil
    | cons q qs =>
      rw [elementsOf, elementsOf, Element.mapAll_cons, Element.mapAll_nil] at h
      cases h
  | cons p ps =>
    cases qs with
    | nil =>
      rw [elementsOf, elementsOf, Element.mapAll_cons, Element.mapAll_nil] at h
      cases h
    | cons q qs =>
      rw [elementsOf, elementsOf, Element.mapAll_cons, Element.mapAll_cons] at h
      obtain ⟨hfirst, hothers⟩ := List.cons.inj h
      exact .cons (alike_of_core p q hfirst) (alikes_of_core ps qs hothers)

end

/-! ## What elements become -/

/-- The elements of a node become others, wherever these stand and whatever the trivia around
their tokens is. -/
def Becomes (c : Reshaping) (m : PlacedNode) (ps : List Placed) (es : List Element) : Prop :=
  ∀ qs, Element.mapAll Token.core (elementsOf qs) = Element.mapAll Token.core es →
    Reshaped PlacedToken.SameCore (fun _ _ => True) c m ps qs

namespace Becomes

variable {c : Reshaping} {m n : PlacedNode} {p : Placed} {ps rs : List Placed} {e : Element}
  {es fs : List Element}

/-- A list with the same cores begins with an element of the same core. -/
theorem exists_cons_of_core {qs : List Placed}
    (h : Element.mapAll Token.core (elementsOf qs) = Element.mapAll Token.core (e :: es)) :
    ∃ q qs', qs = q :: qs' ∧ q.element.map Token.core = e.map Token.core ∧
      Element.mapAll Token.core (elementsOf qs') = Element.mapAll Token.core es := by
  cases qs with
  | nil =>
    rw [elementsOf, Element.mapAll_nil, Element.mapAll_cons] at h
    cases h
  | cons q qs =>
    rw [elementsOf, Element.mapAll_cons, Element.mapAll_cons] at h
    exact ⟨q, qs, rfl, List.cons.inj h⟩

/-- Trivia does not matter. -/
theorem of_core (h : Becomes c m ps es)
    (hcore : Element.mapAll Token.core fs = Element.mapAll Token.core es) : Becomes c m ps fs :=
  fun qs hqs => h qs (hqs.trans hcore)

theorem nil : Becomes c m [] [] := by
  intro qs hqs
  cases qs with
  | nil => exact .nil
  | cons q qs =>
    rw [elementsOf, Element.mapAll_cons, Element.mapAll_nil] at hqs
    cases hqs

theorem keep (hp : c.kept p) (he : e.map Token.core = p.element.map Token.core)
    (h : Becomes c m ps es) : Becomes c m (p :: ps) (e :: es) := by
  intro qs hqs
  obtain ⟨q, qs, rfl, hq, hqs⟩ := exists_cons_of_core hqs
  exact .keep hp (alike_of_core p q (hq.trans he)) (h qs hqs)

/-- What happens within a node that may be opened is a change of the node. -/
theorem inside (hn : c.opened n) (hchildren : Becomes c n n.children fs) (h : Becomes c m ps es) :
    Becomes c m (n.placed :: ps) (.node n.kind fs :: es) := by
  intro qs hqs
  obtain ⟨q, qs, rfl, hq, hothers⟩ := exists_cons_of_core hqs
  cases q with
  | token b =>
    rw [element, Element.map_token, Element.map_node] at hq
    cases hq
  | node info children =>
    rw [element, Element.map_node, Element.map_node] at hq
    obtain ⟨hkind, hq⟩ := Element.node.inj hq
    exact .inside hn trivial (show (PlacedNode.mk info children).kind = n.kind from hkind)
      (hchildren children hq) (h qs hothers)

theorem drop (hp : c.dropped p) (h : Becomes c m ps es) : Becomes c m (p :: ps) es :=
  fun qs hqs => .drop hp (h qs hqs)

theorem add (he : ∀ q, q.element.map Token.core = e.map Token.core → c.added m q)
    (h : Becomes c m ps es) : Becomes c m ps (e :: es) := by
  intro qs hqs
  obtain ⟨q, qs, rfl, hq, hqs⟩ := exists_cons_of_core hqs
  exact .add (he q hq) (h qs hqs)

theorem append (h : Becomes c m ps es) (h' : Becomes c m rs fs) :
    Becomes c m (ps ++ rs) (es ++ fs) := by
  intro qs hqs
  rw [elementsOf_eq_map, Element.mapAll_append, Element.mapAll_eq_map, List.map_map] at hqs
  obtain ⟨qs, qs', rfl, hfirst, hothers⟩ := List.map_eq_append_iff.mp hqs
  rw [← List.map_map, ← Element.mapAll_eq_map, ← elementsOf_eq_map] at hfirst hothers
  exact (h qs hfirst).append (h' qs' hothers)

end Becomes

end Placed

/-! ## What a batch makes of a tree -/

/-- A plan does to a tree what a change allows. Nodes that hold what is edited can be told by
what is around them. -/
structure EditPlan.Performs (plan : EditPlan) (tree : Tree) (c : Reshaping)
    (around : PlacedNode → Prop) : Prop where
  removed {f : Focus} {id : NodeId} {keep : KeepOptions} : f ∈ tree.nodes →
    plan.edit? f.node.info = some (.remove id keep) →
    c.dropped f.node.placed
  replaced {f : Focus} {id : NodeId} {new : Node} (m : PlacedNode) : f ∈ tree.nodes →
    plan.edit? f.node.info = some (.replace id new) →
    Placed.Becomes c m [f.node.placed] [new.element]
  dropped {g : TokenFocus} : g ∈ tree.tokens → plan.drops g.leaf → c.dropped (.token g.leaf)
  keeps {g : TokenFocus} : g ∈ tree.tokens → g.leaf.kind.isToken → c.kept (.token g.leaf)
  /-- Where nothing is edited, elements are kept. -/
  otherwise {f : Focus} : f ∈ tree.nodes → f.above ≠ [] → (∀ n ∈ f.above, around n) →
    plan.edit? f.node.info = none →
    c.opened f.node ∧ around f.node ∨ c.kept f.node.placed ∧ plan.Spares [f.node.placed]

namespace EditPlan.Performs

variable {plan : EditPlan} {tree : Tree} {c : Reshaping} {around : PlacedNode → Prop}

mutual

/-- Rebuilding changes elements as the plan performs. -/
theorem becomes_rebuild (h : plan.Performs tree c around) (m : PlacedNode) {above : List PlacedNode}
    (hne : above ≠ []) (habove : ∀ n ∈ above, around n) (pending : List Trivia) (p : Placed)
    (hsited : Placed.Sited tree above [p]) :
    Placed.Becomes c m [p] (plan.rebuild pending p).1.toList := by
  cases p with
  | token leaf =>
    rw [EditPlan.rebuild]
    split
    next hdrops => exact .drop (h.dropped hsited.tokenFocus_mem hdrops) .nil
    next =>
      refine .keep (h.keeps hsited.tokenFocus_mem hsited.isToken) ?_ .nil
      rw [Placed.element, Element.map_token, Element.map_token, Token.core_prepend]
  | node info children =>
    have hf := hsited.focus_mem
    cases hedit : plan.edit? info with
    | some edit =>
      rw [EditPlan.rebuild, hedit]
      cases edit with
      | remove id keep => exact .drop (h.removed hf hedit) .nil
      | replace id new =>
        refine (h.replaced m hf hedit).of_core ?_
        dsimp only [Option.toList]
        rw [Element.mapAll_cons, Element.mapAll_cons, core_receive]
    | none =>
      obtain ⟨hopened, haround⟩ | ⟨hkept, hspares⟩ := h.otherwise hf hne habove hedit
      · rw [EditPlan.rebuild, hedit]
        exact .inside (n := ⟨info, children⟩) hopened
          (becomes_rebuildAll h ⟨info, children⟩ (List.cons_ne_nil _ _)
            (List.forall_mem_cons.mpr ⟨haround, habove⟩) pending children
            hsited.children) .nil
      · obtain ⟨e, he, hcore⟩ := hspares.core_rebuild pending
        rw [show plan.rebuild pending (.node info children) = plan.rebuild pending
          (PlacedNode.mk info children).placed from rfl, he]
        exact .keep hkept hcore .nil

theorem becomes_rebuildAll (h : plan.Performs tree c around) (m : PlacedNode)
    {above : List PlacedNode} (hne : above ≠ []) (habove : ∀ n ∈ above, around n)
    (pending : List Trivia) (ps : List Placed) (hsited : Placed.Sited tree above ps) :
    Placed.Becomes c m ps (plan.rebuildAll pending ps).1 := by
  cases ps with
  | nil => exact .nil
  | cons p ps =>
    rw [EditPlan.rebuildAll]
    exact (becomes_rebuild h m hne habove pending p hsited.head).append
      (becomes_rebuildAll h m hne habove _ ps hsited.tail)

end

end EditPlan.Performs

end AutoProperty
