import AutoProperty.Proofs.Syntax.Foci

/-! # Extents

Elements side by side lie one behind the other, and a node reaches from the first to the last of
them. So it covers each of the tokens among its children.
-/

namespace AutoProperty

namespace Placed

/-- The elements lie one behind the other between two offsets. -/
structure Aligned (start stop : Nat) (ps : List Placed) : Prop where
  within : ∀ p ∈ ps, ∀ x ∈ p.extent?, start ≤ x.start ∧ x.start ≤ x.stop ∧ x.stop ≤ stop
  ordered : ps.Pairwise fun p q => ∀ x ∈ p.extent?, ∀ y ∈ q.extent?, x.stop ≤ y.start

theorem extentOf?_eq (ps : List Placed) :
    extentOf? ps = (ps.filterMap extent?).head?.bind fun first =>
      (ps.filterMap extent?).getLast?.map fun last => ⟨first.start, last.stop⟩ := by
  rw [List.head?_filterMap, List.getLast?_filterMap, extentOf?]
  cases ps.findSome? extent? with
  | none => rfl
  | some first => cases ps.reverse.findSome? extent? <;> rfl

/-- Elements side by side cover each of them. -/
theorem Aligned.covers {start stop : Nat} {ps : List Placed} (h : Aligned start stop ps)
    {p : Placed} (hp : p ∈ ps) {x : Span} (hx : p.extent? = some x) :
    ∃ e, extentOf? ps = some e ∧ e.start ≤ x.start ∧ x.stop ≤ e.stop := by
  have hmem : x ∈ ps.filterMap extent? := List.mem_filterMap.mpr ⟨p, hp, hx⟩
  have hordered : (ps.filterMap extent?).Pairwise fun x y => x.stop ≤ y.start :=
    List.Pairwise.filterMap extent? (fun p q hpq x hx y hy => hpq x hx y hy) h.ordered
  have hspan : ∀ x ∈ ps.filterMap extent?, x.start ≤ x.stop := by
    intro x hx
    obtain ⟨p, hp, hx⟩ := List.mem_filterMap.mp hx
    exact (h.within p hp x hx).2.1
  rw [extentOf?_eq]
  generalize ps.filterMap extent? = xs at hmem hordered hspan
  obtain ⟨first, rest, rfl⟩ := List.exists_cons_of_ne_nil (List.ne_nil_of_mem hmem)
  obtain ⟨last, hlast⟩ : ∃ last, (first :: rest).getLast? = some last :=
    ⟨_, List.getLast?_eq_some_getLast (List.cons_ne_nil _ _)⟩
  refine ⟨⟨first.start, last.stop⟩, by rw [hlast]; rfl, ?_, ?_⟩
  · obtain rfl | hrest := List.mem_cons.mp hmem
    · exact Nat.le_refl _
    · have := (List.pairwise_cons.mp hordered).1 x hrest
      have := hspan first List.mem_cons_self
      dsimp only
      omega
  · obtain ⟨init, hinit⟩ := List.getLast?_eq_some_iff.mp hlast
    rw [hinit] at hmem hordered hspan
    obtain hmem | hmem := List.mem_append.mp hmem
    · have := (List.pairwise_append.mp hordered).2.2 x hmem last (List.mem_singleton_self _)
      have := hspan last (List.mem_append_right _ (List.mem_singleton_self _))
      dsimp only
      omega
    · obtain rfl := List.mem_singleton.mp hmem
      exact Nat.le_refl _

/-- Spans in a row stay between the ends of the row. -/
theorem Aligned.bounds {start stop : Nat} {ps : List Placed} (h : Aligned start stop ps) {e : Span}
    (he : extentOf? ps = some e) : start ≤ e.start ∧ e.start ≤ e.stop ∧ e.stop ≤ stop := by
  have hfirst := he
  rw [extentOf?_eq] at hfirst
  obtain ⟨first, hhead, hmap⟩ := Option.bind_eq_some_iff.mp hfirst
  obtain ⟨last, hlast, rfl⟩ := Option.map_eq_some_iff.mp hmap
  obtain ⟨p, hp, hpx⟩ := List.mem_filterMap.mp (List.mem_of_head? hhead)
  obtain ⟨q, hq, hqx⟩ := List.mem_filterMap.mp (List.mem_of_getLast? hlast)
  have hwithin := h.within p hp first hpx
  have hwithin' := h.within q hq last hqx
  obtain ⟨e, he', _, hcovers⟩ := h.covers hp hpx
  obtain rfl := Option.some.inj (he.symm.trans he')
  dsimp only at hcovers ⊢
  omega

end Placed

def PlacedNode.Spans (n : PlacedNode) : Prop :=
  n.info.extent? = Placed.extentOf? n.children ∧ ∃ start stop, Placed.Aligned start stop n.children

/-- A node covers the tokens among its children. -/
theorem PlacedNode.Spans.covers {n : PlacedNode} (h : n.Spans) {leaf : PlacedToken}
    (hleaf : leaf ∈ n.childTokens) :
    n.span.start ≤ leaf.span.start ∧ leaf.span.stop ≤ n.span.stop := by
  obtain ⟨hextent, _, _, haligned⟩ := h
  obtain ⟨e, he, hcovers⟩ := haligned.covers (PlacedNode.mem_childTokens.mp hleaf) rfl
  rw [PlacedNode.span, hextent, he]
  exact hcovers

namespace Element

theorem offset_le_place (c : Cursor) (e : Element) : c.offset ≤ (e.place c).2.offset := by
  rw [(tokens_place c e).2.2]
  exact Nat.le_add_right _ _

mutual

/-- Placing an element spans it from its first token to its last one. -/
theorem spans_place (c : Cursor) (above : List PlacedNode) (e : Element) :
    (∀ x ∈ (e.place c).1.extent?, c.offset ≤ x.start ∧ x.start ≤ x.stop ∧
      x.stop ≤ (e.place c).2.offset) ∧ ∀ f ∈ (e.place c).1.foci above, f.node.Spans := by
  cases e with
  | token t =>
    refine ⟨fun x hx => ?_, nofun⟩
    obtain rfl : (PlacedToken.mk c.token c.offset t).span = x := Option.some.inj hx
    have hspan := (PlacedToken.mk c.token c.offset t).span_le
    exact ⟨hspan.1, by omega, hspan.2.2⟩
  | node kind children =>
    obtain ⟨haligned, hfoci⟩ := spans_placeAll { c with node := c.node + 1 } (_ :: above) children
    refine ⟨fun x hx => haligned.bounds hx, List.forall_mem_cons.mpr ⟨⟨rfl, _, _, haligned⟩, hfoci⟩⟩

/-- Placing puts elements one behind the other. -/
theorem spans_placeAll (c : Cursor) (above : List PlacedNode) (es : List Element) :
    Placed.Aligned c.offset (placeAll c es).2.offset (placeAll c es).1 ∧
      ∀ f ∈ Placed.fociOf above (placeAll c es).1, f.node.Spans := by
  cases es with
  | nil => exact ⟨⟨nofun, .nil⟩, nofun⟩
  | cons e es =>
    obtain ⟨hfirst, hfoci⟩ := spans_place c above e
    obtain ⟨⟨hwithin, hordered⟩, hfoci'⟩ := spans_placeAll (e.place c).2 above es
    have hlast : (e.place c).2.offset ≤ (placeAll (e.place c).2 es).2.offset := by
      rw [(tokens_placeAll (e.place c).2 es).2.2]
      exact Nat.le_add_right _ _
    have hstart := offset_le_place c e
    refine ⟨⟨List.forall_mem_cons.mpr ⟨fun x hx => ?_, fun p hp x hx => ?_⟩,
      .cons (fun p hp x hx y hy => ?_) hordered⟩, ?_⟩
    · have := hfirst x hx
      show _ ∧ _ ∧ x.stop ≤ (placeAll (e.place c).2 es).2.offset
      omega
    · have := hwithin p hp x hx
      show _ ∧ _ ∧ x.stop ≤ (placeAll (e.place c).2 es).2.offset
      omega
    · have := hfirst x hx
      have := hwithin p hp y hy
      omega
    · exact fun f hf => (List.mem_append.mp hf).elim (hfoci f) (hfoci' f)

end

end Element

/-- Each node of a tree reaches from its first child to its last one. -/
theorem Tree.spans {t : Tree} {f : Focus} (hf : f ∈ t.nodes) : f.node.Spans := by
  obtain ⟨haligned, hfoci⟩ :=
    Element.spans_placeAll { Cursor.start with node := 1 } [t.top] t.root.children
  rw [← Tree.top_children] at haligned hfoci
  rw [nodes_eq] at hf
  obtain rfl | hf := List.mem_cons.mp hf
  · refine ⟨?_, _, _, haligned⟩
    rw [top_eq]
    rfl
  · exact hfoci f hf

end AutoProperty
