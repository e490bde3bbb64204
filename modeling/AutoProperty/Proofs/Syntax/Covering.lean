import AutoProperty.Proofs.Syntax.Offsets

/-! # Nodes that cover a span

A covering node is looked for among the nodes around one token, the one at the start of the
span. These are all the nodes that the start lies in, trivia included. A node that ends right
there is not among them: it covers the empty span at its end, but that offset belongs to the
next token if no trivia follows. So the search is exact for spans that are not empty, and for an
empty one it misses the nodes that end there.
-/

namespace AutoProperty

namespace Tree

variable {t : Tree} {f : Focus} {l : TokenFocus} {offset : Nat} {span : Span} {kind : Kind}

/-! ## Nodes around an offset -/

/-- The tokens of a node lie side by side from its start to its end. -/
theorem tiles_tokens (hf : f ∈ t.nodes) :
    Tiles f.node.full.start f.node.full.stop (f.node.tokens.map (·.full)) := by
  obtain ⟨c, e, hplaced⟩ := exists_place hf
  have hfull : f.node.full = ⟨c.offset, c.offset + byteLength (tokensText e.tokens)⟩ := by
    rw [← (Element.tokens_place c e).2.2, ← Element.full_place, hplaced]
    rfl
  have htokens : f.node.tokens = leavesFrom c.token c.offset e.tokens := by
    rw [← (Element.tokens_place c e).1, hplaced]
    rfl
  rw [hfull, htokens]
  exact tiles_leavesFrom c.token c.offset e.tokens

/-- The span of a node lies in it. -/
theorem span_within (hf : f ∈ t.nodes) :
    f.node.full.start ≤ f.node.span.start ∧ f.node.span.stop ≤ f.node.full.stop := by
  obtain ⟨c, e, hplaced⟩ := exists_place hf
  have hfull : f.node.info.full = ⟨c.offset, (e.place c).2.offset⟩ := by
    rw [← Element.full_place, hplaced]
    rfl
  have hextent := (Element.spans_place c f.above e).1
  rw [hplaced] at hextent
  rw [PlacedNode.span, PlacedNode.full, hfull]
  cases hinfo : f.node.info.extent? with
  | none => exact ⟨Nat.le_refl _, Element.offset_le_place c e⟩
  | some x =>
    have hx := hextent x hinfo
    exact ⟨hx.1, hx.2.2⟩

/-- The nodes around the token at an offset are those that the offset lies in. -/
theorem mem_above_iff (hf : f ∈ t.nodes) (hl : l ∈ t.tokens) (ho : l.leaf.full.contains offset) :
    f.node ∈ l.above ↔ f.node.full.contains offset := by
  have habove : l.isIn f.node = true ↔ f.node ∈ l.above :=
    any_index hf fun m hm => (List.append_of_mem hm).elim fun _ ⟨after, h⟩ =>
      ⟨after, mem_nodes_of_above_token hl h⟩
  have htiles := tiles_tokens hf
  rw [← habove, isIn_token_iff hf hl]
  constructor
  · intro hleaf
    have hbounds := htiles.bounds.2 _ (List.mem_map_of_mem hleaf)
    rw [Span.contains_iff] at ho ⊢
    omega
  · intro hcontains
    -- One of the tokens of the node lies around the offset, and no other token does.
    rw [Span.contains_iff] at hcontains
    obtain ⟨s, hs, hso⟩ := htiles.exists_contains hcontains.1 hcontains.2
    obtain ⟨leaf, hleaf, rfl⟩ := List.mem_map.mp hs
    obtain ⟨k, hk, rfl, -⟩ := exists_tokenFocus hf hleaf
    rwa [eq_of_contains hl hk ho hso]

/-! ## Innermost nodes -/

/-- What is found is the innermost of the nodes with a property, or nothing if no node has it.
All others that have it are around the one found. -/
def IsInnermost (t : Tree) (P : PlacedNode → Prop) : Option PlacedNode → Prop
  | none => ∀ f ∈ t.nodes, ¬ P f.node
  | some n => ∃ f ∈ t.nodes, f.node = n ∧ P n ∧ ∀ g ∈ t.nodes, P g.node → g.node ∈ f.ancestors

theorem IsInnermost.congr {P Q : PlacedNode → Prop} {found : Option PlacedNode}
    (h : t.IsInnermost P found) (hiff : ∀ f ∈ t.nodes, P f.node ↔ Q f.node) :
    t.IsInnermost Q found := by
  cases found with
  | none => exact fun f hf hQ => h f hf ((hiff f hf).mpr hQ)
  | some n =>
    obtain ⟨f, hf, rfl, hP, hall⟩ := h
    exact ⟨f, hf, rfl, (hiff f hf).mp hP, fun g hg hQ => hall g hg ((hiff g hg).mpr hQ)⟩

/-- Going outwards from a token finds the innermost node around it. -/
theorem isInnermost_find? (hl : l ∈ t.tokens) (p : PlacedNode → Bool) :
    t.IsInnermost (fun n => n ∈ l.above ∧ p n = true) (l.above.find? p) := by
  cases hfind : l.above.find? p with
  | none => exact fun f _ hf => List.find?_eq_none.mp hfind _ hf.1 hf.2
  | some n =>
    obtain ⟨hn, before, after, hsplit, hbefore⟩ := List.find?_eq_some_iff_append.mp hfind
    have hmem : n ∈ l.above := List.mem_of_find?_eq_some hfind
    refine ⟨⟨n, after⟩, mem_nodes_of_above_token hl hsplit, rfl, ⟨hmem, hn⟩, fun g _ hg => ?_⟩
    rw [hsplit] at hg
    obtain hbefore' | hafter := List.mem_append.mp hg.1
    · have hnot := hbefore _ hbefore'
      simp [hg.2] at hnot
    · exact hafter

/-! ## The search for covering nodes -/

/-- For a span that starts in the text, what is found is the innermost node of the kind that
covers the span and goes on, trivia included, where the span starts. -/
theorem isInnermost_covering? (h : span.start < byteLength t.text.toList) :
    t.IsInnermost (fun n => n.kind = kind ∧ n.span.covers span = true ∧ span.start < n.full.stop)
      (t.covering? span kind) := by
  obtain ⟨l, hl, ho⟩ := exists_token_contains h
  have hcovering : t.covering? span kind = l.above.find? fun n =>
      n.kind == kind && n.span.covers span := by
    rw [covering?, tokenAt?_of_contains hl ho]
    rfl
  rw [hcovering]
  refine (isInnermost_find? hl _).congr fun f hf => ?_
  have hwithin := span_within hf
  rw [mem_above_iff hf hl ho]
  simp only [Span.contains_iff, Span.covers, Bool.and_eq_true, beq_iff_eq, decide_eq_true_eq]
  constructor
  · rintro ⟨⟨-, hstop⟩, hkind, hcovers⟩
    exact ⟨hkind, hcovers, hstop⟩
  · rintro ⟨hkind, hcovers, hstop⟩
    exact ⟨⟨Nat.le_trans hwithin.1 hcovers.1, hstop⟩, hkind, hcovers⟩

/-- For a span that is not empty and lies in the text, what is found is the innermost node of
the kind that covers it. -/
theorem isInnermost_covering?_of_lt (hspan : span.start < span.stop)
    (hstop : span.stop ≤ byteLength t.text.toList) :
    t.IsInnermost (fun n => n.kind = kind ∧ n.span.covers span = true) (t.covering? span kind) := by
  refine (isInnermost_covering? (Nat.lt_of_lt_of_le hspan hstop)).congr fun f hf => ?_
  have hwithin := span_within hf
  constructor
  · exact fun ⟨hkind, hcovers, _⟩ => ⟨hkind, hcovers⟩
  · intro ⟨hkind, hcovers⟩
    have hcovers' : f.node.span.start ≤ span.start ∧ span.stop ≤ f.node.span.stop := by
      simpa [Span.covers] using hcovers
    exact ⟨hkind, hcovers, by omega⟩

/-- Nothing but the root is found at the end of a text. -/
theorem covering?_ofText_of_length_le (id : TreeId) {text : String}
    (h : byteLength text.toList ≤ span.start) :
    (ofText id text).covering? span kind =
      if (ofText id text).top.kind = kind ∧ (ofText id text).top.span.covers span then
        some (ofText id text).top
      else none := by
  obtain ⟨before, leaf, htokens, -⟩ := exists_last_token id text
  have hlength : byteLength (ofText id text).text.toList ≤ span.start := by
    rw [show (ofText id text).text = text from text_parse text]
    exact h
  rw [covering?, tokenAt?_of_length_le hlength, htokens, List.getLast?_concat]
  simp [List.find?_singleton]

/-- The declarator of `a` covers the empty span at its end, and so does the declaration that it
is in. Neither is found there: the offset belongs to the semicolon. -/
example :
    let t := ofText ⟨7⟩ "class C { int a; }"
    (t.nodes.filter fun f => f.node.span.covers ⟨15, 15⟩).map
    (fun f => (f.node.kind, f.node.span)) =
        [(.compilationUnit, ⟨0, 18⟩), (.classDeclaration, ⟨0, 18⟩), (.fieldDeclaration, ⟨10, 16⟩),
          (.variableDeclaration, ⟨10, 15⟩), (.variableDeclarator, ⟨14, 15⟩)] ∧
      (t.covering? ⟨15, 15⟩ .variableDeclarator).isNone ∧
      (t.covering? ⟨15, 15⟩ .variableDeclaration).isNone ∧
      (t.covering? ⟨14, 15⟩ .variableDeclarator).map (·.span) = some ⟨14, 15⟩ := by
  decide +kernel

end Tree

end AutoProperty
