import AutoProperty.Syntax.Tree

/-! # Leaves

The tokens of a tree by number and place. They lie side by side and are numbered without gaps, so a
number means one token only, and a place inside the text of a token leads back to it.
-/

namespace AutoProperty

@[simp]
theorem tokensText_nil : tokensText [] = [] := rfl

@[simp]
theorem tokensText_cons (t : Token) (ts : List Token) :
    tokensText (t :: ts) = t.fullText ++ tokensText ts := rfl

@[simp]
theorem tokensText_append (ts us : List Token) :
    tokensText (ts ++ us) = tokensText ts ++ tokensText us :=
  List.flatMap_append

/-- Tokens side by side: the first has number `i` and begins at the offset `o`. -/
def leavesFrom (i o : Nat) : List Token → List PlacedToken
  | [] => []
  | t :: ts => ⟨i, o, t⟩ :: leavesFrom (i + 1) (o + t.fullLength) ts

theorem length_leavesFrom (i o : Nat) (ts : List Token) :
    (leavesFrom i o ts).length = ts.length := by
  induction ts generalizing i o with
  | nil => rfl
  | cons t ts ih => simp [leavesFrom, ih]

theorem map_token_leavesFrom (i o : Nat) (ts : List Token) :
    (leavesFrom i o ts).map (·.token) = ts := by
  induction ts generalizing i o with
  | nil => rfl
  | cons t ts ih => simp [leavesFrom, ih]

theorem index_leavesFrom (i o : Nat) (ts : List Token) :
    (leavesFrom i o ts).map (·.index) = List.range' i ts.length := by
  induction ts generalizing i o with
  | nil => rfl
  | cons t ts ih => simp [leavesFrom, ih, List.range'_succ]

theorem leavesFrom_append (i o : Nat) (ts us : List Token) :
    leavesFrom i o (ts ++ us) =
      leavesFrom i o ts ++ leavesFrom (i + ts.length) (o + byteLength (tokensText ts)) us := by
  induction ts generalizing i o with
  | nil => rfl
  | cons t ts ih =>
    simp [leavesFrom, ih, Token.fullLength, Nat.add_comm, Nat.add_left_comm]

theorem getElem?_leavesFrom (i o : Nat) (ts : List Token) (n : Nat) :
    (leavesFrom i o ts)[n]? = ts[n]?.map fun t =>
      ⟨i + n, o + byteLength (tokensText (ts.take n)), t⟩ := by
  induction ts generalizing i o n with
  | nil => rfl
  | cons t ts ih =>
    cases n with
    | zero => simp [leavesFrom]
    | succ n => simp [leavesFrom, ih, Token.fullLength, Nat.add_comm, Nat.add_left_comm]

/-- A leaf lies within the tokens that it was made of. -/
theorem mem_leavesFrom {i o : Nat} {ts : List Token} {leaf : PlacedToken}
    (h : leaf ∈ leavesFrom i o ts) : i ≤ leaf.index ∧ leaf.index < i + ts.length ∧
      o ≤ leaf.start ∧ leaf.full.stop ≤ o + byteLength (tokensText ts) ∧ leaf.token ∈ ts := by
  induction ts generalizing i o with
  | nil => exact absurd h List.not_mem_nil
  | cons t ts ih =>
    obtain rfl | h := List.mem_cons.mp h
    · simp [PlacedToken.full, Span.ofLength, Token.fullLength]
    · obtain ⟨h₁, h₂, h₃, h₄, h₅⟩ := ih h
      simp only [tokensText_cons, byteLength_append, List.length_cons, Token.fullLength] at *
      exact ⟨by omega, by omega, by omega, by omega, List.mem_cons_of_mem _ h₅⟩

/-- A leaf begins where those before it end. -/
theorem stop_le_start {i o : Nat} {ts : List Token} {before after : List PlacedToken}
    {leaf : PlacedToken} (h : leavesFrom i o ts = before ++ leaf :: after) :
    ∀ l ∈ before, l.full.stop ≤ leaf.start := by
  induction before generalizing i o ts with
  | nil => exact nofun
  | cons first before ih =>
    cases ts with
    | nil => cases h
    | cons t ts =>
      obtain ⟨rfl, hrest⟩ := List.cons.inj h
      have hleaf : leaf ∈ leavesFrom (i + 1) (o + t.fullLength) ts := by
        rw [hrest]
        exact List.mem_append_right before List.mem_cons_self
      intro l hl
      obtain rfl | hl := List.mem_cons.mp hl
      · exact (mem_leavesFrom hleaf).2.2.1
      · exact ih hrest l hl

/-- A token has text where its length says so. -/
theorem PlacedToken.textLength_pos {leaf : PlacedToken} (h : leaf.text ≠ "") :
    0 < leaf.token.textLength := by
  have hne : leaf.token.text.toList ≠ [] := fun hnil => h (String.toList_eq_nil_iff.mp hnil)
  obtain ⟨c, cs, hcs⟩ := List.exists_cons_of_ne_nil hne
  rw [Token.textLength, hcs, byteLength_cons]
  have := c.utf8Size_pos
  omega

/-- The text of a leaf lies within it. -/
theorem PlacedToken.span_le (leaf : PlacedToken) :
    leaf.start ≤ leaf.span.start ∧ leaf.span.stop = leaf.span.start + leaf.token.textLength ∧
      leaf.span.stop ≤ leaf.full.stop := by
  simp [span, full, Span.ofLength, Token.fullLength, Token.fullText, Token.leadingLength,
    Token.textLength]
  omega

theorem pairwise_leavesFrom (i o : Nat) (ts : List Token) :
    (leavesFrom i o ts).Pairwise fun a b => a.full.stop ≤ b.start := by
  induction ts generalizing i o with
  | nil => exact .nil
  | cons t ts ih => exact .cons (fun b hb => (mem_leavesFrom hb).2.2.1) (ih _ _)

/-- The texts of two leaves do not overlap. -/
theorem disjoint_of_ne {i o : Nat} {ts : List Token} {a b : PlacedToken}
    (ha : a ∈ leavesFrom i o ts) (hb : b ∈ leavesFrom i o ts) (h : a ≠ b) :
    a.span.stop ≤ b.span.start ∨ b.span.stop ≤ a.span.start := by
  obtain ⟨n, hn, rfl⟩ := List.getElem_of_mem ha
  obtain ⟨m, hm, rfl⟩ := List.getElem_of_mem hb
  have hspan := PlacedToken.span_le (leavesFrom i o ts)[n]
  have hspan' := PlacedToken.span_le (leavesFrom i o ts)[m]
  have hpairs := List.pairwise_iff_getElem.mp (pairwise_leavesFrom i o ts)
  obtain hlt | rfl | hlt := Nat.lt_trichotomy n m
  · have := hpairs n m hn hm hlt
    omega
  · exact absurd rfl h
  · have := hpairs m n hm hn hlt
    omega

/-- Two leaves with text do not stand at the same place. -/
theorem eq_of_span {i o : Nat} {ts : List Token} {a b : PlacedToken} (ha : a ∈ leavesFrom i o ts)
    (hb : b ∈ leavesFrom i o ts) (htext : a.text ≠ "") (h : a.span = b.span) : a = b := by
  refine Classical.byContradiction fun hne => ?_
  have hpos := PlacedToken.textLength_pos htext
  have hspan := a.span_le
  have hdisjoint := disjoint_of_ne ha hb hne
  rw [← h] at hdisjoint
  omega

namespace Element

mutual

/-- Placing puts the leaves side by side. -/
theorem tokens_place (c : Cursor) (e : Element) :
    (e.place c).1.tokens = leavesFrom c.token c.offset e.tokens ∧
      (e.place c).2.token = c.token + e.tokens.length ∧
      (e.place c).2.offset = c.offset + byteLength (tokensText e.tokens) := by
  cases e with
  | token t => simp [place, Placed.tokens, tokens, leavesFrom, Token.fullLength]
  | node kind children =>
    obtain ⟨hleaves, htoken, hoffset⟩ := tokens_placeAll { c with node := c.node + 1 } children
    exact ⟨hleaves, htoken, hoffset⟩

/-- Placing elements gives their tokens places one behind the other. -/
theorem tokens_placeAll (c : Cursor) (es : List Element) :
    Placed.tokensOf (placeAll c es).1 = leavesFrom c.token c.offset (tokensOf es) ∧
      (placeAll c es).2.token = c.token + (tokensOf es).length ∧
      (placeAll c es).2.offset = c.offset + byteLength (tokensText (tokensOf es)) := by
  cases es with
  | nil => exact ⟨rfl, rfl, rfl⟩
  | cons e es =>
    obtain ⟨hleaves, htoken, hoffset⟩ := tokens_place c e
    obtain ⟨hleaves', htoken', hoffset'⟩ := tokens_placeAll (e.place c).2 es
    simp only [placeAll, Placed.tokensOf, tokensOf, leavesFrom_append, tokensText_append,
      byteLength_append, List.length_append]
    rw [hleaves, hleaves', htoken', hoffset', htoken, hoffset]
    exact ⟨rfl, by omega, by omega⟩

end

theorem placeAll_append (c : Cursor) (as bs : List Element) :
    (placeAll c (as ++ bs)).1 = (placeAll c as).1 ++ (placeAll (placeAll c as).2 bs).1 := by
  induction as generalizing c with
  | nil => rfl
  | cons a as ih => simp [placeAll, ih]

end Element

namespace Placed

theorem tokensOf_append (ps qs : List Placed) :
    tokensOf (ps ++ qs) = tokensOf ps ++ tokensOf qs := by
  induction ps with
  | nil => rfl
  | cons p ps ih => rw [List.cons_append, tokensOf, tokensOf, ih, List.append_assoc]

theorem tokenFociOf_append (above : List PlacedNode) (ps qs : List Placed) :
    tokenFociOf above (ps ++ qs) = tokenFociOf above ps ++ tokenFociOf above qs := by
  induction ps with
  | nil => simp [tokenFociOf]
  | cons p ps ih => simp [tokenFociOf, ih]

mutual

theorem leaf_tokenFoci (above : List PlacedNode) (p : Placed) :
    (p.tokenFoci above).map TokenFocus.leaf = p.tokens := by
  cases p with
  | token t => simp [tokenFoci, tokens]
  | node info children =>
    simpa [tokenFoci, tokens] using leaf_tokenFociOf (⟨info, children⟩ :: above) children

theorem leaf_tokenFociOf (above : List PlacedNode) (ps : List Placed) :
    (tokenFociOf above ps).map TokenFocus.leaf = tokensOf ps := by
  cases ps with
  | nil => simp [tokenFociOf, tokensOf]
  | cons p ps => simp [tokenFociOf, tokensOf, leaf_tokenFoci above p, leaf_tokenFociOf above ps]

end

end Placed

namespace Tree

theorem top_children (t : Tree) :
    t.top.children = (Element.placeAll { Cursor.start with node := 1 } t.root.children).1 := by
  rw [top_eq]
  rfl

/-- The leaves of a tree are the tokens of its root. -/
theorem leaves_eq (t : Tree) : t.tokens.map TokenFocus.leaf = leavesFrom 0 0 t.root.tokens := by
  have hleaves := (Element.tokens_placeAll { Cursor.start with node := 1 } t.root.children).1
  rw [tokens_eq, Placed.leaf_tokenFoci, PlacedNode.placed, Placed.tokens, top_children]
  exact hleaves

theorem leaf_mem {t : Tree} {f : TokenFocus} (h : f ∈ t.tokens) :
    f.leaf ∈ leavesFrom 0 0 t.root.tokens := by
  rw [← leaves_eq]
  exact List.mem_map_of_mem h

/-- The number of a token is its place among all tokens. -/
theorem index_of_getElem? {t : Tree} {f : TokenFocus} {n : Nat} (h : t.tokens[n]? = some f) :
    f.leaf.index = n := by
  have hleaf : (t.tokens.map TokenFocus.leaf)[n]? = some f.leaf := by simp [h]
  rw [leaves_eq, getElem?_leavesFrom] at hleaf
  obtain ⟨_, _, heq⟩ := Option.map_eq_some_iff.mp hleaf
  rw [← heq, Nat.zero_add]

theorem eq_of_index {t : Tree} {f g : TokenFocus} (hf : f ∈ t.tokens) (hg : g ∈ t.tokens)
    (h : f.leaf.index = g.leaf.index) : f = g := by
  obtain ⟨n, hn⟩ := List.getElem?_of_mem hf
  obtain ⟨m, hm⟩ := List.getElem?_of_mem hg
  rw [index_of_getElem? hn, index_of_getElem? hm] at h
  subst h
  rw [hn] at hm
  exact Option.some.inj hm

theorem mem_of_tokenAt? {t : Tree} {offset : Nat} {f : TokenFocus}
    (h : t.tokenAt? offset = some f) : f ∈ t.tokens := by
  rw [tokenAt?, Option.orElse_eq_orElse, Option.orElse_eq_or, Option.or_eq_some_iff] at h
  obtain h | ⟨_, h⟩ := h
  · exact List.mem_of_find?_eq_some h
  · exact List.mem_of_getLast? h

/-- The text of a leaf stands at its span. -/
theorem slice?_leaf {t : Tree} {f : TokenFocus} (hf : f ∈ t.tokens) :
    f.leaf.span.slice? t.text = some f.leaf.text := by
  obtain ⟨n, hn⟩ := List.getElem?_of_mem (leaf_mem hf)
  rw [getElem?_leavesFrom] at hn
  obtain ⟨token, htoken, hleaf⟩ := Option.map_eq_some_iff.mp hn
  obtain ⟨hlt, rfl⟩ := List.getElem?_eq_some_iff.mp htoken
  let before := tokensText (t.root.tokens.take n) ++ triviaText t.root.tokens[n].leading
  let after := triviaText t.root.tokens[n].trailing ++ tokensText (t.root.tokens.drop (n + 1))
  have htext : t.text.toList = before ++ t.root.tokens[n].text.toList ++ after := by
    have hsplit : tokensText t.root.tokens = tokensText
        (t.root.tokens.take n ++ t.root.tokens[n] :: t.root.tokens.drop (n + 1)) := by
      rw [← List.drop_eq_getElem_cons hlt, List.take_append_drop]
    rw [text, Node.text, String.toList_ofList, hsplit, tokensText_append, tokensText_cons]
    simp only [before, after, Token.fullText, List.append_assoc]
  have hspan : f.leaf.span =
      ⟨byteLength before, byteLength before + byteLength t.root.tokens[n].text.toList⟩ := by
    rw [← hleaf]
    simp [PlacedToken.span, Span.ofLength, Token.leadingLength, Token.textLength, before]
  rw [Span.slice?, hspan, htext, cutBytes?_append, ← hleaf]
  simp [PlacedToken.text]

end Tree

end AutoProperty
