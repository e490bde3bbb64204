import AutoProperty.Proofs.Syntax.Layouts
import AutoProperty.Proofs.Syntax.Offsets
import AutoProperty.Proofs.Syntax.ParsedTrees
import AutoProperty.Proofs.Syntax.Reparsing

/-! # Tokens side by side

A word is scanned as far as it goes, so no two names of a text touch each other. The tokens of a
node stand together, so those of nodes that are not in each other come one after the other.
-/

namespace AutoProperty

/-! ## Words -/

namespace Scanner

/-- Where a word is split off, it ends. -/
theorem splitToken_stops {c : Char} {cs : List Char} (h : IsWord (splitToken c cs).2.1) :
    (splitToken c cs).2.2.head?.all fun d => !isWordPart d := by
  obtain ⟨d, ds, htext, hstart, _⟩ := h.head
  have happend := splitToken_append c cs
  rw [htext, List.cons_append] at happend
  obtain rfl := (List.cons.inj happend).1
  rw [splitToken, if_pos hstart]
  exact splitWhile_head? isWordPart cs

/-- Behind a word of a text, there is something else. -/
theorem head?_behind_word (blank : Bool) (cs : List Char) {t : Token} (hword : IsWord t.text.toList)
    (after : List Token) :
    ∀ before, (scanFrom blank cs).all = before ++ t :: after →
      (triviaText t.trailing ++ tokensText after).head?.all fun c => !isWordPart c := by
  fun_induction scanFrom blank cs with
  | case1 blank cs leading _ =>
    intro before h
    have hmem : t ∈ [(⟨.endOfFileToken, "", leading, []⟩ : Token)] := by
      rw [show [(⟨.endOfFileToken, "", leading, []⟩ : Token)] = before ++ t :: after from h]
      exact List.mem_append_right _ List.mem_cons_self
    obtain rfl := List.mem_singleton.mp hmem
    exact absurd rfl hword.ne_empty
  | case2 blank cs leading c rest _ core behind token others ih =>
    intro before h
    have h : token :: others.all = before ++ t :: after := h
    cases before with
    | nil =>
      obtain ⟨rfl, rfl⟩ := List.cons.inj h
      have hbehind : triviaText behind.1 ++ tokensText others.all = core.2.2 := by
        rw [tokensText_scanFrom]
        exact splitRun_append .trailing core.2.2
      rw [show token.trailing = behind.1 from rfl, hbehind]
      refine splitToken_stops ?_
      rwa [show token.text.toList = core.2.1 from String.toList_ofList] at hword
    | cons first before => exact ih before (List.cons.inj h).2

end Scanner

/-- No two words of a text touch each other. -/
theorem stop_ne_start_of_words {text : String} {a b : PlacedToken}
    (ha : a ∈ leavesFrom 0 0 (scan text).tokens) (hb : b ∈ leavesFrom 0 0 (scan text).tokens)
    (hword : IsWord a.text.toList) (hword' : IsWord b.text.toList) :
    a.span.stop ≠ b.span.start := by
  intro htouch
  obtain ⟨before, after, htokens, _, hstart⟩ := exists_split_of_mem ha
  obtain ⟨before', after', htokens', _, hstart'⟩ := exists_split_of_mem hb
  have hall : (scan text).all = before ++ a.token :: (after ++ [(scan text).final]) := by
    rw [ScannedText.all, htokens, List.append_assoc, List.cons_append]
  have hall' : (scan text).all = before' ++ b.token :: (after' ++ [(scan text).final]) := by
    rw [ScannedText.all, htokens', List.append_assoc, List.cons_append]
  have hend := Scanner.head?_behind_word true text.toList hword _ before hall
  -- The text is read up to the place at which the tokens meet.
  have hread : (tokensText before ++ (triviaText a.token.leading ++ a.token.text.toList)) ++
        (triviaText a.token.trailing ++ tokensText (after ++ [(scan text).final])) =
      (tokensText before' ++ triviaText b.token.leading) ++
        (b.token.text.toList ++
          (triviaText b.token.trailing ++ tokensText (after' ++ [(scan text).final]))) := by
    have heq := congrArg tokensText (hall.symm.trans hall')
    simpa [tokensText_append, tokensText_cons, Token.fullText] using heq
  have hlength :
      byteLength (tokensText before ++ (triviaText a.token.leading ++ a.token.text.toList)) =
      byteLength (tokensText before' ++ triviaText b.token.leading) := by
    have hstop : a.span.stop = a.start + a.token.leadingLength + a.token.textLength := rfl
    have hbegin : b.span.start = b.start + b.token.leadingLength := rfl
    simp only [byteLength_append]
    rw [hstop, hbegin, hstart, hstart', Token.leadingLength, Token.textLength, Token.leadingLength]
      at htouch
    omega
  have hsplit :=
    splitBytes?_append (tokensText before ++ (triviaText a.token.leading ++ a.token.text.toList))
      (triviaText a.token.trailing ++ tokensText (after ++ [(scan text).final]))
  rw [hread, hlength, splitBytes?_append] at hsplit
  rw [← (Prod.mk.inj (Option.some.inj hsplit)).2] at hend
  obtain ⟨c, cs, hname, hc, _⟩ := hword'.head
  have hname : b.token.text.toList = c :: cs := hname
  rw [hname] at hend
  have hnot : Scanner.isWordPart c = false := by simpa using hend
  rw [Scanner.isWordPart_of_isWordStart hc] at hnot
  cases hnot

namespace Tree

variable {t : Tree} {f h : Focus} {g g' : TokenFocus} {a b c : PlacedToken}

/-- No two names of a parsed tree touch each other. -/
theorem stop_ne_start_of_identifiers {text : String} (ht : t.root = (parse text).root)
    (hg : g ∈ t.tokens) (hg' : g' ∈ t.tokens) (hkind : g.leaf.kind = .identifierToken)
    (hkind' : g'.leaf.kind = .identifierToken) (htext : g.leaf.text ≠ "")
    (htext' : g'.leaf.text ≠ "") : g.leaf.span.stop ≠ g'.leaf.span.start := by
  have hwords := hasWords ht
  obtain ⟨l, hl, hspan, hsame⟩ := exists_scanned_leaf (ht ▸ leaf_mem hg) htext
  obtain ⟨l', hl', hspan', hsame'⟩ := exists_scanned_leaf (ht ▸ leaf_mem hg') htext'
  rw [← hspan, ← hspan']
  refine stop_ne_start_of_words hl hl' ?_ ?_
  · rw [hsame]
    exact hwords.word _ hg hkind htext
  · rw [hsame']
    exact hwords.word _ hg' hkind' htext'

/-- A later token stands behind an earlier one. -/
theorem stop_le_start_of_index (hg : g ∈ t.tokens) (hg' : g' ∈ t.tokens)
    (hlt : g.leaf.index < g'.leaf.index) : g.leaf.span.stop ≤ g'.leaf.span.start := by
  obtain ⟨n, hn⟩ := List.getElem?_of_mem hg
  obtain ⟨m, hm⟩ := List.getElem?_of_mem hg'
  rw [index_of_getElem? hn, index_of_getElem? hm] at hlt
  obtain ⟨hn', rfl⟩ := List.getElem?_eq_some_iff.mp hn
  obtain ⟨hm', rfl⟩ := List.getElem?_eq_some_iff.mp hm
  have hpair := List.pairwise_iff_getElem.mp t.pairwise_tokens n m hn' hm' hlt
  have hspan := PlacedToken.span_le t.tokens[n].leaf
  have hspan' := PlacedToken.span_le t.tokens[m].leaf
  have hstart : t.tokens[m].leaf.full.start = t.tokens[m].leaf.start := rfl
  omega

/-! ## Nodes -/

/-- The tokens of a node stand together. -/
theorem mem_tokens_of_between (hf : f ∈ t.nodes) (hg : g ∈ t.tokens) (ha : a ∈ f.node.tokens)
    (hb : b ∈ f.node.tokens) (hle : a.index ≤ g.leaf.index) (hle' : g.leaf.index ≤ b.index) :
    g.leaf ∈ f.node.tokens := by
  obtain ⟨first, hindices⟩ := index_tokens hf
  have hrange {a : PlacedToken} (ha : a ∈ f.node.tokens) : first ≤ a.index ∧
      a.index < first + f.node.tokens.length := by
    have hmem := List.mem_map_of_mem (f := PlacedToken.index) ha
    rwa [hindices, List.mem_range'_1] at hmem
  have hmem : g.leaf.index ∈ f.node.tokens.map (·.index) := by
    rw [hindices, List.mem_range'_1]
    have := hrange ha
    have := hrange hb
    omega
  obtain ⟨c, hc, hindex⟩ := List.mem_map.mp hmem
  obtain ⟨g', hg', rfl, _⟩ := exists_tokenFocus hf hc
  rwa [← eq_of_index hg' hg hindex]

section Apart

variable (hf : f ∈ t.nodes) (hh : h ∈ t.nodes) (hout : f.node ∉ h.ancestors)
  (hout' : h.node ∉ f.ancestors)
include hf hh hout hout'

/-- Nodes of which neither is in the other one share no token. -/
theorem notMem_tokens_of_apart (ha : a ∈ f.node.tokens) : a ∉ h.node.tokens := by
  intro ha'
  obtain ⟨g, hg, rfl, inner, habove⟩ := exists_tokenFocus hf ha
  obtain ⟨g', hg', hleaf, inner', habove'⟩ := exists_tokenFocus hh ha'
  obtain rfl := eq_of_index hg' hg (congrArg _ hleaf)
  obtain ⟨between, _, hrest⟩ | ⟨between, _, hrest⟩ :=
    List.append_eq_append_iff.mp (habove.symm.trans habove')
  · refine hout' ?_
    show h.node ∈ f.node :: f.above
    rw [hrest]
    exact List.mem_append_right _ List.mem_cons_self
  · refine hout ?_
    show f.node ∈ h.node :: h.above
    rw [hrest]
    exact List.mem_append_right _ List.mem_cons_self

/-- All tokens of a node are behind those of another one if one of them is. -/
theorem index_lt_of_apart (ha : a ∈ f.node.tokens) (hb : b ∈ h.node.tokens) (hc : c ∈ h.node.tokens)
    (hlt : a.index < b.index) : a.index < c.index := by
  by_contra hle
  obtain ⟨g, hg, rfl, _⟩ := exists_tokenFocus hf ha
  exact notMem_tokens_of_apart hf hh hout hout' ha
    (mem_tokens_of_between hh hg hc hb (Nat.le_of_not_lt hle) (Nat.le_of_lt hlt))

end Apart

/-- A node reaches from its first token to its last one. -/
theorem span_eq_of_tokens (hf : f ∈ t.nodes) (ha : f.node.tokens.head? = some a)
    (hb : f.node.tokens.getLast? = some b) : f.node.span = ⟨a.span.start, b.span.stop⟩ := by
  rw [span_eq hf, Span.hull?, List.head?_map, List.getLast?_map, ha, hb]
  rfl

end Tree

end AutoProperty
