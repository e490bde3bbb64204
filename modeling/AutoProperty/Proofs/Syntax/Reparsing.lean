import AutoProperty.Proofs.Syntax.Marking
import AutoProperty.Proofs.Syntax.Rescan
import AutoProperty.Symbol.References

/-! # The tree of a respelled text

Names in expressions and the names of members, parameters and locals can be replaced without any
change to the shape of the tree: the grammar never looks at their texts.
-/

namespace AutoProperty

/-- Whether such a node declares a member, a parameter or a local by an identifier among its
children. -/
def declaresName : Kind → Bool
  | .variableDeclarator | .propertyDeclaration | .methodDeclaration | .constructorDeclaration
  | .parameter => true
  | _ => false

/-- The token is a name in an expression, or the name of a member, a parameter or a local. -/
def TokenFocus.IsRenamable (f : TokenFocus) : Prop :=
  f.isExpressionName ∨
    f.leaf.kind = .identifierToken ∧ ∃ n above, f.above = n :: above ∧ declaresName n.kind

namespace TokenFocus.IsRenamable

variable {leaf : PlacedToken} {n m : PlacedNode} {above : List PlacedNode}

theorem kind_eq {f : TokenFocus} (h : f.IsRenamable) : f.leaf.kind = .identifierToken := by
  obtain h | h := h
  · simp only [isExpressionName, Bool.and_eq_true, beq_iff_eq] at h
    exact h.1
  · exact h.1

/-- An identifier that can be renamed stands in a simple name or in a declaration. -/
theorem parent_kind (h : (⟨leaf, n :: above⟩ : TokenFocus).IsRenamable) :
    n.kind = .identifierName ∨ declaresName n.kind := by
  obtain h | ⟨_, n', above', heq, hn⟩ := h
  · simp only [isExpressionName, Bool.and_eq_true] at h
    cases above with
    | nil => exact absurd h.2 Bool.false_ne_true
    | cons m above =>
      have hname : n.kind == .identifierName && isExpressionContext m.kind := h.2
      exact .inl (by simpa using (Bool.and_eq_true_iff.mp hname).1)
  · exact .inr ((List.cons.inj heq).1 ▸ hn)

theorem context_kind (h : (⟨leaf, n :: m :: above⟩ : TokenFocus).IsRenamable)
    (hn : n.kind = .identifierName) : isExpressionContext m.kind := by
  obtain h | ⟨_, n', above', heq, hn'⟩ := h
  · simp only [isExpressionName, Bool.and_eq_true] at h
    have hname : (n.kind == .identifierName) = true ∧ isExpressionContext m.kind := by
      simpa using h.2
    exact hname.2
  · rw [← (List.cons.inj heq).1, hn] at hn'
    exact absurd hn' Bool.false_ne_true

end TokenFocus.IsRenamable

namespace Element

variable {spans : List Span} {name : String}

/-- A token whose place is not among the spans keeps its text. -/
theorem text_reworded {c : Cursor} {t : Token} (h : MarkedAt spans c [t])
    (hspan : (PlacedToken.mk c.token c.offset t.plain).span ∉ spans) :
    (t.reworded name).text = t.text := by
  have hmarked : t = (PlacedToken.mk c.token c.offset t.plain).marked spans := by
    simpa [MarkedAt, leavesFrom] using h
  rw [PlacedToken.marked, if_neg (by simpa using hspan)] at hmarked
  rw [hmarked, Token.reworded_of_unmarked name (Token.unmarked_plain t)]

/-- A token among elements keeps its text, or its place is among the spans. -/
theorem text_reworded_or {c : Cursor} {es : List Element} {t : Token} (above : List PlacedNode)
    (h : MarkedAt spans c (tokensOf es)) (ht : .token t ∈ es) :
    (t.reworded name).text = t.text ∨
      ∃ leaf, (⟨leaf, above⟩ : TokenFocus) ∈
        Placed.tokenFociOf above (placeAll c (mapAll Token.plain es)).1 ∧ leaf.span ∈ spans := by
  induction es generalizing c with
  | nil => exact absurd ht List.not_mem_nil
  | cons e es ih =>
    obtain ⟨_, htokens, hoffset⟩ := tokens_place c (e.map Token.plain)
    rw [tokens_map] at htokens hoffset
    rw [List.length_map] at htokens
    obtain ⟨hfirst, hothers⟩ := MarkedAt.append h htokens hoffset
    rw [mapAll_cons]
    obtain rfl | ht := List.mem_cons.mp ht
    · by_cases hspan : (PlacedToken.mk c.token c.offset t.plain).span ∈ spans
      · refine .inr ⟨_, ?_, hspan⟩
        exact List.mem_append_left _ List.mem_cons_self
      · exact .inl (text_reworded hfirst hspan)
    · obtain hsame | ⟨leaf, hleaf, hspan⟩ := ih hothers ht
      · exact .inl hsame
      · exact .inr ⟨leaf, List.mem_append_right _ hleaf, hspan⟩

mutual

/-- Marks at renamable tokens are settled. -/
theorem settled_of_marked {c : Cursor} {above : List PlacedNode} (e : Element)
    (h : MarkedAt spans c e.tokens)
    (hfoci : ∀ f ∈ ((e.map Token.plain).place c).1.tokenFoci above, f.leaf.span ∈ spans →
      f.IsRenamable) : e.Settled (Token.reworded name) := by
  cases e with
  | token t =>
    refine .token fun hkind => text_reworded h fun hspan => hkind ?_
    exact (hfoci ⟨_, above⟩ List.mem_cons_self hspan).kind_eq
  | node kind children =>
    obtain ⟨n, hn, hinner⟩ : ∃ n : PlacedNode, n.kind = kind ∧
        ∀ f ∈ Placed.tokenFociOf (n :: above)
          (placeAll { c with node := c.node + 1 } (mapAll Token.plain children)).1,
          f.leaf.span ∈ spans → f.IsRenamable := by
      rw [map_node] at hfoci
      exact ⟨_, rfl, hfoci⟩
    have hmarked : MarkedAt spans { c with node := c.node + 1 } (tokensOf children) := h
    refine .node ?_ ?_ (settled_of_markedAll children hmarked hinner)
    · intro hkind t ht
      obtain hsame | ⟨leaf, hleaf, hspan⟩ := text_reworded_or (n :: above) hmarked ht
      · exact hsame
      · obtain hparent | hparent := (hinner _ hleaf hspan).parent_kind
        · simp [hn, hkind] at hparent
        · simp [hn, hkind, declaresName] at hparent
    · rintro hkind t rest rfl
      have htype : MarkedAt spans c [t] := by
        exact (@MarkedAt.append _ _ ⟨0, c.token + 1, _⟩ _ _ hmarked rfl rfl).1
      refine text_reworded htype fun hspan => ?_
      obtain ⟨m, hm, hleaf⟩ : ∃ m : PlacedNode, m.kind = .identifierName ∧
          (⟨⟨c.token, c.offset, t.plain⟩, m :: n :: above⟩ : TokenFocus) ∈
            Placed.tokenFociOf (n :: above) (placeAll { c with node := c.node + 1 }
              (mapAll Token.plain (.node .identifierName [.token t] :: rest))).1 := by
        simp only [mapAll_cons, map_node, map_token, mapAll_nil]
        exact ⟨_, rfl, List.mem_append_left _ List.mem_cons_self⟩
      have hcontext := (hinner _ hleaf hspan).context_kind hm
      simp [hn, hkind, isExpressionContext] at hcontext

/-- New texts where names can be renamed change no decision of the parser. -/
theorem settled_of_markedAll {c : Cursor} {above : List PlacedNode} (es : List Element)
    (h : MarkedAt spans c (tokensOf es))
    (hfoci : ∀ f ∈ Placed.tokenFociOf above (placeAll c (mapAll Token.plain es)).1,
      f.leaf.span ∈ spans → f.IsRenamable) : AllSettled (Token.reworded name) es := by
  cases es with
  | nil => exact nofun
  | cons e es =>
    obtain ⟨_, htokens, hoffset⟩ := tokens_place c (e.map Token.plain)
    rw [tokens_map] at htokens hoffset
    rw [List.length_map] at htokens
    obtain ⟨hfirst, hothers⟩ := MarkedAt.append h htokens hoffset
    have he := settled_of_marked e hfirst fun f hf => hfoci f (List.mem_append_left _ hf)
    have hes := settled_of_markedAll es hothers fun f hf => hfoci f (List.mem_append_right _ hf)
    exact List.forall_mem_cons.mpr ⟨he, hes⟩

end

end Element

/-- A change that keeps all texts is settled. -/
theorem Element.settled_of_text {f : Token → Token} (h : ∀ t, (f t).text = t.text) (e : Element) :
    e.Settled f := by
  cases e with
  | token t => exact .token fun _ => h t
  | node kind children =>
    refine .node (fun _ t _ => h t) (fun _ t _ _ => h t) fun e he => ?_
    have := List.sizeOf_lt_of_mem he
    exact settled_of_text h e
termination_by sizeOf e
decreasing_by
  simp only [Element.node.sizeOf_spec]
  omega

/-! ## Scanning the respelled text -/

/-- Every token ahead is taken into the elements that are read. -/
theorem Spells.exists_taken {ts : List Token} {ls : List Lexeme} (h : Spells ts ls) {l : Lexeme}
    (hl : l ∈ ls) : ∃ t ∈ ts, t.IsTaken l := by
  induction h with
  | nil => exact absurd hl List.not_mem_nil
  | missing _ _ _ ih =>
    obtain ⟨t, ht, htaken⟩ := ih hl
    exact ⟨t, List.mem_cons_of_mem _ ht, htaken⟩
  | taken ht _ ih =>
    obtain rfl | hl := List.mem_cons.mp hl
    · exact ⟨_, List.mem_cons_self, ht⟩
    · obtain ⟨t, ht, htaken⟩ := ih hl
      exact ⟨t, List.mem_cons_of_mem _ ht, htaken⟩

/-- A token with text stands where the scanned token stands that it was made of. -/
theorem Spells.exists_leaf {ts us : List Token} {ls : List Lexeme} (h : Spells ts ls)
    (hls : ls.map Lexeme.token = us) {i j o : Nat} {leaf : PlacedToken}
    (hleaf : leaf ∈ leavesFrom i o ts) (htext : leaf.text ≠ "") :
    ∃ l ∈ leavesFrom j o us, l.span = leaf.span ∧ l.text = leaf.text := by
  induction h generalizing i j o us with
  | nil => exact absurd hleaf List.not_mem_nil
  | missing kind _ _ ih =>
    obtain rfl | hleaf := List.mem_cons.mp hleaf
    · exact absurd rfl htext
    · refine ih hls (i := i + 1) ?_
      simpa [Token.fullLength, Token.fullText, Token.missing, Token.bare, triviaText] using hleaf
  | @taken t l ts ls ht _ ih =>
    subst hls
    obtain ⟨kind, rfl, _⟩ := ht
    obtain rfl | hleaf := List.mem_cons.mp hleaf
    · exact ⟨⟨j, o, l.token⟩, List.mem_cons_self, rfl, rfl⟩
    · obtain ⟨l', hl', heq⟩ := ih (j := j + 1) rfl hleaf
      exact ⟨l', List.mem_cons_of_mem _ hl', heq⟩

/-- Behind a number that takes in the beginning of a respelled word, no token begins where the word
should. -/
theorem Scanner.Absorbed.not_found {ts ts' found : List Token} (h : Absorbed ts ts' found)
    (htexts : ∀ t ∈ ts', t.text ≠ "") (i j o : Nat) : ∃ (n : Nat) (u' : PlacedToken),
      (leavesFrom i o ts')[n]? = some u' ∧ ts[n]? ≠ some u'.token ∧
        ∀ leaf ∈ leavesFrom j o found, leaf.span.start ≠ u'.span.start := by
  induction h generalizing i j o with
  | @here t u u' t₂ ts ts' found more hne htrailing hleading hlead hmore htext =>
    have hmore : 0 < byteLength more := by
      obtain ⟨c, more, rfl⟩ := List.exists_cons_of_ne_nil hmore
      have := c.utf8Size_pos
      simp
      omega
    have ht := @PlacedToken.textLength_pos ⟨i, o, t⟩ (htexts t List.mem_cons_self)
    refine ⟨1, ⟨i + 1, o + t.fullLength, u'⟩, rfl, by simpa using hne, fun leaf hleaf => ?_⟩
    have hstart : (PlacedToken.mk (i + 1) (o + t.fullLength) u').span.start =
        o + t.leadingLength + t.textLength := by
      simp [PlacedToken.span, Span.ofLength, Token.leadingLength, hleading, Token.fullLength,
        Token.fullText, htrailing, Token.textLength, Nat.add_assoc]
    have hlonger : t₂.textLength = t.textLength + byteLength more := by
      simp [Token.textLength, htext]
    have hlead : t₂.leadingLength = t.leadingLength := by rw [Token.leadingLength, hlead]; rfl
    have hpos : 0 < t.textLength := ht
    rw [hstart]
    obtain rfl | hleaf := List.mem_cons.mp hleaf
    · show o + t₂.leadingLength ≠ _
      omega
    · have hge := (mem_leavesFrom hleaf).2.2.1
      have hle := leaf.span_le.1
      have hfull : t₂.leadingLength + t₂.textLength ≤ t₂.fullLength := by
        simp [Token.fullLength, Token.fullText, Token.leadingLength, Token.textLength]
      omega
  | @later t t' ts ts' found _ ih =>
    obtain ⟨n, u', hu', hne, hfound⟩ :=
      ih (fun t ht => htexts t (List.mem_cons_of_mem _ ht)) (i + 1)
        (j + 1) (o + t'.fullLength)
    refine ⟨n + 1, u', hu', hne, fun leaf hleaf => ?_⟩
    obtain rfl | hleaf := List.mem_cons.mp hleaf
    · have hpos := @PlacedToken.textLength_pos ⟨j, o, t'⟩ (htexts t' List.mem_cons_self)
      have hspan := PlacedToken.span_le ⟨j, o, t'⟩
      have hge := (mem_leavesFrom (List.mem_of_getElem? hu')).2.2.1
      have hle := u'.span_le.1
      have hstop : (PlacedToken.mk j o t').full.stop = o + t'.fullLength := rfl
      simp only at hpos hspan
      omega
    · exact hfound leaf hleaf

/-! ## Parsing the respelled text -/

def markedTokens (spans : List Span) (text : String) : List Token :=
  (leavesFrom 0 0 (scan text).tokens).map (·.marked spans)

def markedMembers (spans : List Span) (text : String) : List Element :=
  (Production.allMembers (placeTokens 0 (markedTokens spans text))).value

section Members

variable {spans : List Span} {text name : String}

theorem unmarked_scan {t : Token} (h : t ∈ (scan text).tokens) : Unmarked t.leading :=
  (Scanner.isScanned_of_mem_scanFrom h).leading

theorem unmarked_leaf {i o : Nat} {leaf : PlacedToken}
    (h : leaf ∈ leavesFrom i o (scan text).tokens) : Unmarked leaf.token.leading :=
  unmarked_scan (mem_leavesFrom h).2.2.2.2

theorem map_plain_markedTokens (spans : List Span) (text : String) :
    (markedTokens spans text).map Token.plain = (scan text).tokens := by
  rw [markedTokens, List.map_map]
  refine Eq.trans ?_ (map_token_leavesFrom 0 0 (scan text).tokens)
  exact List.map_congr_left fun leaf hleaf => PlacedToken.plain_marked (unmarked_leaf hleaf)

theorem map_reworded_markedTokens (spans : List Span) (text name : String) :
    (markedTokens spans text).map (Token.reworded name) =
      (leavesFrom 0 0 (scan text).tokens).map (·.respelled spans name) := by
  rw [markedTokens, List.map_map]
  exact List.map_congr_left fun leaf hleaf => PlacedToken.reworded_marked name (unmarked_leaf hleaf)

theorem tokensAhead_markedTokens (spans : List Span) (text : String) :
    TokensAhead (placeTokens 0 (markedTokens spans text)) := by
  refine tokensAhead_placeTokens (fun t ht => ?_) 0
  obtain ⟨leaf, hleaf, rfl⟩ := List.mem_map.mp ht
  rw [PlacedToken.kind_marked]
  exact (Scanner.isScanned_of_mem_scanFrom (mem_leavesFrom hleaf).2.2.2.2).isToken

theorem spells_markedMembers (spans : List Span) (text : String) :
    Spells (Element.tokensOf (markedMembers spans text))
      (placeTokens 0 (markedTokens spans text)) :=
  (Production.makesEach_allMembers (tokensAhead_markedTokens spans text)).2.spells

/-- Without the marks, they are the members of the text. -/
theorem children_parse (spans : List Span) (text : String) : (parse text).root.children =
    Element.mapAll Token.plain (markedMembers spans text) ++ [.token (scan text).final] := by
  have hfollows := Follows.placeTokens Token.plain 0 0 (markedTokens spans text)
  rw [map_plain_markedTokens] at hfollows
  have hsettled : AllSettled Token.plain (markedMembers spans text) :=
    fun e _ => Element.settled_of_text (f := Token.plain) (fun _ => rfl) e
  have hvalue := (Production.commutesIf_allMembers Token.keepsKinds_plain _ _ hfollows hsettled).1
  show (Production.allMembers (placeTokens 0 (scan text).tokens)).value ++ _ = _
  rw [hvalue, markedMembers]

theorem tokens_parse (spans : List Span) (text : String) : (parse text).root.tokens =
    (Element.tokensOf (markedMembers spans text)).map Token.plain ++ [(scan text).final] := by
  rw [Node.tokens, children_parse spans, Element.tokensOf_append, Element.tokensOf_mapAll]
  rfl

theorem markedAt_markedMembers (hspans : NoneEmpty spans) (text : String) :
    Element.MarkedAt spans { Cursor.start with node := 1 }
      (Element.tokensOf (markedMembers spans text)) :=
  (spells_markedMembers spans text).marked hspans (fun _ => unmarked_scan)
    (token_placeTokens 0 _) 0

/-- With other texts at the marks, they are the members of a text in which the tokens at the
spans were respelled, if it has the same tokens else. -/
theorem children_parse_respelled {text' : String}
    (hsettled : AllSettled (Token.reworded name) (markedMembers spans text))
    (hscan : scan text' = ⟨(leavesFrom 0 0 (scan text).tokens).map (·.respelled spans name),
      (scan text).final⟩) :
    (parse text').root.children = Element.mapAll (Token.reworded name) (markedMembers spans text) ++
      [.token (scan text).final] := by
  have hfollows := Follows.placeTokens (Token.reworded name) 0 0 (markedTokens spans text)
  rw [map_reworded_markedTokens] at hfollows
  have hvalue :=
    (Production.commutesIf_allMembers (Token.keepsKinds_reworded name) _ _ hfollows hsettled).1
  show (Production.allMembers (placeTokens 0 (scan text').tokens)).value ++
    [.token (scan text').final] = _
  rw [hscan, hvalue, markedMembers]

/-- The token for the end of the text is at none of the spans. -/
theorem span_final_notMem (hspans : NoneEmpty spans) (text : String) (i o : Nat) :
    (PlacedToken.mk i o (scan text).final).span ∉ spans := by
  intro hmem
  obtain ⟨_, _, _, htext⟩ := Scanner.unmarked_final true text.toList
  have hlength : (scan text).final.textLength = 0 := by
    rw [Token.textLength, show (scan text).final.text = "" from htext]
    rfl
  have := hspans _ hmem
  simp [PlacedToken.span, Span.ofLength, hlength] at this

theorem unmarked_final (text : String) : Unmarked (scan text).final.leading :=
  (Scanner.unmarked_final true text.toList).1

def markedChildren (spans : List Span) (text : String) : List Element :=
  markedMembers spans text ++ [.token (scan text).final]

theorem children_eq_plain (spans : List Span) (text : String) :
    (parse text).root.children = Element.mapAll Token.plain (markedChildren spans text) := by
  rw [children_parse spans, markedChildren, Element.mapAll_append, Element.mapAll_cons,
    Element.mapAll_nil, Element.map_token, Token.plain_of_unmarked (unmarked_final text)]

/-- The marks on the tokens of a text stand where the spans are. -/
theorem markedAt_markedChildren (hspans : NoneEmpty spans) (text : String) :
    Element.MarkedAt spans { Cursor.start with node := 1 }
      (Element.tokensOf (markedChildren spans text)) := by
  have hfinal : Element.tokensOf [.token (scan text).final] = [(scan text).final] := rfl
  rw [Element.MarkedAt, markedChildren, Element.tokensOf_append, List.map_append, leavesFrom_append,
    List.map_append, ← markedAt_markedMembers hspans text, hfinal]
  congr 1
  rw [List.map_cons, Token.plain_of_unmarked (unmarked_final text)]
  show [_] = [PlacedToken.marked spans _]
  rw [PlacedToken.marked, if_neg (by simpa using span_final_notMem hspans text _ _)]

/-- The respelled tokens of the whole tree. -/
theorem map_respelled_tokens (hspans : NoneEmpty spans) (text name : String) :
    (leavesFrom 0 0 (parse text).root.tokens).map (·.respelled spans name) =
      (Element.tokensOf (markedChildren spans text)).map (Token.reworded name) := by
  rw [Node.tokens, children_eq_plain spans, Element.tokensOf_mapAll]
  conv_rhs => rw [markedAt_markedChildren hspans text]
  rw [List.map_map]
  refine List.map_congr_left fun leaf hleaf => (PlacedToken.reworded_marked name ?_).symm
  obtain ⟨t, _, ht⟩ := List.mem_map.mp (mem_leavesFrom hleaf).2.2.2.2
  rw [← ht]
  exact Token.unmarked_plain t

/-- Every leaf with text was scanned. -/
theorem exists_scanned_leaf {leaf : PlacedToken}
    (h : leaf ∈ leavesFrom 0 0 (parse text).root.tokens) (htext : leaf.text ≠ "") :
    ∃ l ∈ leavesFrom 0 0 (scan text).tokens, l.span = leaf.span ∧ l.text = leaf.text := by
  have hspells : Spells ((Element.tokensOf (markedMembers [] text)).map Token.plain)
      (placeTokens 0 (scan text).tokens) := by
    refine (spells_markedMembers [] text).map Token.keepsKinds_plain ?_
    have hfollows := Follows.placeTokens Token.plain 0 0 (markedTokens [] text)
    rwa [map_plain_markedTokens] at hfollows
  rw [tokens_parse [], leavesFrom_append] at h
  obtain h | h := List.mem_append.mp h
  · exact hspells.exists_leaf (token_placeTokens 0 _) h htext
  · rw [List.mem_singleton.mp h] at htext
    exact absurd (Scanner.unmarked_final true text.toList).2.2.2 htext

end Members

/-- The spans are places of renamable names of the tree, in order. -/
structure RenamableSpans (t : Tree) (spans : List Span) : Prop where
  sorted : spans.Pairwise fun a b => a.start ≤ b.start
  leaf : ∀ span ∈ spans, ∃ f ∈ t.tokens, f.leaf.text ≠ "" ∧ f.leaf.span = span ∧ f.IsRenamable

/-- The second tree is the first one with `name` at the spans, and the names are found there at the
places. -/
structure Tree.Respelled (spans : List Span) (name : String) (t t' : Tree)
    (places : List (Option Span)) : Prop where
  twins : Placed.Twins spans name t.top.children t'.top.children
  moved : ∀ span place, (span, some place) ∈ spans.zip places → ∃ f ∈ t.tokens, ∃ f' ∈ t'.tokens,
    f.leaf.span = span ∧ f'.leaf.span = place ∧ f'.leaf.index = f.leaf.index ∧ f'.leaf.text = name

namespace RenamableSpans

variable {t t' : Tree} {spans : List Span} {text name : String}

theorem noneEmpty (h : RenamableSpans t spans) : NoneEmpty spans := by
  intro span hspan
  obtain ⟨f, _, htext, rfl, _⟩ := h.leaf span hspan
  have := PlacedToken.textLength_pos htext
  have := f.leaf.span_le
  omega

/-- All tokens at the spans are renamable. -/
theorem isRenamable (h : RenamableSpans t spans) {f : TokenFocus} (hf : f ∈ t.tokens)
    (hspan : f.leaf.span ∈ spans) : f.IsRenamable := by
  obtain ⟨g, hg, htext, heq, hrenamable⟩ := h.leaf _ hspan
  have hleaf := eq_of_span (Tree.leaf_mem hg) (Tree.leaf_mem hf) htext heq
  rwa [← Tree.eq_of_index hg hf (congrArg PlacedToken.index hleaf)]

theorem settled (h : RenamableSpans t spans) (ht : t.root = (parse text).root) :
    AllSettled (Token.reworded name) (markedMembers spans text) := by
  refine @Element.settled_of_markedAll _ name _ [t.top] _ (markedAt_markedMembers h.noneEmpty text)
    fun f hf hspan => h.isRenamable ?_ hspan
  rw [Tree.tokens_eq]
  show f ∈ Placed.tokenFociOf [t.top] t.top.children
  rw [Tree.top_children, ht, children_parse spans, Element.placeAll_append,
    Placed.tokenFociOf_append]
  exact List.mem_append_left _ hf

theorem exists_focus {leaf : PlacedToken} (h : leaf ∈ leavesFrom 0 0 t.root.tokens) :
    ∃ f ∈ t.tokens, f.leaf = leaf := by
  rw [← Tree.leaves_eq] at h
  exact List.mem_map.mp h

/-- The scanned tokens at the spans are identifiers. -/
theorem kind_eq (h : RenamableSpans t spans) (ht : t.root = (parse text).root) {leaf : PlacedToken}
    (hleaf : leaf ∈ leavesFrom 0 0 (scan text).tokens) (hspan : leaf.span ∈ spans) :
    leaf.token.kind = .identifierToken := by
  have hmarked : leaf.marked spans = leaf.token.mark := by
    rw [PlacedToken.marked, if_pos (List.contains_iff_mem.mpr hspan)]
  have hmem : leaf.token.mark ∈ markedTokens spans text := by
    rw [← hmarked]
    exact List.mem_map_of_mem hleaf
  rw [← token_placeTokens 0 (markedTokens spans text)] at hmem
  obtain ⟨l, hl, heq⟩ := List.mem_map.mp hmem
  obtain ⟨u, hu, kind, rfl, hkind⟩ := (spells_markedMembers spans text).exists_taken hl
  rw [markedAt_markedMembers h.noneEmpty text] at hu
  obtain ⟨leaf', hleaf', hu⟩ := List.mem_map.mp hu
  have hspan' : leaf'.span ∈ spans := by
    by_contra hnot
    rw [PlacedToken.marked, if_neg (by simpa using hnot)] at hu
    obtain ⟨v, _, hv⟩ := List.mem_map.mp (mem_leavesFrom hleaf').2.2.2.2
    have hunmarked := Token.unmarked_plain v
    rw [hv, hu, heq] at hunmarked
    exact absurd (hunmarked .elastic (List.mem_append_left _ List.mem_cons_self)) (by decide)
  have hroot : leaf' ∈ leavesFrom 0 0 t.root.tokens := by
    rw [ht, tokens_parse spans, leavesFrom_append]
    exact List.mem_append_left _ hleaf'
  obtain ⟨f, hf, rfl⟩ := exists_focus hroot
  have hidentifier : f.leaf.token.kind = .identifierToken := (h.isRenamable hf hspan').kind_eq
  have hsame : kind = .identifierToken := by
    rw [← hidentifier, ← PlacedToken.kind_marked spans, hu]
  have hlexeme : l.kind = leaf.token.kind := by rw [Lexeme.kind, heq]; rfl
  obtain hkind | ⟨_, hkind⟩ := hkind
  · rw [← hlexeme, ← hkind, hsame]
  · rw [hsame] at hkind
    exact absurd hkind (by simp [Kind.isContextual])

/-- A name that can be replaced is a word. -/
theorem isWord (ht : t.root = (parse text).root) {f : TokenFocus} (hf : f ∈ t.tokens)
    (hrenamable : f.IsRenamable) (htext : f.leaf.text ≠ "") : IsWord f.leaf.text.toList := by
  have hspans : RenamableSpans t [f.leaf.span] :=
    ⟨List.pairwise_singleton _ _,
      fun span hspan => ⟨f, hf, htext, (List.mem_singleton.mp hspan).symm, hrenamable⟩⟩
  have hleaf := Tree.leaf_mem hf
  rw [ht] at hleaf
  obtain ⟨l, hl, hspan, hsame⟩ := exists_scanned_leaf hleaf htext
  have hkind := hspans.kind_eq ht hl (by rw [hspan]; exact List.mem_singleton_self _)
  rw [← hsame]
  exact (Scanner.isScanned_of_mem_scanFrom (mem_leavesFrom hl).2.2.2.2).isWord hkind

/-- The tokens of the new text are those of the old one, respelled at the spans. -/
theorem respelled (h : RenamableSpans t spans) (ht : t.root = (parse text).root)
    (hname : IsWord name.toList) : List.Forall₂ Token.Respelled (scan text).tokens
      ((leavesFrom 0 0 (scan text).tokens).map (·.respelled spans name)) := by
  conv_lhs => rw [← map_token_leavesFrom 0 0 (scan text).tokens]
  rw [List.forall₂_map_left_iff, List.forall₂_map_right_iff, List.forall₂_same]
  intro leaf hleaf
  rw [PlacedToken.respelled]
  split
  next hspan =>
    have hkind := h.kind_eq ht hleaf (List.contains_iff_mem.mp hspan)
    exact .word hkind
      ((Scanner.isScanned_of_mem_scanFrom (mem_leavesFrom hleaf).2.2.2.2).isWord hkind) hname
  next => exact .same _

theorem onLeaves (h : RenamableSpans t spans) :
    OnLeaves 0 (leavesFrom 0 0 t.root.tokens) spans := by
  intro span hspan
  obtain ⟨f, hf, htext, rfl, _⟩ := h.leaf span hspan
  exact .inr ⟨f.leaf, Tree.leaf_mem hf, htext, rfl⟩

theorem onLeaves_scan (h : RenamableSpans t spans) (ht : t.root = (parse text).root) :
    OnLeaves 0 (leavesFrom 0 0 (scan text).tokens) spans := by
  intro span hspan
  obtain ⟨f, hf, htext, rfl, _⟩ := h.leaf span hspan
  obtain ⟨l, hl, hlspan, hltext⟩ := exists_scanned_leaf (ht ▸ Tree.leaf_mem hf) htext
  exact .inr ⟨l, hl, by rwa [hltext], hlspan⟩

/-- What replacing the spans does to the tokens of the tree. -/
theorem replaces_tree (h : RenamableSpans t spans) (ht : t.root = (parse text).root)
    (name : String) :
    Replaces 0 0 t.root.tokens ((leavesFrom 0 0 t.root.tokens).map (·.respelled spans name)) 0 0 []
      [] spans (replaceSpansFrom name.toList 0 0 text.toList spans) := by
  have hreplaces := @replaceSpansFrom_leaves name 0 0 0 0 _ [] [] _ rfl h.sorted h.onLeaves
  have htext : [] ++ tokensText t.root.tokens ++ [] = text.toList := by
    rw [List.append_nil, List.nil_append, ht, ← String.toList_ofList (l := tokensText _)]
    exact congrArg String.toList (text_parse text)
  rwa [htext] at hreplaces

/-- What replacing the spans does to the scanned tokens. -/
theorem replaces_scan (h : RenamableSpans t spans) (ht : t.root = (parse text).root)
    (name : String) :
    Replaces 0 0 (scan text).tokens
      ((leavesFrom 0 0 (scan text).tokens).map (·.respelled spans name)) 0 0 []
      (scan text).final.fullText spans (replaceSpansFrom name.toList 0 0 text.toList spans) := by
  have hreplaces :=
    @replaceSpansFrom_leaves name 0 0 0 0 _ [] (scan text).final.fullText _ rfl h.sorted
      (h.onLeaves_scan ht)
  have htext : [] ++ tokensText (scan text).tokens ++ (scan text).final.fullText = text.toList := by
    have hall := tokensText_scan text
    simpa [ScannedText.all] using hall
  rwa [htext] at hreplaces

/-- The respelled text is scanned as expected, up to a number that takes in the beginning of a
name. -/
theorem scan_replaced (h : RenamableSpans t spans) (ht : t.root = (parse text).root)
    (hname : IsWord name.toList) :
    let tokens := (leavesFrom 0 0 (scan text).tokens).map (·.respelled spans name)
    let found := scan (replaceSpans text spans name).1
    found = ⟨tokens, (scan text).final⟩ ∨
      Scanner.Absorbed (scan text).tokens tokens found.tokens := by
  have hscan := @Scanner.scanFrom_respelled true text.toList _ (h.respelled ht hname)
  have htext : (replaceSpans text spans name).1.toList =
      tokensText ((leavesFrom 0 0 (scan text).tokens).map (·.respelled spans name)) ++
        (scan text).final.fullText := by
    have hreplaced := (h.replaces_scan ht name).text
    rw [List.nil_append] at hreplaced
    rw [← hreplaced]
    exact String.toList_ofList
  show scan _ = _ ∨ Scanner.Absorbed _ _ (scan _).tokens
  rw [scan, htext]
  exact hscan

/-- Scanned as expected, the respelled text gives a twin. -/
theorem twins (h : RenamableSpans t spans) (ht : t.root = (parse text).root)
    (ht' : t'.root = (parse (replaceSpans text spans name).1).root)
    (hscan : scan (replaceSpans text spans name).1 =
      ⟨(leavesFrom 0 0 (scan text).tokens).map (·.respelled spans name), (scan text).final⟩) :
    t.Respelled spans name t' (replaceSpans text spans name).2 := by
  have hchildren' : t'.root.children =
      Element.mapAll (Token.reworded name) (markedChildren spans text) := by
    rw [ht', children_parse_respelled (h.settled ht) hscan, markedChildren, Element.mapAll_append,
      Element.mapAll_cons, Element.mapAll_nil, Element.map_token,
      Token.reworded_of_unmarked name (unmarked_final text)]
  have hchildren : t.root.children = Element.mapAll Token.plain (markedChildren spans text) := by
    rw [ht, children_eq_plain spans]
  refine ⟨?_, fun span place hmem => ?_⟩
  · rw [Tree.top_children, Tree.top_children, hchildren, hchildren']
    exact (Element.twins_placeAll name rfl rfl _ (markedAt_markedChildren h.noneEmpty text)).1
  · obtain ⟨n, hn, hn'⟩ := (h.replaces_tree ht name).moved span place hmem
    have htokens' : t'.root.tokens = (leavesFrom 0 0 t.root.tokens).map
        (·.respelled spans name) := by
      rw [Node.tokens, hchildren', Element.tokensOf_mapAll, ht, map_respelled_tokens h.noneEmpty]
    have htext : ∀ leaf ∈ (leavesFrom 0 0 t'.root.tokens)[n]?, leaf.text = name := by
      intro leaf hleaf
      rw [getElem?_leavesFrom, htokens', List.getElem?_map] at hleaf
      obtain ⟨u, hu, rfl⟩ := Option.map_eq_some_iff.mp hleaf
      obtain ⟨old, hold, rfl⟩ := Option.map_eq_some_iff.mp hu
      rw [hold] at hn
      show (old.respelled spans name).text = name
      rw [PlacedToken.respelled, if_pos]
      rw [show old.span = span by simpa using hn]
      exact List.contains_iff_mem.mpr (List.of_mem_zip hmem).1
    rw [← htokens', ← Tree.leaves_eq] at hn'
    rw [← Tree.leaves_eq] at hn htext
    simp only [List.getElem?_map, Option.map_map, Option.map_eq_some_iff, Function.comp_apply]
      at hn hn'
    obtain ⟨f, hf, hspan⟩ := hn
    obtain ⟨f', hf', hplace⟩ := hn'
    refine ⟨f, List.mem_of_getElem? hf, f', List.mem_of_getElem? hf', hspan, hplace, ?_, ?_⟩
    · rw [Tree.index_of_getElem? hf, Tree.index_of_getElem? hf']
    · exact htext f'.leaf (by simp [hf'])

/-- A text is parsed again after names were replaced. The new tree is a twin of the old one,
unless one of the names is no longer found at its place. -/
theorem reparse (h : RenamableSpans t spans) (ht : t.root = (parse text).root)
    (hname : IsWord name.toList) (ht' : t'.root = (parse (replaceSpans text spans name).1).root) :
    t.Respelled spans name t' (replaceSpans text spans name).2 ∨
      ∃ span place, (span, some place) ∈ spans.zip (replaceSpans text spans name).2 ∧
        ∀ f ∈ t'.tokens, f.leaf.span ≠ place := by
  obtain hscan | habsorbed := h.scan_replaced ht hname
  · exact .inl (h.twins ht ht' hscan)
  refine .inr ?_
  let tokens := (leavesFrom 0 0 (scan text).tokens).map (·.respelled spans name)
  have hreplaces := h.replaces_scan ht name
  have htexts : ∀ u ∈ tokens, u.text ≠ "" := by
    intro u hu
    obtain ⟨leaf, hleaf, rfl⟩ := List.mem_map.mp hu
    have hscanned := (Scanner.isScanned_of_mem_scanFrom (mem_leavesFrom hleaf).2.2.2.2).ne_nil
    rw [PlacedToken.respelled]
    split
    next =>
      obtain ⟨c, cs, hcs, _⟩ := hname.exists_cons
      exact fun hnil => by simp [show name = "" from hnil] at hcs
    next => exact fun hnil => hscanned (by rw [hnil]; rfl)
  obtain ⟨n, u', hu', hne, hfound⟩ := habsorbed.not_found htexts 0 0 0
  -- The number is followed by a respelled token, which stood at one of the spans.
  obtain ⟨leaf, hleaf, huleaf⟩ : ∃ leaf, (leavesFrom 0 0 (scan text).tokens)[n]? = some leaf ∧
      u'.token = leaf.respelled spans name := by
    rw [getElem?_leavesFrom] at hu'
    obtain ⟨u, hu, rfl⟩ := Option.map_eq_some_iff.mp hu'
    rw [List.getElem?_map] at hu
    obtain ⟨leaf, hleaf, rfl⟩ := Option.map_eq_some_iff.mp hu
    exact ⟨leaf, hleaf, rfl⟩
  have hmem := List.mem_of_getElem? hleaf
  have hspan : leaf.span ∈ spans := by
    by_contra hnot
    refine hne ?_
    rw [huleaf, PlacedToken.respelled, if_neg (by simpa using hnot)]
    rw [← map_token_leavesFrom 0 0 (scan text).tokens, List.getElem?_map, hleaf]
    rfl
  obtain hlt | ⟨place, hplace⟩ := hreplaces.found _ hspan
  · exact absurd hlt (Nat.not_lt_zero _)
  refine ⟨_, place, hplace, fun f hf hfspan => ?_⟩
  obtain ⟨m, hm, hm'⟩ := hreplaces.moved _ _ hplace
  have hnm : m = n := by
    obtain ⟨leaf', hleaf', heq⟩ := Option.map_eq_some_iff.mp hm
    have htext : leaf.text ≠ "" := fun hnil =>
      (Scanner.isScanned_of_mem_scanFrom (mem_leavesFrom hmem).2.2.2.2).ne_nil
        (by rw [show leaf.token.text = "" from hnil]; rfl)
    have hsame := eq_of_span hmem (List.mem_of_getElem? hleaf') htext heq.symm
    rw [getElem?_leavesFrom] at hleaf hleaf'
    obtain ⟨_, _, rfl⟩ := Option.map_eq_some_iff.mp hleaf
    obtain ⟨_, _, rfl⟩ := Option.map_eq_some_iff.mp hleaf'
    have := congrArg PlacedToken.index hsame
    simp only at this
    omega
  subst hnm
  obtain rfl : u'.span = place := by
    rw [hu'] at hm'
    exact Option.some.inj hm'
  have hpos :=
    PlacedToken.textLength_pos (htexts u'.token (mem_leavesFrom (List.mem_of_getElem? hu')).2.2.2.2)
  have htext : f.leaf.text ≠ "" := by
    intro hnil
    have hle := f.leaf.span_le
    have hle' := u'.span_le
    have hzero : f.leaf.token.textLength = 0 := by
      rw [Token.textLength, show f.leaf.token.text = "" from hnil]
      rfl
    rw [hfspan] at hle
    omega
  obtain ⟨l, hl, hlspan, _⟩ := exists_scanned_leaf (ht' ▸ Tree.leaf_mem hf) htext
  exact hfound l hl (by rw [hlspan, hfspan])

end RenamableSpans

end AutoProperty
