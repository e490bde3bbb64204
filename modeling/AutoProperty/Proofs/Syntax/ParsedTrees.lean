import Mathlib.Data.List.Forall2
import AutoProperty.Proofs.Syntax.Nesting
import AutoProperty.Proofs.Syntax.Sites

/-! # The trees of texts

Parsing loses nothing: the tokens of a tree that are not missing ones are the scanned tokens,
one for one and in order, except that identifiers may have become contextual keywords. And
whatever the text is, each node of its tree has the children that fit it.
-/

namespace AutoProperty

/-- What becomes of a scanned token in a tree. An identifier may be a contextual keyword there. -/
structure Token.KeptAs (scanned kept : Token) : Prop where
  text : kept.text = scanned.text
  leading : kept.leading = scanned.leading
  trailing : kept.trailing = scanned.trailing
  kind : kept.kind = scanned.kind ∨ scanned.kind = .identifierToken ∧ kept.kind.isContextual

theorem Token.KeptAs.refl (t : Token) : t.KeptAs t :=
  ⟨rfl, rfl, rfl, .inl rfl⟩

theorem Token.IsTaken.keptAs {t : Token} {l : Lexeme} (h : t.IsTaken l) : l.token.KeptAs t := by
  obtain ⟨kind, rfl, hkind⟩ := h
  exact ⟨rfl, rfl, rfl, hkind⟩

theorem Token.isMissing_missing {kind : Kind} (h : kind.canBeMissing) :
    (Token.missing kind).isMissing := by
  have hkind : kind != .endOfFileToken :=
    (Bool.and_eq_true_iff.mp (Bool.and_eq_true_iff.mp (Bool.and_eq_true_iff.mp h).1).1).2
  exact Bool.and_eq_true_iff.mpr ⟨rfl, hkind⟩

/-- A token with text is not missing. -/
theorem Token.isMissing_eq_false {t : Token} (h : t.text ≠ "") : t.isMissing = false := by
  simp [Token.isMissing, h]

namespace Spells

variable {ts : List Token} {ls : List Lexeme}

/-- Without the missing tokens, those ahead are left, one for one. -/
theorem forall₂_keptAs (h : Spells ts ls) (htext : ∀ l ∈ ls, l.text ≠ "") :
    List.Forall₂ Token.KeptAs (ls.map Lexeme.token) (ts.filter fun t => !t.isMissing) := by
  induction h with
  | nil => exact .nil
  | missing kind hkind _ ih =>
    rw [List.filter_cons_of_neg (by simp [Token.isMissing_missing hkind])]
    exact ih htext
  | taken ht _ ih =>
    obtain ⟨hfirst, hothers⟩ := List.forall_mem_cons.mp htext
    have hkept := ht.keptAs
    have hpresent := Token.isMissing_eq_false (ne_of_eq_of_ne hkept.text hfirst)
    rw [List.filter_cons_of_pos (by simp [hpresent])]
    exact .cons hkept (ih hothers)

/-- A missing token is nothing but its kind. -/
theorem filter_isMissing (h : Spells ts ls) (htext : ∀ l ∈ ls, l.text ≠ "") :
    ∃ kinds : List Kind, ts.filter Token.isMissing = kinds.map Token.missing := by
  induction h with
  | nil => exact ⟨[], rfl⟩
  | missing kind hkind _ ih =>
    obtain ⟨kinds, hkinds⟩ := ih htext
    rw [List.filter_cons_of_pos (Token.isMissing_missing hkind), hkinds]
    exact ⟨kind :: kinds, rfl⟩
  | taken ht _ ih =>
    obtain ⟨hfirst, hothers⟩ := List.forall_mem_cons.mp htext
    have hpresent := Token.isMissing_eq_false (ne_of_eq_of_ne ht.keptAs.text hfirst)
    rw [List.filter_cons_of_neg (by simp [hpresent])]
    exact ih hothers

end Spells

/-- What is scanned has text, the end of the text apart. -/
theorem text_ne_of_mem_placeTokens {text : String} {l : Lexeme}
    (h : l ∈ placeTokens 0 (scan text).tokens) : l.text ≠ "" := by
  have hmem : l.token ∈ (placeTokens 0 (scan text).tokens).map Lexeme.token := List.mem_map_of_mem h
  rw [token_placeTokens] at hmem
  intro hempty
  apply (Scanner.isScanned_of_mem_scanFrom hmem).ne_nil
  rw [show l.token.text = "" from hempty]
  rfl

/-- A token in the tree of a text is a missing one, or a scanned one, or the end of the text. -/
theorem mem_tokens_parse {text : String} {t : Token} (h : t ∈ (parse text).root.tokens) :
    (∃ kind, kind.canBeMissing ∧ t = .missing kind) ∨
      (∃ scanned ∈ (scan text).tokens, scanned.KeptAs t) ∨ t = (scan text).final := by
  have hspells := (Production.makesEach_allMembers (tokensAhead_scan text)).2.spells
  rw [show (parse text).root.tokens = Element.tokensOf _ ++ [(scan text).final] from
    Element.tokensOf_append _ _] at h
  obtain h | h := List.mem_append.mp h
  · obtain hmissing | ⟨l, hl, htaken⟩ := hspells.of_mem h
    · exact .inl hmissing
    · refine .inr (.inl ⟨l.token, ?_, htaken.keptAs⟩)
      rw [← token_placeTokens 0 (scan text).tokens]
      exact List.mem_map_of_mem hl
  · exact .inr (.inr (List.mem_singleton.mp h))

/-- The words that a tree can have for names. -/
structure Tree.HasWords (t : Tree) : Prop where
  word : ∀ f ∈ t.tokens, f.leaf.kind = .identifierToken → f.leaf.text ≠ "" →
    IsWord f.leaf.text.toList
  point : ∀ f ∈ t.tokens, f.leaf.kind = .dotToken → f.leaf.text = "."

/-- In the tree of a text, identifiers are words unless they are missing, and points are never
missing. -/
theorem Tree.hasWords {t : Tree} {text : String} (h : t.root = (parse text).root) : t.HasWords := by
  have hmem {f : TokenFocus} (hf : f ∈ t.tokens) : f.leaf.token ∈ (parse text).root.tokens := by
    rw [← h]
    exact (mem_leavesFrom (Tree.leaf_mem hf)).2.2.2.2
  have hfinal : (scan text).final.kind = .endOfFileToken :=
    (Scanner.unmarked_final true text.toList).2.2.1
  constructor
  · intro f hf (hkind : f.leaf.token.kind = _) htext
    show IsWord f.leaf.token.text.toList
    obtain ⟨_, _, hmissing⟩ | ⟨scanned, hscanned, hkept⟩ | heq := mem_tokens_parse (hmem hf)
    · exact absurd (congrArg Token.text hmissing) htext
    · rw [hkept.text]
      refine (Scanner.isScanned_of_mem_scanFrom hscanned).isWord ?_
      exact hkept.kind.elim (fun heq => heq.symm.trans hkind) And.left
    · rw [heq, hfinal] at hkind
      cases hkind
  · intro f hf (hkind : f.leaf.token.kind = _)
    show f.leaf.token.text = "."
    obtain ⟨kind, hmissing, heq⟩ | ⟨scanned, hscanned, hkept⟩ | heq := mem_tokens_parse (hmem hf)
    · rw [heq] at hkind
      obtain rfl : kind = .dotToken := hkind
      exact absurd hmissing Bool.false_ne_true
    · rw [hkept.text]
      refine (Scanner.isScanned_of_mem_scanFrom hscanned).text_eq_point ?_
      obtain heq | ⟨_, hcontextual⟩ := hkept.kind
      · exact heq.symm.trans hkind
      · rw [hkind] at hcontextual
        simp [Kind.isContextual] at hcontextual
    · rw [heq, hfinal] at hkind
      cases hkind

/-- In the tree of a text, equals signs are never missing. -/
theorem Tree.text_ne_of_equals {t : Tree} {text : String} (h : t.root = (parse text).root)
    {f : TokenFocus} (hf : f ∈ t.tokens) (hkind : f.leaf.kind = .equalsToken) :
    f.leaf.text ≠ "" := by
  have hmem : f.leaf.token ∈ (parse text).root.tokens := by
    rw [← h]
    exact (mem_leavesFrom (Tree.leaf_mem hf)).2.2.2.2
  have hfinal : (scan text).final.kind = .endOfFileToken :=
    (Scanner.unmarked_final true text.toList).2.2.1
  have hkind : f.leaf.token.kind = .equalsToken := hkind
  show f.leaf.token.text ≠ ""
  obtain ⟨kind, hmissing, heq⟩ | ⟨scanned, hscanned, hkept⟩ | heq := mem_tokens_parse hmem
  · rw [heq] at hkind
    obtain rfl : kind = .equalsToken := hkind
    exact absurd hmissing Bool.false_ne_true
  · rw [hkept.text]
    intro hempty
    apply (Scanner.isScanned_of_mem_scanFrom hscanned).ne_nil
    rw [hempty]
    rfl
  · rw [heq, hfinal] at hkind
    cases hkind

namespace Production

/-- The word of an accessor is taken behind its modifiers. -/
theorem advancesAt_accessor {ahead : List Lexeme} (hne : ahead ≠ []) :
    AdvancesAt ahead accessor := by
  show AdvancesAt ahead (accessorFound (accessorAhead? ahead))
  cases hahead : accessorAhead? ahead with
  | none => exact advancesAt_skip hne _
  | some found =>
    obtain ⟨kind, keywordKind⟩ := found
    obtain ⟨_, _, _, word, rest, hrest, _⟩ := accessorAhead?_some hahead
    refine ReadsAt.bind (reads_takeAll keepsKind_accessibilityKind? ahead) fun used _ => ?_
    rw [takeAll_accessibility_rest, hrest]
    refine ReadsAt.bind (A := fun more _ => more = [word]) (fun _ => ⟨[word], rfl, rfl⟩)
      fun more hmore => ?_
    refine (reads_body.bind fun last _ _ => .pure ?_) _
    simp [hmore]

/-- Where a token is left, every loop over items takes one. -/
theorem items_advance {ahead : List Lexeme} (htokens : TokensAhead ahead) (hne : ahead ≠ [])
    (budget : Nat) :
    (namespaceMember budget ahead).rest.length < ahead.length ∧
      (member budget ahead).rest.length < ahead.length ∧
      (accessor ahead).rest.length < ahead.length :=
  ⟨(advancesAt_namespaceMember hne budget).length_lt htokens,
    (advancesAt_member hne budget).length_lt htokens, (advancesAt_accessor hne).length_lt htokens⟩

end Production

open Production in
/-- The tree of a text spells the text. Its root has the members and then the end of the text,
and its tokens are the scanned ones, with missing ones between them. To get there every loop
takes a token each time around, and no level of nesting is one too many. -/
theorem parse_lossless (text : String) :
    let root := (parse text).root
    let ahead := placeTokens 0 (scan text).tokens
    root.kind = .compilationUnit ∧
      (∃ members final, root.children = members ++ [.token final] ∧
        (∀ e ∈ members, e.kind.isNamespaceMember) ∧ final.kind = .endOfFileToken) ∧
      root.text = text ∧
      List.Forall₂ Token.KeptAs (scan text).all (root.tokens.filter fun t => !t.isMissing) ∧
      (∃ kinds : List Kind, root.tokens.filter Token.isMissing = kinds.map Token.missing) ∧
      (allMembers ahead).rest = [] ∧
      (∀ budget, ahead.length ≤ budget →
        itemsBefore (fun _ => false) (namespaceMember budget) ahead = allMembers ahead) ∧
      ∀ behind, TokensAhead behind → behind ≠ [] → ∀ budget,
        (namespaceMember budget behind).rest.length < behind.length ∧
          (member budget behind).rest.length < behind.length ∧
          (accessor behind).rest.length < behind.length := by
  intro root ahead
  have htokens : TokensAhead ahead := tokensAhead_scan text
  have hmade := makesEach_allMembers htokens
  have hfinal : (scan text).final.kind = .endOfFileToken :=
    (Scanner.unmarked_final true text.toList).2.2.1
  have hpresent : (scan text).final.isMissing = false := by simp [Token.isMissing, hfinal]
  have htext : ∀ l ∈ ahead, l.text ≠ "" := fun _ => text_ne_of_mem_placeTokens
  have hroot : root.tokens = Element.tokensOf (allMembers ahead).value ++ [(scan text).final] :=
    Element.tokensOf_append _ _
  refine ⟨rfl, ⟨(allMembers ahead).value, (scan text).final, rfl, ?_, hfinal⟩, text_parse text, ?_,
    ?_, allMembers_rest htokens, fun budget => allMembers_eq htokens, fun _ => items_advance⟩
  · exact fun e he => hmade.1 e.kind (List.mem_map_of_mem he)
  · have hkept := hmade.2.spells.forall₂_keptAs htext
    rw [token_placeTokens] at hkept
    rw [hroot, List.filter_append, List.filter_cons_of_pos (by simp [hpresent])]
    exact List.rel_append hkept (.cons (.refl _) .nil)
  · obtain ⟨kinds, hkinds⟩ := hmade.2.spells.filter_isMissing htext
    refine ⟨kinds, ?_⟩
    rw [hroot, List.filter_append, List.filter_cons_of_neg (by simp [hpresent]), hkinds]
    exact List.append_nil _

/-- A field without name and semicolon: both are missing from the tree, and nothing that was
written is. -/
theorem parse_lossless_use :
    let root := (parse "class C { int }").root
    let ahead := placeTokens 0 (scan "class C { int }").tokens
    (ahead ≠ [] ∧ TokensAhead ahead ∧ ahead.length ≤ 9) ∧
      .missing .semicolonToken ∈ root.tokens ∧ root.text = "class C { int }" ∧
      Production.itemsBefore (fun _ => false) (Production.namespaceMember 9) ahead =
        Production.allMembers ahead ∧
      (Production.member 3 ahead).rest.length < ahead.length := by
  have htokens := tokensAhead_scan "class C { int }"
  have hne : placeTokens 0 (scan "class C { int }").tokens ≠ [] := by decide +kernel
  have hlength : (placeTokens 0 (scan "class C { int }").tokens).length ≤ 9 := by decide +kernel
  obtain ⟨_, _, htext, _, _, _, hlevels, hadvance⟩ := parse_lossless "class C { int }"
  exact ⟨⟨hne, htokens, hlength⟩, by decide +kernel, htext, hlevels 9 hlength, (hadvance _ htokens
    hne 3).2.1⟩

/-! ## Shapes -/

/-- In the tree of a text each node has the kinds of children that fit it, in their order, and
those of them that are kinds of tokens are tokens. -/
theorem Tree.childrenFit_ofText (id : TreeId) (text : String) :
    ∀ f ∈ (Tree.ofText id text).nodes,
      ChildrenFit f.node.kind (f.node.children.map Placed.kind) ∧
        ∀ child ∈ f.node.children, child.kind.isToken ↔ ∃ leaf, child = .token leaf := by
  intro f hf
  have hconforms := Tree.conforms_of_mem (t := .ofText id text) (conforms_parse text) hf
  refine ⟨?_, fun child hchild => ?_⟩
  · rw [← Placed.map_kind_elementsOf]
    exact hconforms.fit
  have hmem : child.element ∈ Placed.elementsOf f.node.children := by
    rw [Placed.elementsOf_eq_map]
    exact List.mem_map_of_mem hchild
  have hchild' : child.element.Conforms := hconforms.child hmem
  constructor
  · exact Placed.exists_token hchild'
  · rintro ⟨leaf, rfl⟩
    cases hchild' with
    | token hkind => exact hkind

/-- A property that lacks the semicolon behind its initial value has one in its tree all the
same. -/
theorem Tree.childrenFit_ofText_use :
    ∃ f ∈ (Tree.ofText ⟨7⟩ "class C { public int P { get; } = 1 }").nodes,
      f.node.kind = .propertyDeclaration ∧
      f.node.children.map Placed.kind = [.publicKeyword, .predefinedType, .identifierToken,
        .accessorList, .equalsValueClause, .semicolonToken] ∧
        ChildrenFit f.node.kind (f.node.children.map Placed.kind) := by
  have hany : (Tree.ofText ⟨7⟩ "class C { public int P { get; } = 1 }").nodes.any fun f =>
      f.node.kind == .propertyDeclaration && f.node.children.map Placed.kind ==
        [.publicKeyword, .predefinedType, .identifierToken, .accessorList, .equalsValueClause,
          .semicolonToken] := by
    decide +kernel
  obtain ⟨f, hf, hkinds⟩ := List.any_eq_true.mp hany
  obtain ⟨hkind, hchildren⟩ := Bool.and_eq_true_iff.mp hkinds
  exact ⟨f, hf, beq_iff_eq.mp hkind, beq_iff_eq.mp hchildren, (Tree.childrenFit_ofText _ _ f hf).1⟩

end AutoProperty
