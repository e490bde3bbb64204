import AutoProperty.Proofs.Syntax.Offsets
import AutoProperty.Proofs.Syntax.Payments

/-! # Diagnostics

The diagnostics of a text come in text order, and each lies at a token that is written there, or
at the end. There are at least as many as there are missing tokens and places where tokens are
set aside, so a text without diagnostics has a tree in which every token is written and in its
place.
-/

namespace AutoProperty

/-! ## Order -/

/-- Where a problem lies, in a text whose end lies at `final`. -/
def Problem.place (final : Nat) (p : Problem) : Nat :=
  (p.found?.map Lexeme.start).getD final

theorem Problem.start_diagnostic (final : Nat) (p : Problem) :
    (p.diagnostic final).span.start = p.place final := by
  unfold Problem.diagnostic Problem.place
  cases p.found? <;> rfl

namespace FoundAlong

variable {ahead rest : List Lexeme} {problems : List Problem} {final : Nat}

/-- Of tokens in text order the problems are found in text order, none before the first token. -/
theorem sorted (h : FoundAlong ahead problems rest)
    (horder : ahead.Pairwise fun l m => l.start ≤ m.start) (hfinal : ∀ l ∈ ahead, l.start ≤ final) :
    (problems.Pairwise fun p q => p.place final ≤ q.place final) ∧ ∀ p ∈ problems,
      (ahead.head?.map Lexeme.start).getD final ≤ p.place final := by
  induction h with
  | done => exact ⟨.nil, fun _ hp => absurd hp List.not_mem_nil⟩
  | @passed l rest _ _ _ ih =>
    -- The next problems lie behind this token, or at the end.
    obtain ⟨hl, horder⟩ := List.pairwise_cons.mp horder
    obtain ⟨hlfinal, hfinal⟩ := List.forall_mem_cons.mp hfinal
    obtain ⟨hsorted, hfirst⟩ := ih horder hfinal
    have hnext : l.start ≤ (rest.head?.map Lexeme.start).getD final := by
      cases rest with
      | nil => exact hlfinal
      | cons m rest => exact hl m List.mem_cons_self
    exact ⟨hsorted, fun p hp => Nat.le_trans hnext (hfirst p hp)⟩
  | found complaint _ ih =>
    obtain ⟨hsorted, hfirst⟩ := ih horder hfinal
    exact ⟨.cons hfirst hsorted, List.forall_mem_cons.mpr ⟨Nat.le_refl _, hfirst⟩⟩

/-- A problem lies at one of the tokens, or at the end. -/
theorem found?_mem (h : FoundAlong ahead problems rest) {p : Problem} (hp : p ∈ problems) :
    ∀ l ∈ p.found?, l ∈ ahead := by
  induction h with
  | done => exact absurd hp List.not_mem_nil
  | passed l _ ih => exact fun m hm => List.mem_cons_of_mem l (ih hp m hm)
  | found complaint _ ih =>
    obtain rfl | hp := List.mem_cons.mp hp
    · exact fun l hl => List.mem_of_head? hl
    · exact ih hp

end FoundAlong

/-- The texts of tokens side by side lie in order. -/
theorem sorted_placeTokens (o : Nat) (ts : List Token) :
    ((placeTokens o ts).Pairwise fun l m => l.start ≤ m.start) ∧
      ∀ l ∈ placeTokens o ts, o ≤ l.start ∧ l.start ≤ o + byteLength (tokensText ts) := by
  induction ts generalizing o with
  | nil => exact ⟨.nil, nofun⟩
  | cons t ts ih =>
    obtain ⟨hsorted, hbounds⟩ := ih (o + t.fullLength)
    have hleading : t.leadingLength ≤ t.fullLength := by
      simp [Token.leadingLength, Token.fullLength, Token.fullText]
    have hlength : byteLength (tokensText (t :: ts)) = t.fullLength + byteLength
        (tokensText ts) := by
      simp [Token.fullLength]
    refine ⟨.cons (fun m hm => ?_) hsorted, List.forall_mem_cons.mpr ⟨?_, fun m hm => ?_⟩⟩
    · have := hbounds m hm
      dsimp only
      omega
    · dsimp only
      omega
    · have := hbounds m hm
      omega

/-! ## Places -/

/-- Each token that was read has a place in the tree, the one that it has in the text. -/
theorem Spells.exists_leaf_of_mem {ts us : List Token} {ls : List Lexeme} (h : Spells ts ls)
    {i o : Nat} (hls : ls = placeTokens o us) {l : Lexeme} (hl : l ∈ ls) :
    ∃ leaf ∈ leavesFrom i o ts, leaf.span = .ofLength l.start l.token.textLength ∧
      leaf.text = l.text := by
  induction h generalizing i o us with
  | nil => exact absurd hl List.not_mem_nil
  | missing kind _ _ ih =>
    obtain ⟨leaf, hleaf, hrest⟩ := ih (i := i + 1) hls hl
    exact ⟨leaf, List.mem_cons_of_mem _ hleaf, hrest⟩
  | @taken t first ts ls htaken _ ih =>
    cases us with
    | nil => cases hls
    | cons u us =>
      obtain ⟨rfl, rfl⟩ := List.cons.inj hls
      obtain ⟨kind, rfl, -⟩ := htaken
      obtain rfl | hl := List.mem_cons.mp hl
      · exact ⟨_, List.mem_cons_self, rfl, rfl⟩
      · obtain ⟨leaf, hleaf, hrest⟩ := ih (i := i + 1) (o := o + u.fullLength) rfl hl
        exact ⟨leaf, List.mem_cons_of_mem _ hleaf, hrest⟩

/-! ## Counts -/

namespace Placed

mutual

/-- The defects of an element are its missing tokens and the nodes in it that set tokens aside. -/
theorem defects_element (above : List PlacedNode) (p : Placed) :
    p.element.defects = (p.tokenFoci above).countP (·.leaf.token.isMissing) +
      (p.foci above).countP (·.node.kind == .skippedTokens) := by
  cases p with
  | token t => simp [element, Element.defects, tokenFoci, foci, List.countP_cons]
  | node info children =>
    have hchildren := defectsOf_elementsOf (⟨info, children⟩ :: above) children
    simp [element, Element.defects, tokenFoci, foci, List.countP_cons, hchildren, PlacedNode.kind]
    omega

/-- Each missing token and each node of skipped tokens is one defect. -/
theorem defectsOf_elementsOf (above : List PlacedNode) (ps : List Placed) :
    Element.defectsOf (elementsOf ps) = (tokenFociOf above ps).countP (·.leaf.token.isMissing) +
      (fociOf above ps).countP (·.node.kind == .skippedTokens) := by
  cases ps with
  | nil => rfl
  | cons p ps =>
    have hfirst := defects_element above p
    have hothers := defectsOf_elementsOf above ps
    simp only [elementsOf, Element.defectsOf, tokenFociOf, fociOf, List.countP_append]
    omega

end

end Placed

namespace Tree

theorem defects_root (t : Tree) : t.root.element.defects =
    t.tokens.countP (·.leaf.token.isMissing) + t.nodes.countP (·.node.kind == .skippedTokens) := by
  rw [← element_top, tokens_eq, nodes_eq]
  exact Placed.defects_element [] t.top.placed

/-! ## Texts -/

open Production in
/-- The tokens in the tree of a text are those of its members, and the end behind all that was
read. -/
theorem leaves_ofText (id : TreeId) (text : String) :
    ∃ i, (ofText id text).tokens.map (·.leaf) =
      leavesFrom 0 0 (Element.tokensOf (allMembers (placeTokens 0 (scan text).tokens)).value) ++
        [⟨i, byteLength (tokensText (scan text).tokens), (scan text).final⟩] := by
  have hspells := (makesEach_allMembers (tokensAhead_scan text)).2.spells
  have htext := hspells.tokensText_eq
  rw [token_placeTokens] at htext
  have hroot : (ofText id text).root.tokens =
      Element.tokensOf (allMembers (placeTokens 0 (scan text).tokens)).value ++
        [(scan text).final] :=
    Element.tokensOf_append _ _
  rw [leaves_eq, hroot, leavesFrom_append, htext, Nat.zero_add, Nat.zero_add]
  exact ⟨_, rfl⟩

/-- The tokens that were read have places in the tree of their text. -/
theorem exists_token_of_lexeme (id : TreeId) {text : String} {l : Lexeme}
    (hl : l ∈ placeTokens 0 (scan text).tokens) :
    ∃ f ∈ (ofText id text).tokens, f.leaf.token.isMissing = false ∧
      f.leaf.span = .ofLength l.start l.token.textLength := by
  have hspells := (Production.makesEach_allMembers (tokensAhead_scan text)).2.spells
  obtain ⟨leaf, hleaf, hspan, htext⟩ := hspells.exists_leaf_of_mem (i := 0) (o := 0) rfl hl
  obtain ⟨i, hleaves⟩ := leaves_ofText id text
  have hmem : leaf ∈ (ofText id text).tokens.map (·.leaf) := by
    rw [hleaves]
    exact List.mem_append_left _ hleaf
  obtain ⟨f, hf, rfl⟩ := List.mem_map.mp hmem
  exact ⟨f, hf, Token.isMissing_eq_false (ne_of_eq_of_ne htext (text_ne_of_mem_placeTokens hl)),
    hspan⟩

/-- The end of the text has its place behind all that was read. -/
theorem exists_token_final (id : TreeId) (text : String) :
    ∃ f ∈ (ofText id text).tokens, f.leaf.token.isMissing = false ∧
      f.leaf.span = .ofLength
        (byteLength (tokensText (scan text).tokens) + (scan text).final.leadingLength) 0 := by
  obtain ⟨i, hleaves⟩ := leaves_ofText id text
  let last : PlacedToken := ⟨i, byteLength (tokensText (scan text).tokens), (scan text).final⟩
  have hmem : last ∈ (ofText id text).tokens.map (·.leaf) := by
    rw [hleaves]
    exact List.mem_append_right _ List.mem_cons_self
  obtain ⟨f, hf, hlast⟩ := List.mem_map.mp hmem
  have hempty : (scan text).final.textLength = 0 := by
    rw [Token.textLength, text_final]
    rfl
  refine ⟨f, hf, ?_, ?_⟩
  · rw [hlast]
    exact isMissing_final text
  · rw [hlast, PlacedToken.span, hempty]

/-- The diagnostics of a text come in text order, and each lies at a token that is not missing.
They are at least as many as the missing tokens and the nodes that set tokens aside, so without
diagnostics there are none of either. -/
theorem diagnostics_ofText (id : TreeId) (text : String) :
    let t := ofText id text
    (t.diagnostics.Pairwise fun d e => d.span.start ≤ e.span.start) ∧
      (∀ d ∈ t.diagnostics, ∃ f ∈ t.tokens, f.leaf.token.isMissing = false ∧ d.span = f.leaf.span) ∧
      t.tokens.countP (·.leaf.token.isMissing) + t.nodes.countP (·.node.kind == .skippedTokens) ≤
        t.diagnostics.length ∧
      (t.diagnostics = [] →
        (∀ f ∈ t.tokens, f.leaf.token.isMissing = false) ∧ ∀ f ∈ t.nodes,
        f.node.kind ≠ .skippedTokens) := by
  intro t
  let ahead := placeTokens 0 (scan text).tokens
  let final := byteLength (tokensText (scan text).tokens) + (scan text).final.leadingLength
  have hdiagnostics : t.diagnostics = (Production.allMembers ahead).problems.map
      (·.diagnostic final) := rfl
  obtain ⟨hfound, hpaid⟩ := Production.reports_allMembers ahead fun _ => text_ne_of_mem_placeTokens
  obtain ⟨hsorted, hbounds⟩ := sorted_placeTokens 0 (scan text).tokens
  have hcount : t.tokens.countP (·.leaf.token.isMissing) + t.nodes.countP
      (·.node.kind == .skippedTokens) ≤
      t.diagnostics.length := by
    -- Beside its members the root has only the end of the text, which is never missing.
    have hroot : t.root.element.defects = Element.defectsOf
        (Production.allMembers ahead).value := by
      show (Element.node .compilationUnit (_ ++ [.token (scan text).final])).defects = _
      simp [Element.defects, Element.defectsOf, Element.defectsOf_append, isMissing_final text,
        ahead]
    rw [← defects_root, hroot, hdiagnostics, List.length_map]
    exact hpaid.defects
  refine ⟨?_, fun d hd => ?_, hcount, fun hnone => ?_⟩
  · rw [hdiagnostics, List.pairwise_map]
    have hfinal : ∀ l ∈ ahead, l.start ≤ final := fun l hl => by
      have := hbounds l hl
      omega
    refine (hfound.sorted hsorted hfinal).1.imp fun hle => ?_
    rwa [Problem.start_diagnostic, Problem.start_diagnostic]
  · rw [hdiagnostics] at hd
    obtain ⟨p, hp, rfl⟩ := List.mem_map.mp hd
    have hmem := hfound.found?_mem hp
    unfold Problem.diagnostic
    cases hplace : p.found? with
    | none =>
      obtain ⟨f, hf, hpresent, hspan⟩ := exists_token_final id text
      exact ⟨f, hf, hpresent, hspan.symm⟩
    | some l =>
      obtain ⟨f, hf, hpresent, hspan⟩ := exists_token_of_lexeme id (hmem l hplace)
      exact ⟨f, hf, hpresent, hspan.symm⟩
  · rw [hnone, List.length_nil] at hcount
    constructor
    · intro f hf
      have :=
        List.countP_eq_zero.mp (show t.tokens.countP (·.leaf.token.isMissing) = 0 by omega) f hf
      simpa using this
    · intro f hf
      have :=
        List.countP_eq_zero.mp (show t.nodes.countP (·.node.kind == .skippedTokens) = 0 by omega) f
          hf
      simpa using this

/-- A modifier and a parenthesis are set aside, each with a diagnostic, and a third one is for a
missing semicolon. Where nothing is wrong, nothing is missing. -/
theorem diagnostics_ofText_use :
    let t := ofText ⟨7⟩ "class C { public ) int x }"
    let clean := ofText ⟨7⟩ "class C { int x; }"
    (t.tokens.countP (·.leaf.token.isMissing) = 1 ∧ t.nodes.countP (·.node.kind == .skippedTokens) =
      2 ∧
        t.diagnostics.length = 3) ∧
      (∃ d ∈ t.diagnostics, d.span = ⟨25, 26⟩ ∧
        ∃ f ∈ t.tokens, f.leaf.token.isMissing = false ∧ d.span = f.leaf.span) ∧
      clean.diagnostics = [] ∧ ∀ f ∈ clean.tokens, f.leaf.token.isMissing = false := by
  intro t clean
  obtain ⟨-, hplaces, -, -⟩ := diagnostics_ofText ⟨7⟩ "class C { public ) int x }"
  obtain ⟨-, -, -, hnone⟩ := diagnostics_ofText ⟨7⟩ "class C { int x; }"
  have hclean : clean.diagnostics = [] := by decide +kernel
  have hmem : ⟨⟨25, 26⟩, "expected SemicolonToken, found CloseBraceToken"⟩ ∈ t.diagnostics := by
    decide +kernel
  exact ⟨by decide +kernel, ⟨_, hmem, rfl, hplaces _ hmem⟩, hclean, (hnone hclean).1⟩

end Tree

end AutoProperty
