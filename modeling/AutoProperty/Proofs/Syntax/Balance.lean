import AutoProperty.Proofs.Syntax.Directives
import AutoProperty.Proofs.Syntax.ParsedTrees
import AutoProperty.Proofs.Syntax.Rebuilding

/-! # Directives outlive what is removed

Nodes that are removed leave behind the directives that are unbalanced within them. Put in place
of all trivia of the node, these do the same to the groups of the document, so the document has
the same unbalanced directives as before. This is so unless the trivia in front of a node is
kept as well and opens a group that ends within the node: of such a group the beginning is kept
and the end is not.
-/

namespace AutoProperty

/-- No group that the trivia in front of the first token opens is ended by the trivia behind it. -/
def EndsNoLeading : List Token → Prop
  | [] => True
  | first :: rest => ∀ family,
    depth family 0 first.leading = 0 ∨
    debt family 0 (first.trailing ++ rest.flatMap Token.trivia) = 0

/-- Without what is kept apart, the directives that are unbalanced in the tokens are kept. -/
theorem keptDirectives_zero (tokens : List Token) :
    keptDirectives 0 tokens = looseAmong (tokens.flatMap Token.trivia) := by
  rw [looseAmong_eq]
  exact filterMap_unbalancedDirectives [] _

/-- Of directives in leading trivia, those are kept that would lose their partners. -/
theorem keptDirectives_leading {first : Token} {rest : List Token}
    (h : EndsNoLeading (first :: rest)) :
    keptDirectives first.leading.length (first :: rest) = looseAmong
      (first.trailing ++ rest.flatMap Token.trivia) := by
  have hall : (first :: rest).flatMap Token.trivia =
      first.leading ++ (first.trailing ++ rest.flatMap Token.trivia) := by
    rw [List.flatMap_cons, Token.trivia, List.append_assoc]
  rw [looseAmong_eq, keptDirectives, hall]
  refine (filterMap_unbalancedDirectives _ _).trans ?_
  refine looseWithin_eq_of_debt _ (fun family => Nat.zero_le _) fun family => ?_
  obtain hnone | hnone := h family
  · exact .inl hnone
  · exact .inr (Nat.le_of_eq hnone)

/-- What is carried from removed tokens does the same as all their trivia. -/
theorem sameLoose_carried {keep : KeepOptions} {tokens : List Token} (hdirectives : keep.directives)
    (hleading : keep.leading → EndsNoLeading tokens)
    (htrailing : ∀ t ∈ tokens, ∀ piece ∈ t.trailing, piece.isDirective = false) :
    SameLoose (carried keep tokens) (tokens.flatMap Token.trivia) := by
  cases tokens with
  | nil => exact .refl _
  | cons first rest =>
    obtain ⟨last, hlast⟩ : ∃ last, (first :: rest).getLast? = some last :=
      ⟨_, List.getLast?_eq_some_getLast (List.cons_ne_nil _ _)⟩
    have hend : SameLoose (if keep.trailing then last.trailing else []) [] := by
      split
      next => exact .of_blank (htrailing last (List.mem_of_getLast? hlast))
      next => exact .refl _
    have hmarker : SameLoose (if keep.marker then [.elastic] else []) [] := by
      split
      next => exact .of_not_directive rfl
      next => exact .refl _
    have hkept : SameLoose ((if keep.leading then first.leading else []) ++
        keptDirectives (if keep.leading then first.leading.length else 0) (first :: rest))
        ((first :: rest).flatMap Token.trivia) := by
      cases hkeep : keep.leading with
      | false =>
        rw [if_neg Bool.false_ne_true, if_neg Bool.false_ne_true, keptDirectives_zero]
        exact .reduced _
      | true =>
        rw [if_pos rfl, if_pos rfl, keptDirectives_leading (hleading hkeep), List.flatMap_cons,
          Token.trivia, List.append_assoc]
        exact .append (.refl _) (.reduced _)
    rw [carried, hlast, List.head?_cons]
    simp only [hdirectives, if_true]
    have hcarried := (hkept.append hend).append hmarker
    rwa [List.append_nil, List.append_nil] at hcarried

/-! ## Batches of removals -/

/-- The edit removes a node and keeps the directives that are unbalanced in it. If it keeps the
trivia in front of the node as well, that opens no group which ends in the node. -/
def Edit.KeepsDirectives (tree : Tree) : Edit → Prop
  | .remove node keep => keep.directives ∧
      (keep.leading → ∀ f, tree.node? node = some f → EndsNoLeading (f.node.tokens.map (·.token)))
  | .replace .. => False

section Removals

variable {batch : EditBatch} {tree : Tree}

/-- The node is not edited, or what is carried from it does the same as its trivia. -/
def EditBatch.IsHarmless (batch : EditBatch) (n : PlacedNode) : Prop :=
  ∀ edit, batch.editOf? n = some edit →
    SameLoose ((edit.pieces (n.tokens.map (·.token))).flatMap (Piece.trivia Token.trivia))
      ((n.tokens.map (·.token)).flatMap Token.trivia)

/-- A comma that is dropped leaves its directives. -/
theorem EditBatch.sameLoose_pieceOf (leaf : PlacedToken) :
    SameLoose ((batch.pieceOf tree leaf).trivia Token.trivia) leaf.token.trivia := by
  rw [pieceOf]
  split
  next => exact .filter _
  next => exact .refl _

mutual

/-- The trivia of the pieces does the same as that of the tokens. -/
theorem EditBatch.sameLoose_script (p : Placed) (h : ∀ n ∈ p.nodes, batch.IsHarmless n) :
    SameLoose ((batch.script tree p).flatMap (Piece.trivia Token.trivia))
      ((p.tokens.map (·.token)).flatMap Token.trivia) := by
  cases p with
  | token leaf => exact (sameLoose_pieceOf leaf).append (.refl [])
  | node info children =>
    obtain ⟨hself, hchildren⟩ := List.forall_mem_cons.mp h
    rw [script]
    cases hedit : batch.editOf? ⟨info, children⟩ with
    | none => exact sameLoose_scriptOf children hchildren
    | some edit => exact hself edit hedit

theorem EditBatch.sameLoose_scriptOf (ps : List Placed)
    (h : ∀ n ∈ Placed.nodesOf ps, batch.IsHarmless n) :
    SameLoose ((batch.scriptOf tree ps).flatMap (Piece.trivia Token.trivia))
      (((Placed.tokensOf ps).map (·.token)).flatMap Token.trivia) := by
  cases ps with
  | nil => exact .refl _
  | cons p ps =>
    obtain ⟨hfirst, hothers⟩ := List.forall_mem_append.mp h
    rw [scriptOf, Placed.tokensOf, List.map_append, List.flatMap_append, List.flatMap_append]
    exact (sameLoose_script p hfirst).append (sameLoose_scriptOf ps hothers)

end

end Removals

/-- Behind the tokens in the tree of a text stand no directives. -/
theorem isDirective_trailing_parse (text : String) :
    ∀ t ∈ (parse text).root.tokens, ∀ piece ∈ t.trailing, piece.isDirective = false := by
  intro t ht
  obtain ⟨kind, _, rfl⟩ | ⟨scanned, hscanned, hkept⟩ | rfl := mem_tokens_parse ht
  · exact fun piece hpiece => absurd hpiece List.not_mem_nil
  · rw [hkept.trailing]
    exact Scanner.isDirective_of_mem_trailing hscanned
  · rw [show (scan text).final.trailing = [] from (Scanner.unmarked_final true _).2.1]
    exact fun piece hpiece => absurd hpiece List.not_mem_nil

/-- If all edits keep directives, each edited node leaves what does the same as its trivia. -/
theorem EditBatch.isHarmless {batch : EditBatch} {id : TreeId} {text : String} {foci : List Focus}
    (htargets : List.Forall₂ (Edit.Targets (Tree.ofText id text)) batch.edits foci)
    (hkeeps : ∀ edit ∈ batch.edits, edit.KeepsDirectives (Tree.ofText id text)) {f : Focus}
    (hf : f ∈ (Tree.ofText id text).nodes) : batch.IsHarmless f.node := by
  intro edit hedit
  have hnode := (mem_of_editOf? htargets hf hedit).2.2.1
  have hkeep := hkeeps edit (List.mem_of_find?_eq_some hedit)
  cases edit with
  | replace node replacement => exact hkeep.elim
  | remove node keep =>
    obtain ⟨hdirectives, hleading⟩ := hkeep
    have hends : keep.leading → EndsNoLeading (f.node.tokens.map (·.token)) := fun hkeep =>
      hleading hkeep f (by rw [show node = _ from hnode]; exact Tree.node?_nodeId hf)
    have hcarried := sameLoose_carried hdirectives hends fun t ht => by
      obtain ⟨leaf, hleaf, rfl⟩ := List.mem_map.mp ht
      obtain ⟨g, hg, rfl, _⟩ := Tree.exists_tokenFocus hf hleaf
      exact isDirective_trailing_parse text _ (mem_leavesFrom (Tree.leaf_mem hg)).2.2.2.2
    rwa [← List.append_nil (carried _ _)] at hcarried

section Texts

variable (id : TreeId) (text : String)

/-- After nodes have been removed, and directives kept, the same directives are unbalanced in
the document as before. In particular, if all groups were complete they still are. -/
theorem EditBatch.looseAmong_apply {batch : EditBatch} {root : Node}
    (hkeeps : ∀ edit ∈ batch.edits, edit.KeepsDirectives (Tree.ofText id text))
    (h : batch.apply (Tree.ofText id text) = .ok root) :
    looseAmong (root.tokens.flatMap Token.trivia) =
      looseAmong ((Tree.ofText id text).root.tokens.flatMap Token.trivia) := by
  obtain ⟨foci, htargets, hnested, _⟩ := exists_of_apply h
  have hall := Piece.settle_trivia Token.trivia (fun _ _ => List.append_assoc ..) []
    (batch.pieces (Tree.ofText id text))
  rw [settle_pieces (conforms_parse text) h, settle_pieces_rest h, List.append_nil, List.nil_append,
    pieces_eq (conforms_parse text) htargets hnested] at hall
  rw [hall, ← Tree.map_token_tokensOf (Tree.ofText id text)]
  refine (sameLoose_scriptOf _ fun n hn => ?_).looseAmong_eq
  rw [← Placed.node_fociOf [(Tree.ofText id text).top]] at hn
  obtain ⟨f, hf, rfl⟩ := List.mem_map.mp hn
  exact isHarmless htargets hkeeps (Tree.fociOf_subset_nodes _ hf)

end Texts

/-- A field goes away, and the beginning of a region that stands in front of it stays there. -/
theorem EditBatch.looseAmong_apply_use :
    let tree := Tree.ofText ⟨7⟩ "class C \x7b\n#region R\nint a;\nint b;\n#endregion\n\x7d"
    let batch : EditBatch := ⟨⟨7⟩, [.remove ⟨⟨7⟩, 2⟩ { leading := true, directives := true }]⟩
    (∀ edit ∈ batch.edits, edit.KeepsDirectives tree) ∧
      ∃ root, batch.apply tree = .ok root ∧
      root.text = "class C \x7b\n#region R\nint b;\n#endregion\n\x7d" ∧
        looseAmong (root.tokens.flatMap Token.trivia) = looseAmong
          (tree.root.tokens.flatMap Token.trivia) := by
  intro tree batch
  have htokens : (tree.node? ⟨⟨7⟩, 2⟩).map (fun f => f.node.tokens.map (·.token)) =
      some [⟨.intKeyword, "int", [.directive "#region R\n"], [.space]⟩, .bare .identifierToken "a",
        ⟨.semicolonToken, ";", [], [⟨.endOfLine, "\n"⟩]⟩] := by decide +kernel
  have hkeeps : ∀ edit ∈ batch.edits, edit.KeepsDirectives tree := by
    intro edit hedit
    obtain rfl := List.mem_singleton.mp hedit
    refine ⟨rfl, fun _ f hf => ?_⟩
    rw [hf] at htokens
    rw [show f.node.tokens.map (·.token) = _ from Option.some.inj htokens]
    intro family
    cases family with
    | conditional => exact .inl rfl
    | region => exact .inr rfl
  have htext : ((batch.apply tree).toOption.map Node.text) =
      some "class C \x7b\n#region R\nint b;\n#endregion\n\x7d" := by decide +kernel
  obtain ⟨root, hroot, htext⟩ := Option.map_eq_some_iff.mp htext
  have happly := apply_eq_of_toOption hroot
  exact ⟨hkeeps, root, happly, htext, looseAmong_apply ⟨7⟩ _ hkeeps happly⟩

/-- It is not enough that directives are kept. If the trivia in front of a node is kept, too,
the beginning of a conditional in it stays, and the end, which stands within the node, goes
away. -/
theorem EditBatch.exists_unbalanced :
    ¬∀ (id : TreeId) (text : String) (batch : EditBatch) (root : Node),
      (∀ edit ∈ batch.edits, ∃ node keep, edit = .remove node keep ∧ keep.directives) →
      batch.apply (Tree.ofText id text) = .ok root →
      looseAmong (root.tokens.flatMap Token.trivia) = looseAmong
        ((Tree.ofText id text).root.tokens.flatMap Token.trivia) := by
  intro h
  let tree := Tree.ofText ⟨7⟩ "class C \x7b\n#if A\nint a\n#endif\n;\nint b; \x7d"
  let batch : EditBatch := ⟨⟨7⟩, [.remove ⟨⟨7⟩, 2⟩ { leading := true, directives := true }]⟩
  have hafter : (batch.apply tree).toOption.map
      (fun root => looseAmong (root.tokens.flatMap Token.trivia)) =
      some [.directive "#if A\n"] := by decide +kernel
  have hbefore : looseAmong (tree.root.tokens.flatMap Token.trivia) = [] := by decide +kernel
  obtain ⟨root, hroot, hloose⟩ := Option.map_eq_some_iff.mp hafter
  have heq := h ⟨7⟩ _ batch root (fun edit hedit => ⟨_, _, List.mem_singleton.mp hedit, rfl⟩)
    (apply_eq_of_toOption hroot)
  rw [hloose] at heq
  exact absurd (heq.trans hbefore) (List.cons_ne_nil _ _)

end AutoProperty
