import Mathlib.Data.List.Forall2
import AutoProperty.Proofs.Syntax.Alike
import AutoProperty.Proofs.Syntax.Sites
import AutoProperty.Proofs.Syntax.WholeText
import AutoProperty.Syntax.Edit

/-! # Rebuilding

What a batch of edits does to the tokens of a tree. Each token of the tree turns into pieces of
its own: into itself, into the tokens that are put in its place, or into trivia that is carried
on. The tokens of the edited tree are these pieces in the order of the text, and each token
takes up what was carried to it.
-/

namespace AutoProperty

/-! ## Pieces -/

/-- A token that is left, or trivia that is carried on to the next one. -/
inductive Piece where
  | token (token : Token)
  | carried (trivia : List Trivia)

namespace Piece

/-- The trivia of a piece. `triviaOf` says which trivia of a token counts. -/
def trivia (triviaOf : Token → List Trivia) : Piece → List Trivia
  | token t => triviaOf t
  | carried trivia => trivia

/-- The tokens of pieces, and the trivia left over. Each token takes up what was carried since
the one before. -/
def settle (pending : List Trivia) : List Piece → List Token × List Trivia
  | [] => ([], pending)
  | .token t :: ps =>
    let (tokens, pending') := settle [] ps
    (t.prepend pending :: tokens, pending')
  | .carried trivia :: ps => settle (pending ++ trivia) ps

@[simp]
theorem settle_nil (pending : List Trivia) : settle pending [] = ([], pending) := rfl

@[simp]
theorem settle_token (pending : List Trivia) (t : Token) (ps : List Piece) :
    settle pending (.token t :: ps) = (t.prepend pending :: (settle [] ps).1, (settle [] ps).2) :=
  rfl

@[simp]
theorem settle_carried (pending trivia : List Trivia) (ps : List Piece) :
    settle pending (.carried trivia :: ps) = settle (pending ++ trivia) ps := rfl

theorem settle_append (pending : List Trivia) (ps qs : List Piece) :
    settle pending (ps ++ qs) = ((settle pending ps).1 ++ (settle (settle pending ps).2 qs).1,
      (settle (settle pending ps).2 qs).2) := by
  induction ps generalizing pending with
  | nil => rfl
  | cons p ps ih => cases p <;> simp [ih]

/-- All tokens, the first of them behind what was carried. -/
theorem settle_tokens (pending : List Trivia) (t : Token) (ts : List Token) :
    settle pending ((t :: ts).map .token) = (t.prepend pending :: ts, []) := by
  have hothers : ∀ ts : List Token, settle [] (ts.map .token) = (ts, []) := by
    intro ts
    induction ts with
    | nil => rfl
    | cons t ts ih => simp [ih, Token.prepend]
  simp [hothers]

/-- No trivia is lost and none comes twice. -/
theorem settle_trivia (triviaOf : Token → List Trivia)
    (h : ∀ trivia t, triviaOf (t.prepend trivia) = trivia ++ triviaOf t) (pending : List Trivia)
    (ps : List Piece) :
    (settle pending ps).1.flatMap triviaOf ++ (settle pending ps).2 = pending ++ ps.flatMap
      (trivia triviaOf) := by
  induction ps generalizing pending with
  | nil => simp
  | cons p ps ih =>
    cases p with
    | token t => simp [h, trivia, ih]
    | carried trivia => simp [ih, Piece.trivia]

end Piece

/-! ## The first token -/

namespace Element

mutual

theorem tokens_mapFirst? (f : Token → Token) (e : Element) :
    (e.mapFirst? f).map tokens = e.tokens.head?.map fun t => f t :: e.tokens.tail := by
  cases e with
  | token t => rfl
  | node kind children =>
    rw [mapFirst?, tokens, Option.map_map, ← tokensOf_mapFirstOf? f children]
    rfl

/-- Changing the first token of some elements leaves all others as they are. -/
theorem tokensOf_mapFirstOf? (f : Token → Token) (es : List Element) :
    (mapFirstOf? f es).map tokensOf = (tokensOf es).head?.map fun t =>
      f t :: (tokensOf es).tail := by
  cases es with
  | nil => rfl
  | cons e es =>
    have hfirst := tokens_mapFirst? f e
    have hothers := tokensOf_mapFirstOf? f es
    rw [mapFirstOf?, tokensOf]
    cases htokens : e.tokens with
    | nil =>
      rw [htokens] at hfirst
      rw [Option.map_eq_none_iff.mp hfirst]
      show Option.map tokensOf (Option.map (e :: ·) _) = _
      rw [Option.map_map]
      simpa [Function.comp_def, tokensOf, htokens] using hothers
    | cons t ts =>
      rw [htokens] at hfirst
      obtain ⟨e', he, htokens'⟩ := Option.map_eq_some_iff.mp hfirst
      rw [he]
      simp [tokensOf, htokens']

end

end Element

/-- What is carried goes in front of the first token. -/
theorem tokens_receive (pending : List Trivia) (n : Node) :
    ((receive pending n).1.tokens, (receive pending n).2) = Piece.settle pending
      (n.tokens.map .token) := by
  have hfirst : (Element.mapFirstOf? (Token.prepend pending) n.children).map Element.tokensOf = _ :=
    Element.tokensOf_mapFirstOf? (Token.prepend pending) n.children
  change _ = n.tokens.head?.map fun t => t.prepend pending :: n.tokens.tail at hfirst
  rw [receive]
  cases htokens : n.tokens with
  | nil =>
    rw [htokens] at hfirst
    rw [Option.map_eq_none_iff.mp hfirst]
    exact congrArg (·, pending) htokens
  | cons t ts =>
    rw [htokens] at hfirst
    obtain ⟨children, hchildren, htokens'⟩ := Option.map_eq_some_iff.mp hfirst
    rw [hchildren, Piece.settle_tokens]
    exact congrArg (·, []) htokens'

/-! ## What becomes of each token -/

def Edit.pieces (tokens : List Token) : Edit → List Piece
  | .remove _ keep => [.carried (carried keep tokens)]
  | .replace _ replacement => replacement.tokens.map .token

def Edit.isRemoval : Edit → Bool
  | .remove .. => true
  | .replace .. => false

namespace EditBatch

def editOf? (batch : EditBatch) (n : PlacedNode) : Option Edit :=
  batch.edits.find? (·.node.index == n.index)

def editedAround? (batch : EditBatch) (f : TokenFocus) : Option (PlacedNode × Edit) :=
  f.above.findSome? fun n => (batch.editOf? n).map (n, ·)

/-- The token is the comma that goes away with a removed node. -/
def dropsComma (batch : EditBatch) (tree : Tree) (leaf : PlacedToken) : Bool :=
  batch.edits.any fun edit =>
    edit.isRemoval && ((tree.node? edit.node).bind separator?).any (·.index == leaf.index)

/-- The piece that a token outside of edited nodes turns into. -/
def pieceOf (batch : EditBatch) (tree : Tree) (leaf : PlacedToken) : Piece :=
  if batch.dropsComma tree leaf then .carried (leaf.token.trivia.filter Trivia.isDirective)
    else .token leaf.token

/-- The pieces that a token turns into. In an edited node all of them stand at its first token. -/
def piecesOf (batch : EditBatch) (tree : Tree) (f : TokenFocus) : List Piece :=
  match batch.editedAround? f with
  | some (n, edit) =>
    if n.tokens.head?.any (·.index == f.leaf.index) then edit.pieces (n.tokens.map (·.token))
      else []
  | none => [batch.pieceOf tree f.leaf]

mutual

def script (batch : EditBatch) (tree : Tree) : Placed → List Piece
  | .token leaf => [batch.pieceOf tree leaf]
  | .node info children =>
    match batch.editOf? ⟨info, children⟩ with
    | some edit => edit.pieces ((Placed.tokensOf children).map (·.token))
    | none => batch.scriptOf tree children

def scriptOf (batch : EditBatch) (tree : Tree) : List Placed → List Piece
  | [] => []
  | p :: ps => batch.script tree p ++ batch.scriptOf tree ps

end

def pieces (batch : EditBatch) (tree : Tree) : List Piece :=
  tree.tokens.flatMap (batch.piecesOf tree)

end EditBatch

/-! ## Rebuilding settles the pieces -/

namespace Placed

mutual

/-- An element has its tokens without its place, too. -/
theorem tokens_element (p : Placed) : p.element.tokens = p.tokens.map (·.token) := by
  cases p with
  | token t => rfl
  | node info children => exact tokensOf_elementsOf children

theorem tokensOf_elementsOf (ps : List Placed) :
    Element.tokensOf (elementsOf ps) = (tokensOf ps).map (·.token) := by
  cases ps with
  | nil => rfl
  | cons p ps =>
    rw [elementsOf, Element.tokensOf, tokens_element p, tokensOf_elementsOf ps, tokensOf,
      List.map_append]

end

end Placed

/-- The tokens of the root are those of the placed tree. -/
theorem Tree.map_token_tokensOf (t : Tree) :
    (Placed.tokensOf t.top.children).map (·.token) = t.root.tokens := by
  rw [← Placed.tokensOf_elementsOf, top_children, Element.elementsOf_placeAll]
  rfl

/-- The plan does what the batch says. -/
structure EditPlan.Follows (plan : EditPlan) (batch : EditBatch) (tree : Tree) : Prop where
  edit : ∀ n : PlacedNode, plan.edit? n.info = batch.editOf? n
  drops : ∀ leaf, plan.drops leaf = batch.dropsComma tree leaf

def EditBatch.Unnested (batch : EditBatch) (foci : List TokenFocus) : Prop :=
  ∀ g ∈ foci, ∀ n ∈ g.above, ∀ edit, batch.editOf? n = some edit →
    batch.editedAround? g = some (n, edit)

section Rebuild

variable {batch : EditBatch} {tree : Tree} {plan : EditPlan}

theorem EditBatch.editedAround?_eq_none {g : TokenFocus}
    (h : ∀ n ∈ g.above, batch.editOf? n = none) : batch.editedAround? g = none := by
  rw [editedAround?, List.findSome?_eq_none_iff]
  intro n hn
  rw [h n hn]
  rfl

/-- The tokens of an edited node turn into what its edit makes of them. -/
theorem EditBatch.flatMap_piecesOf {n : PlacedNode} {edit : Edit} {foci : List TokenFocus}
    (hfoci : ∀ g ∈ foci, batch.editedAround? g = some (n, edit))
    (hleaves : foci.map TokenFocus.leaf = n.tokens) (hne : n.tokens ≠ [])
    (hnodup : (n.tokens.map PlacedToken.index).Nodup) :
    foci.flatMap (batch.piecesOf tree) = edit.pieces (n.tokens.map (·.token)) := by
  cases foci with
  | nil => exact absurd hleaves.symm hne
  | cons g gs =>
    have hhead : n.tokens.head? = some g.leaf := by rw [← hleaves]; rfl
    rw [← hleaves] at hnodup
    have hfirst : batch.piecesOf tree g = edit.pieces (n.tokens.map (·.token)) := by
      rw [piecesOf, hfoci g List.mem_cons_self]
      simp [hhead]
    have hothers : gs.flatMap (batch.piecesOf tree) = [] := by
      rw [List.flatMap_eq_nil_iff]
      intro g' hg'
      have hne : g.leaf.index ≠ g'.leaf.index := by
        rintro heq
        refine (List.nodup_cons.mp hnodup).1 (heq ▸ ?_)
        exact List.mem_map_of_mem (List.mem_map_of_mem hg')
      rw [piecesOf, hfoci g' (List.mem_cons_of_mem _ hg')]
      simp [hhead, hne]
    rw [List.flatMap_cons, hfirst, hothers, List.append_nil]

/-- The tokens lie in distinct places and every node holds some. -/
structure Placed.HasLeaves (above : List PlacedNode) (ps : List Placed) : Prop where
  nodes : ∀ f ∈ fociOf above ps, f.node.tokens ≠ []
  indices : ((tokensOf ps).map PlacedToken.index).Nodup

theorem Placed.HasLeaves.child {above : List PlacedNode} {info : NodeInfo}
    {children ps : List Placed} (h : HasLeaves above (.node info children :: ps)) :
    HasLeaves (⟨info, children⟩ :: above) children where
  nodes f hf := h.nodes f (List.mem_append_left _ (List.mem_cons_of_mem _ hf))
  indices := by
    have hindices := h.indices
    rw [tokensOf, List.map_append] at hindices
    exact (List.nodup_append.mp hindices).1

/-- The leaves of the first element are among those of the list. -/
theorem Placed.HasLeaves.head {above : List PlacedNode} {p : Placed} {ps : List Placed}
    (h : HasLeaves above (p :: ps)) : HasLeaves above [p] where
  nodes f hf := by
    rw [fociOf, fociOf, List.append_nil] at hf
    exact h.nodes f (List.mem_append_left _ hf)
  indices := by
    have hindices := h.indices
    rw [tokensOf, List.map_append] at hindices
    rw [tokensOf, tokensOf, List.append_nil]
    exact (List.nodup_append.mp hindices).1

theorem Placed.HasLeaves.tail {above : List PlacedNode} {p : Placed} {ps : List Placed}
    (h : HasLeaves above (p :: ps)) : HasLeaves above ps where
  nodes f hf := h.nodes f (List.mem_append_right _ hf)
  indices := by
    have hindices := h.indices
    rw [tokensOf, List.map_append] at hindices
    exact (List.nodup_append.mp hindices).2.1

/-- Outside of edited nodes each token turns into a piece of its own. -/
theorem EditBatch.flatMap_piecesOf_token {above : List PlacedNode}
    (habove : ∀ n ∈ above, batch.editOf? n = none) (leaf : PlacedToken) :
    (Placed.tokenFoci above (.token leaf)).flatMap (batch.piecesOf tree) =
      [batch.pieceOf tree leaf] := by
  show batch.piecesOf tree ⟨leaf, above⟩ ++ [] = _
  rw [List.append_nil, piecesOf, editedAround?_eq_none habove]

mutual

/-- The pieces by the tree: those of an edited node come from its edit. -/
theorem EditBatch.flatMap_tokenFoci {above : List PlacedNode}
    (habove : ∀ n ∈ above, batch.editOf? n = none) (p : Placed)
    (hleaves : Placed.HasLeaves above [p]) (hunnested : batch.Unnested (p.tokenFoci above)) :
    (p.tokenFoci above).flatMap (batch.piecesOf tree) = batch.script tree p := by
  cases p with
  | token leaf => exact flatMap_piecesOf_token habove leaf
  | node info children =>
    rw [script]
    cases hedit : batch.editOf? ⟨info, children⟩ with
    | none =>
      exact flatMap_tokenFociOf (List.forall_mem_cons.mpr ⟨hedit, habove⟩) children hleaves.child
        hunnested
    | some edit =>
      have hfoci : ∀ g ∈ Placed.tokenFociOf (⟨info, children⟩ :: above) children,
          batch.editedAround? g = some (⟨info, children⟩, edit) := fun g hg => by
        obtain ⟨inner, hinner⟩ := Placed.exists_innerOf children hg
        exact hunnested g hg _ (hinner ▸ List.mem_append_right _ List.mem_cons_self) edit hedit
      exact flatMap_piecesOf hfoci (Placed.leaf_tokenFociOf _ _)
        (hleaves.nodes ⟨⟨info, children⟩, above⟩ (List.mem_append_left _ List.mem_cons_self))
        hleaves.child.indices

theorem EditBatch.flatMap_tokenFociOf {above : List PlacedNode}
    (habove : ∀ n ∈ above, batch.editOf? n = none) (ps : List Placed)
    (hleaves : Placed.HasLeaves above ps)
    (hunnested : batch.Unnested (Placed.tokenFociOf above ps)) :
    (Placed.tokenFociOf above ps).flatMap (batch.piecesOf tree) = batch.scriptOf tree ps := by
  cases ps with
  | nil => rfl
  | cons p ps =>
    rw [Placed.tokenFociOf, List.flatMap_append, scriptOf,
      flatMap_tokenFoci habove p hleaves.head fun g hg => hunnested g (List.mem_append_left _ hg),
      flatMap_tokenFociOf habove ps hleaves.tail fun g hg =>
        hunnested g (List.mem_append_right _ hg)]

end

mutual

/-- Rebuilding an element settles its pieces behind what was carried before. -/
theorem EditPlan.rebuild_settle (hplan : plan.Follows batch tree) (pending : List Trivia)
    (p : Placed) :
    (Element.tokensOf (plan.rebuild pending p).1.toList, (plan.rebuild pending p).2) = Piece.settle
      pending (batch.script tree p) := by
  cases p with
  | token leaf =>
    rw [rebuild, hplan.drops, EditBatch.script, EditBatch.pieceOf]
    split
    next => rfl
    next => rfl
  | node info children =>
    rw [rebuild, hplan.edit ⟨info, children⟩, EditBatch.script]
    cases batch.editOf? ⟨info, children⟩ with
    | none =>
      refine Eq.trans ?_ (rebuildAll_settle hplan pending children)
      simp [Element.tokensOf, Element.tokens]
    | some edit =>
      cases edit with
      | remove node keep => rfl
      | replace node replacement =>
        refine Eq.trans ?_ (tokens_receive pending replacement)
        simp [Element.tokensOf, Element.tokens, Node.element, Node.tokens]

theorem EditPlan.rebuildAll_settle (hplan : plan.Follows batch tree) (pending : List Trivia)
    (ps : List Placed) :
    (Element.tokensOf (plan.rebuildAll pending ps).1, (plan.rebuildAll pending ps).2) = Piece.settle
      pending (batch.scriptOf tree ps) := by
  cases ps with
  | nil => rfl
  | cons p ps =>
    rw [EditBatch.scriptOf, Piece.settle_append, ← rebuild_settle hplan pending p,
      ← rebuildAll_settle hplan (plan.rebuild pending p).2 ps, ← Element.tokensOf_append]
    rfl

end

end Rebuild

/-! ## Accepted batches -/

section Batches

variable {tree : Tree} {edits : List Edit} {foci : List Focus}

def Edit.Targets (tree : Tree) (edit : Edit) (f : Focus) : Prop :=
  f ∈ tree.nodes ∧ edit.node = tree.nodeId f.node ∧ f.above ≠ []

/-- Edits of different nodes pass the check. -/
theorem checkEdits_eq (h : List.Forall₂ (Edit.Targets tree) edits foci) {seen : List Nat}
    (hseen : ∀ f ∈ foci, f.node.index ∉ seen) (hnodup : (foci.map (·.node.index)).Nodup) :
    checkEdits tree seen edits = .ok foci := by
  induction h generalizing seen with
  | nil => rfl
  | @cons edit f edits foci hf _ ih =>
    obtain ⟨hmem, hnode, habove⟩ := hf
    obtain ⟨hfresh, hnodup⟩ := List.nodup_cons.mp hnodup
    obtain ⟨hseen, hothers⟩ := List.forall_mem_cons.mp hseen
    have hparent : f.parent?.isNone = false := by
      cases h : f.above with
      | nil => exact absurd h habove
      | cons n above => simp [Focus.parent?, h]
    have hunseen : seen.contains f.node.index = false := by simpa using hseen
    have hrest : checkEdits tree (f.node.index :: seen) edits = .ok foci := by
      refine ih (fun g hg => ?_) hnodup
      rw [List.mem_cons, not_or]
      exact ⟨fun heq => hfresh (List.mem_map.mpr ⟨g, hg, heq⟩), hothers g hg⟩
    rw [checkEdits, hnode, Tree.node?_nodeId hmem]
    simp only [hparent, hunseen, hrest, Bool.false_eq_true, if_false]
    rfl

/-- Edits that pass the check are about nodes of the tree. -/
theorem checkEdits_targets {seen : List Nat} (h : checkEdits tree seen edits = .ok foci) :
    List.Forall₂ (Edit.Targets tree) edits foci := by
  induction edits generalizing seen foci with
  | nil =>
    cases h
    exact .nil
  | cons edit edits ih =>
    rw [checkEdits] at h
    split at h
    next => cases h
    next f hnode =>
      split at h
      next => cases h
      next hparent =>
        split at h
        next => cases h
        next =>
          cases hrest : checkEdits tree (f.node.index :: seen) edits with
          | error e =>
            rw [hrest] at h
            cases h
          | ok rest =>
            rw [hrest] at h
            cases h
            obtain ⟨hmem, hid⟩ := Tree.node?_some hnode
            refine .cons ⟨hmem, hid, fun hnil => hparent ?_⟩ (ih hrest)
            rw [Focus.parent?, hnil]
            rfl

/-- Edits of different nodes can be made at once if none of the nodes is around another. -/
theorem EditBatch.apply_eq (h : List.Forall₂ (Edit.Targets tree) edits foci)
    (hnodup : (foci.map (·.node.index)).Nodup)
    (hapart : ∀ f ∈ foci, ∀ n ∈ f.above, n.index ∉ foci.map (·.node.index)) :
    EditBatch.apply ⟨tree.id, edits⟩ tree =
      .ok ⟨tree.root.kind, ((EditPlan.ofFoci edits foci).rebuildAll [] tree.top.children).1⟩ := by
  have hchecked := checkEdits_eq h (fun _ _ => List.not_mem_nil) hnodup
  have hnested : nested? foci = none := by
    rw [nested?, List.find?_eq_none]
    intro f hf
    simpa using hapart f hf
  rw [EditBatch.apply, if_neg (not_not.mpr rfl), hchecked]
  simp only [Bind.bind, Except.bind, hnested]
  rfl

/-- What a batch makes of a tree is its result. -/
theorem EditBatch.apply_eq_of_toOption {batch : EditBatch} {root : Node}
    (h : (batch.apply tree).toOption = some root) : batch.apply tree = .ok root := by
  cases hrun : batch.apply tree with
  | error e =>
    rw [hrun] at h
    cases h
  | ok root' =>
    rw [hrun] at h
    rw [Option.some.inj h]

/-- A batch that is accepted is for the tree, and its edits have passed both checks. -/
theorem EditBatch.exists_checked_of_apply {batch : EditBatch} {root : Node}
    (h : batch.apply tree = .ok root) :
    batch.tree = tree.id ∧ ∃ foci, checkEdits tree [] batch.edits = .ok foci ∧ nested? foci = none ∧
      root =
        ⟨tree.root.kind,
          ((EditPlan.ofFoci batch.edits foci).rebuildAll [] tree.top.children).1⟩ := by
  rw [apply] at h
  split at h
  next => cases h
  next htree =>
    cases hchecked : checkEdits tree [] batch.edits with
    | error e =>
      rw [hchecked] at h
      cases h
    | ok foci =>
      rw [hchecked] at h
      simp only [Bind.bind, Except.bind] at h
      split at h
      next => cases h
      next hnested =>
        cases h
        exact ⟨not_not.mp htree, foci, rfl, hnested, rfl⟩

/-- A batch that is accepted has found its nodes, and they lie apart. -/
theorem EditBatch.exists_of_apply {batch : EditBatch} {root : Node}
    (h : batch.apply tree = .ok root) :
    ∃ foci, List.Forall₂ (Edit.Targets tree) batch.edits foci ∧ nested? foci = none ∧
      root =
        ⟨tree.root.kind,
          ((EditPlan.ofFoci batch.edits foci).rebuildAll [] tree.top.children).1⟩ := by
  obtain ⟨_, foci, hchecked, hnested, hroot⟩ := exists_checked_of_apply h
  exact ⟨foci, checkEdits_targets hchecked, hnested, hroot⟩

end Batches

theorem exists_forall₂ {α β : Type} {r : α → β → Prop} {as : List α} (h : ∀ a ∈ as, ∃ b, r a b) :
    ∃ bs, List.Forall₂ r as bs := by
  induction as with
  | nil => exact ⟨[], .nil⟩
  | cons a as ih =>
    obtain ⟨⟨b, hb⟩, hothers⟩ := List.forall_mem_cons.mp h
    obtain ⟨bs, hbs⟩ := ih hothers
    exact ⟨b :: bs, .cons hb hbs⟩

section Accepted

variable {tree : Tree} {batch : EditBatch} {foci : List Focus}

/-- The node that an edit was found for is among those of the batch. -/
theorem EditBatch.mem_of_editOf? (h : List.Forall₂ (Edit.Targets tree) batch.edits foci) {f : Focus}
    {edit : Edit} (hf : f ∈ tree.nodes) (hedit : batch.editOf? f.node = some edit) :
    f ∈ foci ∧ edit.Targets tree f := by
  have hindex : edit.node.index = f.node.index := by simpa using List.find?_some hedit
  obtain ⟨f', hf', htargets⟩ := exists_of_forall₂ h (List.mem_of_find?_eq_some hedit)
  have hindex' : f'.node.index = f.node.index := by
    rw [← hindex, htargets.2.1]
    rfl
  obtain rfl := Tree.focus_eq htargets.1 hf hindex'
  exact ⟨hf', htargets⟩

/-- The plan of a batch treats each node as its edit says. -/
theorem EditPlan.follows_ofFoci (h : List.Forall₂ (Edit.Targets tree) batch.edits foci) :
    (EditPlan.ofFoci batch.edits foci).Follows batch tree where
  edit n := by
    rw [EditPlan.edit?, EditBatch.editOf?, ofFoci]
    generalize batch.edits = edits at h
    induction h with
    | nil => rfl
    | @cons edit f edits foci htargets _ ih =>
      have hindex : f.node.index = edit.node.index := by
        rw [htargets.2.1]
        rfl
      rw [List.zip_cons_cons, List.map_cons, List.lookup_cons, List.find?_cons, ← hindex]
      have hcomm : (n.index == f.node.index) = (f.node.index == n.index) := BEq.comm
      rw [show n.info.index = n.index from rfl, hcomm]
      cases f.node.index == n.index with
      | true => rfl
      | false => exact ih
  drops leaf := by
    rw [EditPlan.drops, EditBatch.dropsComma, ofFoci]
    generalize batch.edits = edits at h
    induction h with
    | nil => rfl
    | @cons edit f edits foci htargets _ ih =>
      have hnode : tree.node? edit.node = some f := by
        rw [htargets.2.1]
        exact Tree.node?_nodeId htargets.1
      rw [List.zip_cons_cons, List.any_cons, hnode, ← ih]
      cases edit with
      | replace node replacement => rfl
      | remove node keep =>
        cases hcomma : separator? f with
        | none =>
          simp only [List.filterMap_cons, Option.bind_some, hcomma, Option.map_none,
            Option.any_none, Bool.and_false, Bool.false_or]
        | some comma =>
          have hcomm : (leaf.index == comma.index) = (comma.index == leaf.index) := BEq.comm
          simp only [List.filterMap_cons, Option.bind_some, hcomma, Option.map_some,
            Option.any_some, List.contains_cons, hcomm, Edit.isRemoval, Bool.true_and]

/-- Edited nodes that are not within each other are alone around their tokens. -/
theorem EditBatch.unnested (h : List.Forall₂ (Edit.Targets tree) batch.edits foci)
    (hnested : nested? foci = none) : batch.Unnested tree.tokens := by
  intro g hg n hn edit hedit
  obtain ⟨inner, outer, habove⟩ := List.append_of_mem hn
  have hedited := (mem_of_editOf? h (Tree.mem_nodes_of_above_token hg habove) hedit).1
  have hinner : ∀ m ∈ inner, (batch.editOf? m).map (m, ·) = none := by
    intro m hm
    rw [Option.map_eq_none_iff, Option.eq_none_iff_forall_ne_some]
    intro edit' hedit'
    obtain ⟨before, after, rfl⟩ := List.append_of_mem hm
    rw [List.append_assoc] at habove
    have hmem := (mem_of_editOf? h (Tree.mem_nodes_of_above_token hg habove) hedit').1
    have hapart := List.find?_eq_none.mp hnested _ hmem
    simp only [List.any_eq_true, not_exists, not_and] at hapart
    refine hapart n (List.mem_append_right _ List.mem_cons_self) ?_
    exact List.contains_iff_mem.mpr (List.mem_map_of_mem hedited)
  rw [editedAround?, habove, List.findSome?_append, List.findSome?_eq_none_iff.mpr hinner,
    List.findSome?_cons, hedit]
  rfl

/-- The tokens of a tree lie in distinct places, and each of its nodes holds some. -/
theorem Tree.hasLeaves (h : tree.root.element.Conforms) :
    Placed.HasLeaves [tree.top] tree.top.children where
  nodes f hf := by
    have hne := (Tree.conforms_of_mem h (tree.fociOf_subset_nodes hf)).tokens_ne_nil
    rw [Placed.tokens_element] at hne
    exact fun hnil => hne (by rw [PlacedNode.placed, Placed.tokens]; exact congrArg _ hnil)
  indices := by
    rw [tree.numbered]
    exact List.nodup_range' 1

/-- The root is not edited. -/
theorem EditBatch.editOf?_top (h : List.Forall₂ (Edit.Targets tree) batch.edits foci) :
    batch.editOf? tree.top = none := by
  rw [Option.eq_none_iff_forall_ne_some]
  intro edit hedit
  have hmem : (⟨tree.top, []⟩ : Focus) ∈ tree.nodes := by
    rw [Tree.nodes_eq]
    exact List.mem_cons_self
  exact (mem_of_editOf? h hmem hedit).2.2.2 rfl

/-- The pieces of the tokens are those of the tree. -/
theorem EditBatch.pieces_eq (hconforms : tree.root.element.Conforms)
    (h : List.Forall₂ (Edit.Targets tree) batch.edits foci) (hnested : nested? foci = none) :
    batch.pieces tree = batch.scriptOf tree tree.top.children := by
  rw [pieces, ← Tree.tokenFociOf_eq_tokens]
  refine flatMap_tokenFociOf (List.forall_mem_singleton.mpr (editOf?_top h)) _
    (Tree.hasLeaves hconforms) ?_
  rw [Tree.tokenFociOf_eq_tokens]
  exact unnested h hnested

/-- The tokens of an edited tree are the pieces, settled. -/
theorem EditBatch.settle_pieces {root : Node} (hconforms : tree.root.element.Conforms)
    (h : batch.apply tree = .ok root) : (Piece.settle [] (batch.pieces tree)).1 = root.tokens := by
  obtain ⟨foci, htargets, hnested, rfl⟩ := exists_of_apply h
  rw [pieces_eq hconforms htargets hnested,
    ← EditPlan.rebuildAll_settle (EditPlan.follows_ofFoci htargets) [] tree.top.children]
  rfl

/-- A comma is one of the tokens among the children. -/
theorem commaAt?_some {n : PlacedNode} {i : Nat} {comma : PlacedToken}
    (h : commaAt? n i = some comma) : comma ∈ n.childTokens ∧ comma.kind = .commaToken := by
  obtain ⟨child, hchild, h⟩ := Option.bind_eq_some_iff.mp h
  obtain ⟨leaf, hleaf, h⟩ := Option.bind_eq_some_iff.mp h
  obtain ⟨_, hguard, h⟩ := Option.bind_eq_some_iff.mp h
  cases h
  refine ⟨List.mem_filterMap.mpr ⟨child, List.mem_of_getElem? hchild, hleaf⟩, ?_⟩
  by_cases hkind : comma.kind == .commaToken
  · exact beq_iff_eq.mp hkind
  · cases (show none = some _ from (if_neg hkind).symm.trans hguard)

/-- A comma that goes away stands beside what is removed. -/
theorem separator?_some {f : Focus} {comma : PlacedToken} (h : separator? f = some comma) :
    ∃ parent, f.parent? = some parent ∧ comma ∈ parent.childTokens ∧ comma.kind = .commaToken := by
  obtain ⟨parent, hparent, h⟩ := Option.bind_eq_some_iff.mp h
  obtain ⟨_, _, h⟩ := Option.bind_eq_some_iff.mp h
  obtain ⟨i, _, h⟩ := Option.bind_eq_some_iff.mp h
  refine ⟨parent, hparent, ?_⟩
  obtain h | ⟨_, h⟩ := Option.or_eq_some_iff.mp ((Option.orElse_eq_or ..).symm.trans h)
  · exact commaAt?_some h
  · split at h
    next => cases h
    next => exact commaAt?_some h

/-- Only commas are dropped. -/
theorem EditBatch.kind_of_dropsComma {g : TokenFocus} (hg : g ∈ tree.tokens)
    (h : batch.dropsComma tree g.leaf) : g.leaf.kind = .commaToken := by
  obtain ⟨edit, _, hdrops⟩ := List.any_eq_true.mp h
  obtain ⟨comma, hcomma, hindex⟩ := (Option.any_eq_true ..).mp (Bool.and_eq_true_iff.mp hdrops).2
  obtain ⟨f, hf, hcomma⟩ := Option.bind_eq_some_iff.mp hcomma
  obtain ⟨parent, hparent, hchild, hkind⟩ := separator?_some hcomma
  obtain ⟨outer, habove⟩ := List.head?_eq_some_iff.mp hparent
  have hparent :=
    Tree.mem_nodes_of_above (Tree.node?_some hf).1
      (show f.above = [] ++ parent :: outer from habove)
  have heq := Tree.eq_of_index (Tree.tokenFocus_mem hparent hchild) hg (beq_iff_eq.mp hindex)
  rw [← heq]
  exact hkind

end Accepted

/-! ## Trees of texts -/

section Texts

variable (id : TreeId) (text : String)

/-- The end of the text is the last token, and only the root is around it. -/
theorem Tree.exists_final :
    ∃ before leaf, (Tree.ofText id text).tokens = before ++ [⟨leaf, [(Tree.ofText id text).top]⟩] ∧
      leaf.kind = .endOfFileToken := by
  have hchildren : (Tree.ofText id text).root.children =
      (Production.allMembers (placeTokens 0 (scan text).tokens)).value ++
    [.token (scan text).final] := rfl
  rw [← Tree.tokenFociOf_eq_tokens, Tree.top_children, hchildren, Element.placeAll_append,
    Placed.tokenFociOf_append]
  exact ⟨_, _, rfl, (Scanner.unmarked_final true text.toList).2.2.1⟩

variable {id text} in
/-- The end of the text is left and takes up what was carried last. -/
theorem EditBatch.settle_pieces_rest {batch : EditBatch} {root : Node}
    (h : batch.apply (Tree.ofText id text) = .ok root) :
    (Piece.settle [] (batch.pieces (Tree.ofText id text))).2 = [] := by
  obtain ⟨foci, htargets, _⟩ := exists_of_apply h
  obtain ⟨before, leaf, htokens, hkind⟩ := Tree.exists_final id text
  have hfinal : batch.piecesOf (Tree.ofText id text) ⟨leaf, [(Tree.ofText id text).top]⟩ =
      [.token leaf.token] := by
    have htop : ∀ n ∈ [(Tree.ofText id text).top], batch.editOf? n = none :=
      List.forall_mem_singleton.mpr (editOf?_top htargets)
    have hleft : batch.dropsComma (Tree.ofText id text) leaf = false := by
      rw [Bool.eq_false_iff]
      intro hdrops
      have hmem : ⟨leaf, [(Tree.ofText id text).top]⟩ ∈ (Tree.ofText id text).tokens := by
        rw [htokens]
        exact List.mem_append_right _ List.mem_cons_self
      rw [kind_of_dropsComma hmem hdrops] at hkind
      cases hkind
    rw [piecesOf, editedAround?_eq_none htop, pieceOf, hleft]
    rfl
  rw [pieces, htokens, List.flatMap_append, List.flatMap_cons, hfinal, Piece.settle_append]
  rfl

/-- A batch that is accepted turns each token of the tree into its pieces and nothing else: a
token that is not edited into itself, those of a node that is put in place of another into that
node's, and those of a removed node, like its comma, into the trivia carried from them. Each
token that is left stands behind what was carried since the one before, and all trivia that is
carried or stood in front of such a token is in the result once. -/
theorem EditBatch.tokens_apply {batch : EditBatch} {root : Node}
    (h : batch.apply (Tree.ofText id text) = .ok root) :
    Piece.settle [] (batch.pieces (Tree.ofText id text)) = (root.tokens, []) ∧
      root.tokens.flatMap Token.leading = (batch.pieces (Tree.ofText id text)).flatMap
        (Piece.trivia Token.leading) := by
  have htokens := settle_pieces (conforms_parse text) h
  have hrest := settle_pieces_rest h
  have htrivia :=
    Piece.settle_trivia Token.leading (fun _ _ => rfl) [] (batch.pieces (Tree.ofText id text))
  rw [htokens, hrest, List.append_nil, List.nil_append] at htrivia
  exact ⟨Prod.ext htokens hrest, htrivia⟩

/-- A variable goes away with its comma, and the remark in front of it is carried to the next
one. -/
theorem EditBatch.tokens_apply_use :
    let tree := Tree.ofText ⟨7⟩ "class C { int a, /* b */ b, c; }"
    let batch : EditBatch := ⟨⟨7⟩, [.remove ⟨⟨7⟩, 6⟩ { leading := true, trailing := true }]⟩
    ∃ root, batch.apply tree = .ok root ∧ root.text = "class C { int a, /* b */ c; }" ∧
      Piece.settle [] (batch.pieces tree) = (root.tokens, []) := by
  intro tree batch
  have htext : ((batch.apply tree).toOption.map Node.text) =
      some "class C { int a, /* b */ c; }" := by decide +kernel
  obtain ⟨root, hroot, htext⟩ := Option.map_eq_some_iff.mp htext
  have happly := apply_eq_of_toOption hroot
  exact ⟨root, happly, htext, (tokens_apply ⟨7⟩ _ happly).1⟩

end Texts

end AutoProperty
