import AutoProperty.Proofs.Symbol.Counterparts
import AutoProperty.Proofs.Symbol.Declared
import AutoProperty.Proofs.Symbol.Tracing
import AutoProperty.Proofs.Syntax.ParsedTrees
import AutoProperty.Proofs.Syntax.Reshaping

/-! # Revised projects

A project is revised: names in expressions are replaced, or parts are left out and others put
in. What is kept of a document is known token by token and node by node.
-/

namespace AutoProperty

/-- A document in two versions. The relations say which tokens and nodes of the first version
are still there, and as which ones; some of the tokens have got another text. -/
structure Revision where
  document : DocumentId
  tree : Tree
  tree' : Tree
  leaf : PlacedToken → PlacedToken → Prop
  node : Nat → Nat → Prop
  replaced : PlacedToken → Prop
  change : Reshaping

def Revision.Kept (r : Revision) (a a' : PlacedToken) : Prop :=
  r.leaf a a' ∧ ¬r.replaced a

/-- Whatever the token has stayed as stands at a number or behind it. -/
def Revision.StaysBehind (r : Revision) (k : Nat) (b : PlacedToken) : Prop :=
  ∀ a a', r.leaf a a' → a.index = b.index → k ≤ a'.index

/-- What a change may do to a document: members of types lose their bodies, or go away. -/
structure Reshaping.IsModest (c : Reshaping) : Prop where
  opened {n : PlacedNode} : c.opened n → n.kind.isScope ∨ n.kind = .fieldDeclaration ∨
    n.kind = .variableDeclaration ∨
    n.kind = .propertyDeclaration ∨ n.kind = .accessorList ∨ n.kind.isAccessor
  dropped {p : Placed} : c.dropped p →
    p.kind ≠ .identifierToken ∧ (p.kind.isToken ∨ p.kind = .fieldDeclaration ∨
    p.kind = .variableDeclarator ∨ p.kind = .block ∨ p.kind = .arrowExpressionClause)
  added {n : PlacedNode} {p : Placed} : c.added n p →
    p.kind ≠ .identifierToken ∧ (p.kind.isToken ∨ p.kind = .accessorList ∨
    p.kind = .equalsValueClause)

theorem Reshaping.IsModest.within {c c' : Reshaping} (h : c.IsModest) (hwithin : c'.Within c) :
    c'.IsModest where
  opened hn := h.opened (hwithin.opened hn)
  dropped hp := h.dropped (hwithin.dropped hp)
  added hp := h.added (hwithin.added hp)

/-- What is known of the two versions of a document. -/
structure Revision.Follows (r : Revision) : Prop extends Rewords r.tree r.leaf where
  conforms : r.tree.root.element.Conforms
  words : r.tree.HasWords
  names : KeepsNames r.tree r.leaf
  unique {a a' b b' : PlacedToken} : r.leaf a a' → r.leaf b b' → b.index = a.index → b = a
  leafs {a a' b b' : PlacedToken} : r.leaf a a' → r.leaf b b' →
    (b'.index = a'.index ↔ b.index = a.index)
  nodes {i i' j j' : Nat} : r.node i i' → r.node j j' → (j' = i' ↔ j = i)
  text {a a' : PlacedToken} : r.leaf a a' → ¬r.replaced a → a'.text = a.text
  renamable {f : TokenFocus} : f ∈ r.tree.tokens → r.replaced f.leaf → f.IsRenamable
  reshaped : Placed.Reshaped r.leaf r.node r.change r.tree.top r.tree.top.children
    r.tree'.top.children
  modest : r.change.IsModest
  /-- What a change can be made in is not kept whole. -/
  kept {p : Placed} : r.change.kept p →
    ¬p.kind.isScope ∧ p.kind ≠ .block ∧ p.kind ≠ .arrowExpressionClause ∧
    p.kind ≠ .accessorList ∧ ¬p.kind.isAccessor
  undeclaring {n : PlacedNode} {p : Placed} : r.change.added n p → Placed.Undeclaring [p]
  /-- What is taken out is not there any more. -/
  dropped {p : Placed} : r.change.dropped p → ∀ b ∈ p.tokens, ∀ a a', r.leaf a a' →
    a.index ≠ b.index
  /-- What is put in was not there before. -/
  added {n : PlacedNode} {p : Placed} : r.change.added n p → ∀ b ∈ p.tokens, ∀ a a', r.leaf a a' →
    a'.index ≠ b.index

/-- The tokens of elements stay as those of what has become of the elements, if at all. -/
theorem Revision.Follows.staysBehind {r : Revision} (h : r.Follows) {c : Reshaping}
    (hwithin : c.Within r.change) {m : PlacedNode} {ps ps' : List Placed}
    (hreshaped : Placed.Reshaped r.leaf r.node c m ps ps') {k : Nat} (hn : Placed.Numbered k ps') :
    ∀ b ∈ Placed.tokensOf ps, r.StaysBehind k b := by
  intro b hb a a' ha hindex
  obtain ⟨b', hb', hleaf⟩ | ⟨p, hp, hmem⟩ := hreshaped.exists_of_mem hb
  · rw [(h.leafs hleaf ha).mpr hindex]
    exact (hn.index_mem hb').1
  · exact absurd hindex (h.dropped (hwithin.dropped hp) b hmem a a' ha)

/-- A project in two versions. The symbols with some of the keys are gone from the second one. -/
structure Revisions where
  revisions : List Revision
  gone : Key → Bool

namespace Revisions

def before (R : Revisions) : List (DocumentId × Tree) :=
  R.revisions.map fun r => (r.document, r.tree)

def after (R : Revisions) : List (DocumentId × Tree) :=
  R.revisions.map fun r => (r.document, r.tree')

/-- What is known of the two versions of a project. -/
structure Follows (R : Revisions) : Prop where
  kinds (key : Key) : R.gone key → key.kind = .field ∨ key.kind = .localVariable
  nodup : (R.revisions.map (·.document)).Nodup
  follows {r : Revision} : r ∈ R.revisions → r.Follows

theorem Follows.ne_namedType {R : Revisions} (h : R.Follows) (key : Key) (hgone : R.gone key) :
    key.kind ≠ .namedType := by
  obtain hkind | hkind := h.kinds key hgone <;> rw [hkind] <;> decide

end Revisions

/-! ## Heads of nodes -/

/-- What is read off the children of a node, its members apart, has stayed. -/
structure PlacedNode.SameHead (leaf : PlacedToken → PlacedToken → Prop) (node : Nat → Nat → Prop)
    (n n' : PlacedNode) : Prop where
  index : node n.index n'.index
  kind : n'.kind = n.kind
  name? : Option.Rel leaf n.name? n'.name?
  typed (wanted : Kind → Bool) : (∀ kind, wanted kind → kind.isType) →
    Option.Rel (PlacedNode.Alike leaf node)
    (n.childNodes.find? fun m => wanted m.kind) (n'.childNodes.find? fun m => wanted m.kind)

namespace PlacedNode

variable {leaf : PlacedToken → PlacedToken → Prop} {node : Nat → Nat → Prop} {n n' : PlacedNode}

/-- A modest change leaves the head of a node as it is. -/
theorem Reshaped.sameHead {c : Reshaping} (hleaf : KeepsTokens leaf) (hc : c.IsModest)
    (h : n.Reshaped leaf node c n') : n.SameHead leaf node n' where
  index := h.index
  kind := h.kind
  name? := by
    obtain ⟨c', hwithin, h⟩ := h.children
    have hc := hc.within hwithin
    refine rel_optionFilter (fun a b h => by rw [hleaf.present h]) ?_
    refine h.rel_find? (fun p p' ha => ?_) (fun a a' h => by rw [hleaf.kind h])
      (fun m m' _ _ _ _ => .inl .none) (fun p a hp ha => ?_)
      (fun _ p a hp ha => ?_)
    · cases ha with
      | token ha => exact .some ha
      | node => exact .none
    · cases p with
      | token => exact Option.some.inj ha ▸ beq_eq_false_iff_ne.mpr (hc.dropped hp).1
      | node => cases ha
    · cases p with
      | token => exact Option.some.inj ha ▸ beq_eq_false_iff_ne.mpr (hc.added hp).1
      | node => cases ha
  typed wanted hwanted := by
    obtain ⟨c', hwithin, h⟩ := h.children
    have hc := hc.within hwithin
    have hnot {kind : Kind} (h : ¬kind.isType) : wanted kind = false :=
      Bool.eq_false_iff.mpr fun hkind => h (hwanted kind hkind)
    have hkinds {kind : Kind} (h : kind.isToken ∨ kind.isScope ∨ kind.isAccessor ∨
        kind ∈ [.fieldDeclaration, .variableDeclaration, .propertyDeclaration, .accessorList,
          .variableDeclarator, .block, .arrowExpressionClause, .equalsValueClause]) :
            ¬kind.isType := by
      revert h
      cases kind <;> decide
    refine h.rel_find? (r := PlacedNode.Alike leaf node) (fun p p' ha => ?_)
      (fun _ _ h => by rw [h.kind])
      (fun m m' hm _ hkind _ => .inr fun a ha => ?_) (fun p a hp ha => ?_) fun _ p a hp ha => ?_
    · cases ha with
      | token => exact .none
      | node hindex hkind hchildren => exact .some (.node hindex hkind hchildren)
    · have ha : a.kind = m.kind := by
        obtain ha | ha := ha
        · exact congrArg PlacedNode.kind (Option.some.inj ha).symm
        · exact (congrArg PlacedNode.kind (Option.some.inj ha).symm).trans hkind
      have hm := hc.opened hm
      rw [← ha] at hm
      exact hnot (hkinds (by simp only [List.mem_cons]; tauto))
    · cases p with
      | token => cases ha
      | node info children =>
        obtain rfl := Option.some.inj ha
        have hp := (hc.dropped hp).2
        exact hnot (hkinds (by simp only [List.mem_cons]; tauto))
    · cases p with
      | token => cases ha
      | node info children =>
        obtain rfl := Option.some.inj ha
        have hp := (hc.added hp).2
        exact hnot (hkinds (by simp only [List.mem_cons]; tauto))

end PlacedNode

end AutoProperty
