import AutoProperty.Proofs.Syntax.Alike
import AutoProperty.Proofs.Syntax.Sites

/-! # Trees that have been changed

An edit takes some elements out of a tree and puts others in. What is around them stays, with
the rest of what is in it, and everything else keeps its shape. What is taken out and put in is
a parameter.
-/

namespace AutoProperty

/-- What a change takes out, puts in and keeps whole, and the nodes in which it does so.
Something is put into a node. -/
structure Reshaping where
  kept : Placed → Prop
  opened : PlacedNode → Prop
  dropped : Placed → Prop
  added : PlacedNode → Placed → Prop

/-- The first change does nothing that the second one does not. -/
structure Reshaping.Within (c' c : Reshaping) : Prop where
  opened {n : PlacedNode} : c'.opened n → c.opened n
  dropped {p : Placed} : c'.dropped p → c.dropped p
  added {n : PlacedNode} {p : Placed} : c'.added n p → c.added n p

def Reshaping.nothing : Reshaping :=
  ⟨fun _ => True, fun _ => False, fun _ => False, fun _ _ => False⟩

theorem Reshaping.Within.refl (c : Reshaping) : c.Within c :=
  ⟨id, id, id⟩

theorem Reshaping.within_nothing (c : Reshaping) : nothing.Within c :=
  ⟨False.elim, False.elim, False.elim⟩

namespace Placed

variable {leaf leaf' : PlacedToken → PlacedToken → Prop} {node node' : Nat → Nat → Prop}
  {c c' : Reshaping} {m : PlacedNode} {p p' : Placed} {ps ps' : List Placed}

/-- The elements of a node before and after a change. -/
inductive Reshaped (leaf : PlacedToken → PlacedToken → Prop) (node : Nat → Nat → Prop)
    (c : Reshaping) : PlacedNode → List Placed → List Placed → Prop where
  | nil {m : PlacedNode} : Reshaped leaf node c m [] []
  | keep {m : PlacedNode} {p p' : Placed} {ps ps' : List Placed} : c.kept p → Alike leaf node p p' →
    Reshaped leaf node c m ps ps' →
      Reshaped leaf node c m (p :: ps) (p' :: ps')
  | inside {m n n' : PlacedNode} {ps ps' : List Placed} : c.opened n → node n.index n'.index →
    n'.kind = n.kind →
      Reshaped leaf node c n n.children n'.children → Reshaped leaf node c m ps ps' →
      Reshaped leaf node c m (n.placed :: ps) (n'.placed :: ps')
  | drop {m : PlacedNode} {p : Placed} {ps ps' : List Placed} : c.dropped p →
    Reshaped leaf node c m ps ps' →
      Reshaped leaf node c m (p :: ps) ps'
  | add {m : PlacedNode} {p' : Placed} {ps ps' : List Placed} : c.added m p' →
    Reshaped leaf node c m ps ps' →
      Reshaped leaf node c m ps (p' :: ps')

namespace Reshaped

theorem append {qs qs' : List Placed} (h : Reshaped leaf node c m ps ps')
    (h' : Reshaped leaf node c m qs qs') : Reshaped leaf node c m (ps ++ qs) (ps' ++ qs') := by
  induction h with
  | nil => exact h'
  | keep hkept ha _ ih => exact .keep hkept ha (ih h')
  | inside hopened hindex hkind hchildren _ _ ih =>
    exact .inside hopened hindex hkind hchildren (ih h')
  | drop hdropped _ ih => exact .drop hdropped (ih h')
  | add hadded _ ih => exact .add hadded (ih h')

/-- Elements that are kept are the same but for a change, whatever the change is. -/
theorem of_alikes (hkept : ∀ p ∈ ps, c.kept p) (h : Alikes leaf node ps ps') :
    Reshaped leaf node c m ps ps' := by
  induction ps generalizing ps' with
  | nil =>
    obtain rfl := h.eq_nil
    exact .nil
  | cons p ps ih =>
    obtain ⟨hfirst, hothers⟩ := List.forall_mem_cons.mp hkept
    obtain ⟨p', ps', rfl, hp, hps⟩ := h.exists_cons
    exact .keep hfirst hp (ih hothers hps)

/-- What is looked for among the elements corresponds if it is neither taken out nor put in. -/
theorem rel_find? {α : Type} {r : α → α → Prop} {pick : Placed → Option α} {wanted : α → Bool}
    (h : Reshaped leaf node c m ps ps')
    (hkept : ∀ p p', Alike leaf node p p' → Option.Rel r (pick p) (pick p'))
    (hwanted : ∀ a a', r a a' → wanted a' = wanted a)
    (hopened : ∀ n n' : PlacedNode, c.opened n → node n.index n'.index → n'.kind = n.kind →
      Reshaped leaf node c n n.children n'.children →
      Option.Rel r (pick n.placed) (pick n'.placed) ∨ ∀ a, pick n.placed = some a ∨
      pick n'.placed = some a → wanted a = false)
    (hdropped : ∀ p a, c.dropped p → pick p = some a → wanted a = false)
    (hadded : ∀ n p a, c.added n p → pick p = some a → wanted a = false) :
    Option.Rel r ((ps.filterMap pick).find? wanted) ((ps'.filterMap pick).find? wanted) := by
  have hskip (p : Placed) (hnot : ∀ a, pick p = some a → wanted a = false) (rest : List Placed) :
      ((p :: rest).filterMap pick).find? wanted = (rest.filterMap pick).find? wanted := by
    cases hp : pick p with
    | none => rw [List.filterMap_cons_none hp]
    | some a => rw [List.filterMap_cons_some hp, List.find?_cons_of_neg (by simp [hnot a hp])]
  have hboth {p p' : Placed} {ps ps' : List Placed} (hp : Option.Rel r (pick p) (pick p'))
      (hrest : Option.Rel r ((ps.filterMap pick).find? wanted)
        ((ps'.filterMap pick).find? wanted)) :
      Option.Rel r (((p :: ps).filterMap pick).find? wanted)
        (((p' :: ps').filterMap pick).find? wanted) := by
    obtain ⟨hnone, hnone'⟩ | ⟨a, a', ha, ha', haa'⟩ := rel_cases hp
    · rw [List.filterMap_cons_none hnone, List.filterMap_cons_none hnone']
      exact hrest
    · rw [List.filterMap_cons_some ha, List.filterMap_cons_some ha', List.find?_cons,
        List.find?_cons, hwanted a a' haa']
      cases wanted a with
      | true => exact .some haa'
      | false => exact hrest
  induction h with
  | nil => exact .none
  | keep _ ha _ ih => exact hboth (hkept _ _ ha) ih
  | @inside _ n n' _ _ hn hindex hkind hchildren _ _ ih =>
    obtain hrel | hnot := hopened n n' hn hindex hkind hchildren
    · exact hboth hrel ih
    · rw [hskip n.placed fun a ha => hnot a (.inl ha), hskip n'.placed fun a ha => hnot a (.inr ha)]
      exact ih
  | drop hp _ ih =>
    rw [hskip _ fun a ha => hdropped _ a hp ha]
    exact ih
  | add hp _ ih =>
    rw [hskip _ fun a ha => hadded _ _ a hp ha]
    exact ih

/-- A token is either taken out or has its counterpart among the tokens. -/
theorem exists_of_mem (h : Reshaped leaf node c m ps ps') {a : PlacedToken} (ha : a ∈ tokensOf ps) :
    (∃ a' ∈ tokensOf ps', leaf a a') ∨ ∃ p, c.dropped p ∧ a ∈ p.tokens := by
  induction h with
  | nil => exact absurd ha List.not_mem_nil
  | keep _ halike _ ih =>
    obtain ha | ha := List.mem_append.mp ha
    · obtain ⟨a', ha', hleaf⟩ := exists_of_forall₂ halike.tokens ha
      exact .inl ⟨a', List.mem_append_left _ ha', hleaf⟩
    · exact (ih ha).imp_left fun ⟨a', ha', hleaf⟩ => ⟨a', List.mem_append_right _ ha', hleaf⟩
  | inside _ _ _ _ _ ihchildren ih =>
    obtain ha | ha := List.mem_append.mp ha
    · exact (ihchildren ha).imp_left fun ⟨a', ha', hleaf⟩ => ⟨a', List.mem_append_left _ ha', hleaf⟩
    · exact (ih ha).imp_left fun ⟨a', ha', hleaf⟩ => ⟨a', List.mem_append_right _ ha', hleaf⟩
  | drop hp _ ih =>
    obtain ha | ha := List.mem_append.mp ha
    · exact .inr ⟨_, hp, ha⟩
    · exact ih ha
  | add _ _ ih =>
    exact (ih ha).imp_left fun ⟨a', ha', hleaf⟩ => ⟨a', List.mem_append_right _ ha', hleaf⟩

end Reshaped

end Placed

/-- The node is there in both versions, and a change may have been made in it. -/
structure PlacedNode.Reshaped (leaf : PlacedToken → PlacedToken → Prop) (node : Nat → Nat → Prop)
    (c : Reshaping) (n n' : PlacedNode) : Prop where
  index : node n.index n'.index
  kind : n'.kind = n.kind
  children : ∃ c' : Reshaping, c'.Within c ∧ Placed.Reshaped leaf node c' n n.children n'.children

namespace PlacedNode

variable {leaf : PlacedToken → PlacedToken → Prop} {node : Nat → Nat → Prop} {c : Reshaping}
  {n n' : PlacedNode}

theorem Alike.reshaped (h : n.Alike leaf node n') (c : Reshaping) : n.Reshaped leaf node c n' where
  index := h.index
  kind := h.kind
  children := ⟨.nothing, c.within_nothing, .of_alikes (fun _ _ => trivial) h.children⟩

/-- A child of a kind that neither goes away nor comes in is kept. -/
theorem Reshaped.rel_child? (h : n.Reshaped leaf node c n') (kind : Kind)
    (hdropped : ∀ p, c.dropped p → p.kind ≠ kind) (hadded : ∀ m p, c.added m p → p.kind ≠ kind) :
    Option.Rel (PlacedNode.Reshaped leaf node c) (n.child? kind) (n'.child? kind) := by
  obtain ⟨c', hwithin, h⟩ := h.children
  have hnot {p : Placed} (hp : p.kind ≠ kind) (m : PlacedNode) (hm : p.node? = some m) :
      (m.kind == kind) = false := by
    cases p with
    | token => cases hm
    | node => exact Option.some.inj hm ▸ beq_eq_false_iff_ne.mpr hp
  refine h.rel_find? (r := PlacedNode.Reshaped leaf node c) (fun p p' ha => ?_)
    (fun _ _ h => by rw [h.kind])
    (fun m m' _ hindex hkind hchildren => .inl (.some ⟨hindex, hkind, c', hwithin, hchildren⟩))
    (fun p m hp => hnot (hdropped p (hwithin.dropped hp)) m) fun q p m hp =>
    hnot (hadded q p (hwithin.added hp)) m
  cases ha with
  | token => exact .none
  | node hindex hkind hchildren => exact .some (Alike.reshaped (.node hindex hkind hchildren) c)

end PlacedNode

end AutoProperty
