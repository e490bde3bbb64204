import AutoProperty.Proofs.Syntax.Payments
import AutoProperty.Proofs.Syntax.ParsedTrees

/-! # Operators in trees

In the tree of a text operators are grouped by their strength, and those of one strength to the
left. Assignments group to the right.
-/

namespace AutoProperty

/-- All operators in the tree of a text are grouped. -/
theorem isGrouped_parse (text : String) : (parse text).root.element.IsGrouped := by
  have htext : ∀ l ∈ placeTokens 0 (scan text).tokens, l.text ≠ "" :=
    fun _ => text_ne_of_mem_placeTokens
  obtain ⟨-, hpaid⟩ := Production.reports_allMembers _ htext
  refine .node trivial (List.forall_mem_append.mpr ⟨hpaid.grouped, fun e he => ?_⟩)
  rw [List.mem_singleton.mp he]
  exact .token _

/-- Three elements are children of a node in their places. -/
theorem Placed.exists_three {ps : List Placed} {a b c : Element} (h : elementsOf ps = [a, b, c]) :
    ∃ p q r : Placed, ps = [p, q, r] ∧ p.element = a ∧ q.element = b ∧ r.element = c := by
  rw [elementsOf_eq_map] at h
  match ps, h with
  | [p, q, r], h =>
    obtain ⟨ha, hb, hc⟩ : p.element = a ∧ q.element = b ∧ r.element = c := by simpa using h
    exact ⟨p, q, r, rfl, ha, hb, hc⟩

/-- In the tree of a text, an operator of a binary expression to the left of another one is at
least as strong, and one to the right is stronger. No operand of either is an assignment, and
nor is what is assigned to. -/
theorem Tree.operators_ofText (id : TreeId) (text : String) :
    ∀ f ∈ (ofText id text).nodes,
      (f.node.kind = .binaryExpression → ∃ left operator right p,
        f.node.children = [left, operator, right] ∧ operator.kind.precedence? = some p ∧
        left.kind ≠ .assignmentExpression ∧ right.kind ≠ .assignmentExpression ∧
        (left.kind = .binaryExpression → ∃ q, left.element.precedence? = some q ∧ p ≤ q) ∧
        (right.kind = .binaryExpression → ∃ q, right.element.precedence? = some q ∧ p < q)) ∧
        (f.node.kind = .assignmentExpression → ∃ left operator right,
          f.node.children = [left, operator, right] ∧ left.kind ≠ .assignmentExpression) := by
  intro f hf
  have hgrouped : f.node.placed.element.IsGrouped :=
    of_mem_nodes (fun _ _ hnode _ he => hnode.child he) (isGrouped_parse text) hf
  rw [PlacedNode.placed, Placed.element] at hgrouped
  have hhere := hgrouped.here
  constructor
  · intro hkind
    rw [show f.node.info.kind = .binaryExpression from hkind] at hhere
    obtain ⟨_, _, _, p, hchildren, hp, hleft, hright⟩ := hhere
    obtain ⟨left, operator, right, hplaced, rfl, rfl, rfl⟩ := Placed.exists_three hchildren
    refine ⟨left, operator, right, p, hplaced, ?_, ?_, ?_, fun h => ?_, fun h => ?_⟩
    · rwa [Placed.kind_element] at hp
    · rw [← Placed.kind_element]
      exact hleft.notAssignment
    · rw [← Placed.kind_element]
      exact hright.notAssignment
    · exact hleft.strong (by rwa [Placed.kind_element])
    · exact hright.strong (by rwa [Placed.kind_element])
  · intro hkind
    rw [show f.node.info.kind = .assignmentExpression from hkind] at hhere
    obtain ⟨_, _, _, hchildren, hleft⟩ := hhere
    obtain ⟨left, operator, right, hplaced, rfl, rfl, rfl⟩ := Placed.exists_three hchildren
    rw [Placed.kind_element] at hleft
    exact ⟨left, operator, right, hplaced, hleft⟩

/-- Subtractions group to the left, and a product stands right of them as a whole; assignments
group to the right. -/
theorem Tree.operators_ofText_use :
    let t := ofText ⟨7⟩ "class C { void M() { x = y = a - b - c * d; } }"
    (∃ f ∈ t.nodes,
      f.node.children.map Placed.kind = [.binaryExpression, .minusToken, .binaryExpression] ∧
      ∃ left operator right p, f.node.children = [left, operator, right] ∧
      operator.kind.precedence? = some p ∧
        (∃ q, left.element.precedence? = some q ∧ p ≤ q) ∧ ∃ q, right.element.precedence? = some q ∧
        p < q) ∧
    ∃ f ∈ t.nodes,
    f.node.children.map Placed.kind = [.identifierName, .equalsToken, .assignmentExpression] ∧
      ∃ left operator right, f.node.children = [left, operator, right] ∧
      left.kind ≠ .assignmentExpression := by
  intro t
  have hsum : t.nodes.any fun f => f.node.kind == .binaryExpression &&
      f.node.children.map Placed.kind == [.binaryExpression, .minusToken, .binaryExpression] := by
    decide +kernel
  have hchain : t.nodes.any fun f => f.node.kind == .assignmentExpression &&
      f.node.children.map Placed.kind ==
      [.identifierName, .equalsToken, .assignmentExpression] := by
    decide +kernel
  obtain ⟨f, hf, hfacts⟩ := List.any_eq_true.mp hsum
  obtain ⟨g, hg, hfacts'⟩ := List.any_eq_true.mp hchain
  simp only [Bool.and_eq_true, beq_iff_eq] at hfacts hfacts'
  obtain ⟨left, operator, right, p, hchildren, hp, -, -, hleft, hright⟩ :=
    (operators_ofText _ _ f hf).1 hfacts.1
  have hkinds := hfacts.2
  rw [hchildren] at hkinds
  obtain ⟨hl, -, hr⟩ : left.kind = .binaryExpression ∧ operator.kind = .minusToken ∧
      right.kind = .binaryExpression := by
    simpa using hkinds
  exact ⟨⟨f, hf, hfacts.2, left, operator, right, p, hchildren, hp, hleft hl, hright hr⟩,
    g, hg, hfacts'.2, (operators_ofText _ _ g hg).2 hfacts'.1⟩

end AutoProperty
