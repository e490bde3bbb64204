import AutoProperty.Proofs.Symbol.Parameters
import AutoProperty.Proofs.Symbol.ScopedBodies

/-! # Binding documents in their scopes

The members of a document are bound one after another. What is bound in one of them is left
alone when the others are, and the parameters in sight in it are still those that were declared
in the first pass.
-/

namespace AutoProperty

open PlacedNode

namespace SymbolTable

def MemberMeans (t : SymbolTable) (document : DocumentId) (member : Focus) : Prop :=
  ∀ f ∈ member.node.placed.tokenFoci member.above, f.IsSimpleName →
    ∀ inner, f.above = inner ++ member.above →
    t.Means document (inSight inner f.leaf.index ++ member.node.memberFrames.flatten) f.leaf.text
      (t.bound ⟨document, f.leaf.index⟩)

variable {documents : List (DocumentId × Tree)} {t : SymbolTable} {document : DocumentId}
  {tree : Tree}

/-- What is bound later, and elsewhere, does not matter. -/
theorem MemberMeans.later {u : SymbolTable} {member : Focus} {names : PlacedToken → Prop}
    (h : t.MemberMeans document member) (hrecords : t.Records document names u)
    (hinitial : t.symbols <+: u.symbols)
    (hother : ∀ leaf ∈ member.node.tokens, ∀ leaf', names leaf' → leaf'.index ≠ leaf.index) :
    u.MemberMeans document member := by
  intro f hf hsimple inner hinner
  have hleaf : f.leaf ∈ member.node.tokens := by
    have hmem := List.mem_map_of_mem (f := TokenFocus.leaf) hf
    rwa [Placed.leaf_tokenFoci] at hmem
  rw [hrecords.bound_eq (hother _ hleaf)]
  exact (h f hf hsimple inner hinner).grows hinitial

section Document

variable (hnodup : (documents.map (·.1)).Nodup) (hdocument : (document, tree) ∈ documents)
include hnodup hdocument

/-- Binding a member binds its simple names to what is in sight from them. -/
theorem means_bindMember (hconforms : tree.root.element.Conforms)
    (hscopes : ∀ f ∈ tree.nodes, f.node.kind.isScope ∨ f.node.kind.hasParts → AreScopes f.above)
    {n : PlacedNode} {above : List PlacedNode} {k : Nat} (type? : Option SymbolId)
    (h : Placed.Sited tree above [n.placed]) (hn : Placed.Numbered k [n.placed])
    (hmember : Members documents document tree ⟨n, above⟩)
    (hkept : KeepsDeclared documents (declareDocuments documents) t)
    (hgrown : (declareDocuments documents).symbols <+: t.symbols)
    (hunbound : t.Unbound document [n.placed]) :
    (t.bindElement document type? n.placed).MemberMeans document ⟨n, above⟩ := by
  intro f hf hsimple inner hinner
  have hframes :=
    hasFrames_memberScopes hnodup hdocument hconforms (fun f hf hkind => hscopes f hf (.inl hkind))
      hmember hkept hgrown
  have hparts := hmember.hasParts
  let ctx := t.memberContext document type? n
  have hscoped : Binding.Scoped ctx.document above [n.placed] [] (Binding.memberParts ctx n) :=
    Binding.Scoped.memberParts h hn hparts
  have hf : f ∈ Placed.tokenFociOf above [n.placed] := by
    rw [Placed.tokenFociOf, Placed.tokenFociOf, List.append_nil]
    exact hf
  have hnames :=
    hscoped.names (s := { table := t, scopes := t.memberScopes document n }) hframes (fun _ => rfl)
      hunbound f hf
    hsimple inner hinner
  rw [show latest [] f.leaf.index = [] from rfl, List.append_nil] at hnames
  rw [bindElement_member t type? hparts]
  exact hnames

mutual

/-- Binding an element binds the simple names in all members in it to what is in sight from them. -/
theorem means_bindElement (hconforms : tree.root.element.Conforms)
    (hscopes : ∀ f ∈ tree.nodes, f.node.kind.isScope ∨ f.node.kind.hasParts → AreScopes f.above)
    {t : SymbolTable} {above : List PlacedNode} {k : Nat} (type? : Option SymbolId) (p : Placed)
    (h : Placed.Sited tree above [p]) (hn : Placed.Numbered k [p]) (habove : above ≠ [])
    (hkept : KeepsDeclared documents (declareDocuments documents) t)
    (hgrown : (declareDocuments documents).symbols <+: t.symbols)
    (hunbound : t.Unbound document [p]) {member : Focus} (hmem : member ∈ p.foci above)
    (hmember : Members documents document tree member) :
    (t.bindElement document type? p).MemberMeans document member := by
  match p with
  | .token _ => exact absurd hmem List.not_mem_nil
  | .node info children =>
    let n : PlacedNode := ⟨info, children⟩
    show (t.bindElement document type? n.placed).MemberMeans document member
    obtain rfl | hmem := List.mem_cons.mp hmem
    · exact means_bindMember hnodup hdocument hconforms hscopes type? h hn hmember hkept hgrown
        hunbound
    have hscope : n.kind.isScope := by
      obtain ⟨inner, hinner⟩ := Placed.exists_outerOf children hmem
      refine (hscopes member hmember.mem (.inr hmember.hasParts)).2 n ?_
      rw [hinner, List.dropLast_append_of_ne_nil (List.cons_ne_nil _ _),
        List.dropLast_cons_of_ne_nil habove]
      exact List.mem_append_right _ List.mem_cons_self
    rw [bindElement_scope t type? hscope]
    have hunbound : t.Unbound document children :=
      fun leaf hleaf => hunbound leaf ((Placed.tokensOf_placed n).symm ▸ hleaf)
    exact means_bindAll hconforms hscopes _ children h.children hn.children (List.cons_ne_nil _ _)
      hkept hgrown hunbound hmem hmember

/-- All members of a document bind their simple names to what is in sight. -/
theorem means_bindAll (hconforms : tree.root.element.Conforms)
    (hscopes : ∀ f ∈ tree.nodes, f.node.kind.isScope ∨ f.node.kind.hasParts → AreScopes f.above)
    {t : SymbolTable} {above : List PlacedNode} {k : Nat} (type? : Option SymbolId)
    (ps : List Placed) (h : Placed.Sited tree above ps) (hn : Placed.Numbered k ps)
    (habove : above ≠ []) (hkept : KeepsDeclared documents (declareDocuments documents) t)
    (hgrown : (declareDocuments documents).symbols <+: t.symbols) (hunbound : t.Unbound document ps)
    {member : Focus} (hmem : member ∈ Placed.fociOf above ps)
    (hmember : Members documents document tree member) :
    (t.bindAll document type? ps).MemberMeans document member := by
  match ps with
  | [] => exact absurd hmem List.not_mem_nil
  | p :: rest =>
    have hfirst : Placed.tokensOf [p] = p.tokens := by simp [Placed.tokensOf]
    obtain ⟨hrecords, happends⟩ := staysWithin_bindElement t document type? p fun n hmem =>
      hn.head.within.members [p] (by simpa [Placed.membersOf] using hmem)
    obtain ⟨hrecords', happends'⟩ :=
      staysWithin_bindAll (t.bindElement document type? p) document type? rest
        fun _ => hn.tail.within.members _
    rw [bindAll]
    obtain hmem | hmem := List.mem_append.mp hmem
    · have hmeans := means_bindElement hconforms hscopes type? p h.head hn.head habove hkept hgrown
        (fun leaf hleaf => hunbound leaf (List.mem_append_left _ (hfirst ▸ hleaf))) hmem hmember
      refine hmeans.later hrecords' happends'.symbols_initial fun leaf hleaf leaf' hbetween => ?_
      have hfocus : member ∈ Placed.fociOf above [p] := by
        rwa [Placed.fociOf, Placed.fociOf, List.append_nil]
      have hlt := (hn.head.index_mem (Placed.tokens_of_mem_fociOf hfocus hleaf)).2
      have hle := hbetween.1
      omega
    · have hkept' : KeepsDeclared documents (declareDocuments documents)
          (t.bindElement document type? p) :=
        @steps_bindElement _ _ _ _ _ _ _ (lockstep_keepsDeclared hnodup hdocument _) above k type?
          type? trivial p p h.head
          (.refl (fun _ => rfl) (fun _ => rfl) _) hn.head t t hkept trivial
      refine means_bindAll hconforms hscopes type? rest h.tail hn.tail habove hkept'
        (hgrown.trans happends.symbols_initial) (fun leaf hleaf => ?_)
        hmem hmember
      rw [hrecords.bound_eq fun leaf' hbetween => ?_]
      · exact hunbound leaf (List.mem_append_right _ hleaf)
      · have hle := (hn.tail.index_mem hleaf).1
        have hlt := hbetween.2
        omega

end

/-- In a project, every simple name in a member is bound to what is in sight from it. -/
theorem means_build (hconforms : ∀ d ∈ documents, d.2.root.element.Conforms)
    (hscopes : ∀ f ∈ tree.nodes, f.node.kind.isScope ∨ f.node.kind.hasParts → AreScopes f.above)
    {member : Focus} (hmember : Members documents document tree member) :
    (build documents).MemberMeans document member := by
  obtain ⟨before, after, hsplit⟩ := List.append_of_mem hdocument
  obtain ⟨hbefore, hafter⟩ := forall_ne_of_nodup (hsplit ▸ hnodup)
  let start := (declareDocuments documents).bindDocuments before
  have hsubset : before ⊆ documents := hsplit ▸ List.subset_append_left _ _
  have hkept : KeepsDeclared documents (declareDocuments documents) start :=
    .bindDocuments (fun _ _ _ _ _ => rfl) hnodup hconforms hsubset
  have hgrown : (declareDocuments documents).symbols <+: start.symbols :=
    (continues_bindDocuments (declareDocuments documents) before).isBehind.symbols
  have hmem : member ∈ Placed.fociOf [tree.top] tree.top.children := by
    have hmem := hmember.mem
    rw [Tree.nodes_eq] at hmem
    obtain rfl | hmem := List.mem_cons.mp hmem
    · exact absurd rfl (hscopes _ hmember.mem (.inr hmember.hasParts)).1
    · exact hmem
  have hmeans : (start.bindDocument document tree).MemberMeans document member :=
    means_bindAll hnodup hdocument (hconforms _ hdocument) hscopes none _
      (tree.sited (hconforms _ hdocument)) tree.numbered
      (List.cons_ne_nil _ _) hkept hgrown
      (fun leaf _ => bound_bindDocuments_of_other hbefore leaf.index) hmem hmember
  have hrest := build_split hsplit
  intro f hf hsimple inner hinner
  rw [hrest.bound_eq hafter]
  exact (hmeans f hf hsimple inner hinner).grows hrest.isBehind.symbols

end Document

end SymbolTable

end AutoProperty
