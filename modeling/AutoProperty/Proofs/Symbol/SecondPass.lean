import AutoProperty.Proofs.Symbol.Lockstep
import AutoProperty.Proofs.Symbol.Names

/-! # The second pass in lockstep

Two documents of one shape are bound in lockstep if their members are. What is around the
members is the same for all relations between the tables.
-/

namespace AutoProperty

namespace SymbolTable

/-- From related tables, the passes lead to related tables, if they lead where they should. -/
def Steps (leads sim : Nat → SymbolTable → SymbolTable → Prop) (k l : Nat)
    (f f' : SymbolTable → SymbolTable) : Prop :=
  ∀ t t', sim k t t' → leads l (f t) (f' t') → sim l (f t) (f' t')

/-- What relates the binding of alike documents, in which `own` relates the declarations around
a place. The number says that all tokens of the second document below it have been passed. -/
structure Lockstep (leaf : PlacedToken → PlacedToken → Prop) (node : Nat → Nat → Prop) (tree : Tree)
    (document : DocumentId) (own : Option SymbolId → Option SymbolId → Prop)
    (leads sim : Nat → SymbolTable → SymbolTable → Prop) : Prop where
  keeps : KeepsTokens leaf
  earlier {k l : Nat} {t t' u u' : SymbolTable} : Passes leaf document document k l t t' u u' →
    k ≤ l →
    leads l u u' → leads k t t'
  skip {k l : Nat} {t t' : SymbolTable} : sim k t t' → k ≤ l → sim l t t'
  declared {n n' : PlacedNode} {above : List PlacedNode} {k : Nat} {t t' : SymbolTable} :
    Placed.Sited tree above [n.placed] →
    n.Alike leaf node n' → n.kind = .classDeclaration ∨ n.kind = .structDeclaration → sim k t t' →
    own (t.declared? ⟨document, n.index⟩) (t'.declared? ⟨document, n'.index⟩)
  member {n n' : PlacedNode} {above : List PlacedNode} {first : Nat}
    {type? type?' : Option SymbolId} :
    own type? type?' → Placed.Sited tree above [n.placed] → n.Alike leaf node n' →
    Placed.Numbered first [n'.placed] →
    n.kind.hasParts → Steps leads sim first (first + Placed.tokenCount [n'.placed])
      (·.bindElement document type? n.placed) (·.bindElement document type?' n'.placed)

variable {leaf : PlacedToken → PlacedToken → Prop} {node : Nat → Nat → Prop} {tree : Tree}
  {document : DocumentId} {own : Option SymbolId → Option SymbolId → Prop}
  {leads sim : Nat → SymbolTable → SymbolTable → Prop}

mutual

/-- Alike elements are bound alike in the second pass, if their members are. -/
theorem steps_bindElement (L : Lockstep leaf node tree document own leads sim)
    {above : List PlacedNode} {first : Nat} {type? type?' : Option SymbolId}
    (hown : own type? type?') (p p' : Placed) (h : Placed.Sited tree above [p])
    (ha : Placed.Alike leaf node p p') (hn : Placed.Numbered first [p']) :
    Steps leads sim first (first + Placed.tokenCount [p']) (·.bindElement document type? p)
      (·.bindElement document type?' p') := by
  match p with
  | .token _ =>
    obtain ⟨_, rfl, _⟩ := ha.exists_token
    exact fun _ _ hsim _ => L.skip hsim (Nat.le_add_right ..)
  | .node info children =>
    obtain ⟨n', rfl, halike⟩ := @PlacedNode.Alike.exists_placed leaf node ⟨info, children⟩ _ ha
    let n : PlacedNode := ⟨info, children⟩
    by_cases hparts : n.kind.hasParts
    · exact L.member hown h halike hn hparts
    by_cases hscope : n.kind.isScope
    · intro t t' hsim hleads
      have hscope' : n'.kind.isScope := halike.kind ▸ hscope
      have hinner : own (t.innerType? document type? n) (t'.innerType? document type?' n') := by
        rw [innerType?, innerType?, halike.kind]
        by_cases htype : n.kind = .classDeclaration ∨ n.kind = .structDeclaration
        · rw [if_pos htype, if_pos htype]
          exact L.declared h halike htype hsim
        · rw [if_neg htype, if_neg htype]
          exact hown
      have hsteps :=
        steps_bindAll L hinner children n'.children h.children halike.children hn.children
      dsimp only at hleads ⊢
      rw [bindElement_scope t' type?' hscope', show Placed.node info children = n.placed from rfl,
        bindElement_scope t type? hscope] at hleads ⊢
      rw [PlacedNode.placed, Placed.tokenCount_node] at hleads ⊢
      exact hsteps t t' hsim hleads
    · intro t t' hsim _
      have hscope' : ¬n'.kind.isScope := halike.kind ▸ hscope
      have hparts' : ¬n'.kind.hasParts := halike.kind ▸ hparts
      dsimp only
      rw [bindElement_other t' type?' hscope' hparts',
        show Placed.node info children = n.placed from rfl, bindElement_other t type? hscope hparts]
      exact L.skip hsim (Nat.le_add_right ..)

/-- Alike documents are bound alike in the second pass, if their members are. -/
theorem steps_bindAll (L : Lockstep leaf node tree document own leads sim) {above : List PlacedNode}
    {first : Nat} {type? type?' : Option SymbolId} (hown : own type? type?') (ps ps' : List Placed)
    (h : Placed.Sited tree above ps) (ha : Placed.Alikes leaf node ps ps')
    (hn : Placed.Numbered first ps') :
    Steps leads sim first (first + Placed.tokenCount ps') (·.bindAll document type? ps)
      (·.bindAll document type?' ps') := by
  match ps with
  | [] =>
    obtain rfl := ha.eq_nil
    exact fun _ _ hsim _ => hsim
  | p :: rest =>
    obtain ⟨p', rest', rfl, hp, hrest⟩ := ha.exists_cons
    intro t t' hsim hleads
    have hfirst := steps_bindElement L hown p p' h.head hp hn.head
    have hothers := steps_bindAll L hown rest rest' h.tail hrest hn.tail
    dsimp only at hleads ⊢
    rw [bindAll, bindAll, Placed.tokenCount_cons, ← Nat.add_assoc] at hleads ⊢
    have hwithin := hn.tail.within
    obtain ⟨hrecords, happends⟩ :=
      staysWithin_bindAll (t.bindElement document type? p) document type? rest
        fun _ => (hrest.within hwithin).members _
    obtain ⟨hrecords', happends'⟩ :=
      staysWithin_bindAll (t'.bindElement document type?' p') document type?' rest'
        fun _ => hwithin.members _
    have hpasses := Passes.mk hrecords happends.symbols_initial hrecords' happends'.symbols_initial
    exact hothers _ _ (hfirst t t' hsim (L.earlier hpasses (Nat.le_add_right ..) hleads)) hleads

end

end SymbolTable

end AutoProperty
