import AutoProperty.Proofs.Symbol.Scoping

/-! # Binding bodies in their scopes

Binding a part of a body binds each simple name in it to the nearest local or parameter that is
in sight from it, and leaves the locals that the part declares in the innermost frame. The parts
of a body are bound one after another, in the order of their tokens, so what a part declares
ends before everything in later parts.
-/

namespace AutoProperty

open PlacedNode SymbolTable

namespace Placed

theorem tokensOf_placed (n : PlacedNode) : tokensOf [n.placed] = tokensOf n.children := by
  simp [tokensOf, PlacedNode.placed, tokens]

theorem tokenFociOf_placed (above : List PlacedNode) (n : PlacedNode) :
    tokenFociOf above [n.placed] = tokenFociOf (n :: above) n.children := by
  simp [tokenFociOf, PlacedNode.placed, tokenFoci]

/-- A token in a node is in its children, and the node is the outermost one around it. -/
theorem exists_inner_of_placed {above inner : List PlacedNode} {n : PlacedNode} {f : TokenFocus}
    (hf : f ∈ tokenFociOf above [n.placed]) (hinner : f.above = inner ++ above) :
    f ∈ tokenFociOf (n :: above) n.children ∧ ∃ rest, inner = rest ++ [n] ∧
      f.above = rest ++ n :: above := by
  rw [tokenFociOf_placed] at hf
  obtain ⟨rest, hrest⟩ := exists_innerOf _ hf
  refine ⟨hf, rest, ?_, hrest⟩
  rw [hinner, List.append_cons] at hrest
  exact List.append_cancel_right hrest

end Placed

namespace Binding

/-- The frames with locals added to the innermost one. -/
def push (added : List PlacedNode) : List (List PlacedNode) → List (List PlacedNode)
  | [] => []
  | frame :: outer => (added.reverse ++ frame) :: outer

theorem push_append (added later : List PlacedNode) (frames : List (List PlacedNode)) :
    push (added ++ later) frames = push later (push added frames) := by
  cases frames with
  | nil => rfl
  | cons frame outer => simp [push]

theorem push_nil (frames : List (List PlacedNode)) : push [] frames = frames := by
  cases frames <;> rfl

theorem push_eq_nil {added : List PlacedNode} {frames : List (List PlacedNode)} :
    push added frames = [] ↔ frames = [] := by
  cases frames <;> simp [push]

/-- Locals can only be added if there is a frame. -/
theorem flatten_push {added : List PlacedNode} {frames : List (List PlacedNode)}
    (h : frames = [] → added = []) :
    (push added frames).flatten = added.reverse ++ frames.flatten := by
  cases frames with
  | nil => simp [push, h rfl]
  | cons frame outer => simp [push]

/-- The binding of elements binds their simple names to what is in sight from them, and adds the
locals to the innermost frame. -/
structure Scoped (document : DocumentId) (above : List PlacedNode) (ps : List Placed)
    (added : List PlacedNode) (b : Binding) : Prop where
  records : Records document (· ∈ Placed.tokensOf ps) b
  tokens : ∀ n ∈ added, n.tokens ⊆ Placed.tokensOf ps ∧ n.tokens ≠ []
  frames {s : BodyState} {frames : List (List PlacedNode)} : s.table.HasFrames document frames
    s.scopes →
    (frames = [] → added = []) → s.table.Unbound document ps →
    (b s).2.table.HasFrames document (push added frames) (b s).2.scopes
  names {s : BodyState} {frames : List (List PlacedNode)} : s.table.HasFrames document frames
    s.scopes →
    (frames = [] → added = []) → s.table.Unbound document ps →
    ∀ f ∈ Placed.tokenFociOf above ps, f.IsSimpleName → ∀ inner, f.above = inner ++ above →
      (b s).2.table.Means document
        (inSight inner f.leaf.index ++ latest added f.leaf.index ++ frames.flatten) f.leaf.text
        ((b s).2.table.bound ⟨document, f.leaf.index⟩)

variable {document : DocumentId} {names names' : PlacedToken → Prop} {above : List PlacedNode}
  {ps : List Placed} {added later : List PlacedNode} {b c : Binding} {n : PlacedNode} {k : Nat}

theorem Records.mono (h : Records document names b) (hnames : ∀ leaf, names leaf → names' leaf) :
    Records document names' b := by
  intro s
  rcases h s with ⟨⟨new, heq, hnew⟩, hinitial⟩
  refine ⟨⟨new, heq, fun e he => ?_⟩, hinitial⟩
  rcases hnew e he with ⟨leaf, hleaf, hrest⟩
  exact ⟨leaf, hnames leaf hleaf, hrest⟩

theorem seq_run (b c : Binding) (s : BodyState) : ((b >>= fun _ => c) s).2 = (c (b s).2).2 := rfl

theorem inFrame_run (b : Binding) (s : BodyState) :
    (inFrame b s).2 =
      { (b { s with scopes := [] :: s.scopes }).2 with scopes := (b
        { s with scopes := [] :: s.scopes }).2.scopes.tail } :=
  rfl

namespace Scoped

/-- What only binds other names leaves the frames as they are. -/
theorem quiet (hrecords : Records document (· ∈ Placed.tokensOf ps) b)
    (hscopes : ∀ s, (b s).2.scopes = s.scopes)
    (hnames : ∀ f ∈ Placed.tokenFociOf above ps, ¬f.IsSimpleName) :
    Scoped document above ps [] b where
  records := hrecords
  tokens := List.forall_mem_nil _
  frames h _ _ := by
    rw [push_nil, hscopes]
    exact h.grows (hrecords _).2
  names _ _ _ f hf hsimple := absurd hsimple (hnames f hf)

theorem nothing (hnames : ∀ f ∈ Placed.tokenFociOf above ps, ¬f.IsSimpleName) :
    Scoped document above ps [] (pure ()) :=
  quiet (fun _ => ⟨.refl _, List.prefix_rfl⟩) (fun _ => rfl) hnames

/-- A simple name is the child of an identifier name. -/
theorem token {parent : PlacedNode} (hparent : parent.kind ≠ .identifierName) (leaf : PlacedToken) :
    Scoped document (parent :: above) [.token leaf] [] (pure ()) := by
  apply nothing
  intro f hf hsimple
  rcases TokenFocus.exists_of_isExpressionName hsimple.isExpressionName with
    ⟨name, context, outer, habove, hkind, _⟩
  rw [List.mem_singleton.mp hf] at habove
  rcases List.cons.inj habove with ⟨rfl, _⟩
  exact hparent hkind

theorem get {k : BodyState → Binding} (h : ∀ s, Scoped document above ps added (k s)) :
    Scoped document above ps added (get >>= k) where
  records := .get fun s => (h s).records
  tokens := (h { table := .empty }).tokens
  frames {s _} := (h s).frames
  names {s _} := (h s).names

/-- What is bound in a later part leaves what was bound before, and its locals are not in sight
from there. -/
theorem seq {p : Placed} (hb : Scoped document above [p] added b)
    (hc : Scoped document above ps later c) (hn : Placed.Numbered k (p :: ps)) :
    Scoped document above (p :: ps) (added ++ later) (b >>= fun _ => c) := by
  have hfirst : Placed.tokensOf [p] = p.tokens := by simp [Placed.tokensOf]
  have hleft : ∀ leaf ∈ Placed.tokensOf [p], leaf ∈ Placed.tokensOf (p :: ps) := fun leaf h =>
    List.mem_append_left _ (hfirst ▸ h)
  have hright : ∀ leaf ∈ Placed.tokensOf ps, leaf ∈ Placed.tokensOf (p :: ps) :=
    fun leaf => List.mem_append_right _
  have hbefore : ∀ leaf ∈ Placed.tokensOf [p], ∀ leaf' ∈ Placed.tokensOf ps,
      leaf.index < leaf'.index := by
    intro leaf hleaf leaf' hleaf'
    have := (hn.head.index_mem hleaf).2
    have := (hn.tail.index_mem hleaf').1
    omega
  have hunbound {s : BodyState} (h : s.table.Unbound document (p :: ps)) : (b s).2.table.Unbound
      document ps := by
    intro leaf hleaf
    rw [(hb.records s).1.bound_eq fun leaf' hleaf' => Nat.ne_of_lt
      (hbefore leaf' hleaf' leaf hleaf)]
    exact h leaf (hright leaf hleaf)
  refine ⟨(hb.records.mono hleft).seq (hc.records.mono hright), List.forall_mem_append.mpr ⟨?_, ?_⟩,
    ?_, ?_⟩
  · exact fun n hn => ⟨fun leaf h => hleft leaf ((hb.tokens n hn).1 h), (hb.tokens n hn).2⟩
  · exact fun n hn => ⟨fun leaf h => hright leaf ((hc.tokens n hn).1 h), (hc.tokens n hn).2⟩
  · intro s frames hframes hempty h
    have hframes :=
      hb.frames hframes (fun h => (List.append_eq_nil_iff.mp (hempty h)).1) fun leaf hleaf =>
        h leaf (hleft leaf hleaf)
    rw [push_append]
    exact hc.frames hframes (fun h => (List.append_eq_nil_iff.mp (hempty (push_eq_nil.mp h))).2)
      (hunbound h)
  · intro s frames hframes hempty h f hf hsimple inner hinner
    have hadded : frames = [] → added = [] := fun h => (List.append_eq_nil_iff.mp (hempty h)).1
    have hlater : push added frames = [] → later = [] :=
      fun h => (List.append_eq_nil_iff.mp (hempty (push_eq_nil.mp h))).2
    have hstart : s.table.Unbound document [p] := fun leaf hleaf => h leaf (hleft leaf hleaf)
    rw [latest_append]
    rcases List.mem_append.mp hf with hf | hf
    · have hf : f ∈ Placed.tokenFociOf above [p] := by simpa [Placed.tokenFociOf] using hf
      have hleaf := Placed.leaf_mem_tokensOf hf
      have hnames := hb.names hframes hadded hstart f hf hsimple inner hinner
      have hbehind : latest later f.leaf.index = [] := by
        refine latest_of_behind fun n hn => ?_
        rcases hc.tokens n hn with ⟨hsubset, hne⟩
        rcases List.exists_mem_of_ne_nil _ hne with ⟨leaf, hmem⟩
        exact ⟨leaf, hmem, Nat.le_of_lt (hbefore f.leaf hleaf leaf (hsubset hmem))⟩
      have hbound : (c (b s).2).2.table.bound ⟨document, f.leaf.index⟩ = (b s).2.table.bound
          ⟨document, f.leaf.index⟩ :=
        (hc.records (b s).2).1.bound_eq fun leaf hmem =>
          (Nat.ne_of_lt (hbefore f.leaf hleaf leaf hmem)).symm
      rw [hbehind, List.nil_append, seq_run, hbound]
      exact hnames.grows (hc.records (b s).2).2
    · have hleaf : f.leaf ∈ Placed.tokensOf ps := by
        rw [← Placed.leaf_tokenFociOf above]
        exact List.mem_map_of_mem hf
      have hends : latest added f.leaf.index = added.reverse :=
        latest_of_before fun n hn leaf hmem =>
        hbefore leaf ((hb.tokens n hn).1 hmem) f.leaf hleaf
      have hnames :=
        hc.names (hb.frames hframes hadded hstart) hlater (hunbound h) f hf hsimple inner hinner
      rw [flatten_push hadded] at hnames
      rw [hends, seq_run]
      simpa only [List.append_assoc] using hnames

/-- A node that is no block leaves its locals to what is around it. -/
theorem node (h : Scoped document (n :: above) n.children added b) (hscope : n.scope = []) :
    Scoped document above [n.placed] added b := by
  have htokens := Placed.tokensOf_placed n
  refine ⟨htokens ▸ h.records, htokens ▸ h.tokens, ?_, ?_⟩
  · intro s frames hframes hempty hunbound
    exact h.frames hframes hempty fun leaf hleaf => hunbound leaf (htokens ▸ hleaf)
  · intro s frames hframes hempty hunbound f hf hsimple inner hinner
    obtain ⟨hf, rest, rfl, hrest⟩ := Placed.exists_inner_of_placed hf hinner
    have hnames :=
      h.names hframes hempty (fun leaf hleaf => hunbound leaf (htokens ▸ hleaf)) f hf hsimple rest
        hrest
    have hsight : inSight (rest ++ [n]) f.leaf.index = inSight rest f.leaf.index := by
      simp [inSight, hscope, latest]
    rwa [hsight]

/-- A node with a frame of its own keeps its locals to itself. -/
theorem inFrame (h : Scoped document (n :: above) n.children added b) (hscope : n.scope = added) :
    Scoped document above [n.placed] [] (inFrame b) := by
  have htokens := Placed.tokensOf_placed n
  have henter {s : BodyState} {frames : List (List PlacedNode)}
      (hframes : s.table.HasFrames document frames s.scopes) :
      SymbolTable.HasFrames s.table document ([] :: frames) ([] :: s.scopes) := .cons .nil hframes
  have hunder {s : BodyState} (h : s.table.Unbound document [n.placed]) : s.table.Unbound document
      n.children :=
    fun leaf hleaf => h leaf (htokens ▸ hleaf)
  refine ⟨?_, List.forall_mem_nil _, ?_, ?_⟩
  · rw [htokens]
    exact fun s => h.records { s with scopes := [] :: s.scopes }
  · intro s frames hframes _ hunbound
    rw [push_nil, inFrame_run]
    exact (h.frames (s := { s with scopes := [] :: s.scopes }) (henter hframes)
      nofun (hunder hunbound)).tail
  · intro s frames hframes _ hunbound f hf hsimple inner hinner
    obtain ⟨hf, rest, rfl, hrest⟩ := Placed.exists_inner_of_placed hf hinner
    have hnames :=
      h.names (s := { s with scopes := [] :: s.scopes }) (henter hframes) nofun (hunder hunbound) f
        hf hsimple rest hrest
    have hsight : inSight (rest ++ [n]) f.leaf.index = inSight rest f.leaf.index ++ latest added
        f.leaf.index := by
      simp [inSight, hscope]
    rw [hsight, inFrame_run]
    simpa [latest] using hnames

/-- A declarator adds the local once its value is bound. -/
theorem declareLocal {ctx : BodyContext} (h : Scoped ctx.document above [n.placed] [] b)
    (type : LocalType) :
    Scoped ctx.document above [n.placed] ([n].filter (·.name?.isSome))
      (b >>= fun _ => Binding.declareLocal ctx type n) := by
  have htokens : Placed.tokensOf [n.placed] = n.tokens := Placed.tokensOf_placed n
  have hdeclares : Records ctx.document (· ∈ Placed.tokensOf [n.placed])
      (Binding.declareLocal ctx type n) :=
    records_declareLocal type n
  have hrecords := h.records.seq hdeclares
  cases hname : n.name? with
  | none =>
    have hrun (s : BodyState) : ((b >>= fun _ => Binding.declareLocal ctx type n) s).2 =
        (b s).2 := by
      rw [seq_run, declareLocal_run, hname]
    have hnone : [n].filter (·.name?.isSome) = [] := by simp [hname]
    rw [hnone]
    refine ⟨hrecords, h.tokens, fun {s frames} => ?_, fun {s frames} => ?_⟩
    · rw [hrun]
      exact h.frames
    · rw [hrun]
      exact h.names
  | some name =>
    have hsome : [n].filter (·.name?.isSome) = [n] := by simp [hname]
    have hleaf : name ∈ n.tokens := childTokens_subset (name?_mem hname).1
    rw [hsome]
    refine ⟨hrecords,
      List.forall_mem_singleton.mpr ⟨htokens ▸ List.Subset.refl _, List.ne_nil_of_mem hleaf⟩, ?_,
      ?_⟩
    · intro s frames hframes hempty hunbound
      have hframes := h.frames hframes (fun _ => rfl) hunbound
      rw [push_nil] at hframes
      rw [seq_run, declareLocal_run, hname]
      cases frames with
      | nil => exact absurd (hempty rfl) (List.cons_ne_nil _ _)
      | cons frame outer =>
        have hdeclares : DeclaresAt _ ⟨ctx.document, n.index⟩ _ :=
          declaresAt_add (b s).2.table (localData ctx type n name (b s).2)
            SymbolKind.isSingle_localVariable (List.mem_singleton_self _)
        exact (hframes.grows (List.prefix_append _ _)).insert hname hdeclares
    · intro s frames hframes hempty hunbound f hf hsimple inner hinner
      have hnames := h.names hframes (fun _ => rfl) hunbound f hf hsimple inner hinner
      have hmem : f.leaf ∈ n.tokens := htokens ▸ Placed.leaf_mem_tokensOf hf
      have hlatest : latest [n] f.leaf.index = [] :=
        latest_of_behind (List.forall_mem_singleton.mpr ⟨f.leaf, hmem, Nat.le_refl _⟩)
      rw [seq_run, declareLocal_run, hname, hlatest]
      exact hnames.grows (List.prefix_append _ _)

/-! ## Names -/

/-- A written type holds no simple names. -/
theorem type {ctx : BodyContext} {tree : Tree} {parent : PlacedNode}
    (h : Placed.Sited tree (parent :: above) [n.placed]) (htype : n.kind.isType)
    (hparent : ¬isExpressionContext parent.kind) :
    Scoped ctx.document (parent :: above) [n.placed] [] (Binding.type ctx n) := by
  refine quiet (staysWithin_type fun leaf hleaf => ?_).records (fun s => ?_) fun f hf hsimple => ?_
  · rwa [Placed.tokensOf_placed]
  · rw [type_run]
    split <;> rfl
  · rw [Placed.tokenFociOf_placed] at hf
    exact not_isRenamable_of_isType h htype hparent f hf (.inl hsimple.isExpressionName)

/-- A simple name is bound to what is in sight. -/
theorem simpleName {ctx : BodyContext} {info : NodeInfo} {a : PlacedToken} (arity? : Option Nat)
    (hkind : info.kind = .identifierName) (ha : a.kind = .identifierToken) :
    Scoped ctx.document above [.node info [.token a]] []
      (simpleName ctx ⟨info, [.token a]⟩ arity?) := by
  let n : PlacedNode := ⟨info, [.token a]⟩
  have hscope : n.scope = [] := scope_of_ne (by simp [n, PlacedNode.kind, hkind])
  have hrecords : Records ctx.document (· ∈ Placed.tokensOf [n.placed])
      (Binding.simpleName ctx n arity?) :=
    (staysWithin_simpleName (fun leaf hleaf => by rwa [Placed.tokensOf_placed]) arity?).records
  refine ⟨hrecords, List.forall_mem_nil _, fun {s frames} hframes _ _ => ?_,
    fun {s frames} hframes _ hunbound => ?_⟩
  · have hscopes : (Binding.simpleName ctx n arity? s).2.scopes = s.scopes := by
      rw [simpleName_run ctx arity? s ha]
      split <;> rfl
    rw [push_nil, hscopes]
    exact hframes.grows (hrecords s).2
  · intro f hf _ inner hinner
    obtain rfl : f = ⟨a, n :: above⟩ := by simpa [Placed.tokenFociOf, Placed.tokenFoci] using hf
    have hbound : (Binding.simpleName ctx n arity? s).2.table.bound ⟨ctx.document, a.index⟩ =
        if a.text = "" then [] else lookupSimple ctx s a.text arity? := by
      have hnone : s.table.bound ⟨ctx.document, a.index⟩ = [] :=
        hunbound a (by simp [Placed.tokensOf, Placed.tokens])
      rw [simpleName_run ctx arity? s ha]
      split
      next => exact hnone
      next =>
        rw [bound_bind, hnone]
        split
        next => rfl
        next h => exact (by simpa using h : lookupSimple ctx s a.text arity? = []).symm
    have hsight : inSight inner a.index = [] := by
      obtain rfl : inner = [n] :=
        (List.append_cancel_right (show [n] ++ above = inner ++ above from hinner)).symm
      simp [inSight, hscope, latest]
    rw [hbound, hsight]
    split
    next htext =>
      rw [htext]
      have hnone : List.find? (·.isNamed "") ([] ++ latest [] a.index ++ frames.flatten) = none :=
        List.find?_eq_none.mpr fun n _ => not_isNamed_empty
      rw [Means, hnone]
      exact List.forall_mem_nil _
    next => exact (means_lookupSimple a.text arity? hframes).grows (hrecords s).2

/-- The name behind a point is no simple name. -/
theorem memberName {ctx : BodyContext} {info nameInfo : NodeInfo} {receiver : PlacedNode}
    {dot a : PlacedToken} (arity? : Option Nat) (hkind : info.kind = .memberAccessExpression)
    (ha : a.kind = .identifierToken) :
    Scoped ctx.document (⟨info, [receiver.placed, .token dot, .node nameInfo [.token a]]⟩ :: above)
      [.token dot, .node nameInfo [.token a]] []
      (memberName ctx ⟨info, [receiver.placed, .token dot, .node nameInfo [.token a]]⟩ arity?) := by
  let access : PlacedNode := ⟨info, [receiver.placed, .token dot, .node nameInfo [.token a]]⟩
  have hnodes : access.childNodes = [receiver, ⟨nameInfo, [.token a]⟩] := rfl
  refine quiet (staysWithin_memberName arity? fun _ members hmembers member hmember => ?_).records
    (fun s => ?_) fun f hf hsimple => ?_
  · rw [hnodes] at hmembers
    obtain rfl : members = [⟨nameInfo, [.token a]⟩] := (List.cons.inj hmembers).2.symm
    rw [List.mem_singleton.mp hmember]
    exact fun leaf hleaf =>
      List.mem_append_right [dot] (by simpa [Placed.tokensOf, Placed.tokens] using hleaf)
  · rw [memberName_run ctx arity? s ha]
    split <;> rfl
  · have hf : f = ⟨dot, access :: above⟩ ∨ f = ⟨a, ⟨nameInfo, [.token a]⟩ :: access :: above⟩ := by
      simpa [Placed.tokenFociOf, Placed.tokenFoci] using hf
    rcases hf with rfl | rfl
    · rcases TokenFocus.exists_of_isExpressionName hsimple.isExpressionName with
        ⟨name, context, outer, habove, hname, _⟩
      rcases List.cons.inj habove with ⟨rfl, _⟩
      exact absurd (hkind.symm.trans hname) (by decide)
    · exact hsimple.notMember _ access above rfl hkind (by rw [hnodes]; rfl)

end Scoped

/-! ## The traversal -/

def named (ps : List Placed) : List PlacedNode :=
  ((ps.filterMap Placed.node?).filter (·.kind == .variableDeclarator)).filter (·.name?.isSome)

/-- Nothing among tokens and parts of expressions declares a local. -/
theorem Scoped.value {tree : Tree} {p : Placed} (hb : Scoped document above [p] p.locals b)
    (h : Placed.Sited tree above [p]) (hkind : p.kind.isToken ∨ p.kind.isValuePart) :
    Scoped document above [p] [] b := by
  rwa [Placed.locals_eq_nil h hkind] at hb

/-- The value of a declarator is all that is bound in it. -/
theorem Scoped.declaratorValue (ctx : BodyContext) {tree : Tree}
    (h : Placed.Sited tree above [n.placed]) (hkind : n.kind = .variableDeclarator)
    (hn : Placed.Numbered k [n.placed])
    (hclause : ∀ clause : PlacedNode, clause.placed ∈ n.children →
      clause.kind = .equalsValueClause →
      Scoped ctx.document (n :: above) [clause.placed] [] (element ctx none clause.placed)) :
    Scoped ctx.document (n :: above) n.children []
      (first ctx none (· == .equalsValueClause) n.children) := by
  have hname : n.kind ≠ .identifierName := by simp [hkind]
  rcases h.exists_declaratorValue hkind with ⟨name, hshape⟩ | ⟨name, clause, hshape, hclauseKind⟩
  · rw [hshape]
    exact .token hname name
  · have hfirst : first ctx none (· == .equalsValueClause) [.token name, clause.placed] = element
        ctx none clause.placed :=
      @first_node ctx (· == .equalsValueClause) none clause [] (beq_iff_eq.mpr hclauseKind)
    have hnumbered : Placed.Numbered k n.children := hn.children
    rw [hshape] at hclause hnumbered ⊢
    rw [hfirst]
    exact Scoped.seq (.token hname name) (hclause clause (by simp) hclauseKind) hnumbered

mutual

/-- An element binds its simple names to what is in sight. The cases are those of the binder. -/
theorem scoped_element (ctx : BodyContext) {tree : Tree} {above : List PlacedNode}
    {parent : PlacedNode} {k : Nat} (arity? : Option Nat) (p : Placed)
    (h : Placed.Sited tree (parent :: above) [p]) (hn : Placed.Numbered k [p])
    (hparent : parent.kind ≠ .identifierName) :
    Scoped ctx.document (parent :: above) [p] p.locals (element ctx arity? p) := by
  match p with
  | .token a => exact .token hparent a
  | .node info children =>
    let n : PlacedNode := ⟨info, children⟩
    have hin := h.children
    have hnumbered := hn.children
    by_cases hblock : info.kind = .block
    · rw [element_block arity? hblock, Placed.locals_block children hblock]
      have hscope : n.scope = Placed.localsOf children := if_pos hblock
      refine Scoped.inFrame (n := n) (scoped_elements ctx false children hin hnumbered ?_ ?_) hscope
      · show info.kind ≠ _
        simp [hblock]
      · nofun
    have hscope : n.scope = [] := scope_of_ne hblock
    by_cases hlocal : info.kind = .localDeclarationStatement
    · rw [element_localDeclaration arity? hlocal, Placed.locals_localDeclaration children hlocal]
      exact .node (n := n) (scoped_localDeclaration ctx h hlocal hnumbered) hscope
    rw [Placed.locals_other children hblock hlocal]
    by_cases hidentifier : info.kind = .identifierName
    · rw [element_identifierName arity? hidentifier]
      obtain ⟨a, rfl, ha⟩ := h.exists_name hidentifier
      exact .simpleName arity? hidentifier ha
    by_cases haccess : info.kind = .memberAccessExpression
    · obtain ⟨receiver, dot, nameInfo, a, hshape, hreceiver, hname, ha⟩ :=
        h.exists_memberAccess haccess
      rw [hshape] at hin hnumbered ⊢
      have hnone : Placed.localsOf [.token dot, .node nameInfo [.token a]] = [] := by
        simp [Placed.localsOf, Placed.locals, hname]
      have hfirst := scoped_element ctx none receiver.placed hin.head hnumbered.head hidentifier
      rw [element_memberAccess arity? haccess, Placed.localsOf, hnone]
      exact .node (hfirst.seq (.memberName arity? haccess ha) hnumbered) (scope_of_ne hblock)
    by_cases hcall : info.kind = .invocationExpression
    · obtain ⟨called, arguments, hshape, hcalled, harguments⟩ := h.exists_invocation hcall
      rw [hshape] at hin hnumbered ⊢
      have hnot : called.kind ≠ .argumentList := by
        intro heq
        rw [heq] at hcalled
        exact Bool.false_ne_true hcalled
      have hfirst :=
        scoped_element ctx (some (arguments.childrenOf .argument).length) called.placed hin.head
          hnumbered.head hidentifier
      have hsecond :=
        scoped_element ctx none arguments.placed hin.tail.head hnumbered.tail.head hidentifier
      rw [element_invocation arity? hcall hnot harguments, Placed.localsOf, Placed.localsOf,
        Placed.localsOf, List.append_nil]
      exact .node (hfirst.seq hsecond hnumbered) (scope_of_ne hblock)
    by_cases hnew : info.kind = .objectCreationExpression
    · rw [element_objectCreation arity? hnew]
      refine .node (n :=
        n) (scoped_elements ctx true children hin hnumbered hidentifier fun _ => ?_) hscope
      show ¬isExpressionContext info.kind
      rw [hnew]
      exact Bool.false_ne_true
    · rw [element_other arity? hblock hlocal hidentifier haccess hcall hnew]
      exact .node (n := n) (scoped_elements ctx false children hin hnumbered hidentifier nofun)
        hscope
termination_by sizeOf p
decreasing_by
  all_goals simp only [*, Placed.node.sizeOf_spec, List.cons.sizeOf_spec, PlacedNode.placed]
  all_goals omega

/-- Elements bind their simple names to what is in sight, one element after another. -/
theorem scoped_elements (ctx : BodyContext) {tree : Tree} {above : List PlacedNode}
    {parent : PlacedNode} {k : Nat} (types : Bool) (ps : List Placed)
    (h : Placed.Sited tree (parent :: above) ps) (hn : Placed.Numbered k ps)
    (hparent : parent.kind ≠ .identifierName) (htypes : types → ¬isExpressionContext parent.kind) :
    Scoped ctx.document (parent :: above) ps (Placed.localsOf ps) (elements ctx types ps) := by
  match ps with
  | [] => exact .nothing (List.forall_mem_nil _)
  | .token a :: rest =>
    rw [elements]
    exact Scoped.seq (.token hparent a)
      (scoped_elements ctx types rest h.tail hn.tail hparent htypes) hn
  | .node info children :: rest =>
    have hrest := scoped_elements ctx types rest h.tail hn.tail hparent htypes
    rw [elements, Placed.localsOf]
    split
    next htype =>
      rw [Bool.and_eq_true] at htype
      have hvalue : (Placed.node info children).kind.isValuePart := isValuePart_of_isType htype.2
      rw [Placed.locals_eq_nil h.head (.inr hvalue)]
      exact (Scoped.type (n := ⟨info, children⟩) h.head htype.2 (htypes htype.1)).seq hrest hn
    next =>
      exact (scoped_element ctx none (.node info children) h.head hn.head hparent).seq hrest hn
termination_by sizeOf ps
decreasing_by
  all_goals simp only [*, Placed.node.sizeOf_spec, Placed.token.sizeOf_spec, List.cons.sizeOf_spec]
  all_goals omega

/-- The statement adds the locals of its declaration. -/
theorem scoped_localDeclaration (ctx : BodyContext) {tree : Tree} {above : List PlacedNode}
    {k : Nat} {info : NodeInfo} {ps : List Placed} (h : Placed.Sited tree above [.node info ps])
    (hkind : info.kind = .localDeclarationStatement) (hn : Placed.Numbered k ps) :
    Scoped ctx.document (⟨info, ps⟩ :: above) ps
      (((PlacedNode.mk info ps).childrenOf .variableDeclaration).flatMap namedDeclarators)
      (localDeclaration ctx ps) := by
  obtain ⟨⟨declarationInfo, children⟩, semicolon, hshape, hdeclaration⟩ :=
    h.exists_localDeclaration hkind
  have hin := h.children
  rw [hshape] at hin hn ⊢
  obtain ⟨⟨writtenInfo, writtenChildren⟩, declarators, hchildren, hwritten, hkinds⟩ :=
    hin.head.exists_variableDeclaration hdeclaration
  change children = _ at hchildren
  rw [hchildren] at hin hn ⊢
  let written : PlacedNode := ⟨writtenInfo, writtenChildren⟩
  let declaration : PlacedNode := ⟨declarationInfo, written.placed :: declarators⟩
  have hdeclarationKind : declaration.kind = .variableDeclaration := hdeclaration
  have hcontext : ¬isExpressionContext declaration.kind := by
    rw [hdeclarationKind]
    exact Bool.false_ne_true
  have hinner := hin.head.children
  have hnumbered := hn.head.children
  have htype : Scoped ctx.document (declaration :: ⟨info, _⟩ :: above) [written.placed] []
      (Binding.type ctx written) :=
    .type hinner.head hwritten hcontext
  have hdeclarators (type : LocalType) :=
    scoped_declarators ctx type declarators hinner.tail hnumbered.tail hdeclarationKind hkinds
  have hboth :=
    Scoped.node (n := declaration)
      (htype.seq (.get fun s => hdeclarators (localType ctx s.table declaration)) hnumbered)
    (scope_of_ne (by simp [hdeclarationKind]))
  have hparent : (PlacedNode.mk info [declaration.placed, .token semicolon]).kind ≠
      .identifierName := by
    show info.kind ≠ _
    simp [hkind]
  have hall := hboth.seq (.token hparent semicolon) hn
  have hadded :
      ((PlacedNode.mk info [declaration.placed, .token semicolon]).childrenOf
        .variableDeclaration).flatMap
      namedDeclarators = [] ++ named declarators ++ [] := by
    have hchildren : (PlacedNode.mk info [declaration.placed, .token semicolon]).childrenOf
        .variableDeclaration = [declaration] :=
      List.filter_cons_of_pos (beq_iff_eq.mpr hdeclarationKind)
    have hnot : ¬(written.kind == .variableDeclarator) = true := by
      intro heq
      rw [eq_of_beq heq] at hwritten
      exact Bool.false_ne_true hwritten
    rw [hchildren, List.flatMap_singleton, List.append_nil, List.nil_append]
    exact congrArg (List.filter _) (List.filter_cons_of_neg hnot)
  show Scoped _ _ _ _
    (localDeclaration ctx (.node declarationInfo (.node writtenInfo _ :: declarators) :: _))
  rw [localDeclaration_eq hdeclaration hwritten]
  exact hadded ▸ hall
termination_by sizeOf ps
decreasing_by
  all_goals simp only [*, Placed.node.sizeOf_spec, Placed.token.sizeOf_spec, List.cons.sizeOf_spec,
    PlacedNode.placed]
  all_goals omega

/-- A declarator's value still sees the locals before it, and what follows also the new local. -/
theorem scoped_declarators (ctx : BodyContext) {tree : Tree} {above : List PlacedNode}
    {declaration : PlacedNode} {k : Nat} (type : LocalType) (ps : List Placed)
    (h : Placed.Sited tree (declaration :: above) ps) (hn : Placed.Numbered k ps)
    (hdeclaration : declaration.kind = .variableDeclaration)
    (hkinds : ∀ p ∈ ps, p.kind = .variableDeclarator ∨ p.kind = .commaToken) :
    Scoped ctx.document (declaration :: above) ps (named ps) (declarators ctx type ps) := by
  match ps with
  | [] => exact .nothing (List.forall_mem_nil _)
  | .token a :: rest =>
    have hrest := scoped_declarators ctx type rest h.tail hn.tail hdeclaration fun p hp =>
      hkinds p (List.mem_cons_of_mem _ hp)
    rw [declarators]
    exact Scoped.seq (.token (by simp [hdeclaration]) a) hrest hn
  | .node info children :: rest =>
    have hrest := scoped_declarators ctx type rest h.tail hn.tail hdeclaration fun p hp =>
      hkinds p (List.mem_cons_of_mem _ hp)
    let n : PlacedNode := ⟨info, children⟩
    have hkind : n.kind = .variableDeclarator := by
      refine (hkinds _ List.mem_cons_self).resolve_right fun heq => ?_
      obtain ⟨_, hleaf⟩ := h.head.exists_token (by rw [heq]; rfl)
      cases hleaf
    have hname : n.kind ≠ .identifierName := by simp [hkind]
    have hvalue :=
      Scoped.declaratorValue ctx (n := n) h.head hkind hn.head fun clause hmem hclause => by
      have hsmaller : sizeOf clause.placed < sizeOf children := List.sizeOf_lt_of_mem hmem
      obtain ⟨_, _, _, hnumbered⟩ := hn.head.children.mem hmem
      have hpart : clause.placed.kind.isValuePart := by
        rw [show clause.placed.kind = _ from hclause]
        rfl
      have hsited := h.head.children.mem hmem
      exact (scoped_element ctx none clause.placed hsited hnumbered hname).value hsited (.inr hpart)
    have hnode := Scoped.node hvalue (scope_of_ne (by simp [hkind]))
    have hlocal := hnode.declareLocal type
    have hdeclarator : info.kind = .variableDeclarator := hkind
    have hnamed : named (.node info children :: rest) = [n].filter (·.name?.isSome) ++ named
        rest := by
      have hnode : (Placed.node info children).node? = some n := rfl
      rw [named, named, List.filterMap_cons_some hnode,
        List.filter_cons_of_pos (by simpa using hkind), ← List.filter_append]
      rfl
    rw [declarators, if_pos (beq_iff_eq.mpr hdeclarator), hnamed]
    exact hlocal.seq hrest hn
termination_by sizeOf ps
decreasing_by
  all_goals simp only [*, Placed.node.sizeOf_spec, Placed.token.sizeOf_spec, List.cons.sizeOf_spec]
  all_goals omega

end

/-! ## Members -/

variable {tree : Tree} {parent : PlacedNode}

/-- The first node of a kind is bound, if there is one. -/
theorem first_eq_child? (ctx : BodyContext) (kind : Kind) (n : PlacedNode) :
    first ctx none (· == kind) n.children =
    match n.child? kind with
    | some child => Binding.node ctx child
    | none => pure () := by
  rw [PlacedNode.child?, PlacedNode.childNodes]
  induction n.children with
  | nil => rfl
  | cons p ps ih =>
    cases p with
    | token a => exact ih
    | node info children =>
      let child : PlacedNode := ⟨info, children⟩
      have hnode : child.placed.node? = some child := rfl
      show first ctx none (· == kind) (child.placed :: ps) =
        match (List.filterMap _ (child.placed :: ps)).find? _ with
        | some child => Binding.node ctx child
        | none => pure ()
      rw [List.filterMap_cons_some hnode, List.find?_cons]
      cases hkind : child.kind == kind with
      | true => exact first_node none child ps hkind
      | false =>
        rw [← ih]
        exact first_other none child ps (Bool.eq_false_iff.mp hkind)

/-- No simple name stands among tokens and written types. -/
theorem not_isSimpleName_of_isType (h : Placed.Sited tree above [n.placed])
    (hname : n.kind ≠ .identifierName) (hcontext : ¬isExpressionContext n.kind)
    (hkinds : ∀ p ∈ n.children, p.kind.isToken ∨ p.kind.isType) :
    ∀ f ∈ Placed.tokenFociOf above [n.placed], ¬f.IsSimpleName := by
  intro f hf hsimple
  have hin : Placed.Sited tree (n :: above) n.children := h.children
  rw [Placed.tokenFociOf_placed] at hf
  rcases Placed.exists_of_mem_tokenFociOf hf with ⟨p, hp, hf⟩
  rcases hkinds p hp with htoken | htype
  · rcases (hin.mem hp).exists_token htoken with ⟨leaf, rfl⟩
    rcases TokenFocus.exists_of_isExpressionName hsimple.isExpressionName with
      ⟨name, context, outer, habove, hkind, _⟩
    rw [List.mem_singleton.mp hf] at habove
    rcases List.cons.inj habove with ⟨rfl, _⟩
    exact hname hkind
  · exact not_isRenamable_of_isType (hin.mem hp) htype hcontext f hf (.inl hsimple.isExpressionName)

namespace Scoped

/-- Parts that leave the scopes alone may be bound in a row. -/
theorem forM {f : PlacedNode → Binding} (hparent : parent.kind ≠ .identifierName)
    (hn : Placed.Numbered k ps)
    (hf : ∀ part first, part.placed ∈ ps → Placed.Numbered first [part.placed] →
      Scoped document (parent :: above) [part.placed] [] (f part)) :
    Scoped document (parent :: above) ps [] ((ps.filterMap Placed.node?).forM f) := by
  induction ps generalizing k with
  | nil => exact .nothing (List.forall_mem_nil _)
  | cons p ps ih =>
    have hrest := ih hn.tail fun part first hpart => hf part first (List.mem_cons_of_mem p hpart)
    cases p with
    | token a => exact Scoped.seq (.token hparent a) hrest hn
    | node info children =>
      exact Scoped.seq (hf ⟨info, children⟩ k List.mem_cons_self hn.head) hrest hn

/-- The nodes among the children are bound one after another. -/
theorem forNodes {f : PlacedNode → Binding} (h : Placed.Sited tree above [n.placed])
    (hname : n.kind ≠ .identifierName) (hblock : n.kind ≠ .block)
    (hn : Placed.Numbered k [n.placed])
    (hf : ∀ part first, part.placed ∈ n.children → Placed.Sited tree (n :: above) [part.placed] →
      Placed.Numbered first [part.placed] →
      Scoped document (n :: above) [part.placed] [] (f part)) :
    Scoped document above [n.placed] [] (n.childNodes.forM f) := by
  have hin : Placed.Sited tree (n :: above) n.children := h.children
  exact .node (.forM hname hn.children fun part first hpart => hf part first hpart (hin.mem hpart))
    (scope_of_ne hblock)

variable {ctx : BodyContext}

/-- The locals of a body stand in its block. -/
theorem root (h : Placed.Sited tree (parent :: above) [n.placed])
    (hn : Placed.Numbered k [n.placed]) (hparent : parent.kind ≠ .identifierName)
    (hroot : n.kind.isBodyRoot) :
    Scoped ctx.document (parent :: above) [n.placed] [] (Binding.node ctx n) := by
  have helement := scoped_element ctx none n.placed h hn hparent
  by_cases hblock : n.kind = .block
  · rwa [PlacedNode.placed, Placed.locals_block n.children hblock] at helement
  · refine helement.value h (.inr ?_)
    show n.kind.isValuePart
    cases hkind : n.kind <;> simp [hkind, Kind.isBodyRoot] at hroot hblock <;> rfl

/-- Field declarations bind their simple names to what is in sight. -/
theorem fields (h : Placed.Sited tree above [n.placed]) (hn : Placed.Numbered k [n.placed])
    (hkind : n.kind = .variableDeclaration) :
    Scoped ctx.document above [n.placed] [] (fields ctx n) := by
  refine .forNodes h (by simp [hkind]) (by simp [hkind]) hn fun part first hpart hsited hnumbered =>
    ?_
  split
  next htype => exact .type hsited htype (by rw [hkind]; exact Bool.false_ne_true)
  next htype =>
    have hfit : ChildrenFit n.kind (n.children.map Placed.kind) := h.fit
    rw [hkind] at hfit
    obtain ⟨t, kinds, ht, hkinds, hchildren⟩ := hfit
    have hmem : part.kind ∈ t :: kinds := hchildren ▸ List.mem_map_of_mem hpart
    have hdeclarator : part.kind = .variableDeclarator := by
      rcases List.mem_cons.mp hmem with rfl | hmem
      · exact absurd ht htype
      · refine (mem_of_separated hkinds hmem).resolve_right fun hcomma => hsited.not_isToken ?_
        rw [hcomma]
        rfl
    have hvalue :=
      Scoped.declaratorValue ctx hsited hdeclarator hnumbered fun clause hmem hclause => by
      have hin : Placed.Sited tree (part :: n :: above) part.children := hsited.children
      have hchildren : Placed.Numbered first part.children := hnumbered.children
      obtain ⟨_, _, _, hnumbered⟩ := hchildren.mem hmem
      exact .root (hin.mem hmem) hnumbered (by simp [hdeclarator]) (by rw [hclause]; rfl)
    rw [first_eq_child?] at hvalue
    exact .node hvalue (scope_of_ne (by simp [hdeclarator]))

/-- The types of parameters hold no names that could mean a local. -/
theorem parameterTypes (h : Placed.Sited tree above [n.placed]) (hn : Placed.Numbered k [n.placed])
    (hkind : n.kind = .parameterList) :
    Scoped ctx.document above [n.placed] [] (parameterTypes ctx n) := by
  refine .forNodes h (by simp [hkind]) (by simp [hkind]) hn fun part first hpart hsited _ => ?_
  have hparameter := h.kind_of_mem_parameterList hkind hpart
  have hpartFit : ChildrenFit part.kind (part.children.map Placed.kind) := hsited.fit
  rw [hparameter] at hpartFit
  obtain ⟨types, htypes, hchildren⟩ := hpartFit
  have hkinds : ∀ p ∈ part.children, p.kind.isToken ∨ p.kind.isType := by
    intro p hp
    have hmem : p.kind ∈ types ++ [.identifierToken] := hchildren ▸ List.mem_map_of_mem hp
    rcases List.mem_append.mp hmem with hmem | hmem
    · rcases htypes with rfl | ⟨t, ht, rfl⟩
      · exact absurd hmem List.not_mem_nil
      · exact .inr (List.mem_singleton.mp hmem ▸ ht)
    · exact .inl (List.mem_singleton.mp hmem ▸ rfl)
  have hnames :=
    not_isSimpleName_of_isType hsited (by simp [hparameter])
      (by rw [hparameter]; exact Bool.false_ne_true) hkinds
  split
  next written hwritten =>
    refine quiet (staysWithin_type fun leaf hleaf => ?_).records (fun s => ?_) hnames
    · rw [Placed.tokensOf_placed]
      exact childNode_tokens_subset (List.mem_of_find?_eq_some hwritten) hleaf
    · rw [type_run]
      split <;> rfl
  next => exact .nothing hnames

/-- An accessor binds in a frame of its own and leaves none of its locals. -/
theorem accessor (h : Placed.Sited tree above [n.placed]) (hn : Placed.Numbered k [n.placed])
    (hkind : n.kind.isAccessor ∨ n.kind = .skippedTokens) :
    Scoped ctx.document above [n.placed] [] (accessor ctx n) := by
  have hin : Placed.Sited tree (n :: above) n.children := h.children
  have hname : n.kind ≠ .identifierName ∧ n.kind ≠ .block := by
    cases hkind' : n.kind <;> simp [hkind', Kind.isAccessor] at hkind <;> decide
  refine .inFrame (.forM hname.1 hn.children fun part first hpart hnumbered => ?_)
    (scope_of_ne hname.2)
  have hroot := isBodyRoot_of_accessor h.fit hkind part.kind (List.mem_map_of_mem hpart)
  let assigns := n.kind == .setAccessorDeclaration || n.kind == .initAccessorDeclaration
  exact @root above part first tree n (ctx.assigning assigns) (hin.mem hpart) hnumbered hname.1
    (hroot.resolve_left (hin.mem hpart).not_isToken)

/-- The types, initial values and bodies of a member. -/
theorem memberParts (h : Placed.Sited tree above [n.placed]) (hn : Placed.Numbered k [n.placed])
    (hkind : n.kind.hasParts) : Scoped ctx.document above [n.placed] [] (memberParts ctx n) := by
  have hname : n.kind ≠ .identifierName ∧ n.kind ≠ .block ∧ ¬isExpressionContext n.kind := by
    cases hkind' : n.kind <;> simp [hkind', Kind.hasParts] at hkind <;> decide
  refine .forNodes h hname.1 hname.2.1 hn fun part first hpart hsited hnumbered => ?_
  split
  next htype => exact .type hsited htype hname.2.2
  next hnot =>
    split
    next hpartKind => exact .fields hsited hnumbered hpartKind
    next hpartKind => exact .parameterTypes hsited hnumbered hpartKind
    next hpartKind =>
      refine .forNodes hsited (by simp [hpartKind]) (by simp [hpartKind]) hnumbered
        fun accessor first haccessor hsited' hnumbered' => ?_
      have hfit : ChildrenFit part.kind (part.children.map Placed.kind) := hsited.fit
      rw [hpartKind] at hfit
      have hkinds := isAccessor_or hfit accessor.kind (List.mem_map_of_mem haccessor)
      exact .accessor hsited' hnumbered' (hkinds.resolve_left hsited'.not_isToken)
    next hfields hparameters haccessors =>
      have hpartKind := isPart h.fit hkind part.kind (List.mem_map_of_mem hpart)
      exact .root hsited hnumbered hname.1
        (isBodyRoot_of_isPart hpartKind hsited.not_isToken hnot ⟨hfields, hparameters, haccessors⟩)

end Scoped

end Binding

end AutoProperty
