import AutoProperty.Proofs.Symbol.ScopedDocuments
import AutoProperty.Proofs.Workspace.Compilations

/-! # The scopes of names

A simple name in a member of a declared type refers to the nearest local of that name, or else
to the last parameter of that name, and otherwise to nothing that is declared in the member.
-/

namespace AutoProperty

open PlacedNode

/-- The local has the name that the token writes. It ends before the token, and its block is
around the token. -/
structure TokenFocus.Sees (f : TokenFocus) (g block : Focus) : Prop where
  isLocal : g.IsLocalOf block
  named : g.node.isNamed f.leaf.text
  before : ∀ leaf ∈ g.node.tokens, leaf.index < f.leaf.index
  around : block.ancestors <:+ f.above

/-- The method or constructor has the parameter, by the name that the token writes. -/
structure TokenFocus.SeesParameter (f : TokenFocus) (member parameter : PlacedNode) : Prop where
  isMethod : member.kind = .methodDeclaration ∨ member.kind = .constructorDeclaration
  mem : parameter ∈ SymbolTable.parametersOf member
  named : parameter.isNamed f.leaf.text

namespace Tree

/-- There is a local for the token. -/
def SeesLocal (t : Tree) (f : TokenFocus) : Prop :=
  ∃ g ∈ t.nodes, ∃ block ∈ t.nodes, f.Sees g block

/-- The local is the last one for the token in its block, and there is none in the blocks within
that are around the token. -/
structure IsNearest (t : Tree) (f : TokenFocus) (g block : Focus) : Prop where
  mem : g ∈ t.nodes
  blockMem : block ∈ t.nodes
  sees : f.Sees g block
  innermost : ∀ g' ∈ t.nodes, ∀ block' ∈ t.nodes, f.Sees g' block' →
    block'.ancestors <:+ block.ancestors
  last : ∀ g' ∈ t.nodes, f.Sees g' block → g'.node.index ≤ g.node.index

end Tree

/-! ## The nearest local -/

/-- The last of sorted nodes with a property is what a search from the end finds. -/
theorem index_le_of_find?_reverse {nodes : List PlacedNode} {n : PlacedNode} {p : PlacedNode → Bool}
    (hsorted : nodes.Pairwise (·.index < ·.index)) (h : nodes.reverse.find? p = some n) :
    ∀ m ∈ nodes, p m → m.index ≤ n.index := by
  obtain ⟨_, after, before, heq, hafter⟩ := List.find?_eq_some_iff_append.mp h
  rw [List.reverse_eq_iff, List.reverse_append, List.reverse_cons, List.append_assoc,
    List.singleton_append] at heq
  rw [heq, List.pairwise_append] at hsorted
  intro m hm hp
  rw [heq, List.mem_append, List.mem_cons, List.mem_reverse, List.mem_reverse] at hm
  obtain hm | rfl | hm := hm
  · exact Nat.le_of_lt (hsorted.2.2 m (List.mem_reverse.mpr hm) n List.mem_cons_self)
  · exact Nat.le_refl _
  · exact absurd hp (by simpa using hafter m hm)

namespace Tree

variable {t : Tree} {f : TokenFocus}

theorem pairwise_scope {block : Focus} (hblock : block ∈ t.nodes) :
    block.node.scope.Pairwise (·.index < ·.index) := by
  rw [scope]
  split
  next => exact pairwise_locals hblock
  next => exact .nil

/-- The nodes around a member are no blocks. -/
theorem ne_block_of_areScopes (hroot : t.root.kind = .compilationUnit) {n : PlacedNode}
    {above : List PlacedNode} (h : ⟨n, above⟩ ∈ t.nodes) (habove : AreScopes above) :
    ∀ m ∈ above, m.kind ≠ .block := by
  intro m hm hblock
  obtain ⟨before, after, rfl⟩ := List.append_of_mem hm
  have hmem : ⟨m, after⟩ ∈ t.nodes := mem_nodes_of_above h rfl
  cases after with
  | nil =>
    rw [eq_top hmem, kind_top, hroot] at hblock
    cases hblock
  | cons parent after =>
    have hscope : m.kind.isScope := by
      refine habove.2 m ?_
      rw [List.dropLast_append_of_ne_nil (List.cons_ne_nil _ _),
        List.dropLast_cons_of_ne_nil (List.cons_ne_nil _ _)]
      exact List.mem_append_right _ List.mem_cons_self
    rw [hblock] at hscope
    exact Bool.false_ne_true hscope

variable (hconforms : t.root.element.Conforms)
include hconforms

/-- The locals for a token in a block are those in its scope. -/
theorem sees_iff {g : PlacedNode} {block : Focus} (hblock : block ∈ t.nodes)
    (haround : block.ancestors <:+ f.above) :
    (∃ above, ⟨g, above⟩ ∈ t.nodes ∧ f.Sees ⟨g, above⟩ block) ↔
      g ∈ latest block.node.scope f.leaf.index ∧ g.isNamed f.leaf.text := by
  rw [mem_latest]
  constructor
  · rintro ⟨above, hg, hsees⟩
    rw [scope, if_pos hsees.isLocal.block.1]
    exact ⟨⟨(mem_locals_iff hconforms hblock hsees.isLocal.block.1).mpr ⟨above, hg, hsees.isLocal⟩,
      hsees.before⟩, hsees.named⟩
  · rintro ⟨⟨hlocal, hbefore⟩, hnamed⟩
    rw [scope] at hlocal
    split at hlocal
    next hkind =>
      obtain ⟨above, hg, hlocal⟩ := (mem_locals_iff hconforms hblock hkind).mp hlocal
      exact ⟨above, hg, hlocal, hnamed, hbefore, haround⟩
    next => exact absurd hlocal List.not_mem_nil

theorem not_seesLocal (h : (inSight f.above f.leaf.index).find? (·.isNamed f.leaf.text) = none) :
    ¬t.SeesLocal f := by
  rintro ⟨g, hg, block, hblock, hsees⟩
  obtain ⟨hlocal, hnamed⟩ := (sees_iff hconforms hblock hsees.around).mp ⟨g.above, hg, hsees⟩
  have hmem : g.node ∈ inSight f.above f.leaf.index :=
    List.mem_flatMap.mpr ⟨block.node, hsees.around.subset List.mem_cons_self, hlocal⟩
  exact List.find?_eq_none.mp h _ hmem hnamed

/-- What is found first among the locals in sight is the nearest of those with the name. -/
theorem exists_isNearest (hf : f ∈ t.tokens) {g : PlacedNode}
    (h : (inSight f.above f.leaf.index).find? (·.isNamed f.leaf.text) = some g) :
    ∃ above block, t.IsNearest f ⟨g, above⟩ block := by
  rw [inSight, List.find?_flatMap] at h
  obtain ⟨within, n, outer, habove, hfound, hwithin⟩ := List.findSome?_eq_some_iff.mp h
  let block : Focus := ⟨n, outer⟩
  have hblock : block ∈ t.nodes := mem_nodes_of_above_token hf habove
  have haround : block.ancestors <:+ f.above := ⟨within, habove.symm⟩
  have hnamed : g.isNamed f.leaf.text :=
    List.find?_some (p := fun n : PlacedNode => n.isNamed f.leaf.text) hfound
  obtain ⟨above, hg, hsees⟩ :=
    (sees_iff hconforms hblock haround).mpr ⟨List.mem_of_find?_eq_some hfound, hnamed⟩
  refine ⟨above, block, hg, hblock, hsees, fun g' hg' block' hblock' hsees' => ?_,
    fun g' hg' hsees' => ?_⟩
  · -- Otherwise the other block would be among those within.
    obtain hsuffix | ⟨between, hbetween⟩ := List.suffix_or_suffix_of_suffix hsees'.around haround
    · exact hsuffix
    cases between with
    | nil => exact ⟨[], hbetween.symm⟩
    | cons m between =>
      obtain ⟨rfl, _⟩ := List.cons.inj hbetween
      obtain ⟨rest, hrest⟩ := hsees'.around
      rw [← hbetween, habove, ← List.append_assoc] at hrest
      have hmem : block'.node ∈ within := by
        rw [← List.append_cancel_right hrest]
        exact List.mem_append_right _ List.mem_cons_self
      obtain ⟨hlocal, hnamed⟩ :=
        (sees_iff hconforms hblock' hsees'.around).mp ⟨g'.above, hg', hsees'⟩
      exact absurd hnamed (List.find?_eq_none.mp (hwithin _ hmem) _ hlocal)
  · obtain ⟨hlocal, hnamed⟩ := (sees_iff hconforms hblock haround).mp ⟨g'.above, hg', hsees'⟩
    have hsorted := (pairwise_scope hblock).filter (·.endsBefore f.leaf.index)
    exact index_le_of_find?_reverse hsorted hfound g'.node (List.mem_reverse.mp hlocal) hnamed

end Tree

/-! ## The last parameter -/

namespace TokenFocus

variable {f : TokenFocus} {member parameter : PlacedNode}

/-- A parameter is in sight where it is declared by the method around the token. -/
theorem seesParameter_iff : f.SeesParameter member parameter ↔
    parameter ∈ member.memberFrames.flatten ∧ parameter.isNamed f.leaf.text := by
  rw [memberFrames]
  constructor
  · rintro ⟨hmethod, hmem, hnamed⟩
    obtain ⟨token, htoken, _⟩ := isNamed_iff.mp hnamed
    rw [if_pos hmethod]
    simp [hmem, hnamed, htoken]
  · rintro ⟨hmem, hnamed⟩
    split at hmem
    next hmethod => exact ⟨hmethod, (by simpa using hmem : _ ∧ _).1, hnamed⟩
    next => exact absurd hmem List.not_mem_nil

/-- What is found first among the parameters of a member is the last one of those with the name. -/
theorem seesParameter_of_find? {t : Tree} {above : List PlacedNode}
    (hmember : ⟨member, above⟩ ∈ t.nodes)
    (h : member.memberFrames.flatten.find? (·.isNamed f.leaf.text) = some parameter) :
    f.SeesParameter member parameter ∧ ∀ other, f.SeesParameter member other →
      other.index ≤ parameter.index := by
  have hnamed : parameter.isNamed f.leaf.text :=
    List.find?_some (p := fun n : PlacedNode => n.isNamed f.leaf.text) h
  refine ⟨seesParameter_iff.mpr ⟨List.mem_of_find?_eq_some h, hnamed⟩, fun other hother => ?_⟩
  obtain ⟨hmem, hnamed⟩ := seesParameter_iff.mp hother
  have hnodes : (SymbolTable.parametersOf member).Pairwise (·.index < ·.index) :=
    (List.pairwise_map.mp (Tree.sorted_descendants hmember)).sublist
      ((SymbolTable.parametersOf_sublist member).cons _)
  rw [memberFrames, if_pos hother.isMethod, List.flatten_cons, List.flatten_nil, List.append_nil]
    at h hmem
  exact index_le_of_find?_reverse (hnodes.filter _) h other (List.mem_reverse.mp hmem) hnamed

end TokenFocus

namespace Compilation

variable {c : Compilation} {document : DocumentId} {tree : Tree} {f : TokenFocus}
  {member : PlacedNode}

/-- The token refers to exactly the symbol that the node declares. -/
def BindsTo (c : Compilation) (document : DocumentId) (tree : Tree) (f : TokenFocus)
    (n : PlacedNode) : Prop :=
  ∃ s, c.declared? document (tree.nodeId n) = some s ∧ c.bound document (tree.tokenId f.leaf) = [s]

/-- The token refers to the nearest local for it, or else to the last parameter, and otherwise
to neither a local nor a parameter. -/
structure FollowsScopes (c : Compilation) (document : DocumentId) (tree : Tree)
    (member : PlacedNode) (f : TokenFocus) : Prop where
  nearest : tree.SeesLocal f →
    ∃ g block, tree.IsNearest f g block ∧ c.BindsTo document tree f g.node
  parameter : ¬tree.SeesLocal f → (∃ parameter, f.SeesParameter member parameter) →
    ∃ parameter, f.SeesParameter member parameter ∧
    (∀ other, f.SeesParameter member other → other.index ≤ parameter.index) ∧
    c.BindsTo document tree f parameter
  outside : ¬tree.SeesLocal f → (¬∃ parameter, f.SeesParameter member parameter) →
    ∀ s ∈ c.bound document (tree.tokenId f.leaf), s.kind ≠ .localVariable ∧ s.kind ≠ .parameter

namespace IsBuilt

variable (h : c.IsBuilt)
include h

theorem bound_tokenId (hdocument : (document, tree) ∈ c.documents) (leaf : PlacedToken) :
    c.bound document (tree.tokenId leaf) = (c.table.bound ⟨document, leaf.index⟩).filterMap
      c.symbol? := by
  rw [bound, h.tree? hdocument]
  exact if_pos rfl

theorem declared?_nodeId (hdocument : (document, tree) ∈ c.documents) (n : PlacedNode) :
    c.declared? document (tree.nodeId n) = (c.table.declared? ⟨document, n.index⟩).bind
      c.symbol? := by
  rw [declared?, h.tree? hdocument]
  simp [Tree.nodeId, declaredAt?]

variable (hparsed : AllParsed c.documents)
include hparsed

/-- A name with one meaning is bound to what a node declares. -/
theorem bindsTo (hdocument : (document, tree) ∈ c.documents) {n : PlacedNode} {id : SymbolId}
    (hid : c.table.DeclaresAt ⟨document, n.index⟩ id)
    (hbound : c.table.bound ⟨document, f.leaf.index⟩ = [id]) : c.BindsTo document tree f n := by
  obtain ⟨_, hcoherent⟩ := h.exists_coherent hparsed
  obtain ⟨data, hdata, hsingle, d, hd, hplace⟩ := hid
  have hdeclared : c.table.declared? ⟨document, n.index⟩ = some id :=
    lookup_of_mem hcoherent.once (hplace ▸ hcoherent.noted id data hdata hsingle.1 d hd)
  have hsymbol : c.symbol? id = some ⟨c.id, id, data⟩ := by rw [symbol?, hdata, Option.map_some]
  refine ⟨⟨c.id, id, data⟩, ?_, ?_⟩
  · rw [h.declared?_nodeId hdocument, hdeclared]
    exact hsymbol
  · rw [h.bound_tokenId hdocument, hbound, List.filterMap_cons_some hsymbol, List.filterMap_nil]

/-- Symbols that are neither locals nor parameters are told by their kinds. -/
theorem kind_of_isOutside {s : Symbol} {id : SymbolId} (hid : c.table.IsOutside id)
    (hs : c.symbol? id = some s) : s.kind ≠ .localVariable ∧ s.kind ≠ .parameter := by
  obtain ⟨_, hcoherent⟩ := h.exists_coherent hparsed
  obtain ⟨data, hdata, hkind⟩ := hid
  rw [symbol?, hdata, Option.map_some] at hs
  obtain rfl := Option.some.inj hs
  rw [hcoherent.kinds id data hdata] at hkind
  obtain hkind | hkind := hkind
  · constructor <;> intro heq <;> cases hkind.symm.trans heq
  · exact hkind

/-- A member of a type that is declared now was declared along with it. -/
theorem members (hdocument : (document, tree) ∈ c.documents) {type : PlacedNode}
    {outer : List PlacedNode} (hmem : ⟨member, type :: outer⟩ ∈ tree.nodes)
    (hmember : member.kind.hasParts)
    (htype : type.kind = .classDeclaration ∨ type.kind = .structDeclaration)
    (hdeclared : (c.declared? document (tree.nodeId type)).isSome) :
    SymbolTable.Members c.documents document tree ⟨member, type :: outer⟩ := by
  obtain ⟨text, htext⟩ := hparsed _ hdocument
  refine ⟨hmem, hmember,
    fun hkind => Tree.isSome_name? htext hmem hmember
      (by obtain hkind | hkind := hkind <;> rw [hkind] <;> nofun), type, outer, rfl, htype, ?_⟩
  rw [h.declared?_nodeId hdocument, h.table] at hdeclared
  have hkept :=
    SymbolTable.KeepsDeclared.bindDocuments (t := SymbolTable.declareDocuments c.documents)
      (fun _ _ _ _ _ => rfl)
    h.nodup hparsed.conforms (List.Subset.refl _)
  have hfocus : ⟨type, outer⟩ ∈ tree.nodes := Tree.mem_nodes_of_above_cons hmem rfl
  have hkind : type.kind ≠ .variableDeclarator := by
    obtain htype | htype := htype <;> rw [htype] <;> decide
  obtain ⟨id, hid, _⟩ := Option.bind_eq_some_iff.mp (Option.some_get hdeclared).symm
  have hid := (hkept _ hdocument _ hfocus hkind).symm.trans hid
  exact List.mem_map_of_mem (f := (·.1)) (SymbolTable.mem_declared_of_declared? hid)

/-- Locals and parameters follow lexical scoping. -/
theorem followsScopes (hdocument : (document, tree) ∈ c.documents) (hf : f ∈ tree.tokens)
    (hsimple : f.IsSimpleName) {inner outer : List PlacedNode} {type : PlacedNode}
    (habove : f.above = inner ++ member :: type :: outer) (hmember : member.kind.hasParts)
    (htype : type.kind = .classDeclaration ∨ type.kind = .structDeclaration)
    (hdeclared : (c.declared? document (tree.nodeId type)).isSome) :
    c.FollowsScopes document tree member f := by
  have hconforms := hparsed.conforms _ hdocument
  have hroot : tree.root.kind = .compilationUnit := hparsed.kind_root hdocument
  have hscopes (f : Focus) (hf : f ∈ tree.nodes) (hkind : f.node.kind.isScope ∨
      f.node.kind.hasParts) : AreScopes f.above :=
    Tree.areScopes hconforms hroot hf hkind
  have hmem : ⟨member, type :: outer⟩ ∈ tree.nodes := Tree.mem_nodes_of_above_token hf habove
  have hmeans := SymbolTable.means_build h.nodup hdocument hparsed.conforms hscopes
    (h.members hparsed hdocument hmem hmember htype hdeclared) f
    (Tree.mem_tokenFoci_of_above hf habove) hsimple (inner ++ [member])
    (by rw [habove, List.append_assoc]; rfl)
  have houter : inSight (type :: outer) f.leaf.index = [] :=
    inSight_eq_nil (Tree.ne_block_of_areScopes hroot hmem (hscopes _ hmem (.inr hmember)))
  have hsight : inSight f.above f.leaf.index = inSight (inner ++ [member]) f.leaf.index := by
    rw [habove, List.append_cons, inSight_append, houter, List.append_nil]
  rw [← h.table, ← hsight, SymbolTable.Means, List.find?_append] at hmeans
  cases hlocal : (inSight f.above f.leaf.index).find? (·.isNamed f.leaf.text) with
  | some g =>
    rw [hlocal] at hmeans
    obtain ⟨id, hbound, hid⟩ := hmeans
    obtain ⟨above, block, hnearest⟩ := Tree.exists_isNearest hconforms hf hlocal
    have hsees : tree.SeesLocal f := ⟨_, hnearest.mem, block, hnearest.blockMem, hnearest.sees⟩
    exact ⟨fun _ => ⟨_, block, hnearest, h.bindsTo hparsed hdocument hid hbound⟩, absurd hsees,
      absurd hsees⟩
  | none =>
    rw [hlocal] at hmeans
    have hnone := Tree.not_seesLocal hconforms hlocal
    cases hparameter : member.memberFrames.flatten.find? (·.isNamed f.leaf.text) with
    | some parameter =>
      rw [hparameter] at hmeans
      obtain ⟨id, hbound, hid⟩ := hmeans
      obtain ⟨hsees, hlast⟩ := TokenFocus.seesParameter_of_find? hmem hparameter
      exact ⟨fun hsees => absurd hsees hnone,
        fun _ _ => ⟨parameter, hsees, hlast, h.bindsTo hparsed hdocument hid hbound⟩,
        fun _ hnot => absurd ⟨parameter, hsees⟩ hnot⟩
    | none =>
      rw [hparameter] at hmeans
      refine ⟨fun hsees => absurd hsees hnone, fun _ hexists => ?_, fun _ _ s hs => ?_⟩
      · obtain ⟨parameter, hsees⟩ := hexists
        obtain ⟨hmem, hnamed⟩ := TokenFocus.seesParameter_iff.mp hsees
        exact absurd hnamed (List.find?_eq_none.mp hparameter _ hmem)
      · rw [h.bound_tokenId hdocument] at hs
        obtain ⟨id, hid, hsymbol⟩ := List.mem_filterMap.mp hs
        exact h.kind_of_isOutside hparsed (hmeans id hid) hsymbol

end IsBuilt

/-- The parameter of a method, which a local hides from some point on. -/
def hiddenParameter : Tree :=
  .ofText ⟨0⟩ "class C { int M(int x) { x = 0; int x = 1; return x; } }"

theorem IsBuilt.followsScopes_use :
    ∃ f ∈ hiddenParameter.tokens, ∃ member,
      (build ⟨0⟩ ⟨0⟩ [(⟨0⟩, hiddenParameter)]).FollowsScopes ⟨0⟩ hiddenParameter member f ∧
      ((build ⟨0⟩ ⟨0⟩ [(⟨0⟩, hiddenParameter)]).bound ⟨0⟩ (hiddenParameter.tokenId f.leaf)).map
        (·.key.display) = ["L:C.M(1).x#0"] := by
  have hbuilt : (build ⟨0⟩ ⟨0⟩ [(⟨0⟩, hiddenParameter)]).IsBuilt := ⟨rfl, by decide⟩
  have hparsed : AllParsed [(⟨0⟩, hiddenParameter)] := List.forall_mem_singleton.mpr ⟨_, rfl⟩
  obtain ⟨f, hf, hname, hkinds, hdeclared, hbound⟩ : ∃ f ∈ hiddenParameter.tokens,
    f.isExpressionName ∧
      f.above.map (·.kind) = [.identifierName, .returnStatement, .block, .methodDeclaration,
        .classDeclaration, .compilationUnit] ∧
      (∀ n ∈ f.above, n.kind = .classDeclaration →
        ((build ⟨0⟩ ⟨0⟩ [(⟨0⟩, hiddenParameter)]).declared? ⟨0⟩ (hiddenParameter.nodeId n)).isSome)
          ∧
      ((build ⟨0⟩ ⟨0⟩ [(⟨0⟩, hiddenParameter)]).bound ⟨0⟩ (hiddenParameter.tokenId f.leaf)).map
        (·.key.display) =
        ["L:C.M(1).x#0"] := by
    decide +kernel
  simp only [List.map_eq_cons_iff, List.map_eq_nil_iff] at hkinds
  obtain ⟨name, _, habove, _, statement, _, rfl, hstatement, block, _, rfl, _, hkinds⟩ := hkinds
  obtain ⟨member, _, rfl, hmember, type, _, rfl, htype, root, _, rfl, _, rfl⟩ := hkinds
  have habove : f.above = [name, statement, block] ++ member :: type :: [root] := habove
  have hsimple : f.IsSimpleName := by
    refine ⟨hname, fun name access above heq haccess => ?_⟩
    rw [habove] at heq
    cases heq
    cases hstatement.symm.trans haccess
  have hparts : member.kind.hasParts := by
    rw [hmember]
    rfl
  have hscopes :=
    hbuilt.followsScopes hparsed (List.mem_singleton_self _) hf hsimple habove hparts (.inl htype)
      (hdeclared type (by simp [habove]) htype)
  exact ⟨f, hf, member, hscopes, hbound⟩

end Compilation

end AutoProperty
