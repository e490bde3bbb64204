import AutoProperty.Proofs.Fix.SplicedShapes
import AutoProperty.Proofs.Fix.Stages
import AutoProperty.Proofs.Symbol.Choices
import AutoProperty.Proofs.Symbol.RevisedDocuments
import AutoProperty.Proofs.Workspace.Compilations
import AutoProperty.Proofs.Workspace.Meaning

/-! # Documents after the rename

The rename of a field gives other texts to names in expressions, and every tree keeps its shape.
So the renamed project is a revision of what it was: no symbol is gone, and the names that are
replaced mean the property where they meant the field.
-/

namespace AutoProperty

/-! ## Replaced names -/

/-- Nothing comes or goes. Only types and namespaces are looked into. -/
def Reshaping.throughout : Reshaping where
  kept p := ¬p.kind.isScope ∧ p.kind ≠ .block ∧ p.kind ≠ .arrowExpressionClause ∧
    p.kind ≠ .accessorList ∧ ¬p.kind.isAccessor
  opened n := n.kind.isScope
  dropped _ := False
  added _ _ := False

namespace Placed

variable {tree : Tree} {leaf : PlacedToken → PlacedToken → Prop} {node : Nat → Nat → Prop}

mutual

/-- Elements that only differ in leaves are the same but for a change that keeps everything. -/
theorem Alike.reshaped {m : PlacedNode} {above : List PlacedNode} {p p' : Placed}
    (hm : m.kind.isEnclosing) (hconforms : tree.root.element.Conforms)
    (hsited : Sited tree (m :: above) [p]) (h : Alike leaf node p p') :
    Reshaped leaf node .throughout m [p] [p'] := by
  cases h with
  | @token a _ h =>
    have hkind : a.kind.isToken := hsited.isToken
    refine .keep ?_ (.token h) .nil
    show ¬a.kind.isScope ∧ a.kind ≠ .block ∧ a.kind ≠ .arrowExpressionClause ∧
      a.kind ≠ .accessorList ∧ ¬a.kind.isAccessor
    revert hkind
    cases a.kind <;> decide
  | @node info info' children children' hindex hkind hchildren =>
    by_cases hscope : info.kind.isScope
    · have henclosing : (PlacedNode.mk info children).kind.isEnclosing := by
        show info.kind.isEnclosing
        simp [Kind.isEnclosing, hscope]
      have hkind : (PlacedNode.mk info' children').kind = (PlacedNode.mk info children).kind :=
        hkind
      exact .inside hscope hindex hkind
        (Alikes.reshaped henclosing hconforms hsited.children hchildren) .nil
    · obtain ⟨hfit, hmem, _⟩ := Tree.childrenFit_of_mem hconforms hsited.focus_mem
      have hbody := isOfBody_eq_false hfit hm _ hmem
      simp only [Kind.isOfBody, Bool.or_eq_false_iff, beq_eq_false_iff_ne] at hbody
      obtain ⟨⟨⟨hblock, harrow⟩, hlist⟩, haccessor⟩ := hbody
      exact .keep ⟨hscope, hblock, harrow, hlist, by rw [Bool.not_eq_true]; exact haccessor⟩
        (.node hindex hkind hchildren) .nil

/-- Where trees are alike, nothing has come or gone. -/
theorem Alikes.reshaped {m : PlacedNode} {above : List PlacedNode} {ps ps' : List Placed}
    (hm : m.kind.isEnclosing) (hconforms : tree.root.element.Conforms)
    (hsited : Sited tree (m :: above) ps) (h : Alikes leaf node ps ps') :
    Reshaped leaf node .throughout m ps ps' := by
  cases h with
  | nil => exact .nil
  | cons hp hps =>
    exact (Alike.reshaped hm hconforms hsited.head hp).append
      (Alikes.reshaped hm hconforms hsited.tail hps)

end

end Placed

def Revision.respelled (document : DocumentId) (tree tree' : Tree) (spans : List Span)
    (name : String) : Revision where
  document := document
  tree := tree
  tree' := tree'
  leaf a a' := a ∈ Placed.tokensOf tree.top.children ∧ a.Twin spans name a'
  node := Eq
  replaced a := a.span ∈ spans
  change := .throughout

/-- The names of declarations are not among those that are replaced. -/
def Tree.KeepsDeclarations (tree : Tree) (spans : List Span) : Prop :=
  ∀ f ∈ tree.nodes, declaresName f.node.kind → ∀ a, f.node.name? = some a → a.span ∉ spans

theorem PlacedToken.Twin.text {spans : List Span} {name : String} {a a' : PlacedToken}
    (h : a.Twin spans name a') (hspan : a.span ∉ spans) : a'.text = a.text := by
  show a'.token.text = a.text
  rw [h.2, PlacedToken.respelled, if_neg]
  · rfl
  · exact fun hmem => hspan (List.contains_iff_mem.mp hmem)

theorem RenamableSpans.text_ne {tree : Tree} {spans : List Span} (h : RenamableSpans tree spans)
    {f : TokenFocus} (hf : f ∈ tree.tokens) (hspan : f.leaf.span ∈ spans) : f.leaf.text ≠ "" := by
  obtain ⟨g, hg, htext, heq, _⟩ := h.leaf _ hspan
  rwa [← eq_of_span (Tree.leaf_mem hg) (Tree.leaf_mem hf) htext heq]

/-- A rename takes nothing out, so all that is asked of a revision holds of it. -/
theorem Revision.follows_respelled {tree tree' : Tree} {spans : List Span} {name : String}
    {places : List (Option Span)} (h : tree.Respelled spans name tree' places)
    (hspans : RenamableSpans tree spans) (hname : name ≠ "")
    (hdeclarations : tree.KeepsDeclarations spans) (hconforms : tree.root.element.Conforms)
    (hwords : tree.HasWords) (hroot : tree.root.kind = .compilationUnit) (document : DocumentId) :
    (respelled document tree tree' spans name).Follows where
  kind ha := (rewords_twin hspans hname).kind ha.2
  present ha := (rewords_twin hspans hname).present ha.2
  same hf hfixed ha := (rewords_twin hspans hname).same hf hfixed ha.2
  conforms := hconforms
  words := hwords
  names f hf hkind a a' ha hleaf := hleaf.2.text (hdeclarations f hf hkind a ha)
  unique {a _ b _} ha hb hindex := List.inj_on_of_nodup_map tree.nodup_tokensOf hb.1 ha.1 hindex
  leafs ha hb := by rw [ha.2.1, hb.2.1]
  nodes := by
    rintro i _ j _ rfl rfl
    exact Iff.rfl
  text ha hreplaced := ha.2.text hreplaced
  renamable hf hspan := hspans.isRenamable hf hspan
  reshaped := by
    have henclosing : tree.top.kind.isEnclosing := by
      rw [Tree.kind_top, hroot]
      rfl
    exact (h.twins.restrict fun a ha a' htwin => ⟨ha, htwin⟩).reshaped henclosing hconforms
      (tree.sited hconforms)
  modest := ⟨.inl, False.elim, False.elim⟩
  kept := id
  undeclaring := False.elim
  dropped := False.elim
  added := False.elim

/-- Documents that were revised one by one make a revised project. -/
theorem exists_revisions {P : Revision → Prop} {documents documents' : List (DocumentId × Tree)}
    (h : List.Forall₂ (fun d d' => ∃ r : Revision, (r.document, r.tree) = d ∧
      (r.document, r.tree') = d' ∧ P r) documents documents') :
    ∃ rs : List Revision, rs.map (fun r => (r.document, r.tree)) = documents ∧
      rs.map (fun r => (r.document, r.tree')) = documents' ∧ ∀ r ∈ rs, P r := by
  induction h with
  | nil => exact ⟨[], rfl, rfl, List.forall_mem_nil P⟩
  | cons hfirst _ ih =>
    obtain ⟨r, hd, hd', hr⟩ := hfirst
    obtain ⟨rs, hrest, hrest', hrs⟩ := ih
    refine ⟨r :: rs, ?_, ?_, List.forall_mem_cons.mpr ⟨hr, hrs⟩⟩
    · rw [List.map_cons, hd, hrest]
    · rw [List.map_cons, hd', hrest']

/-! ## What replaced names mean -/

/-- A name is bound to symbols that go by it. -/
theorem SymbolTable.exists_name_of_mem_bound {documents : List (DocumentId × Tree)}
    (hparsed : AllParsed documents) (hnodup : (documents.map (·.1)).Nodup) {document : DocumentId}
    {tree : Tree} (hdocument : (document, tree) ∈ documents) {f : TokenFocus} (hf : f ∈ tree.tokens)
    {id : SymbolId} (h : id ∈ (build documents).bound ⟨document, f.leaf.index⟩) :
    ∃ data, (build documents).data? id = some data ∧ data.name = f.leaf.text := by
  rw [bound] at h
  cases hlookup : (build documents).bindings.lookup ⟨document, f.leaf.index⟩ with
  | none =>
    rw [hlookup] at h
    exact absurd h List.not_mem_nil
  | some ids =>
    rw [hlookup, Option.getD_some] at h
    obtain ⟨before, after, hbindings, _⟩ := List.lookup_eq_some_iff.mp hlookup
    obtain ⟨_, tree', hdocument', g, hg, hindex, hnamed⟩ :=
      (coherent_build hparsed.conforms hparsed.hasWords hnodup).names _ ids
        (hbindings ▸ List.mem_append_right _ List.mem_cons_self)
    obtain rfl : tree = tree' :=
      Option.some.inj
        ((lookup_of_mem hnodup hdocument).symm.trans (lookup_of_mem hnodup hdocument'))
    obtain rfl := Tree.eq_of_index hg hf hindex
    exact hnamed.2 id h

/-- Keys lead to symbols that have them. -/
theorem Compilation.keyed_of_symbolByKey? {c : Compilation} {key : Key} {symbol : Symbol}
    (h : c.symbolByKey? key = some symbol) : c.table.Keyed symbol.id key := by
  obtain ⟨id, hfind, hsymbol⟩ := Option.bind_eq_some_iff.mp h
  obtain ⟨data, hdata, rfl⟩ := Option.map_eq_some_iff.mp hsymbol
  obtain ⟨_, hfound, hkey⟩ := SymbolTable.find?_some hfind
  exact ⟨_, hfound, hkey⟩

/-- What a renamed reference may mean is what the token there is bound to. -/
theorem exists_of_mem_candidatesAt {c : Compilation} {r : Reference} {symbol : Symbol}
    (h : symbol ∈ candidatesAt c r) :
    ∃ tree, c.tree? r.document = some tree ∧ ∃ f ∈ tree.tokens, f.leaf.span = r.span ∧
      candidatesAt c r = c.boundAt r.document f.leaf.index := by
  rw [candidatesAt] at h ⊢
  split at h
  next leaf hleaf =>
    obtain ⟨tree, htree, hfocus⟩ := Option.bind_eq_some_iff.mp hleaf
    obtain ⟨f, hf, rfl⟩ := Option.map_eq_some_iff.mp hfocus
    split at h
    next hspan => exact ⟨tree, htree, f, Tree.mem_of_tokenAt? hf, hspan, if_pos hspan⟩
    next => exact absurd h List.not_mem_nil
  next => exact absurd h List.not_mem_nil

namespace Pair

abbrev renamedSpans (pair : Pair) (document : DocumentId) : List Span :=
  pair.compilation.keptSpans pair.field.symbol pair.renameOptions document

def IsRenaming (pair : Pair) (r : Revision) : Prop :=
  ∃ document tree tree',
    r = .respelled document tree tree' (pair.renamedSpans document) pair.property.symbol.name ∧
    tree.Respelled (pair.renamedSpans document) pair.property.symbol.name tree'
      (replaceSpans tree.text (pair.renamedSpans document) pair.property.symbol.name).2

namespace Stands

variable {pair : Pair} {p p' : Project} {c' : Compilation} {next : Solution} (h : pair.Stands p)
  (hs : pair.solution.WellFormed) (hparsed : AllParsed (pair.solution.trees p))
  (hnext : next.WellFormed)
  (hrenames : pair.solution.Renames p pair.compilation pair.field.symbol pair.property.symbol.name
    pair.renameOptions next p' c')

include h hs hparsed in
/-- A name is replaced where it means the field. -/
theorem exists_reference {document : DocumentId} {tree : Tree}
    (htree : (document, tree) ∈ pair.solution.trees p) {a : PlacedToken}
    (ha : a ∈ Placed.tokensOf tree.top.children) (hspan : a.span ∈ pair.renamedSpans document) :
    (SymbolTable.build (pair.solution.trees p)).bound ⟨document, a.index⟩ = [pair.field.symbol.id] ∧
      ∃ r ∈ pair.compilation.references pair.field.symbol, pair.renameOptions.keeps r ∧
      r.document = document ∧ r.span = a.span ∧ r.isDeclaration = false := by
  obtain ⟨r, hr, hdocument, hplace⟩ := mem_spansOf.mp hspan
  obtain ⟨hr, hkeeps⟩ := List.mem_filter.mp hr
  have hdeclaration := h.isDeclaration_of_outside hr hkeeps
  refine ⟨?_, r, hr, hkeeps, hdocument, hplace, hdeclaration⟩
  obtain ⟨_, _, hfield⟩ := h.field
  have hbuilt := h.isBuilt hs
  obtain ⟨_, _, rfl⟩ | ⟨document', tree', htree', g, hg, hmention, rfl⟩ :=
    (hbuilt.mem_references (Compilation.resolve?_of_symbol? hfield.symbol)).mp hr
  · cases hdeclaration
  -- The token that mentions the field is the one at the place.
  obtain rfl : document' = document := hdocument
  rw [← h.documents] at htree
  obtain rfl := Option.some.inj ((hbuilt.tree? htree').symm.trans (hbuilt.tree? htree))
  rw [← Placed.leaf_tokenFociOf [tree'.top], Tree.tokenFociOf_eq_tokens] at ha
  obtain ⟨f, hf, rfl⟩ := List.mem_map.mp ha
  have htext : g.leaf.text ≠ "" := by
    have hlinked := SymbolTable.linked_build (h.allParsed hparsed).conforms
    rw [← hbuilt.table] at hlinked
    obtain ⟨tree, hmem, f', hf', hindex, htext, _⟩ :=
      hlinked.bound _ _ (Compilation.exists_binding_of_single? hmention)
    obtain rfl := Option.some.inj ((hbuilt.tree? htree').symm.trans (hbuilt.tree? hmem))
    rwa [Tree.eq_of_index hg hf' hindex.symm]
  obtain rfl :=
    Tree.eq_of_index hg hf
      (congrArg _ (eq_of_span (Tree.leaf_mem hg) (Tree.leaf_mem hf) htext hplace))
  rw [Compilation.Mentions, hbuilt.table, h.documents, SymbolTable.single?] at hmention
  split at hmention
  next id hbound => rw [hbound, Option.some.inj hmention]
  next => cases hmention

section Renamed

variable {document : DocumentId} {tree tree' : Tree}
  (htree : (document, tree) ∈ pair.solution.trees p) (htree' : (document, tree') ∈ next.trees p')
  (hrespelled : tree.Respelled (pair.renamedSpans document) pair.property.symbol.name tree'
    (replaceSpans tree.text (pair.renamedSpans document) pair.property.symbol.name).2)
  {a a' : PlacedToken} (ha : a ∈ Placed.tokensOf tree.top.children)
  (hspan : a.span ∈ pair.renamedSpans document)
  (htwin : a.Twin (pair.renamedSpans document) pair.property.symbol.name a')
include h hs hparsed hnext hrenames htree htree' hrespelled ha hspan htwin

/-- The rename accepts a name that replaces another one: a symbol that it is bound to has a key
of the property, or it means what has the key of the field. -/
theorem accepted :
    ∃ g ∈ tree'.tokens, g.leaf.index = a'.index ∧ g.leaf.text = pair.property.symbol.name ∧
      ((∃ candidate ∈ c'.boundAt document a'.index,
        (pair.compilation.symbolByKey? candidate.key).any (·.same pair.property.symbol)) ∨
        ∃ e, c'.symbolByKey? pair.field.symbol.key = some e ∧
        c'.boundAt document a'.index = [e]) := by
  obtain ⟨_, r, hr, hkeeps, rfl, hplace, hdeclaration⟩ :=
    h.exists_reference hs hparsed htree ha hspan
  have hfinds := h.finds hs hparsed
  have hbuilt' := hrenames.isBuilt hnext
  have hpresent' := hbuilt'.tree? (hrenames.compilation.documents ▸ htree')
  -- The rename looks at the token in the place of the name.
  obtain ⟨place, ⟨d, hd, hmoved⟩, hreference⟩ :=
    Solution.exists_movesTo hs hfinds hparsed pair.renameOptions
      pair.property.symbol.name hr hkeeps
  have hdocument := (Solution.document?_some hd).2
  obtain rfl : d.tree = tree := by
    obtain ⟨_, d', hd', htree⟩ := Solution.mem_trees.mp htree
    rw [Option.some.inj (hd.symm.trans hd'), htree]
  rw [hdocument] at hmoved
  obtain ⟨f, hf, f', hf', hold, hnew, hindex, htext⟩ := hrespelled.moved r.span place hmoved
  have hspans :=
    Solution.renamableSpans_keptSpans pair.renameOptions hs hfinds hparsed h.isSingle
      (Solution.document?_some hd).1
  rw [hdocument] at hspans
  have hindex : f'.leaf.index = a'.index := by
    rw [← Placed.leaf_tokenFociOf [d.tree.top], Tree.tokenFociOf_eq_tokens] at ha
    obtain ⟨g, hg, rfl⟩ := List.mem_map.mp ha
    have hsome := hspans.text_ne hf (hold ▸ hplace ▸ hspan)
    rw [hindex, eq_of_span (Tree.leaf_mem hf) (Tree.leaf_mem hg) hsome (hold.trans hplace), htwin.1]
  have hname : f'.leaf.text ≠ "" := htext ▸ (h.isWord hparsed).ne_empty
  have hsame {tree : Tree} (hpresent : c'.tree? r.document = some tree) {g : TokenFocus}
      (hg : g ∈ tree.tokens)
      (hgspan : g.leaf.span = place) : g.leaf.index = a'.index := by
    obtain rfl := Option.some.inj (hpresent'.symm.trans hpresent)
    rw [← eq_of_span (Tree.leaf_mem hf') (Tree.leaf_mem hg) hname (hnew.trans hgspan.symm), hindex]
  have hjudged :=
    Solution.not_inConflict (List.append_eq_nil_iff.mp hrenames.conflicts).2 hreference hdeclaration
  refine ⟨f', hf', hindex, htext, ?_⟩
  by_cases hany : (candidatesAt c' { r with span := place }).any fun candidate =>
      candidate.kind == .property && (pair.compilation.symbolByKey? candidate.key).any
        (·.same pair.property.symbol)
  · obtain ⟨candidate, hcandidate, hmeans⟩ := List.any_eq_true.mp hany
    obtain ⟨tree, hpresent, g, hg, hgspan, hcandidates⟩ := exists_of_mem_candidatesAt hcandidate
    rw [hcandidates, hsame hpresent hg hgspan] at hcandidate
    exact .inl ⟨candidate, hcandidate, (Bool.and_eq_true_iff.mp hmeans).2⟩
  · have hverdict : pair.renameOptions.verdict (candidatesAt c' { r with span := place }) c' =
        .byDefault :=
      if_neg hany
    have hnone : ((pair.compilation.keptGroups pair.field.symbol pair.renameOptions).flatMap
        (pair.solution.moved pair.property.symbol.name)).any (·.isDeclaration) = false := by
      rw [List.any_eq_false]
      intro r hr
      rw [h.isDeclaration_keptGroups hr]
      exact Bool.false_ne_true
    rw [hverdict, hnone] at hjudged
    obtain ⟨e, he, tree, hpresent, g, hg, hgspan, hmeans⟩ :=
      Compilation.exists_meansAt (fun _ => Solution.symbol?_of_symbolByKey?) hjudged
    rw [hsame hpresent hg hgspan] at hmeans
    exact .inr ⟨e, he, hmeans⟩

/-- A name that replaces another one means the property, as the rename asks of it. -/
theorem bound_renamed {type : SymbolId}
    (hjoint : (SymbolTable.declareDocuments (pair.solution.trees p)).Joint type pair.field.symbol.id
      pair.property.symbol.id pair.field.symbol.data pair.property.symbol.data) :
    (SymbolTable.build (next.trees p')).bound ⟨document, a'.index⟩ = [pair.property.symbol.id] := by
  obtain ⟨g, hg, hindex, htext, haccepted⟩ :=
    h.accepted hs hparsed hnext hrenames htree htree' hrespelled ha hspan htwin
  obtain ⟨field', property', hjoint', hsame, hsame'⟩ :=
    hjoint.counterparts (h.counterparts hs hparsed hnext hrenames)
  obtain ⟨hkey, hname'⟩ := hsame.same (.inl trivial)
  have hkey' := (hsame'.same (.inl trivial)).1
  have hparsed' := hrenames.allParsed hs hnext (h.finds hs hparsed) hparsed
  have hkeys' := (SymbolTable.linked_build hparsed'.conforms).keys
  have hkeyed {id : SymbolId} {data : SymbolData}
      (hdata : (SymbolTable.declareDocuments (next.trees p')).data? id = some data)
      (hkind : data.kind ≠ .localVariable) : (SymbolTable.build (next.trees p')).Keyed id
      data.key :=
    ⟨data, (SymbolTable.data?_build_iff hkind).mpr hdata, rfl⟩
  have hmember {symbol : Symbol} (hsymbol : symbol ∈ c'.boundAt document a'.index) :
      symbol.id ∈ (SymbolTable.build (next.trees p')).bound ⟨document, a'.index⟩ ∧
        (SymbolTable.build (next.trees p')).data? symbol.id = some symbol.data := by
    obtain ⟨id, hid, hsome⟩ := List.mem_filterMap.mp hsymbol
    obtain ⟨data, hdata, rfl⟩ := Option.map_eq_some_iff.mp hsome
    rw [← hrenames.compilation.table]
    exact ⟨hid, hdata⟩
  refine hjoint'.bound_property ?_
  obtain ⟨candidate, hcandidate, hmeans⟩ | ⟨e, he, hmeans⟩ := haccepted
  · -- A candidate has the key of the property.
    obtain ⟨found, hfound, hsame⟩ := (Option.any_eq_true ..).mp hmeans
    obtain ⟨hmem, hcandidateData⟩ := hmember hcandidate
    have hid : found.id = pair.property.symbol.id := eq_of_beq (Bool.and_eq_true_iff.mp hsame).2
    obtain ⟨data, hfoundData, hfoundKey⟩ := Compilation.keyed_of_symbolByKey? hfound
    obtain ⟨_, _, hproperty⟩ := h.property
    rw [hid, Compilation.data?_of_symbol? hproperty.symbol] at hfoundData
    obtain rfl := Option.some.inj hfoundData
    have hproperty' := hkeyed hjoint'.isProperty (by rw [hjoint'.kinds.2]; decide)
    rw [hkey', hfoundKey] at hproperty'
    rwa [hkeys'.eq_of_keyed ⟨_, hcandidateData, rfl⟩ hproperty'] at hmem
  · -- Otherwise the name would have to mean the field, and the field has another name.
    exfalso
    obtain ⟨hid, _⟩ := hmember (hmeans ▸ List.mem_singleton_self e)
    rw [← hindex] at hid
    have hnodup' := hrenames.compilation.documents ▸ (hrenames.isBuilt hnext).nodup
    obtain ⟨data, hnamed, heq⟩ :=
      SymbolTable.exists_name_of_mem_bound hparsed' hnodup' htree' hg hid
    have hfield' := hkeyed hjoint'.isField (by rw [hjoint'.kinds.1]; decide)
    rw [hkey] at hfield'
    have hfound := Compilation.keyed_of_symbolByKey? he
    rw [hrenames.compilation.table] at hfound
    rw [← hkeys'.eq_of_keyed hfound hfield'] at hjoint'
    rw [(SymbolTable.data?_build_iff (by rw [hjoint'.kinds.1]; decide)).mpr hjoint'.isField]
      at hnamed
    obtain rfl := Option.some.inj hnamed
    exact hjoint.names (hname'.symm.trans (heq.trans htext))

end Renamed

include h hs hparsed in
/-- No declaration is renamed. -/
theorem keepsDeclarations {document : DocumentId} {tree : Tree}
    (htree : (document, tree) ∈ pair.solution.trees p) :
    tree.KeepsDeclarations (pair.renamedSpans document) := by
  intro f hf hkind a ha hspan
  have hmem : a ∈ Placed.tokensOf tree.top.children := by
    rw [← Placed.leaf_tokenFociOf [tree.top], Tree.tokenFociOf_eq_tokens]
    exact List.mem_map_of_mem (Tree.nameFocus_mem hf ha)
  obtain ⟨_, r, hr, _, rfl, hplace, hdeclaration⟩ := h.exists_reference hs hparsed htree hmem hspan
  obtain ⟨_, _, hfield⟩ := h.field
  rw [← h.documents] at htree
  exact (h.isBuilt hs).span_ne_of_declaresName (h.allParsed hparsed) hfield.symbol h.isSingle hr
    hdeclaration
    ((h.isBuilt hs).tree? htree) hf hkind ha hplace.symm

include h hs hparsed in
/-- The revision of a renamed document is one in which names can be followed. -/
theorem follows_of_isRenaming {r : Revision} (hr : pair.IsRenaming r)
    (hmem : (r.document, r.tree) ∈ pair.solution.trees p) : r.Follows := by
  obtain ⟨document, tree, tree', rfl, hrespelled⟩ := hr
  have hmem : (document, tree) ∈ pair.solution.trees p := hmem
  obtain ⟨_, d, hd, rfl⟩ := Solution.mem_trees.mp hmem
  obtain ⟨hdocument, rfl⟩ := Solution.document?_some hd
  exact Revision.follows_respelled hrespelled
    (Solution.renamableSpans_keptSpans pair.renameOptions hs (h.finds hs hparsed) hparsed h.isSingle
      hdocument)
    (h.isWord hparsed).ne_empty (h.keepsDeclarations hs hparsed hmem) (hparsed.conforms _ hmem)
    (hparsed.hasWords _ hmem)
    (hparsed.kind_root hmem) _

include h hs hparsed hnext hrenames in
/-- Nothing is gone after the rename, and replaced names mean the field or the property. -/
theorem fits_of_isRenaming {type : SymbolId}
    (hjoint : (SymbolTable.declareDocuments (pair.solution.trees p)).Joint type pair.field.symbol.id
      pair.property.symbol.id pair.field.symbol.data pair.property.symbol.data) {R : Revisions}
    {r : Revision} (hr : pair.IsRenaming r) (hbefore : R.before = pair.solution.trees p)
    (hafter : R.after = next.trees p') (hgone : ∀ key, ¬R.gone key)
    (hmem : (r.document, r.tree) ∈ pair.solution.trees p)
    (hmem' : (r.document, r.tree') ∈ next.trees p') : SymbolTable.Fits R r where
  toFollows := h.follows_of_isRenaming hs hparsed hr hmem
  exchanged {a a'} ha hreplaced := by
    obtain ⟨document, tree, tree', rfl, hrespelled⟩ := hr
    have hcounterparts := h.counterparts hs hparsed hnext hrenames
    obtain ⟨_, _, hjoint', hsame, _⟩ := hjoint.counterparts hcounterparts
    rw [hbefore, hafter]
    refine ⟨_, _, (h.exists_reference hs hparsed hmem ha.1 hreplaced).1,
      h.bound_renamed hs hparsed hnext hrenames hmem hmem' hrespelled ha.1 hreplaced ha.2 hjoint, _,
      _, hjoint.isField, hjoint'.isProperty, ?_, ?_, ?_, ?_⟩
    · rw [hjoint.kinds.1]
      simp [SymbolKind.isSingle]
    · rw [hjoint'.kinds.2]
      simp [SymbolKind.isSingle]
    · rw [hjoint'.typeName?, hsame.typeName? (by rw [hjoint.kinds.1]; decide)]
    · rw [hjoint.containers.1, hjoint'.containers.2]
      exact .some
        (hcounterparts.sameKey (hjoint.type_lt (SymbolTable.isLayered_declareDocuments _)))
  clear ha i hi hgoneAt := by
    obtain ⟨data, _, hkey⟩ := (Option.any_eq_true ..).mp hgoneAt
    exact hgone _ (Bool.and_eq_true_iff.mp hkey).1
  unit := by
    exact hparsed.kind_root hmem
  bodies _ _ _ _ _ _ _ _ _ := hgone _
  bare {f _} _ hopened hkind := by
    obtain ⟨_, _, _, rfl, _⟩ := hr
    have hscope : f.node.kind.isScope := hopened
    rw [hkind] at hscope
    cases hscope

include h hs hparsed hnext hrenames in
/-- The rename of the field leads from one version of the project to the next. -/
theorem exists_renaming {type : SymbolId}
    (hjoint : (SymbolTable.declareDocuments (pair.solution.trees p)).Joint type pair.field.symbol.id
      pair.property.symbol.id pair.field.symbol.data pair.property.symbol.data) :
    ∃ R : Revisions, R.Leads (pair.solution.trees p) (next.trees p') ∧ ∀ r ∈ R.revisions,
      pair.IsRenaming r := by
  have hcounterparts := h.counterparts hs hparsed hnext hrenames
  obtain ⟨rs, hbefore, hafter, hrs⟩ := exists_revisions (P := pair.IsRenaming)
    ((h.twinned hs hparsed hnext hrenames).imp fun d d' ⟨hid, hrespelled⟩ =>
      ⟨.respelled d.1 d.2 d'.2 _ _, rfl, Prod.ext hid.symm rfl, _, _, _, rfl, hrespelled⟩)
  let R : Revisions := ⟨rs, fun _ => false⟩
  have hmem {r : Revision} (hr : r ∈ rs) : (r.document, r.tree) ∈ pair.solution.trees p :=
    hbefore ▸ List.mem_map_of_mem (f := fun r : Revision => (r.document, r.tree)) hr
  have hmem' {r : Revision} (hr : r ∈ rs) : (r.document, r.tree') ∈ next.trees p' :=
    hafter ▸ List.mem_map_of_mem (f := fun r : Revision => (r.document, r.tree')) hr
  have hbefore : R.before = pair.solution.trees p := hbefore
  have hafter : R.after = next.trees p' := hafter
  refine ⟨R, ⟨hbefore, hafter, ?_⟩, hrs⟩
  exact {
    kinds := fun _ hgone => absurd hgone Bool.false_ne_true
    nodup := by
      have hnodup := (h.isBuilt hs).nodup
      rw [h.documents, ← hbefore, Revisions.before, List.map_map] at hnodup
      exact hnodup
    follows := fun hr => h.follows_of_isRenaming hs hparsed (hrs _ hr) (hmem hr)
    spared := fun _ _ _ _ _ _ _ _ => Bool.false_ne_true
    removed := fun _ _ _ ⟨_, hr, _, _, hdropped, _⟩ => by
      obtain ⟨_, _, _, rfl, _⟩ := hrs _ hr
      exact hdropped.elim
    fits :=
      fun hr => h.fits_of_isRenaming hs hparsed hnext hrenames hjoint (hrs _ hr) hbefore hafter
        (fun _ => Bool.false_ne_true)
      (hmem hr) (hmem' hr) }

end Stands

end Pair

end AutoProperty
