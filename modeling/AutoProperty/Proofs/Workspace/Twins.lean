import AutoProperty.Proofs.Symbol.Bound
import AutoProperty.Proofs.Symbol.Counterparts
import AutoProperty.Proofs.Syntax.Reparsing
import AutoProperty.Proofs.Workspace.Renaming

/-! # The project after a rename

The names of members, parameters and locals, and the names in expressions that mean them, can be
replaced without any change to the shape of a tree. So every document of the project is parsed
to a twin of what it was, unless a name is lost to the number in front of it.
-/

namespace AutoProperty

/-! ## References of members, parameters and locals -/

/-- All trees of the project come from parsing. -/
def AllParsed (documents : List (DocumentId × Tree)) : Prop :=
  ∀ d ∈ documents, ∃ text, d.2.root = (parse text).root

theorem AllParsed.conforms {documents : List (DocumentId × Tree)} (h : AllParsed documents) :
    ∀ d ∈ documents, d.2.root.element.Conforms := by
  intro d hd
  obtain ⟨text, htext⟩ := h d hd
  rw [htext]
  exact conforms_parse text

theorem AllParsed.kind_root {documents : List (DocumentId × Tree)} (h : AllParsed documents)
    {d : DocumentId × Tree} (hd : d ∈ documents) : d.2.root.kind = .compilationUnit := by
  obtain ⟨_, htext⟩ := h d hd
  exact congrArg Node.kind htext

/-- All documents come from parsing. -/
def Solution.IsParsed (s : Solution) : Prop :=
  ∀ d ∈ s.documents, ∃ text, d.tree = .ofText d.tree.id text

theorem Solution.IsParsed.allParsed {s : Solution} (h : s.IsParsed) (p : Project) :
    AllParsed (s.trees p) := by
  rintro ⟨id, _⟩ hmem
  obtain ⟨_, d, hd, rfl⟩ := (Solution.mem_trees).mp hmem
  obtain ⟨text, htext⟩ := h d (document?_some hd).1
  exact ⟨text, congrArg Tree.root htext⟩

theorem Solution.isParsed_ofText (text : String) : (ofText text).IsParsed := by
  intro d hd
  obtain rfl := List.mem_singleton.mp hd
  exact ⟨text, rfl⟩

/-- What declares a symbol other than a namespace carries the symbol's name. -/
theorem Focus.Declares.declaresName {f : Focus} {kind : SymbolKind} (h : f.Declares kind) :
    declaresName f.node.kind := by
  cases kind with
  | nameSpace => exact h.elim
  | namedType => exact h.elim
  | field =>
    rw [h.1]
    rfl
  | property =>
    rw [h.1]
    rfl
  | method =>
    obtain h | h := h <;> rw [h] <;> rfl
  | parameter =>
    rw [show f.node.kind = .parameter from h]
    rfl
  | localVariable =>
    rw [h.1]
    rfl

/-- A name in an expression stands in a simple name. -/
theorem TokenFocus.kind_of_isExpressionName {leaf : PlacedToken} {n : PlacedNode}
    {above : List PlacedNode} (h : (TokenFocus.mk leaf (n :: above)).isExpressionName) :
    n.kind = .identifierName := by
  simp only [isExpressionName, Bool.and_eq_true] at h
  cases above with
  | nil => exact absurd h.2 Bool.false_ne_true
  | cons m above =>
    have hname : n.kind == .identifierName && isExpressionContext m.kind := h.2
    exact eq_of_beq (Bool.and_eq_true_iff.mp hname).1

namespace Compilation

variable {c : Compilation} {s : Symbol} {r : Reference}

/-- Every reference of a member, a parameter or a local is at a name that can be replaced. -/
theorem IsBuilt.exists_renamable (h : c.IsBuilt) (hparsed : AllParsed c.documents)
    (hs : c.symbol? s.id = some s) (hkind : s.kind.isSingle) (hr : r ∈ c.references s) :
    ∃ tree, c.tree? r.document = some tree ∧
      ∃ f ∈ tree.tokens, f.leaf.text ≠ "" ∧ f.leaf.span = r.span ∧ f.IsRenamable ∧
        (r.isDeclaration = false → f.isExpressionName) := by
  obtain ⟨data, hdata, heq⟩ := Option.map_eq_some_iff.mp hs
  have hlinked := SymbolTable.linked_build hparsed.conforms
  rw [← h.table] at hlinked
  have hresolve : c.resolve? s = some s := if_pos (by rw [← heq])
  have hdata' : c.table.data? s.id = some s.data := by rw [hdata, ← heq]
  obtain ⟨d, hd, rfl⟩ | ⟨document, tree, hdocument, f, hf, hmention, rfl⟩ :=
    (h.mem_references hresolve).mp hr
  · obtain ⟨d', hdeclarations, tree, hdocument, n, hn, _, hdeclares, leaf, hleaf, hspan, _⟩ :=
      hlinked.single s.id s.data hdata' hkind
    obtain rfl : d = d' := List.mem_singleton.mp (hdeclarations ▸ hd)
    obtain ⟨_, hidentifier, htext⟩ := PlacedNode.name?_mem hleaf
    exact ⟨tree, h.tree? hdocument, _, Tree.nameFocus_mem hn hleaf, htext, hspan,
      .inr ⟨hidentifier, _, _, rfl, hdeclares.declaresName⟩, nofun⟩
  · obtain ⟨tree', hdocument', g, hg, hindex, htext, hname⟩ :=
      hlinked.bound _ _ (exists_binding_of_single? hmention)
    obtain rfl : tree' = tree :=
      Option.some.inj ((h.tree? hdocument').symm.trans (h.tree? hdocument))
    obtain rfl := Tree.eq_of_index hg hf hindex
    suffices hexpression : g.isExpressionName from
      ⟨tree', h.tree? hdocument, g, hg, htext, rfl, .inl hexpression, fun _ => hexpression⟩
    refine hname.resolve_right fun htypes => ?_
    have htype := htypes s.id (List.mem_singleton_self _)
    rw [SymbolTable.isType, SymbolTable.kind?, hdata'] at htype
    exact hkind.2 (by simpa [Symbol.kind] using htype)

/-- Where a symbol is mentioned and not declared, no other one is declared either. -/
theorem IsBuilt.span_ne_of_declaresName (h : c.IsBuilt) (hparsed : AllParsed c.documents)
    (hs : c.symbol? s.id = some s) (hkind : s.kind.isSingle) (hr : r ∈ c.references s)
    (hmention : r.isDeclaration = false) {tree : Tree} (htree : c.tree? r.document = some tree)
    {f : Focus} (hf : f ∈ tree.nodes) (hf' : declaresName f.node.kind) {a : PlacedToken}
    (ha : f.node.name? = some a) : a.span ≠ r.span := by
  intro hspan
  obtain ⟨tree', htree', g, hg, htext, hgspan, _, hexpression⟩ :=
    h.exists_renamable hparsed hs hkind hr
  obtain rfl := Option.some.inj (htree.symm.trans htree')
  have hfocus := Tree.nameFocus_mem hf ha
  have hleaf := eq_of_span (Tree.leaf_mem hg) (Tree.leaf_mem hfocus) htext (hgspan.trans hspan.symm)
  obtain rfl := Tree.eq_of_index hg hfocus (congrArg PlacedToken.index hleaf)
  rw [TokenFocus.kind_of_isExpressionName (hexpression hmention)] at hf'
  exact Bool.false_ne_true hf'

end Compilation

/-! ## Documents -/

/-- A twin has other texts only at the spans. -/
theorem rewords_twin {t : Tree} {spans : List Span} {name : String} (h : RenamableSpans t spans)
    (hname : name ≠ "") : Rewords t (PlacedToken.Twin spans name) where
  kind {a a'} htwin := by
    show a'.token.kind = a.token.kind
    rw [htwin.2, PlacedToken.respelled]
    split <;> rfl
  present {a a'} htwin := by
    show a'.token.text.isEmpty = a.text.isEmpty
    rw [htwin.2, PlacedToken.respelled]
    split
    next hspan =>
      have hlength := h.noneEmpty _ (List.contains_iff_mem.mp hspan)
      have htext : a.text ≠ "" := by
        intro hnil
        have hle := a.span_le
        have hzero : a.token.textLength = 0 := by
          rw [Token.textLength, show a.token.text = "" from hnil]
          rfl
        omega
      rw [String.isEmpty_eq_false_iff.mpr hname, String.isEmpty_eq_false_iff.mpr htext]
    next => rfl
  same {f a'} hf hfixed htwin := by
    show a'.token.text = f.leaf.text
    rw [htwin.2, PlacedToken.respelled, if_neg]
    · rfl
    · exact fun hspan => hfixed (h.isRenamable hf (List.contains_iff_mem.mp hspan))

/-- A tree in which names that can be replaced were replaced. -/
theorem Tree.Respelled.reworded {exact : Prop} {t t' : Tree} {spans : List Span} {name : String}
    {places : List (Option Span)} (h : t.Respelled spans name t' places)
    (hspans : RenamableSpans t spans) (hname : name ≠ "")
    (hexact : exact → ∀ f ∈ t.nodes, declaresName f.node.kind → ∀ a, f.node.name? = some a →
      a.span ∉ spans) : t.Reworded exact t' := by
  refine ⟨_, rewords_twin hspans hname, fun he f hf hkind a a' ha htwin => ?_, h.twins⟩
  show a'.token.text = a.text
  rw [htwin.2, PlacedToken.respelled, if_neg]
  · rfl
  · exact fun hspan => hexact he f hf hkind a ha (List.contains_iff_mem.mp hspan)

/-- The same project again, with `name` at the spans. -/
def Twinned (name : String) (spans : DocumentId → List Span)
    (documents documents' : List (DocumentId × Tree)) : Prop :=
  List.Forall₂ (fun d d' => d'.1 = d.1 ∧
    d.2.Respelled (spans d.1) name d'.2 (replaceSpans d.2.text (spans d.1) name).2) documents
      documents'

theorem PlacedToken.respelled_nil (name : String) (leaf : PlacedToken) :
    leaf.respelled [] name = leaf.token :=
  if_neg (by simp)

theorem Placed.twins_refl (name : String) (ps : List Placed) : Twins [] name ps ps :=
  .refl (fun a => ⟨rfl, (a.respelled_nil name).symm⟩) (fun _ => rfl) ps

theorem Compilation.IsOf.allParsed {c : Compilation} {s : Solution} {p : Project} (h : c.IsOf s p)
    (hparsed : AllParsed (s.trees p)) : AllParsed c.documents :=
  h.documents ▸ hparsed

/-- The spans in a document at which references are renamed. -/
def Compilation.keptSpans (c : Compilation) (found : Symbol) (options : RenameOptions)
    (id : DocumentId) : List Span :=
  spansOf (((c.references found).filter options.keeps).filter (·.document == id))

namespace Solution

variable {name : String} {s next : Solution} {p p' : Project} {c c' : Compilation}
  {symbol found : Symbol} {options : RenameOptions}

theorem IsRenamed.document? {groups : List (DocumentId × List Reference)}
    (h : s.IsRenamed name groups next) (hnext : next.WellFormed) {old : Document}
    (hold : old ∈ s.documents) :
    ∃ new, next.document? old.id = some new ∧ Document.IsRenamed name groups old new := by
  obtain ⟨n, hn, rfl⟩ := List.getElem_of_mem hold
  have hn' : n < next.documents.length := h.documents.length_eq ▸ hn
  have hrenamed := h.documents.get hn hn'
  exact ⟨_, hrenamed.id ▸ hnext.document? (List.getElem_mem hn'), hrenamed⟩

theorem IsRenamed.exists_old {groups : List (DocumentId × List Reference)}
    (h : s.IsRenamed name groups next) {new : Document} (hnew : new ∈ next.documents) :
    ∃ old ∈ s.documents, new.id = old.id ∧ Document.IsRenamed name groups old new := by
  obtain ⟨n, hn, rfl⟩ := List.getElem_of_mem hnew
  have hn' : n < s.documents.length := h.documents.length_eq ▸ hn
  have hrenamed := h.documents.get hn' hn
  exact ⟨_, List.getElem_mem hn', hrenamed.id, hrenamed⟩

/-- The spans are places of names that can be replaced. -/
theorem renamableSpans_keptSpans (options : RenameOptions) (hs : s.WellFormed)
    (hfinds : s.Finds symbol p c found) (hparsed : AllParsed (s.trees p))
    (hkind : found.kind.isSingle) {d : Document} (hd : d ∈ s.documents) :
    RenamableSpans d.tree (c.keptSpans found options d.id) := by
  have hbuilt := hfinds.isBuilt hs
  constructor
  · rw [Compilation.keptSpans, spansOf, List.pairwise_map, List.filter_filter]
    refine List.Pairwise.sublist ?_ (c.references_sorted found d.id)
    exact List.monotone_filter_right _ fun r hr => (Bool.and_eq_true_iff.mp hr).1
  · intro span hspan
    obtain ⟨r, hr, hdocument, rfl⟩ := (mem_spansOf).mp hspan
    obtain ⟨tree, htree, f, hf, htext, hplace, hrenamable, _⟩ :=
      hbuilt.exists_renamable (hfinds.compilation.allParsed hparsed)
        (symbol?_of_symbolByKey? hfinds.symbol) hkind (List.mem_filter.mp hr).1
    obtain ⟨_, d', hd', rfl⟩ := (mem_trees).mp (hfinds.compilation.mem_trees htree)
    obtain rfl : d' = d := Option.some.inj (hd'.symm.trans (hdocument ▸ hs.document? hd))
    exact ⟨f, hf, htext, hplace, hrenamable⟩

/-- Where no token lies at the place of a reference, it means nothing. -/
theorem candidatesAt_of_forall_ne {c : Compilation} {r : Reference} {tree : Tree}
    (htree : c.tree? r.document = some tree) (h : ∀ f ∈ tree.tokens, f.leaf.span ≠ r.span) :
    candidatesAt c r = [] := by
  rw [candidatesAt, htree, Option.bind_some]
  cases hfound : tree.tokenAt? r.span.start with
  | none => rfl
  | some f =>
    rw [Option.map_some]
    exact if_neg (h f (Tree.mem_of_tokenAt? hfound))

/-- Without conflicts, each renamed reference means what it should, or the options accept what
it means. -/
theorem not_inConflict {options : RenameOptions} {d : Compilation} {expected? : Option Symbol}
    {renamed : List Reference}
    (h : referenceConflicts options d expected? renamed = []) {r : Reference} (hr : r ∈ renamed)
    (hdeclaration : r.isDeclaration = false) : match options.verdict (candidatesAt d r) d with
      | .noConflict => True
      | .conflict => False
      | .byDefault => isExpected expected? (candidatesAt d r) := by
  have hmem : r ∈ renamed.filter (!·.isDeclaration) :=
    List.mem_filter.mpr ⟨hr, by simp [hdeclaration]⟩
  have hnone := List.filterMap_eq_nil_iff.mp h r hmem
  cases hverdict : options.verdict (candidatesAt d r) d with
  | noConflict => trivial
  | conflict => simp [hverdict] at hnone
  | byDefault =>
    simp only [hverdict] at hnone ⊢
    by_contra hnot
    simp [hnot] at hnone

/-- A place in the renamed text is that of a renamed reference. -/
theorem WellFormed.exists_moved (hs : s.WellFormed) {d : Document} (hd : d ∈ s.documents)
    {span place : Span}
    (h : (span, some place) ∈ (c.keptSpans found options d.id).zip
      (replaceSpans d.text (c.keptSpans found options d.id) name).2) :
    ∃ r ∈ c.references found, r.document = d.id ∧ r.span = span ∧
      { r with span := place } ∈ (c.keptGroups found options).flatMap (s.moved name) := by
  rw [Compilation.keptSpans, spansOf, List.zip_map_left] at h
  obtain ⟨⟨r, place?⟩, hmem, heq⟩ := List.mem_map.mp h
  obtain ⟨rfl, rfl⟩ := Prod.mk.inj heq
  have hr := (List.of_mem_zip hmem).1
  obtain ⟨hkept, hdocument⟩ := List.mem_filter.mp hr
  refine ⟨r, (List.mem_filter.mp hkept).1, eq_of_beq hdocument, rfl, List.mem_flatMap.mpr
    ⟨_, (mem_groupByDocument).mpr ⟨⟨r, hkept, eq_of_beq hdocument⟩, rfl⟩, ?_⟩⟩
  rw [moved, hs.document? hd]
  exact List.mem_filterMap.mpr ⟨(r, some place), hmem, rfl⟩

/-- A reference at a new place is one that was kept. -/
theorem exists_kept_of_moved {r : Reference}
    (h : r ∈ (c.keptGroups found options).flatMap (s.moved name)) :
    ∃ r' ∈ c.references found, options.keeps r' ∧ r'.isDeclaration = r.isDeclaration := by
  obtain ⟨⟨id, references⟩, hgroup, hr⟩ := List.mem_flatMap.mp h
  obtain ⟨_, rfl⟩ := (mem_groupByDocument).mp hgroup
  rw [moved] at hr
  split at hr
  next => exact absurd hr List.not_mem_nil
  next =>
    obtain ⟨⟨r', place?⟩, hmem, hplace⟩ := List.mem_filterMap.mp hr
    obtain ⟨place, _, rfl⟩ := Option.map_eq_some_iff.mp hplace
    obtain ⟨hr', hkeeps⟩ := List.mem_filter.mp (List.mem_filter.mp (List.of_mem_zip hmem).1).1
    exact ⟨r', hr', hkeeps, rfl⟩

/-- A rename neither adds documents to a project nor takes any out. -/
theorem Renames.documents_eq (hnext : next.WellFormed) (hfinds : s.Finds symbol p c found)
    (hrenames : s.Renames p c found name options next p' c') :
    p'.id = p.id ∧ p'.documents = p.documents := by
  have hp := project?_some hfinds.project
  have hp' := project?_some hrenames.project
  obtain ⟨n, hn, heq⟩ := List.getElem_of_mem hp.1
  have hn' : n < next.projects.length := hrenames.documents.projects.length_eq ▸ hn
  obtain ⟨hid, _, hdocuments⟩ := hrenames.documents.projects.get hn hn'
  have hsame : next.projects.get ⟨n, hn'⟩ = p' := by
    have := hnext.project? (List.getElem_mem hn')
    rw [show next.projects[n].id = p.id from hid.trans (congrArg Project.id heq)] at this
    exact Option.some.inj (this.symm.trans hrenames.project)
  rw [hsame] at hdocuments
  exact ⟨hp'.2, hdocuments.trans (congrArg Project.documents heq)⟩

/-- After the rename, all trees of the project come from parsing again. -/
theorem Renames.allParsed (hs : s.WellFormed) (hnext : next.WellFormed)
    (hfinds : s.Finds symbol p c found) (hrenames : s.Renames p c found name options next p' c')
    (hparsed : AllParsed (s.trees p)) : AllParsed (next.trees p') := by
  rintro ⟨id, _⟩ hd
  rw [mem_trees, (hrenames.documents_eq hnext hfinds).2] at hd
  obtain ⟨hlisted, new, hnew, rfl⟩ := hd
  obtain ⟨hmem, rfl⟩ := document?_some hnew
  obtain ⟨old, hold, _, hrenamed⟩ := hrenames.documents.exists_old hmem
  by_cases hgroup : old.id ∈ (c.keptGroups found options).map (·.1)
  · obtain ⟨⟨_, references⟩, hgroup, rfl⟩ := List.mem_map.mp hgroup
    obtain ⟨stamp, htree⟩ := hrenamed.parsed references hgroup
    exact ⟨_, congrArg Tree.root htree⟩
  · dsimp only
    rw [hrenamed.kept hgroup]
    rw [hrenamed.id] at hlisted
    exact hparsed (old.id, old.tree) ((mem_trees).mpr ⟨hlisted, old, hs.document? hold, rfl⟩)

section Shape

variable (hs : s.WellFormed) (hnext : next.WellFormed) (hfinds : s.Finds symbol p c found)
  (hrenames : s.Renames p c found name options next p' c')
include hs hnext hfinds hrenames

/-- Every document of the project is what it was, with the new name at the references that are
kept, unless a declaration is lost. -/
theorem Renames.respelled (hparsed : AllParsed (s.trees p)) (hkind : found.kind.isSingle)
    (hword : IsWord name.toList) (hjudge : ∀ d, options.verdict [] d ≠ .noConflict)
    (hdeclarations : ∀ r ∈ (c.keptGroups found options).flatMap (s.moved name), r.isDeclaration →
      ∃ tree, (r.document, tree) ∈ next.trees p' ∧ ∃ f ∈ tree.tokens, f.leaf.span = r.span)
    {d : Document} (hd : d ∈ s.documents) (hproject : d.project = p.id) :
    ∃ new, next.document? d.id = some new ∧ d.tree.Respelled (c.keptSpans found options d.id) name
      new.tree (replaceSpans d.text (c.keptSpans found options d.id) name).2 := by
  obtain ⟨new, hnew, hrenamed⟩ := hrenames.documents.document? hnext hd
  refine ⟨new, hnew, ?_⟩
  have hlisted : d.id ∈ p.documents :=
    (hs.listed p (project?_some hfinds.project).1 d.id).mpr ⟨d, hd, rfl, hproject⟩
  by_cases hgroup : ∃ r ∈ (c.references found).filter options.keeps, r.document = d.id
  · obtain ⟨stamp, hnewTree⟩ := hrenamed.parsed _ (mem_groupByDocument.mpr ⟨hgroup, rfl⟩)
    obtain ⟨text, htext⟩ :=
      hparsed (d.id, d.tree) ((mem_trees).mpr ⟨hlisted, d, hs.document? hd, rfl⟩)
    obtain rfl : d.text = text := by
      rw [Document.text, Tree.text, htext]
      exact text_parse text
    have hspans := renamableSpans_keptSpans options hs hfinds hparsed hkind hd
    have hnewRoot : new.tree.root =
        (parse (replaceSpans d.text (c.keptSpans found options d.id) name).1).root := by
      rw [hnewTree]
      rfl
    obtain hrespelled | ⟨span, place, hplace, hlost⟩ := hspans.reparse htext hword hnewRoot
    · exact hrespelled
    · -- A reference that is lost would be in conflict, and declarations are not lost.
      obtain ⟨r, _, hdocument, _, hmoved⟩ := hs.exists_moved hd hplace
      have hnewTrees : (d.id, new.tree) ∈ next.trees p' := by
        rw [mem_trees, (hrenames.documents_eq hnext hfinds).2]
        exact ⟨hlisted, new, hnew, rfl⟩
      have hbuilt := hrenames.isBuilt hnext
      have htree : c'.tree? d.id = some new.tree :=
        hbuilt.tree? (hrenames.compilation.documents ▸ hnewTrees)
      cases hdeclaration : r.isDeclaration with
      | true =>
        obtain ⟨tree, hmem, f, hf, hspan⟩ := hdeclarations _ hmoved hdeclaration
        obtain rfl : tree = new.tree :=
          Option.some.inj
            ((hbuilt.tree? (hrenames.compilation.documents ▸ hmem)).symm.trans (hdocument ▸ htree))
        exact absurd hspan (hlost f hf)
      | false =>
        have hnothing :=
          @candidatesAt_of_forall_ne c' { r with span := place } _ (hdocument ▸ htree) hlost
        have hverdict :=
          not_inConflict (List.append_eq_nil_iff.mp hrenames.conflicts).2 hmoved hdeclaration
        rw [hnothing] at hverdict
        cases hjudged : options.verdict [] c' with
        | noConflict => exact absurd hjudged (hjudge _)
        | conflict => simp [hjudged] at hverdict
        | byDefault => simp [hjudged, isExpected] at hverdict
  · have hnone : c.keptSpans found options d.id = [] := by
      rw [Compilation.keptSpans, List.filter_eq_nil_iff.mpr, spansOf, List.map_nil]
      exact fun r hr hdocument => hgroup ⟨r, hr, eq_of_beq hdocument⟩
    have hkept : new.tree = d.tree := hrenamed.kept fun hmem => by
      obtain ⟨⟨document, references⟩, hmem, rfl⟩ := List.mem_map.mp hmem
      exact hgroup (mem_groupByDocument.mp hmem).1
    rw [hnone, hkept]
    exact ⟨Placed.twins_refl name _, fun _ _ h => absurd h List.not_mem_nil⟩

/-- The project is the same again, with the new name at the references that are kept. -/
theorem Renames.twinned (hparsed : AllParsed (s.trees p))
    (hkind : found.kind.isSingle) (hword : IsWord name.toList)
    (hjudge : ∀ d, options.verdict [] d ≠ .noConflict)
    (hdeclarations : ∀ r ∈ (c.keptGroups found options).flatMap (s.moved name), r.isDeclaration →
      ∃ tree, (r.document, tree) ∈ next.trees p' ∧ ∃ f ∈ tree.tokens, f.leaf.span = r.span) :
    Twinned name (c.keptSpans found options) (s.trees p) (next.trees p') := by
  rw [trees, trees, (hrenames.documents_eq hnext hfinds).2]
  have hlisted := hs.listed p (project?_some hfinds.project).1
  suffices htrees : ∀ ids ⊆ p.documents, Twinned name (c.keptSpans found options)
      (ids.filterMap fun id => (s.document? id).map fun d => (id, d.tree))
      (ids.filterMap fun id => (next.document? id).map fun d => (id, d.tree)) from htrees _
      fun _ h => h
  intro ids
  induction ids with
  | nil => exact fun _ => .nil
  | cons id ids ih =>
    intro hids
    obtain ⟨d, hd, rfl, hproject⟩ := (hlisted id).mp (hids List.mem_cons_self)
    obtain ⟨new, hnew, hrespelled⟩ :=
      hrenames.respelled hs hnext hfinds hparsed hkind hword hjudge hdeclarations hd hproject
    rw [List.filterMap_cons, List.filterMap_cons, hs.document? hd, hnew]
    exact .cons ⟨rfl, hrespelled⟩ (ih fun _ h => hids (List.mem_cons_of_mem _ h))

end Shape

/-- The project declares counterparts of its symbols then. They are exact if no declaration is
renamed. -/
theorem counterparts_of_twinned (hs : s.WellFormed) (hfinds : s.Finds symbol p c found)
    (hparsed : AllParsed (s.trees p)) (hkind : found.kind.isSingle) (hword : IsWord name.toList)
    (htwinned : Twinned name (c.keptSpans found options) (s.trees p) (next.trees p')) (exact : Prop)
    (hexact : exact → ∀ r ∈ c.references found, options.keeps r → r.isDeclaration = false) :
    SymbolTable.Counterparts exact (SymbolTable.declareDocuments (s.trees p))
      (SymbolTable.declareDocuments (next.trees p')) := by
  refine SymbolTable.counterparts_declareDocuments hparsed.conforms
    (List.forall₂_iff_zip.mpr ⟨htwinned.length_eq, ?_⟩)
  rintro ⟨id, tree⟩ d' hmem
  obtain ⟨hid, hrespelled⟩ := (List.forall₂_iff_zip.mp htwinned).2 hmem
  obtain ⟨_, d, hd, rfl⟩ := (mem_trees).mp (List.of_mem_zip hmem).1
  obtain ⟨hmem', rfl⟩ := document?_some hd
  have hspans := renamableSpans_keptSpans options hs hfinds hparsed hkind hmem'
  refine ⟨hid, hrespelled.reworded hspans hword.ne_empty fun he f hf hf' a ha hspan => ?_⟩
  -- A name that is replaced at its declaration would be a declaration that is kept.
  obtain ⟨r, hr, hdocument, hplace⟩ := (mem_spansOf).mp hspan
  obtain ⟨hr, hkeeps⟩ := List.mem_filter.mp hr
  have hbuilt := hfinds.isBuilt hs
  have htree : c.tree? r.document = some d.tree :=
    hdocument ▸ hbuilt.tree? (hfinds.compilation.documents ▸ (List.of_mem_zip hmem).1)
  exact hbuilt.span_ne_of_declaresName (hfinds.compilation.allParsed hparsed)
    (symbol?_of_symbolByKey? hfinds.symbol) hkind hr
    (hexact he r hr hkeeps) htree hf hf' ha hplace.symm

end Solution

end AutoProperty
