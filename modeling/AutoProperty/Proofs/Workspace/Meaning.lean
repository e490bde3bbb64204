import AutoProperty.Proofs.Workspace.Twins

/-! # What renamed references mean

A rename looks again at every reference that it renamed, so each of them means the symbol that
has the key with the new name, and nothing else. That may be another symbol than the renamed
one, where a local gets the name of a local further in.
-/

namespace AutoProperty

namespace Compilation

variable {c : Compilation} {symbol : Symbol} {r r' : Reference}

/-- A symbol is declared somewhere. -/
theorem IsBuilt.exists_isDeclaration (h : c.IsBuilt) (hparsed : AllParsed c.documents)
    (hsymbol : c.symbol? symbol.id = some symbol) : ∃ r ∈ c.references symbol, r.isDeclaration := by
  have hlinked := SymbolTable.linked_build hparsed.conforms
  rw [← h.table] at hlinked
  obtain ⟨data, hdata, heq⟩ := Option.map_eq_some_iff.mp hsymbol
  have hresolve : c.resolve? symbol = some symbol := if_pos (by rw [← heq])
  obtain ⟨d, hd⟩ := List.exists_mem_of_ne_nil _ (hlinked.named symbol.id data hdata).1
  refine ⟨_, (h.mem_references hresolve).mpr (.inl ⟨d, ?_, rfl⟩), rfl⟩
  rwa [← heq]

/-- No name both declares and mentions a symbol. -/
theorem IsBuilt.span_ne_of_isDeclaration (h : c.IsBuilt) (hparsed : AllParsed c.documents)
    (hsymbol : c.symbol? symbol.id = some symbol) (hr : r ∈ c.references symbol)
    (hdeclaration : r.isDeclaration) (hr' : r' ∈ c.references symbol)
    (hmention : r'.isDeclaration = false) (hdocument : r.document = r'.document) :
    r.span ≠ r'.span := by
  intro hspan
  obtain ⟨data, hdata, heq⟩ := Option.map_eq_some_iff.mp hsymbol
  have hlinked := SymbolTable.linked_build hparsed.conforms
  have hpresent := SymbolTable.present_build c.documents
  rw [← h.table] at hlinked hpresent
  have hresolve : c.resolve? symbol = some symbol := if_pos (by rw [← heq])
  have hdata' : c.table.data? symbol.id = some symbol.data := by rw [hdata, ← heq]
  obtain ⟨d, hd, rfl⟩ | ⟨_, _, _, _, _, _, rfl⟩ := (h.mem_references hresolve).mp hr
  case inr => exact Bool.false_ne_true hdeclaration
  by_cases hkind : symbol.kind.isSingle
  · -- The name of the only declaration does not stand in an expression.
    obtain ⟨d', hdeclarations, tree, htree, n, hn, _, hdeclares, leaf, hleaf, hplace, _⟩ :=
      hlinked.single symbol.id symbol.data hdata' hkind
    obtain rfl : d = d' := List.mem_singleton.mp (hdeclarations ▸ hd)
    exact h.span_ne_of_declaresName hparsed hsymbol hkind hr' hmention (hdocument ▸ h.tree? htree)
      hn hdeclares.declaresName
      hleaf (hplace.trans hspan)
  · -- Namespaces and types are declared in the heads of scopes, and names are bound in members.
    obtain ⟨_, _, rfl⟩ | ⟨document, tree, htree, f, hf, hmentions, rfl⟩ :=
      (h.mem_references hresolve).mp hr'
    · cases hmention
    obtain ⟨_, hbound, g, hg, _, hindex, hmember⟩ :=
      hpresent.bound _ (exists_binding_of_single? hmentions)
    obtain ⟨_, hnamed, f', hf', htext, hplace, hhead⟩ :=
      hpresent.named symbol.data (List.mem_of_getElem? hdata') d hd
    obtain rfl := Option.some.inj ((h.tree? hbound).symm.trans (h.tree? htree))
    obtain rfl : d.place.document = document := hdocument
    obtain rfl := Option.some.inj ((h.tree? hnamed).symm.trans (h.tree? htree))
    obtain rfl := Tree.eq_of_index hg hf hindex
    have hleaf := eq_of_span (Tree.leaf_mem hf') (Tree.leaf_mem hg) htext (hplace.trans hspan)
    obtain rfl := Tree.eq_of_index hf' hg (congrArg PlacedToken.index hleaf)
    exact hmember.not_inHead (hhead hkind)

/-- A token stands at the reference, and it means the symbol alone. -/
def MeansAt (c : Compilation) (r : Reference) (symbol : Symbol) : Prop :=
  ∃ tree, c.tree? r.document = some tree ∧ ∃ f ∈ tree.tokens, f.leaf.span = r.span ∧
    c.boundAt r.document f.leaf.index = [symbol]

/-- Where the reference means what is expected, and only that, a token stands. -/
theorem exists_meansAt {expected? : Option Symbol}
    (hexpected : ∀ e, expected? = some e → c.symbol? e.id = some e)
    (h : isExpected expected? (candidatesAt c r)) : ∃ e, expected? = some e ∧ c.MeansAt r e := by
  cases hcandidates : candidatesAt c r with
  | nil =>
    rw [hcandidates] at h
    exact absurd h Bool.false_ne_true
  | cons candidate others =>
  rw [hcandidates] at h
  cases others with
  | cons _ _ => exact absurd h Bool.false_ne_true
  | nil =>
  obtain ⟨e, he, hsame⟩ := (Option.any_eq_true ..).mp h
  rw [candidatesAt] at hcandidates
  -- What is told about the token is told only where it covers the reference.
  split at hcandidates
  next leaf hleaf =>
    split at hcandidates
    next hspan =>
      obtain ⟨tree, htree, hfocus⟩ := Option.bind_eq_some_iff.mp hleaf
      obtain ⟨f, hf, rfl⟩ := Option.map_eq_some_iff.mp hfocus
      have hmem : candidate ∈ c.boundAt r.document f.leaf.index :=
        hcandidates ▸ List.mem_singleton_self candidate
      obtain ⟨id, _, hid⟩ := List.mem_filterMap.mp hmem
      obtain rfl : candidate = e := by
        have hids : candidate.id = e.id := eq_of_beq (Bool.and_eq_true_iff.mp hsame).2
        obtain rfl : candidate.id = id := by
          obtain ⟨_, _, rfl⟩ := Option.map_eq_some_iff.mp hid
          rfl
        rw [hids] at hid
        exact Option.some.inj (hid.symm.trans (hexpected e he))
      exact ⟨candidate, he, tree, htree, f, Tree.mem_of_tokenAt? hf, hspan, hcandidates⟩
    next => cases hcandidates
  next => cases hcandidates

end Compilation

namespace Solution

variable {name : String} {s next : Solution} {p : Project} {c : Compilation} {symbol found : Symbol}

/-- The rename of the references that are kept writes the new name of `r` at the place. -/
def MovesTo (s : Solution) (c : Compilation) (found : Symbol) (options : RenameOptions)
    (name : String) (r : Reference) (place : Span) : Prop :=
  ∃ d, s.document? r.document = some d ∧ (r.span, some place) ∈
    (c.keptSpans found options d.id).zip
      (replaceSpans d.text (c.keptSpans found options d.id) name).2

/-- A reference that is kept gets a new place, and one that is moved there is of its sort. -/
theorem exists_movesTo (hs : s.WellFormed) (hfinds : s.Finds symbol p c found)
    (hparsed : AllParsed (s.trees p)) (options : RenameOptions) (name : String) {r : Reference}
    (hr : r ∈ c.references found) (hkeeps : options.keeps r) :
    ∃ place, s.MovesTo c found options name r place ∧
      { r with span := place } ∈ (c.keptGroups found options).flatMap (s.moved name) := by
  have hkept : r ∈ (c.references found).filter options.keeps := List.mem_filter.mpr ⟨hr, hkeeps⟩
  obtain ⟨d, hd, hid⟩ :=
    exists_document_of_keptGroups hs hfinds options (mem_groupByDocument.mpr ⟨⟨r, hkept, rfl⟩, rfl⟩)
  have hid : r.document = d.id := hid.symm
  have hgroup := mem_groupByDocument.mpr ⟨⟨r, hkept, hid⟩, rfl⟩
  obtain ⟨place, hplace⟩ := mem_replacedSpans.mp
    ((@mem_replacedSpans_keptGroups name s p c symbol found hs hfinds options d hd _ hgroup
      r.span).mpr
      (mem_spansOf.mpr ⟨r, hkept, hid, rfl⟩))
  refine ⟨place, ⟨d, hid ▸ hs.document? hd, hplace⟩, ?_⟩
  obtain ⟨r', hr', hdocument, hspan, hmoved⟩ := hs.exists_moved hd hplace
  have hdocument : r'.document = r.document := hdocument.trans hid.symm
  suffices hsort : r'.isDeclaration = r.isDeclaration by
    have hsame : { r' with span := place } = { r with span := place } :=
      Reference.mk.injEq .. ▸ ⟨hdocument, rfl, hsort⟩
    exact hsame ▸ hmoved
  have hbuilt := hfinds.isBuilt hs
  have hparsed' := hfinds.compilation.allParsed hparsed
  have hsymbol := symbol?_of_symbolByKey? hfinds.symbol
  cases hdeclares' : r'.isDeclaration <;> cases hdeclares : r.isDeclaration
  case false.false => rfl
  case true.true => rfl
  -- A declaration and a mention are never at the same name.
  case false.true =>
    exact absurd hspan.symm
      (hbuilt.span_ne_of_isDeclaration hparsed' hsymbol hr hdeclares hr' hdeclares' hdocument.symm)
  case true.false =>
    exact absurd hspan
      (hbuilt.span_ne_of_isDeclaration hparsed' hsymbol hr' hdeclares' hr hdeclares hdocument)

/-- The name is written over a declaration if all references are renamed. -/
theorem exists_moved_declaration (hs : s.WellFormed) (hfinds : s.Finds symbol p c found)
    (hparsed : AllParsed (s.trees p)) (name : String) :
    ((c.keptGroups found {}).flatMap (s.moved name)).any (·.isDeclaration) := by
  have hbuilt := hfinds.isBuilt hs
  obtain ⟨r, hr, hdeclares⟩ :=
    hbuilt.exists_isDeclaration (hfinds.compilation.allParsed hparsed)
      (symbol?_of_symbolByKey? hfinds.symbol)
  obtain ⟨place, _, hmoved⟩ := exists_movesTo hs hfinds hparsed {} name hr rfl
  exact List.any_eq_true.mpr ⟨_, hmoved, hdeclares⟩

/-- After a rename of all references, each of them means the symbol under the key with the new
name, and nothing else. -/
theorem rename_means {store store' : Store} {snapshots : List Solution}
    (h : History store snapshots) (hs : s ∈ snapshots) (hparsed : s.IsParsed) {cancelled : Bool}
    (hrun : (s.rename symbol name {} cancelled).run store = (.ok next, store')) :
    ∃ p c found, s.Finds symbol p c found ∧
      (∃ store₁, (s.compilation p.id).run store = (.ok c, store₁)) ∧
      (found.name = name → next = s) ∧
      (found.name ≠ name → ∃ (p' : Project) (c' : Compilation), next.project? p.id = some p' ∧
        c'.IsOf next p' ∧ ∀ r ∈ c.references found, r.isDeclaration = false →
        ∃ place renamed, s.MovesTo c found {} name r place ∧
        c'.symbolByKey? (found.key.renamed name) = some renamed ∧
        c'.MeansAt { r with span := place } renamed) := by
  obtain ⟨hname, rfl, p, c, found, store₁, hcompile, hfinds⟩ := finds_of_rename h.consistent hs hrun
  have hwf := h.consistent.wellFormed s hs
  refine ⟨p, c, found, hfinds, ⟨store₁, hcompile⟩, ?_⟩
  obtain ⟨outcome, _, _, hrun', _, _, _, hcases⟩ :=
    rename_run h.consistent hs hname hcompile hfinds {}
  rw [hrun] at hrun'
  obtain ⟨rfl, rfl⟩ := Prod.mk.inj hrun'
  obtain ⟨hsame, hok⟩ | ⟨_, herror⟩ | ⟨hne, next', p', c', _, hrenames, _, hok⟩ := hcases
  · exact ⟨fun _ => Except.ok.inj hok, fun hne => absurd hsame hne⟩
  · cases herror
  obtain rfl := Except.ok.inj hok
  refine ⟨fun hsame => absurd hsame hne,
    fun _ => ⟨p', c', hrenames.project, hrenames.compilation, fun r hr hmention => ?_⟩⟩
  have hparsed := hparsed.allParsed p
  obtain ⟨place, hmoves, hmoved⟩ := exists_movesTo hwf hfinds hparsed {} name hr rfl
  have hexpected := not_inConflict (List.append_eq_nil_iff.mp hrenames.conflicts).2 hmoved hmention
  rw [if_pos (exists_moved_declaration hwf hfinds hparsed name)] at hexpected
  obtain ⟨renamed, hfound, hmeans⟩ :=
    Compilation.exists_meansAt (fun _ => symbol?_of_symbolByKey?) hexpected
  exact ⟨place, renamed, hmoves, hfound, hmeans⟩

/-- Every token of a project means in the second snapshot what it means in the first: symbols
that the same nodes declare. -/
def KeepsMeanings (s next : Solution) (id : ProjectId) : Prop :=
  ∀ p p', s.project? id = some p → next.project? id = some p' → ∀ c c' : Compilation, c.IsOf s p →
    c'.IsOf next p' →
    ∀ document index, (c'.boundAt document index).map (·.data.declarations.map (·.place)) =
      (c.boundAt document index).map (·.data.declarations.map (·.place))

/-- The second local `x` is used behind the declaration of a local `n`. -/
def usedFurtherIn : String :=
  "class C \x7b void M() \x7b \x7b int x = 0; \x7d " ++
    "\x7b int x = 1; \x7b int n = 2; x = 3; \x7d \x7d \x7d \x7d"

/-- The key with the new name can be that of a local which captures a reference. -/
theorem exists_captured :
    ¬∀ (store store' : Store) (snapshots : List Solution) (s next : Solution) (symbol : Symbol)
        (name : String),
      History store snapshots → s ∈ snapshots → s.IsParsed →
      (s.rename symbol name {} false).run store = (.ok next, store') →
      ∀ p ∈ s.projects, s.KeepsMeanings next p.id := by
  intro h
  let s := ofText usedFurtherIn
  let x : Symbol := (symbolIn? usedFurtherIn ⟨.localVariable, "C.M(0).x#1"⟩).get (by decide +kernel)
  have hbefore : ((Compilation.ofText usedFurtherIn).boundAt ⟨0⟩ 27).map
      (·.data.declarations.map (·.place)) = [[⟨⟨0⟩, 17⟩]] := by
    decide +kernel
  have hafter :
      (((s.rename x "n" {} false).run ⟨3, 0, []⟩).1.toOption.any fun next =>
        (next.project? ⟨0⟩).any fun p' =>
          ((Compilation.build ⟨0⟩ ⟨0⟩ (next.trees p')).boundAt ⟨0⟩ 27).map
            (·.data.declarations.map (·.place)) == [[⟨⟨0⟩, 24⟩]]) = true := by
    decide +kernel
  obtain ⟨next, hnext, hafter⟩ := (Option.any_eq_true ..).mp hafter
  obtain ⟨p', hproject, hafter⟩ := (Option.any_eq_true ..).mp hafter
  obtain ⟨store', hrun⟩ := exists_of_mem_toOption hnext
  have hkeeps :=
    h _ store' _ s next x "n" (.ofText _) List.mem_cons_self (isParsed_ofText _) hrun .single
      List.mem_cons_self .single p' rfl hproject (.ofText usedFurtherIn)
      (.build ⟨0⟩ ⟨0⟩ (next.trees p')) ⟨rfl, rfl, rfl⟩
      ⟨(project?_some hproject).2.symm, rfl, rfl⟩ ⟨0⟩ 27
  rw [hbefore, eq_of_beq hafter] at hkeeps
  exact absurd hkeeps (by decide)

end Solution

end AutoProperty
