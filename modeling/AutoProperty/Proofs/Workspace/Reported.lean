import AutoProperty.Proofs.Symbol.Expressions
import AutoProperty.Proofs.Workspace.Compilations
import AutoProperty.Proofs.Workspace.Meaning

/-! # What is reported

The name of every expression is a reference of one symbol, or it is left open, and never both.
The references of a symbol come in order, once each, and they all write its name.
-/

namespace AutoProperty

/-- Methods that make an instance of their type have a name that nothing in the source writes. -/
def Symbol.IsConstructor (s : Symbol) : Prop :=
  s.kind = .method ∧ s.name = SymbolTable.constructorName

namespace Compilation

variable {c : Compilation} {s : Symbol} {r r' : Reference} {document : DocumentId} {tree : Tree}
  {f g : TokenFocus}

/-- One of the references is at the token. -/
def Reports (references : List Reference) (document : DocumentId) (f : TokenFocus) : Prop :=
  ∃ r ∈ references, r.document = document ∧ r.span = f.leaf.span

/-- Comes in an earlier document, or further up in the same one. -/
def Before (c : Compilation) (a b : Reference) : Prop :=
  c.documentOrder a.document < c.documentOrder b.document ∨
    c.documentOrder a.document = c.documentOrder b.document ∧ a.span.start < b.span.start

theorem resolve?_of_mem (hs : s ∈ c.symbols) : c.resolve? s = some s :=
  if_pos (mem_symbols.mp hs).1

/-- An unresolved reference is a name in an expression that means no single symbol. -/
theorem mem_unresolvedReferences {name : String} :
    r ∈ c.unresolvedReferences name ↔
      ∃ document tree, (document, tree) ∈ c.documents ∧ ∃ f ∈ tree.tokens,
      f.isExpressionName ∧ f.leaf.text = name ∧ c.table.single? ⟨document, f.leaf.index⟩ = none ∧
      r = ⟨document, f.leaf.span, false⟩ := by
  rw [unresolvedReferences, List.mem_flatMap]
  constructor
  · rintro ⟨⟨document, tree⟩, hdocument, hmem⟩
    obtain ⟨f, hf, hsome⟩ := List.mem_filterMap.mp hmem
    split at hsome
    next hopen =>
      simp only [Bool.and_eq_true, beq_iff_eq, Option.isNone_iff_eq_none] at hopen
      exact ⟨document, tree, hdocument, f, hf, hopen.1.1, hopen.1.2, hopen.2,
        (Option.some.inj hsome).symm⟩
    next => cases hsome
  · rintro ⟨document, tree, hdocument, f, hf, hname, htext, hopen, rfl⟩
    refine ⟨(document, tree), hdocument, List.mem_filterMap.mpr ⟨f, hf, if_pos ?_⟩⟩
    simp [hname, htext, hopen]

/-- The place of a document tells which one it is. -/
theorem eq_of_documentOrder {document' : DocumentId} {tree' : Tree}
    (h : (document, tree) ∈ c.documents) (h' : (document', tree') ∈ c.documents)
    (horder : c.documentOrder document = c.documentOrder document') : document = document' := by
  have hfind {document : DocumentId} {tree : Tree} (h : (document, tree) ∈ c.documents) :
      ∃ i, c.documents.findIdx? (·.1 == document) = some i ∧
      (c.documents[i]?).map (·.1) = some document := by
    cases hfind : c.documents.findIdx? (·.1 == document) with
    | none => simpa using List.findIdx?_eq_none_iff.mp hfind _ h
    | some i =>
      obtain ⟨hlt, heq, _⟩ := List.findIdx?_eq_some_iff_getElem.mp hfind
      exact ⟨i, rfl, by simpa [List.getElem?_eq_getElem hlt] using heq⟩
  obtain ⟨i, hi, hdocument⟩ := hfind h
  obtain ⟨j, hj, hdocument'⟩ := hfind h'
  rw [documentOrder, documentOrder, hi, hj] at horder
  obtain rfl : i = j := horder
  exact Option.some.inj (hdocument.symm.trans hdocument')

namespace IsBuilt

variable (h : c.IsBuilt)
include h

theorem eq_of_mem_documents {tree' : Tree} (hdocument : (document, tree) ∈ c.documents)
    (hdocument' : (document, tree') ∈ c.documents) : tree = tree' :=
  Option.some.inj ((h.tree? hdocument).symm.trans (h.tree? hdocument'))

/-- A token that mentions something is present. -/
theorem text_ne_of_single? (hdocument : (document, tree) ∈ c.documents) (hf : f ∈ tree.tokens)
    {id : SymbolId} (hmention : c.table.single? ⟨document, f.leaf.index⟩ = some id) :
    f.leaf.text ≠ "" := by
  have hpresent := SymbolTable.present_build c.documents
  rw [← h.table] at hpresent
  obtain ⟨tree', hdocument', g, hg, htext, hindex, _⟩ :=
    hpresent.bound _ (exists_binding_of_single? hmention)
  obtain rfl := h.eq_of_mem_documents hdocument hdocument'
  rwa [← Tree.eq_of_index hg hf hindex]

variable (hparsed : AllParsed c.documents)
include hparsed

/-- No symbol is declared at the name of an expression. -/
theorem span_ne_of_isExpressionName (hs : s ∈ c.symbols) {d : Declaration}
    (hd : d ∈ s.data.declarations) (hdocument : (d.place.document, tree) ∈ c.documents)
    (hf : f ∈ tree.tokens) (hname : f.isExpressionName) : f.leaf.span ≠ d.nameSpan := by
  intro hspan
  have hsound := (SymbolTable.linked_build hparsed.conforms).toSound
  rw [← h.table] at hsound
  obtain ⟨_, hdata⟩ := mem_symbols.mp hs
  by_cases hkind : s.data.kind.isSingle
  · obtain ⟨d', hdeclarations, tree', hdocument', n, hn, _, hdeclares, leaf, hleaf, hplace, _⟩ :=
      hsound.single s.id s.data hdata hkind
    obtain rfl : d = d' := List.mem_singleton.mp (hdeclarations ▸ hd)
    obtain rfl := h.eq_of_mem_documents hdocument hdocument'
    have hfocus := Tree.nameFocus_mem hn hleaf
    have heq :=
      eq_of_span (Tree.leaf_mem hfocus) (Tree.leaf_mem hf) (PlacedNode.name?_mem hleaf).2.2
        (hplace.trans hspan.symm)
    obtain rfl := Tree.eq_of_index hfocus hf (congrArg PlacedToken.index heq)
    have hdeclaresName := hdeclares.declaresName
    rw [TokenFocus.kind_of_isExpressionName hname] at hdeclaresName
    exact Bool.false_ne_true hdeclaresName
  · obtain ⟨tree', hdocument', g, hg, htext, hplace, hhead⟩ :=
      (hsound.named s.id s.data hdata).2 d hd
    obtain rfl := h.eq_of_mem_documents hdocument hdocument'
    have heq := eq_of_span (Tree.leaf_mem hg) (Tree.leaf_mem hf) htext (hplace.trans hspan.symm)
    obtain rfl := Tree.eq_of_index hg hf (congrArg PlacedToken.index heq)
    exact Tree.not_isExpressionName_of_inHead (hparsed.conforms _ hdocument) hf (hhead hkind) hname

/-- The name of an expression is reported for a symbol if it refers to that one alone. -/
theorem reports_references_iff (hs : s ∈ c.symbols) (hdocument : (document, tree) ∈ c.documents)
    (hf : f ∈ tree.tokens) (hname : f.isExpressionName) :
    Reports (c.references s) document f ↔ c.table.single? ⟨document, f.leaf.index⟩ = some s.id := by
  constructor
  · rintro ⟨r, hr, rfl, hspan⟩
    obtain ⟨d, hd, rfl⟩ | ⟨document, tree', hdocument', g, hg, hmention, rfl⟩ :=
      (h.mem_references (resolve?_of_mem hs)).mp hr
    · exact absurd hspan.symm (h.span_ne_of_isExpressionName hparsed hs hd hdocument hf hname)
    · obtain rfl := h.eq_of_mem_documents hdocument hdocument'
      have heq :=
        eq_of_span (Tree.leaf_mem hg) (Tree.leaf_mem hf)
          (h.text_ne_of_single? hdocument hg hmention) hspan
      rwa [← heq]
  · intro hmention
    exact ⟨_,
      (h.mem_references (resolve?_of_mem hs)).mpr
        (.inr ⟨document, tree, hdocument, f, hf, hmention, rfl⟩), rfl, rfl⟩

omit hparsed in
/-- The name of an expression is left open if it refers to no symbol alone. -/
theorem reports_unresolvedReferences_iff (hdocument : (document, tree) ∈ c.documents)
    (hf : f ∈ tree.tokens) (hname : f.isExpressionName) :
    Reports (c.unresolvedReferences f.leaf.text) document f ↔
      c.table.single? ⟨document, f.leaf.index⟩ = none := by
  constructor
  · rintro ⟨r, hr, rfl, hspan⟩
    obtain ⟨document, tree', hdocument', g, hg, _, htext, hopen, rfl⟩ :=
      mem_unresolvedReferences.mp hr
    obtain rfl := h.eq_of_mem_documents hdocument hdocument'
    refine Option.eq_none_iff_forall_ne_some.mpr fun id hid => ?_
    have hne := h.text_ne_of_single? hdocument hf hid
    have heq := eq_of_span (Tree.leaf_mem hf) (Tree.leaf_mem hg) hne hspan.symm
    rw [heq, hopen] at hid
    cases hid
  · intro hopen
    exact ⟨_,
      mem_unresolvedReferences.mpr ⟨document, tree, hdocument, f, hf, hname, rfl, hopen, rfl⟩, rfl,
      rfl⟩

/-- A reference is at a token that writes the name of the symbol. -/
theorem exists_written (hs : s ∈ c.symbols) (hr : r ∈ c.references s) :
    ∃ tree, (r.document, tree) ∈ c.documents ∧ ∃ f ∈ tree.tokens,
      f.leaf.text ≠ "" ∧ f.leaf.span = r.span ∧ (¬s.IsConstructor → f.leaf.text = s.name) := by
  obtain ⟨_, hcoherent⟩ := h.exists_coherent hparsed
  obtain ⟨_, hdata⟩ := mem_symbols.mp hs
  obtain ⟨d, hd, rfl⟩ | ⟨document, tree, hdocument, f, hf, hmention, rfl⟩ :=
    (h.mem_references (resolve?_of_mem hs)).mp hr
  · by_cases hkind : s.data.kind.isSingle
    · obtain ⟨d', hdeclarations, tree, hdocument, n, hn, _, hdeclares, leaf, hleaf, hplace,
        hname⟩ :=
        hcoherent.single s.id s.data hdata hkind
      obtain rfl : d = d' := List.mem_singleton.mp (hdeclarations ▸ hd)
      refine ⟨tree, hdocument, _, Tree.nameFocus_mem hn hleaf, (PlacedNode.name?_mem hleaf).2.2,
        hplace, fun hnot => ?_⟩
      obtain hname | ⟨hctor, hname⟩ := hname
      · exact hname.symm
      · refine absurd ⟨?_, hname⟩ hnot
        show s.data.kind = .method
        cases hkind' : s.data.kind <;> rw [hkind'] at hdeclares <;> try rfl
        case field => cases hctor.symm.trans hdeclares.1
        all_goals simp [Focus.Declares, Focus.IsProperty, Focus.IsLocal, hctor] at hdeclares
    · obtain ⟨hne, tree, hdocument, f, hf, _, htext, hplace⟩ :=
        hcoherent.writes hparsed.hasWords hdata hkind hd
      exact ⟨tree, hdocument, f, hf, htext ▸ hne, hplace, fun _ => htext⟩
  · obtain ⟨_, tree', hdocument', g, hg, hindex, _, hnames⟩ :=
      hcoherent.names _ _ (exists_binding_of_single? hmention)
    obtain rfl := h.eq_of_mem_documents hdocument hdocument'
    obtain rfl := Tree.eq_of_index hg hf hindex
    obtain ⟨data, hdata', hname⟩ := hnames s.id (List.mem_singleton_self _)
    obtain rfl := Option.some.inj (hdata.symm.trans hdata')
    exact ⟨tree, hdocument, g, hg, h.text_ne_of_single? hdocument hg hmention, rfl,
      fun _ => hname.symm⟩

/-- References at different places of a document do not overlap. -/
theorem disjoint_of_start_lt (hs : s ∈ c.symbols) (hr : r ∈ c.references s)
    (hr' : r' ∈ c.references s) (hdocument : r.document = r'.document)
    (hlt : r.span.start < r'.span.start) : r.span.stop ≤ r'.span.start := by
  obtain ⟨tree, htree, f, hf, _, hspan, _⟩ := h.exists_written hparsed hs hr
  obtain ⟨tree', htree', g, hg, _, hspan', _⟩ := h.exists_written hparsed hs hr'
  obtain rfl := h.eq_of_mem_documents htree (hdocument ▸ htree')
  rw [← hspan, ← hspan'] at hlt ⊢
  have hne : f.leaf ≠ g.leaf := fun heq => by
    rw [heq] at hlt
    exact Nat.lt_irrefl _ hlt
  have hdisjoint := disjoint_of_ne (Tree.leaf_mem hf) (Tree.leaf_mem hg) hne
  have hle := g.leaf.span_le
  omega

/-- A symbol has one reference at a place. -/
theorem eq_of_start (hs : s ∈ c.symbols) (hr : r ∈ c.references s) (hr' : r' ∈ c.references s)
    (horder : c.documentOrder r.document = c.documentOrder r'.document)
    (hstart : r.span.start = r'.span.start) : r = r' := by
  obtain ⟨tree, htree, f, hf, htext, hspan, _⟩ := h.exists_written hparsed hs hr
  obtain ⟨tree', htree', g, hg, htext', hspan', _⟩ := h.exists_written hparsed hs hr'
  have hdocument := eq_of_documentOrder htree htree' horder
  obtain rfl := h.eq_of_mem_documents htree (hdocument ▸ htree')
  have hleaf : f.leaf = g.leaf := by
    by_contra hne
    have hdisjoint := disjoint_of_ne (Tree.leaf_mem hf) (Tree.leaf_mem hg) hne
    have hpos := PlacedToken.textLength_pos htext
    have hpos' := PlacedToken.textLength_pos htext'
    have hle := f.leaf.span_le
    have hle' := g.leaf.span_le
    rw [← hspan, ← hspan'] at hstart
    omega
  have hspans : r.span = r'.span := by rw [← hspan, ← hspan', hleaf]
  have hsymbol := symbol?_of_mem hs
  have hdeclaration : r.isDeclaration = r'.isDeclaration := by
    cases hdeclares : r.isDeclaration <;> cases hdeclares' : r'.isDeclaration
    · rfl
    · exact absurd hspans.symm
        (h.span_ne_of_isDeclaration hparsed hsymbol hr' hdeclares' hr hdeclares hdocument.symm)
    · exact absurd hspans
        (h.span_ne_of_isDeclaration hparsed hsymbol hr hdeclares hr' hdeclares' hdocument)
    · rfl
  cases r
  cases r'
  simp_all

/-- In whatever order the mentions of a symbol are found, they come in order, once each. -/
theorem pairwise_arrange (hs : s ∈ c.symbols) {mentions : List Reference}
    (hmentions : mentions ⊆ c.mentions s.id) : (c.arrange s mentions).Pairwise c.Before := by
  have hmem {r : Reference} (hr : r ∈ c.arrange s mentions) : r ∈ c.references s := by
    rw [references, resolve?_of_mem hs]
    exact mem_arrange.mpr ((mem_arrange.mp hr).imp_right fun hr => hmentions hr)
  rw [arrange] at hmem ⊢
  generalize s.data.declarations.map _ ++ mentions = found at hmem ⊢
  have hsorted := c.pairwise_inOrder found
  have hsame {a b : Reference} (ha : a ∈ (c.inOrder found).eraseReps)
      (hb : b ∈ (c.inOrder found).eraseReps)
      (hab : c.precedes a b) (hstart : ¬c.Before a b) : a = b := by
    rw [precedes_iff] at hab
    rw [Before] at hstart
    exact h.eq_of_start hparsed hs (hmem ha) (hmem hb) (by omega) (by omega)
  have hordered : IsOrdered (c.inOrder found) := by
    refine ⟨fun a b => c.precedes a b, hsorted, fun a ha b hb hab hba => ?_⟩
    refine hsame (mem_eraseReps.mpr ha) (mem_eraseReps.mpr hb) hab fun hbefore => ?_
    have hba' := (c.precedes_iff b a).mp hba
    rw [Before] at hbefore
    omega
  have hpairs := (hsorted.sublist (eraseReps_sublist _)).and (nodup_eraseReps hordered)
  refine hpairs.imp_of_mem fun {a b} ha hb hpair => ?_
  obtain ⟨hab, hne⟩ := hpair
  by_contra hbefore
  exact hne (hsame ha hb hab hbefore)

/-- The references of a symbol come in order, once each. -/
theorem pairwise_references (hs : s ∈ c.symbols) : (c.references s).Pairwise c.Before := by
  rw [references, resolve?_of_mem hs]
  exact h.pairwise_arrange hparsed hs (List.Subset.refl _)

/-- The order in which the table of bindings is gone through does not show in the references. -/
theorem arrange_eq_references (hs : s ∈ c.symbols) {mentions : List Reference}
    (hperm : mentions.Perm (c.mentions s.id)) : c.arrange s mentions = c.references s := by
  have hpairs := h.pairwise_arrange hparsed hs hperm.subset
  have hpairs' := h.pairwise_references hparsed hs
  have hnodup {rs : List Reference} (hrs : rs.Pairwise c.Before) : rs.Nodup := by
    refine hrs.imp fun {a b} hab => ?_
    rintro rfl
    rw [Before] at hab
    omega
  have hmem (r : Reference) : r ∈ c.arrange s mentions ↔ r ∈ c.references s := by
    rw [references, resolve?_of_mem hs]
    exact mem_arrange.trans ((or_congr_right hperm.mem_iff).trans mem_arrange.symm)
  refine ((List.perm_ext_iff_of_nodup (hnodup hpairs) (hnodup hpairs')).mpr hmem).eq_of_pairwise
    (fun a b _ _ hab hba => ?_) hpairs hpairs'
  rw [Before] at hab hba
  omega

/-- The name of every expression is a reference of one symbol, or left open, and never both. The
references of a symbol that is no constructor come in order, once each, do not overlap and write
its name. -/
theorem reports_once :
    (∀ document tree, (document, tree) ∈ c.documents → ∀ f ∈ tree.tokens, f.NamesExpression →
      (∃ s ∈ c.symbols, Reports (c.references s) document f ∧
        (∀ s' ∈ c.symbols, Reports (c.references s') document f → s' = s) ∧
        ¬Reports (c.unresolvedReferences f.leaf.text) document f) ∨
        Reports (c.unresolvedReferences f.leaf.text) document f ∧ ∀ s ∈ c.symbols,
        ¬Reports (c.references s) document f) ∧ ∀ s ∈ c.symbols, ¬s.IsConstructor →
        (c.references s).Pairwise c.Before ∧
        (c.references s).Pairwise (fun a b => a.document = b.document → a.span.stop ≤ b.span.start ∨
          b.span.stop ≤ a.span.start) ∧ ∀ r ∈ c.references s, ∃ tree,
          c.tree? r.document = some tree ∧ r.span.slice? tree.text = some s.name := by
  constructor
  · intro document tree hdocument f hf hnames
    have hname := (Tree.isExpressionName_iff (hparsed.conforms _ hdocument) hf).mpr hnames
    have hmentions {s : Symbol} (hs : s ∈ c.symbols) :=
      h.reports_references_iff hparsed hs hdocument hf hname
    have hopen := h.reports_unresolvedReferences_iff hdocument hf hname
    cases hsingle : c.table.single? ⟨document, f.leaf.index⟩ with
    | none =>
      refine .inr ⟨hopen.mpr hsingle, fun s hs hreports => ?_⟩
      rw [hmentions hs, hsingle] at hreports
      cases hreports
    | some id =>
      obtain ⟨_, hcoherent⟩ := h.exists_coherent hparsed
      obtain ⟨_, _, _, _, _, _, _, hnamed⟩ :=
        hcoherent.names _ _ (exists_binding_of_single? hsingle)
      obtain ⟨data, hdata, _⟩ := hnamed id (List.mem_singleton_self id)
      have hs : ⟨c.id, id, data⟩ ∈ c.symbols := mem_symbols.mpr ⟨rfl, hdata⟩
      refine .inl ⟨_, hs, (hmentions hs).mpr hsingle, fun s' hs' hreports => ?_, fun hreports => ?_⟩
      · rw [hmentions hs', hsingle] at hreports
        have hsymbol := symbol?_of_mem hs'
        rw [← Option.some.inj hreports] at hsymbol
        exact Option.some.inj (hsymbol.symm.trans (symbol?_of_mem hs))
      · rw [hopen, hsingle] at hreports
        cases hreports
  · intro s hs hnot
    have hpairs := h.pairwise_references hparsed hs
    refine ⟨hpairs, hpairs.imp_of_mem fun {a b} ha hb hbefore hdocument => ?_, fun r hr => ?_⟩
    · rw [Before, hdocument] at hbefore
      exact .inl (h.disjoint_of_start_lt hparsed hs ha hb hdocument (by omega))
    · obtain ⟨tree, htree, f, hf, _, hspan, htext⟩ := h.exists_written hparsed hs hr
      exact ⟨tree, h.tree? htree, by rw [← hspan, Tree.slice?_leaf hf, htext hnot]⟩

end IsBuilt

/-- The field of the type in two parts, which the other part mentions. -/
theorem IsBuilt.reports_once_use :
    ∃ s ∈ (build ⟨0⟩ ⟨0⟩ twoParts).symbols, s.key.display = "F:C.a" ∧
      ((build ⟨0⟩ ⟨0⟩ twoParts).references s).map (fun r => (r.document.number, r.isDeclaration)) =
        [(0, true), (1, false)] ∧
        ((build ⟨0⟩ ⟨0⟩ twoParts).references s).Pairwise (build ⟨0⟩ ⟨0⟩ twoParts).Before := by
  let s := ((build ⟨0⟩ ⟨0⟩ twoParts).symbolByKey? ⟨.field, "C.a"⟩).get (by decide +kernel)
  have hs : s ∈ (build ⟨0⟩ ⟨0⟩ twoParts).symbols :=
    mem_symbols_of_symbolByKey? (Option.some_get _).symm
  exact ⟨s, hs, by decide +kernel, by decide +kernel,
    ((IsBuilt.reports_once isBuilt_twoParts allParsed_twoParts).2 s hs fun h =>
      absurd h.1 (by decide +kernel)).1⟩

end Compilation

end AutoProperty
