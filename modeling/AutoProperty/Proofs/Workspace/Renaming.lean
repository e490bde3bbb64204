import AutoProperty.Proofs.Symbol.Mentions
import AutoProperty.Proofs.Syntax.Respelling
import AutoProperty.Proofs.Syntax.WholeText
import AutoProperty.Proofs.Text.Replaced
import AutoProperty.Proofs.Workspace.Snapshots
import AutoProperty.Workspace.Rename

/-! # What a rename does to the documents

The documents are rewritten one after another, each at the references that it holds. Since
references are names in the order of the text, every one of them is replaced.
-/

namespace AutoProperty

/-! ## Groups of references -/

variable {references : List Reference} {document : DocumentId}

theorem mem_groupByDocument {group : List Reference} :
    (document, group) ∈ groupByDocument references ↔
      (∃ r ∈ references, r.document = document) ∧
      group = references.filter (·.document == document) := by
  simp only [groupByDocument, List.mem_map, List.mem_eraseDups, Prod.mk.injEq]
  constructor
  · rintro ⟨_, ⟨r, hr, rfl⟩, rfl, rfl⟩
    exact ⟨⟨r, hr, rfl⟩, rfl⟩
  · rintro ⟨⟨r, hr, rfl⟩, rfl⟩
    exact ⟨_, ⟨r, hr, rfl⟩, rfl, rfl⟩

theorem map_fst_groupByDocument (references : List Reference) :
    (groupByDocument references).map (·.1) = (references.map (·.document)).eraseDups := by
  simp [groupByDocument, Function.comp_def]

theorem nodup_groupByDocument (references : List Reference) :
    ((groupByDocument references).map (·.1)).Nodup := by
  rw [map_fst_groupByDocument]
  exact nodup_eraseDups _

/-- The spans of the references. -/
def spansOf (references : List Reference) : List Span :=
  references.map (·.span)

theorem mem_spansOf {span : Span} : span ∈ spansOf (references.filter (·.document == document)) ↔
    ∃ r ∈ references, r.document = document ∧ r.span = span := by
  simp [spansOf, and_assoc]

/-- The references of a group at their places in the renamed text of their document. -/
def Solution.moved (s : Solution) (name : String) (group : DocumentId × List Reference) :
    List Reference :=
  match s.document? group.1 with
  | none => []
  | some d =>
    (group.2.zip (replaceSpans d.text (spansOf group.2) name).2).filterMap fun (r, place?) =>
      place?.map fun place => { r with span := place }

/-! ## Document by document -/

/-- The document after the groups of references were renamed: it is parsed from its rewritten
text if one of the groups is about it. -/
structure Document.IsRenamed (newName : String) (groups : List (DocumentId × List Reference))
    (old new : Document) : Prop where
  id : new.id = old.id
  project : new.project = old.project
  name : new.name = old.name
  kept : old.id ∉ groups.map (·.1) → new.tree = old.tree
  parsed : ∀ references, (old.id, references) ∈ groups →
    ∃ stamp, new.tree = .ofText stamp (replaceSpans old.text (spansOf references) newName).1

/-- A snapshot after the groups of references were renamed. -/
structure Solution.IsRenamed (name : String) (groups : List (DocumentId × List Reference))
    (s next : Solution) : Prop where
  version : next.version = s.version + groups.length
  documents : List.Forall₂ (Document.IsRenamed name groups) s.documents next.documents
  projects : List.Forall₂ (fun old new : Project => new.id = old.id ∧ new.name = old.name ∧
    new.documents = old.documents) s.projects next.projects

namespace Solution

variable {name : String} {s s' next : Solution} {store : Store} {snapshots : List Solution}

theorem inRename_run_of_ok {α : Type} {work : SolutionM α} {a : α} {store' : Store}
    (h : work.run store = (.ok a, store')) : (work.inRename).run store = (.ok a, store') :=
  run_adapt_of_ok h

theorem IsRenamed.nothing (name : String) (s : Solution) : s.IsRenamed name [] s where
  version := rfl
  documents :=
    List.forall₂_same.mpr fun _ _ =>
      ⟨rfl, rfl, rfl, fun _ => rfl, fun _ h => absurd h List.not_mem_nil⟩
  projects := List.forall₂_same.mpr fun _ _ => ⟨rfl, rfl, rfl⟩

theorem IsRenamed.edited {groups : List (DocumentId × List Reference)}
    (h : s.IsRenamed name groups next) : s.Edited (groups.map (·.1)) groups.length next where
  version := h.version
  documents := h.documents.imp fun _ _ hnew => ⟨hnew.id, hnew.project, hnew.name, hnew.kept⟩
  projects := h.projects

/-- One more document is renamed before the others. -/
theorem IsRenamed.cons {groups : List (DocumentId × List Reference)} {d : Document}
    {references : List Reference} {stamp : TreeId} {state : StateId}
    (hd : s.document? d.id = some d) (hfresh : d.id ∉ groups.map (·.1))
    (h : (s.withTree d (.ofText stamp (replaceSpans d.text (spansOf references) name).1)
      state).IsRenamed name groups next) (hs : s.WellFormed) :
    s.IsRenamed name ((d.id, references) :: groups) next where
  version := by
    rw [h.version, List.length_cons]
    show s.version + 1 + groups.length = _
    omega
  documents := by
    have hdocuments := h.documents
    rw [withTree, List.forall₂_map_left_iff] at hdocuments
    refine List.forall₂_iff_zip.mpr ⟨hdocuments.length_eq, fun {old new} hmem => ?_⟩
    have hold : old ∈ s.documents := (List.of_mem_zip hmem).1
    have hrenamed := (List.forall₂_iff_zip.mp hdocuments).2 hmem
    by_cases hid : old.id = d.id
    · obtain rfl := hs.document_eq hold (document?_some hd).1 hid
      rw [if_pos rfl] at hrenamed
      refine ⟨hrenamed.id, hrenamed.project, hrenamed.name, fun hnot => ?_,
        fun references' hmem => ?_⟩
      · exact absurd List.mem_cons_self hnot
      · obtain heq | hmem := List.mem_cons.mp hmem
        · cases heq
          exact ⟨stamp, hrenamed.kept hfresh⟩
        · exact absurd (List.mem_map_of_mem hmem) hfresh
    · rw [if_neg hid] at hrenamed
      refine ⟨hrenamed.id, hrenamed.project, hrenamed.name, fun hnot => ?_,
        fun references' hmem => ?_⟩
      · exact hrenamed.kept fun hmem => hnot (List.mem_cons_of_mem _ hmem)
      · obtain heq | hmem := List.mem_cons.mp hmem
        · exact absurd (congrArg Prod.fst heq) hid
        · exact hrenamed.parsed references' hmem
  projects := by
    have hprojects := h.projects
    rw [projects_withTree, renewProject, List.forall₂_map_left_iff] at hprojects
    refine hprojects.imp fun old new hnew => ?_
    split at hnew <;> exact hnew

/-- Documents that exist can be renamed, one after another. -/
theorem renameDocuments_run (name : String) {groups : List (DocumentId × List Reference)}
    (hgroups : (groups.map (·.1)).Nodup)
    (hdocuments : ∀ group ∈ groups, ∃ d ∈ s.documents, d.id = group.1)
    (h : Consistent store snapshots) (hs : s ∈ snapshots) :
    ∃ next store' more,
      (renameDocuments name s groups).run store = (.ok (next, groups.flatMap (s.moved name)),
        store') ∧ s.IsRenamed name groups next ∧ Consistent store' more ∧ snapshots ⊆ more ∧
        next ∈ more ∧ store.KeptIn store' := by
  induction groups generalizing s store snapshots with
  | nil => exact ⟨s, store, snapshots, rfl, .nothing name s, h, fun _ h => h, hs, .refl store⟩
  | cons group groups ih =>
    obtain ⟨id, references⟩ := group
    rw [List.map_cons, List.nodup_cons] at hgroups
    obtain ⟨hfresh, hgroups⟩ := hgroups
    obtain ⟨d, hmem, rfl⟩ := hdocuments _ List.mem_cons_self
    have hwf := h.wellFormed s hs
    have hd := hwf.document? hmem
    let text := (replaceSpans d.text (spansOf references) name).1
    let mid := s.withTree d (.ofText ⟨store.nextStamp⟩ text) ⟨store.nextStamp + 1⟩
    have hstep : (s.setText d.id text).run store =
        (.ok mid, { store with nextStamp := store.nextStamp + 2 }) := replaceTree_run hd _
    -- The other groups are about documents that this step leaves alone.
    have hothers (group : DocumentId × List Reference) (hgroup : group ∈ groups) :
        mid.document? group.1 = s.document? group.1 := by
      have hne : group.1 ≠ d.id := fun heq => hfresh (heq ▸ List.mem_map_of_mem (f := (·.1)) hgroup)
      rw [document?_withTree]
      cases hother : s.document? group.1 with
      | none => rfl
      | some other => rw [Option.map_some, if_neg ((document?_some hother).2 ▸ hne)]
    have hmoved : groups.flatMap (mid.moved name) = groups.flatMap (s.moved name) := by
      refine List.flatMap_congr fun group hgroup => ?_
      rw [moved, moved, hothers group hgroup]
    obtain ⟨next, store', more, hrun, hrenamed, hconsistent, hmore, hnext, hkept⟩ :=
      @ih mid _ (mid :: snapshots) hgroups
        (fun group hgroup => by
          obtain ⟨other, hother, hid⟩ := hdocuments group (List.mem_cons_of_mem _ hgroup)
          have hsome := hwf.document? hother
          rw [hid, ← hothers group hgroup] at hsome
          obtain ⟨hmem, hid⟩ := document?_some hsome
          exact ⟨other, hmem, hid⟩)
        (h.replaceTree hs hmem _) List.mem_cons_self
    refine ⟨next, store', more, ?_, .cons hd hfresh hrenamed hwf, hconsistent,
      fun _ h => hmore (List.mem_cons_of_mem _ h), hnext, hkept⟩
    rw [hmoved] at hrun
    rw [renameDocuments, hd, List.flatMap_cons, moved, hd]
    exact (run_bind_eq_ok).mpr ⟨mid, _, inRename_run_of_ok hstep,
      (run_bind_eq_ok).mpr ⟨_, _, hrun, rfl⟩⟩

/-! ## The compilation of a project -/

theorem mem_trees {p : Project} {id : DocumentId} {tree : Tree} :
    (id, tree) ∈ s.trees p ↔ id ∈ p.documents ∧ ∃ d, s.document? id = some d ∧ d.tree = tree := by
  simp only [trees, List.mem_filterMap, Option.map_eq_some_iff, Prod.mk.injEq]
  constructor
  · rintro ⟨_, hid, d, hd, rfl, htree⟩
    exact ⟨hid, d, hd, htree⟩
  · rintro ⟨hid, d, hd, htree⟩
    exact ⟨id, hid, d, hd, rfl, htree⟩

end Solution

namespace Compilation.IsOf

variable {s : Solution} {p : Project} {c : Compilation} (h : c.IsOf s p)
include h

/-- A compilation of a project is built from its documents, which are all different. -/
theorem isBuilt (hs : s.WellFormed) (hp : p ∈ s.projects) : c.IsBuilt where
  table := by rw [h.table, h.documents]
  nodup := by
    rw [h.documents]
    have hsublist (ids : List DocumentId) :
        ((ids.filterMap fun id => (s.document? id).map fun d => (id, d.tree)).map (·.1)).Sublist
          ids := by
      induction ids with
      | nil => exact .slnil
      | cons id ids ih =>
        rw [List.filterMap_cons]
        cases s.document? id with
        | none => exact ih.cons id
        | some d => exact ih.cons_cons id
    exact (hs.nodup p hp).sublist (hsublist p.documents)

theorem mem_trees {document : DocumentId} {tree : Tree} (htree : c.tree? document = some tree) :
    (document, tree) ∈ s.trees p :=
  h.documents ▸ Compilation.mem_documents_of_tree? htree

end Compilation.IsOf

/-! ## The rename as a whole -/

/-- The references that are renamed, by document. -/
def Compilation.keptGroups (c : Compilation) (found : Symbol) (options : RenameOptions) :
    List (DocumentId × List Reference) :=
  groupByDocument ((c.references found).filter options.keeps)

namespace Solution

variable {name : String} {s next : Solution} {store store₁ : Store} {snapshots : List Solution}
  {p : Project} {c : Compilation} {symbol found : Symbol}

/-- What may be wrong with a rename of a symbol of `c` after which the references `renamed` are
bound in `d`. -/
def conflictsOf (options : RenameOptions) (c d : Compilation) (symbol : Symbol) (name : String)
    (renamed : List Reference) : List RenameConflict :=
  let expected? :=
    d.symbolByKey? (if renamed.any (·.isDeclaration) then symbol.key.renamed name else symbol.key)
  declarationConflicts c symbol name renamed ++ referenceConflicts options d expected? renamed

/-- The rename of `symbol` is about the symbol `found` in the compilation `c` of the project `p`. -/
structure Finds (s : Solution) (symbol : Symbol) (p : Project) (c : Compilation) (found : Symbol) :
    Prop where
  project : s.project? p.id = some p
  compilation : c.IsOf s p
  declaration : ∃ d, symbol.data.declarations.head? = some d ∧
    s.projectOf? d.place.document = some p.id
  symbol : c.symbolByKey? symbol.key = some found

/-- The rename gave `next`, in which the project is `p'` and compiled as `c'`. -/
structure Renames (s : Solution) (p : Project) (c : Compilation) (found : Symbol) (name : String)
    (options : RenameOptions) (next : Solution) (p' : Project) (c' : Compilation) : Prop where
  resolved : unresolvedConflicts c found.name = []
  project : next.project? p.id = some p'
  compilation : c'.IsOf next p'
  documents : s.IsRenamed name (c.keptGroups found options) next
  conflicts : conflictsOf options c c' found name
    ((c.keptGroups found options).flatMap (s.moved name)) = []

theorem Finds.isBuilt (h : s.Finds symbol p c found) (hs : s.WellFormed) : c.IsBuilt :=
  h.compilation.isBuilt hs (project?_some h.project).1

theorem Renames.isBuilt {options : RenameOptions} {p' : Project} {c' : Compilation}
    (h : s.Renames p c found name options next p' c') (hnext : next.WellFormed) : c'.IsBuilt :=
  h.compilation.isBuilt hnext (project?_some h.project).1

theorem symbol?_of_symbolByKey? {c : Compilation} {key : Key} {found : Symbol}
    (h : c.symbolByKey? key = some found) : c.symbol? found.id = some found := by
  obtain ⟨id, _, hsome⟩ := Option.bind_eq_some_iff.mp h
  obtain ⟨data, _, rfl⟩ := Option.map_eq_some_iff.mp hsome
  exact hsome

/-- The references to rename are in documents of the snapshot. -/
theorem exists_document_of_keptGroups (hs : s.WellFormed) (hfinds : s.Finds symbol p c found)
    (options : RenameOptions) {group : DocumentId × List Reference}
    (hgroup : group ∈ c.keptGroups found options) : ∃ d ∈ s.documents, d.id = group.1 := by
  obtain ⟨document, references⟩ := group
  obtain ⟨⟨r, hr, hdocument⟩, _⟩ := (mem_groupByDocument).mp hgroup
  obtain ⟨tree, htree, _⟩ := (hfinds.isBuilt hs).exists_name (symbol?_of_symbolByKey? hfinds.symbol)
    (List.mem_filter.mp hr).1
  obtain ⟨_, d, hd, _⟩ := (mem_trees).mp (hfinds.compilation.mem_trees htree)
  obtain ⟨hmem, hid⟩ := document?_some hd
  exact ⟨d, hmem, hid.trans hdocument⟩

theorem IsRenamed.project? {groups : List (DocumentId × List Reference)}
    (h : s.IsRenamed name groups next) (hnext : next.WellFormed) (hp : p ∈ s.projects) :
    ∃ p', next.project? p.id = some p' := by
  obtain ⟨n, hn, rfl⟩ := List.getElem_of_mem hp
  have hn' : n < next.projects.length := h.projects.length_eq ▸ hn
  have hid := (h.projects.get hn hn').1
  exact ⟨_, hid ▸ hnext.project? (List.getElem_mem hn')⟩

/-- A rename of a symbol that is found succeeds, or it ends in conflicts. -/
theorem rename_run (h : Consistent store snapshots) (hs : s ∈ snapshots) (hname : isIdentifier name)
    (hcompile : (s.compilation p.id).run store = (.ok c, store₁))
    (hfinds : s.Finds symbol p c found) (options : RenameOptions) :
    ∃ outcome store' more, (s.rename symbol name options false).run store = (outcome, store') ∧
      Consistent store' more ∧ snapshots ⊆ more ∧ store₁.KeptIn store' ∧
      (found.name = name ∧ outcome = .ok s ∨
        (∃ conflicts, outcome = .error (.conflicts conflicts)) ∨ found.name ≠ name ∧ ∃ next p' c',
        next ∈ more ∧ s.Renames p c found name options next p' c' ∧
        store'.find? p'.state = some c' ∧ outcome = .ok next) := by
  have ⟨hp, _, ⟨declaration, hhead, howner⟩, hsymbol⟩ := hfinds
  have hmem := (project?_some hp).1
  obtain ⟨_, _, hcompiled, _, hconsistent, _⟩ := h.compilation_run hs hp
  rw [hcompile] at hcompiled
  cases hcompiled
  rw [rename, hhead]
  simp only [hname, Bool.not_true, Bool.false_eq_true, if_false, howner]
  rw [run_bind_of_ok (inRename_run_of_ok hcompile)]
  simp only [hsymbol]
  by_cases hsame : found.name = name
  · rw [if_pos hsame]
    exact ⟨_, _, snapshots, rfl, hconsistent, fun _ h => h, .refl _, .inl ⟨hsame, rfl⟩⟩
  rw [if_neg hsame]
  cases hresolved : unresolvedConflicts c found.name with
  | cons conflict conflicts =>
    exact ⟨_, _, snapshots, rfl, hconsistent, fun _ h => h, .refl _, .inr (.inl ⟨_, rfl⟩)⟩
  | nil =>
    obtain ⟨next, store₂, more, hrun, hrenamed, hconsistent, hmore, hnext, hkept⟩ :=
      renameDocuments_run name (nodup_groupByDocument _)
        (fun group hgroup => exists_document_of_keptGroups (h.wellFormed s hs) hfinds options
          hgroup) hconsistent hs
    obtain ⟨p', hp'⟩ := hrenamed.project? (hconsistent.wellFormed next hnext) hmem
    obtain ⟨c', store₃, hcompile', hover, hconsistent, hfound, hkept'⟩ :=
      hconsistent.compilation_run hnext hp'
    dsimp only
    rw [run_bind_of_ok hrun]
    dsimp only
    rw [run_bind_of_ok (inRename_run_of_ok hcompile')]
    -- What is left of the rename is the verdict on the conflicts.
    split
    next hnone =>
      exact ⟨.ok next, store₃, more, rfl, hconsistent, hmore, hkept.trans hkept',
        .inr
          (.inr ⟨hsame, next, p', c', hnext, ⟨hresolved, hp', hover, hrenamed, hnone⟩, hfound,
            rfl⟩)⟩
    next =>
      exact ⟨.error (.conflicts _), store₃, more, rfl, hconsistent, hmore, hkept.trans hkept',
        .inr (.inl ⟨_, rfl⟩)⟩

/-- A rename that succeeds was asked for with a name that can be used, about a symbol that is
found. -/
theorem finds_of_rename (h : Consistent store snapshots) (hs : s ∈ snapshots)
    {options : RenameOptions} {cancelled : Bool} {store' : Store}
    (hrun : (s.rename symbol name options cancelled).run store = (.ok next, store')) :
    isIdentifier name ∧ cancelled = false ∧ ∃ p c found store₁,
      (s.compilation p.id).run store = (.ok c, store₁) ∧ s.Finds symbol p c found := by
  rw [rename] at hrun
  cases hname : isIdentifier name with
  | false =>
    rw [hname] at hrun
    cases hrun
  | true =>
  cases cancelled with
  | true =>
    rw [hname] at hrun
    cases hrun
  | false =>
  refine ⟨rfl, rfl, ?_⟩
  rw [hname] at hrun
  cases hhead : symbol.data.declarations.head? with
  | none =>
    rw [hhead] at hrun
    cases hrun
  | some declaration =>
  cases howner : s.projectOf? declaration.place.document with
  | none =>
    rw [hhead] at hrun
    dsimp only at hrun
    rw [howner] at hrun
    cases hrun
  | some id =>
  obtain ⟨d, hd, rfl⟩ := Option.map_eq_some_iff.mp howner
  obtain ⟨p, hp, hid⟩ := (h.wellFormed s hs).owned d (document?_some hd).1
  have hproject := (h.wellFormed s hs).project? hp
  obtain ⟨c, store₁, hcompile, hover, _⟩ := h.compilation_run hs hproject
  rw [← hid] at howner
  rw [hhead] at hrun
  dsimp only at hrun
  rw [howner] at hrun
  simp only [Bool.not_true, Bool.false_eq_true, if_false] at hrun
  rw [run_bind_of_ok (inRename_run_of_ok hcompile)] at hrun
  cases hfound : c.symbolByKey? symbol.key with
  | none =>
    rw [hfound] at hrun
    cases hrun
  | some found =>
    exact ⟨p, c, found, store₁, hcompile, hproject, hover, ⟨declaration, hhead, howner⟩, hfound⟩

end Solution

/-! ## What becomes of each document -/

/-- The document with a new name at exactly the places of its references. Without references it
keeps its very tree. -/
structure Document.IsRewritten (newName : String) (references : List Reference)
    (old new : Document) : Prop where
  id : new.id = old.id
  project : new.project = old.project
  name : new.name = old.name
  kept : (∀ r ∈ references, r.document ≠ old.id) → new.tree = old.tree
  text : ∃ spans : List Span,
    (∀ span, span ∈ spans ↔ ∃ r ∈ references, r.document = old.id ∧ r.span = span) ∧
      Replaced newName.toList 0 spans old.text.toList new.text.toList

/-- The snapshot with a new name at exactly the places of some references, and else as it was. -/
structure Solution.IsRewritten (newName : String) (references : List Reference)
    (s next : Solution) : Prop where
  documents : List.Forall₂ (Document.IsRewritten newName references) s.documents next.documents
  projects : List.Forall₂ (fun old new : Project => new.id = old.id ∧ new.name = old.name ∧
    new.documents = old.documents) s.projects next.projects
  version : next.version =
    s.version + (s.documents.filter fun d => references.any (·.document == d.id)).length

theorem Tree.toList_text (t : Tree) : t.text.toList = tokensText t.root.tokens :=
  String.toList_ofList

theorem Tree.text_ofText (id : TreeId) (text : String) : (Tree.ofText id text).text = text :=
  text_parse text

namespace Solution

variable {name : String} {s next : Solution} {p : Project} {c : Compilation} {symbol found : Symbol}

section Kept

variable (hs : s.WellFormed) (hfinds : s.Finds symbol p c found) (options : RenameOptions)
include hs hfinds

/-- The references in a document are names of its tree, in order. -/
theorem onLeaves_keptGroups {d : Document} (hd : d ∈ s.documents) {references : List Reference}
    (hgroup : (d.id, references) ∈ c.keptGroups found options) :
    OnLeaves 0 (leavesFrom 0 0 d.tree.root.tokens) (spansOf references) ∧
      (spansOf references).Pairwise fun a b => a.start ≤ b.start := by
  obtain ⟨_, rfl⟩ := (mem_groupByDocument).mp hgroup
  constructor
  · intro span hspan
    obtain ⟨r, hr, rfl⟩ := List.mem_map.mp hspan
    obtain ⟨hkept, hdocument⟩ := List.mem_filter.mp hr
    obtain ⟨tree, htree, f, hf, htext, hplace⟩ := (hfinds.isBuilt hs).exists_name
      (symbol?_of_symbolByKey? hfinds.symbol) (List.mem_filter.mp hkept).1
    obtain ⟨_, d', hd', rfl⟩ := (mem_trees).mp (hfinds.compilation.mem_trees htree)
    obtain rfl : d' = d := Option.some.inj (hd'.symm.trans (eq_of_beq hdocument ▸ hs.document? hd))
    exact .inr ⟨f.leaf, Tree.leaf_mem hf, htext, hplace⟩
  · rw [spansOf, List.pairwise_map, List.filter_filter]
    refine List.Pairwise.sublist ?_ (c.references_sorted found d.id)
    exact List.monotone_filter_right _ fun r hr => (Bool.and_eq_true_iff.mp hr).1

/-- All the references of a document are replaced. -/
theorem mem_replacedSpans_keptGroups {d : Document} (hd : d ∈ s.documents)
    {references : List Reference} (hgroup : (d.id, references) ∈ c.keptGroups found options)
    {span : Span} :
    span ∈ replacedSpans (spansOf references) (replaceSpans d.text (spansOf references) name).2 ↔
      span ∈ spansOf references := by
  rw [mem_replacedSpans]
  refine ⟨fun ⟨place, hmem⟩ => (List.of_mem_zip hmem).1, fun hspan => ?_⟩
  obtain ⟨hleaves, hsorted⟩ := onLeaves_keptGroups hs hfinds options hd hgroup
  have hreplaces := @replaceSpansFrom_leaves name 0 0 0 0 _ [] [] _ rfl hsorted hleaves
  rw [List.append_nil, List.nil_append, ← Tree.toList_text] at hreplaces
  exact (hreplaces.found span hspan).resolve_left (Nat.not_lt_zero _)

/-- A renamed document is rewritten at the references that are kept. -/
theorem isRewritten_of_isRenamed {old new : Document} (hold : old ∈ s.documents)
    (h : Document.IsRenamed name (c.keptGroups found options) old new) :
    Document.IsRewritten name ((c.references found).filter options.keeps) old new where
  id := h.id
  project := h.project
  name := h.name
  kept hnone := h.kept fun hmem => by
    obtain ⟨⟨document, references⟩, hgroup, rfl⟩ := List.mem_map.mp hmem
    obtain ⟨⟨r, hr, hdocument⟩, _⟩ := (mem_groupByDocument).mp hgroup
    exact hnone r hr hdocument
  text := by
    by_cases hsome : ∃ r ∈ (c.references found).filter options.keeps, r.document = old.id
    · have hgroup := (mem_groupByDocument).mpr ⟨hsome, rfl⟩
      obtain ⟨stamp, htree⟩ := h.parsed _ hgroup
      have hreplaced := replaced_replaceSpans old.text
        (spansOf (((c.references found).filter options.keeps).filter (·.document == old.id))) name
      dsimp only at hreplaced
      rw [← Tree.text_ofText stamp (replaceSpans _ _ _).1, ← htree] at hreplaced
      refine ⟨_, fun span => ?_, hreplaced⟩
      rw [mem_replacedSpans_keptGroups hs hfinds options hold hgroup]
      exact mem_spansOf
    · refine ⟨[], fun span => ?_, ?_⟩
      · simp only [List.not_mem_nil, false_iff]
        rintro ⟨r, hr, hdocument, _⟩
        exact hsome ⟨r, hr, hdocument⟩
      · have hkept : new.tree = old.tree := h.kept fun hmem => by
          obtain ⟨⟨document, references⟩, hgroup, rfl⟩ := List.mem_map.mp hmem
          exact hsome (mem_groupByDocument.mp hgroup).1
        rw [Document.text, Document.text, hkept]
        exact .nothing

/-- There are as many groups as documents with a reference to rename. -/
theorem length_keptGroups : (c.keptGroups found options).length = (s.documents.filter fun d =>
    ((c.references found).filter options.keeps).any (·.document == d.id)).length := by
  have hnodup : ((s.documents.filter fun d =>
      ((c.references found).filter options.keeps).any (·.document == d.id)).map (·.id)).Nodup :=
    hs.nodup_documents.sublist (List.filter_sublist.map _)
  rw [← List.length_map (f := (·.1)), ← List.length_map (f := Document.id)]
  refine ((List.perm_ext_iff_of_nodup (nodup_groupByDocument _) hnodup).mpr fun id => ?_).length_eq
  constructor
  · intro hid
    obtain ⟨group, hgroup, rfl⟩ := List.mem_map.mp hid
    obtain ⟨d, hd, hdocument⟩ := exists_document_of_keptGroups hs hfinds options hgroup
    obtain ⟨document, references⟩ := group
    obtain ⟨r, hr, heq⟩ := (mem_groupByDocument.mp hgroup).1
    refine List.mem_map.mpr ⟨d, List.mem_filter.mpr ⟨hd, List.any_eq_true.mpr ⟨r, hr, ?_⟩⟩,
      hdocument⟩
    exact beq_iff_eq.mpr (heq.trans hdocument.symm)
  · intro hid
    obtain ⟨d, hd, rfl⟩ := List.mem_map.mp hid
    obtain ⟨r, hr, heq⟩ := List.any_eq_true.mp (List.mem_filter.mp hd).2
    exact List.mem_map.mpr ⟨_, (mem_groupByDocument).mpr ⟨⟨r, hr, eq_of_beq heq⟩, rfl⟩, rfl⟩

end Kept

/-- A rename rewrites exactly the references that are kept, and leaves everything else as it was. -/
theorem rename_rewrites {store store' : Store} {snapshots : List Solution}
    (h : History store snapshots) (hs : s ∈ snapshots) {options : RenameOptions} {cancelled : Bool}
    (hrun : (s.rename symbol name options cancelled).run store = (.ok next, store')) :
    ∃ p c found, s.Finds symbol p c found ∧
      (∃ store₁, (s.compilation p.id).run store = (.ok c, store₁)) ∧
      (found.name = name → next = s) ∧
      (found.name ≠ name →
        s.IsRewritten name ((c.references found).filter options.keeps) next) := by
  obtain ⟨hname, rfl, p, c, found, store₁, hcompile, hfinds⟩ := finds_of_rename h.consistent hs hrun
  have hwf := h.consistent.wellFormed s hs
  refine ⟨p, c, found, hfinds, ⟨store₁, hcompile⟩, ?_⟩
  obtain ⟨outcome, _, _, hrun', _, _, _, hcases⟩ :=
    rename_run h.consistent hs hname hcompile hfinds options
  rw [hrun] at hrun'
  obtain ⟨rfl, rfl⟩ := Prod.mk.inj hrun'
  obtain ⟨hsame, hok⟩ | ⟨_, herror⟩ | ⟨hne, next', p', _, _, hrenames, _, hok⟩ := hcases
  · exact ⟨fun _ => Except.ok.inj hok, fun hne => absurd hsame hne⟩
  · cases herror
  · obtain rfl := Except.ok.inj hok
    refine ⟨fun hsame => absurd hsame hne, fun _ => ⟨?_, hrenames.documents.projects, ?_⟩⟩
    · have hdocuments := hrenames.documents.documents
      refine List.forall₂_iff_zip.mpr ⟨hdocuments.length_eq, fun hmem => ?_⟩
      exact isRewritten_of_isRenamed hwf hfinds options (List.of_mem_zip hmem).1
        ((List.forall₂_iff_zip.mp hdocuments).2 hmem)
    · rw [hrenames.documents.version, length_keptGroups hwf hfinds]

/-- The symbol with a key in a text. -/
def symbolIn? (text : String) (key : Key) : Option Symbol :=
  (Compilation.ofText text).symbolByKey? key

theorem Finds.of_ofText {text : String} {store : Store} (h : (ofText text).Finds symbol p c found)
    (hcompile : ((ofText text).compilation p.id).run ⟨3, 0, []⟩ = (.ok c, store)) :
    p = .single ∧ c = .ofText text ∧ symbolIn? text symbol.key = some found := by
  obtain rfl : p = .single := List.mem_singleton.mp (project?_some h.project).1
  have hfirst : ((ofText text).compilation ⟨0⟩).run ⟨3, 0, []⟩ = (.ok (.ofText text), _) := rfl
  obtain rfl : c = .ofText text := Except.ok.inj (congrArg Prod.fst (hcompile.symm.trans hfirst))
  exact ⟨rfl, rfl, h.symbol⟩

/-- A field that is used once. -/
def usedField : String := "class C { int a; int P => a; }"

def fieldInUse : Symbol :=
  (symbolIn? usedField ⟨.field, "C.a"⟩).get (by decide +kernel)

/-- Everything but the declaration is renamed, whatever it means then. -/
def usesOnly : RenameOptions where
  keeps r := !r.isDeclaration
  judge? := some fun _ _ => .noConflict

theorem rename_rewrites_use : ∃ next store',
    ((ofText usedField).rename fieldInUse "b" usesOnly false).run ⟨3, 0, []⟩ = (.ok next, store') ∧
      (ofText usedField).IsRewritten "b"
        (((Compilation.ofText usedField).references fieldInUse).filter usesOnly.keeps) next := by
  obtain ⟨next, store', hrun⟩ := exists_of_isOk (show Except.isOk
    (((ofText usedField).rename fieldInUse "b" usesOnly false).run ⟨3, 0, []⟩).1 by decide +kernel)
  obtain ⟨p, c, found, hfinds, ⟨_, hcompile⟩, _, hrewritten⟩ :=
    rename_rewrites (.ofText usedField) List.mem_cons_self hrun
  obtain ⟨rfl, rfl, hfound⟩ := hfinds.of_ofText hcompile
  obtain rfl : fieldInUse = found := by
    rw [show fieldInUse.key = ⟨.field, "C.a"⟩ by decide +kernel] at hfound
    exact Option.get_of_mem _ hfound
  exact ⟨next, store', hrun, hrewritten (by decide +kernel)⟩

end Solution

end AutoProperty
