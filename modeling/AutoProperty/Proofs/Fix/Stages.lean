import AutoProperty.Fix.Transaction
import AutoProperty.Proofs.Fix.Located
import AutoProperty.Proofs.Fix.Splicing
import AutoProperty.Proofs.Syntax.Halves

/-! # The stages of the fix -/

namespace AutoProperty

variable {store store' : Store} {snapshots : List Solution} {s : Solution} {cancelled : Bool}

theorem checkCancelled_run (store : Store) :
    (Services.workspace cancelled).checkCancelled.run store = if cancelled then
      (.error .cancelled, store) else (.ok (), store) := by
  cases cancelled <;> rfl

theorem run_mk_pure {ε α : Type} (x : Except ε α) (store : Store) :
    (ExceptT.mk (pure x) : ExceptT ε StoreM α).run store = (x, store) := rfl

/-- The owner of a document is the project that the snapshot knows. -/
theorem ownerOf_run {document : DocumentId} {id : ProjectId} :
    (s.ownerOf document : ExceptT FixError StoreM ProjectId).run store = (.ok id, store') ↔
      s.projectOf? document = some id ∧ store = store' := by
  rw [Solution.ownerOf]
  cases s.projectOf? document with
  | none =>
    constructor
    · rintro ⟨⟩
    · rintro ⟨⟨⟩, _⟩
  | some project =>
    constructor
    · rintro ⟨⟩
      exact ⟨rfl, rfl⟩
    · rintro ⟨⟨⟩, rfl⟩
      rfl

theorem Solution.WellFormed.project?_of_projectOf? (h : s.WellFormed) {document : DocumentId}
    {id : ProjectId} (howner : s.projectOf? document = some id) :
    ∃ p, s.project? p.id = some p ∧ p.id = id ∧ document ∈ p.documents := by
  obtain ⟨d, hd, rfl⟩ := Option.map_eq_some_iff.mp howner
  obtain ⟨hmem, rfl⟩ := Solution.document?_some hd
  obtain ⟨p, hp, hid⟩ := h.owned d hmem
  exact ⟨p, h.project? hp, hid, (h.listed p hp d.id).mpr ⟨d, hmem, rfl, hid.symm⟩⟩

/-- Both targets stand in the compilation of one project of the snapshot. -/
structure Pair.Stands (pair : Pair) (p : Project) : Prop where
  project : pair.solution.project? p.id = some p
  compilation : pair.compilation.IsOf pair.solution p
  roles : pair.field.role = .field ∧ pair.property.role = .property
  field : ∃ tree f, pair.field.Stands pair.compilation tree f
  property : ∃ tree f, pair.property.Stands pair.compilation tree f

/-- Where both targets are located, they stand in one project, whose compilation stays in the
store. -/
theorem locatePair_run (h : Consistent store snapshots) (hs : s ∈ snapshots)
    (hparsed : ∀ p ∈ s.projects, AllParsed (s.trees p)) {f : Finding} {pair : Pair}
    (hrun : ((Services.workspace cancelled).locatePair s f).run store = (.ok pair, store')) :
    cancelled = false ∧ pair.solution = s ∧ Consistent store' snapshots ∧
      ∃ p, pair.Stands p ∧ store'.find? p.state = some pair.compilation := by
  rw [Services.locatePair, run_bind_eq_ok] at hrun
  obtain ⟨_, store₁, hcheck, hrun⟩ := hrun
  rw [checkCancelled_run] at hcheck
  cases cancelled with
  | true => cases hcheck
  | false =>
  cases hcheck
  rw [run_bind_eq_ok] at hrun
  obtain ⟨fieldProject, _, howner, hrun⟩ := hrun
  rw [ownerOf_run] at howner
  obtain ⟨howner, rfl⟩ := howner
  rw [run_bind_eq_ok] at hrun
  obtain ⟨propertyProject, _, howner', hrun⟩ := hrun
  rw [ownerOf_run] at howner'
  obtain ⟨_, rfl⟩ := howner'
  dsimp only at hrun
  by_cases hsame : fieldProject = propertyProject
  · rw [if_neg (not_not.mpr hsame)] at hrun
    obtain ⟨p, hp, rfl, _⟩ := (h.wellFormed s hs).project?_of_projectOf? howner
    obtain ⟨c, store₁, hcompile, hover, hconsistent, hkept, _⟩ := h.compilation_run hs hp
    have hservice : ((Services.workspace false).compilation s p.id).run store = (.ok c, store₁) :=
      run_adapt_of_ok hcompile
    rw [run_bind_of_ok hservice, run_bind_of_ok (checkCancelled_run store₁), run_bind_eq_ok] at hrun
    obtain ⟨field, _, hfield, hrun⟩ := hrun
    rw [run_mk_pure, Prod.mk.injEq] at hfield
    obtain ⟨hfield, rfl⟩ := hfield
    rw [run_bind_eq_ok] at hrun
    obtain ⟨property, _, hproperty, hrun⟩ := hrun
    rw [run_mk_pure, Prod.mk.injEq] at hproperty
    obtain ⟨hproperty, rfl⟩ := hproperty
    cases hrun
    have hbuilt := hover.isBuilt (h.wellFormed s hs) (Solution.project?_some hp).1
    have hparsed := hover.allParsed (hparsed p (Solution.project?_some hp).1)
    obtain ⟨hrole, _, hstands⟩ := hbuilt.stands_of_locate hparsed hfield
    obtain ⟨hrole', _, hstands'⟩ := hbuilt.stands_of_locate hparsed hproperty
    exact ⟨rfl, rfl, hconsistent, p, ⟨hp, hover, ⟨hrole, hrole'⟩, hstands, hstands'⟩, hkept⟩
  · rw [if_pos hsame] at hrun
    cases hrun

/-! ## Renaming the field -/

namespace Pair

variable {pair : Pair} {p : Project}

def renameOptions (pair : Pair) : RenameOptions where
  keeps := outside pair.field
  judge? := some (acceptProperty pair.property.symbol pair.compilation)

namespace Stands

section Compiled

variable (h : pair.Stands p)
include h

/-- Only names in expressions are renamed. The declaration of the field is left as it is. -/
theorem isDeclaration_of_outside {r : Reference}
    (hr : r ∈ pair.compilation.references pair.field.symbol) (houtside : outside pair.field r) :
    r.isDeclaration = false := by
  obtain ⟨tree, f, hfield⟩ := h.field
  obtain ⟨name, hname, _, hdeclarations⟩ := hfield.named
  obtain ⟨d, hd, rfl⟩ | ⟨_, _, _, _, _, _, rfl⟩ :=
    (Compilation.mem_references (Compilation.resolve?_of_symbol? hfield.symbol)).mp hr
  · -- The name stands in the declarator, so the declaration is not outside of it.
    rw [hdeclarations, List.mem_singleton] at hd
    subst hd
    have hcovers := (Tree.spans hfield.focus).covers (PlacedNode.name?_mem hname).1
    have hspan := name.span_le
    rw [← hfield.span] at hcovers
    simp only [outside, beq_self_eq_true, Bool.true_and, Bool.not_eq_true', Span.touches,
      Bool.and_eq_false_iff, decide_eq_false_iff_not] at houtside
    omega
  · rfl

/-- No declaration is renamed. -/
theorem isDeclaration_keptGroups {r : Reference}
    (hr : r ∈ (pair.compilation.keptGroups pair.field.symbol pair.renameOptions).flatMap
      (pair.solution.moved pair.property.symbol.name)) : r.isDeclaration = false := by
  obtain ⟨r', hr', hkeeps, hsame⟩ := Solution.exists_kept_of_moved hr
  exact hsame ▸ h.isDeclaration_of_outside hr' hkeeps

theorem documents : pair.compilation.documents = pair.solution.trees p :=
  h.compilation.documents

/-- The field is one of its name. -/
theorem isSingle : pair.field.symbol.kind.isSingle := by
  obtain ⟨_, _, hfield⟩ := h.field
  rw [hfield.kind]
  exact pair.field.role.isSingle_symbolKind

theorem allParsed (hparsed : AllParsed (pair.solution.trees p)) :
    AllParsed pair.compilation.documents :=
  h.compilation.allParsed hparsed

/-- A field can be renamed to the name of a property. -/
theorem isWord (hparsed : AllParsed (pair.solution.trees p)) :
    IsWord pair.property.symbol.name.toList := by
  obtain ⟨tree, f, hproperty⟩ := h.property
  obtain ⟨name, hname, htext, _⟩ := hproperty.named
  obtain ⟨_, hidentifier, hpresent⟩ := PlacedNode.name?_mem hname
  obtain ⟨text, hroot⟩ :=
    h.allParsed hparsed _ (Compilation.mem_documents_of_tree? hproperty.present)
  rw [htext]
  exact RenamableSpans.isWord hroot (Tree.nameFocus_mem hproperty.focus hname)
    (.inr ⟨hidentifier, _, _, rfl, hproperty.declares.declaresName⟩) hpresent

/-- The symbol of a target is declared in the first pass. -/
theorem data?_declareDocuments {t : Target} {tree : Tree} {f : Focus}
    (ht : t.Stands pair.compilation tree f) :
    (SymbolTable.declareDocuments (pair.solution.trees p)).data? t.symbol.id =
      some t.symbol.data := by
  have hkind : t.symbol.data.kind ≠ .localVariable :=
    (show t.symbol.data.kind = _ from ht.kind) ▸ t.role.ne_localVariable
  have hdata := Compilation.data?_of_symbol? ht.symbol
  rwa [h.compilation.table, SymbolTable.data?_build_iff hkind] at hdata

variable (hs : pair.solution.WellFormed)
include hs

theorem isBuilt : pair.compilation.IsBuilt :=
  h.compilation.isBuilt hs (Solution.project?_some h.project).1

/-- The compilation has the trees of the project. -/
theorem tree?_of_mem {document : DocumentId} {tree : Tree}
    (hmem : (document, tree) ∈ pair.solution.trees p) :
    pair.compilation.tree? document = some tree :=
  (h.isBuilt hs).tree? (h.compilation.documents ▸ hmem)

/-- A target stands in a document of the project. -/
theorem projectOf? {t : Target} {tree : Tree} {f : Focus} (ht : t.Stands pair.compilation tree f) :
    pair.solution.projectOf? t.document = some p.id := by
  obtain ⟨hlisted, _⟩ := (Solution.mem_trees).mp (h.compilation.mem_trees ht.present)
  obtain ⟨d, hd, hid, hproject⟩ :=
    (hs.listed p (Solution.project?_some h.project).1 t.document).mp hlisted
  rw [Solution.projectOf?, ← hid, hs.document? hd, Option.map_some, hproject]

variable (hparsed : AllParsed (pair.solution.trees p))
include hparsed

/-- The rename finds the very field. -/
theorem finds : pair.solution.Finds pair.field.symbol p pair.compilation pair.field.symbol := by
  obtain ⟨tree, f, hfield⟩ := h.field
  obtain ⟨name, _, _, hdeclarations⟩ := hfield.named
  refine ⟨h.project, h.compilation, ⟨_, by rw [hdeclarations]; rfl, h.projectOf? hs hfield⟩, ?_⟩
  exact (h.isBuilt hs).symbolByKey?_eq (h.allParsed hparsed) hfield.symbol

section Renamed

variable {next : Solution} {p' : Project} {c' : Compilation} (hnext : next.WellFormed)
  (hrenames : pair.solution.Renames p pair.compilation pair.field.symbol pair.property.symbol.name
    pair.renameOptions next p' c')
include hnext hrenames

/-- The project is the same again, with the name of the property at the references of the field. -/
theorem twinned :
    Twinned pair.property.symbol.name
      (pair.compilation.keptSpans pair.field.symbol pair.renameOptions) (pair.solution.trees p)
      (next.trees p') :=
  hrenames.twinned hs hnext (h.finds hs hparsed) hparsed h.isSingle (h.isWord hparsed)
    (fun _ => nofun) fun r hr hdeclaration => by
    rw [h.isDeclaration_keptGroups hr] at hdeclaration
    cases hdeclaration

/-- It declares the same symbols. -/
theorem counterparts :
    SymbolTable.Counterparts True (SymbolTable.declareDocuments (pair.solution.trees p))
      (SymbolTable.declareDocuments (next.trees p')) :=
  Solution.counterparts_of_twinned hs (h.finds hs hparsed) hparsed h.isSingle (h.isWord hparsed)
    (h.twinned hs hparsed hnext hrenames) True fun _ _ hr => h.isDeclaration_of_outside hr

/-- After the rename, both targets stand where they stood, and can be found there by their keys. -/
theorem renamed :
    AllParsed (next.trees p') ∧ ∃ pair' : Pair, pair'.solution = next ∧ pair'.compilation = c' ∧
      pair'.Stands p' ∧ pair'.field.stable = pair.field.stable ∧
      pair'.property.stable = pair.property.stable := by
  have hparsed' := hrenames.allParsed hs hnext (h.finds hs hparsed) hparsed
  have hbuilt' := hrenames.isBuilt hnext
  refine ⟨hparsed', ?_⟩
  obtain ⟨_, _, hfield⟩ := h.field
  obtain ⟨_, _, hproperty⟩ := h.property
  have hbuilt := h.isBuilt hs
  have hcounterparts := h.counterparts hs hparsed hnext hrenames
  have hparsedThen := hrenames.compilation.allParsed hparsed'
  rw [← h.documents, ← hrenames.compilation.documents] at hcounterparts
  obtain ⟨field, hstable, hfield'⟩ :=
    hbuilt.exists_counterpart hfield hbuilt' hparsedThen hcounterparts
  obtain ⟨property, hstable', hproperty'⟩ :=
    hbuilt.exists_counterpart hproperty hbuilt' hparsedThen hcounterparts
  refine ⟨⟨next, c', field, property⟩, rfl, rfl,
    ⟨?_, hrenames.compilation, ?_, hfield', hproperty'⟩, hstable, hstable'⟩
  · rw [(Solution.project?_some hrenames.project).2]
    exact hrenames.project
  · exact ⟨(congrArg TargetKey.role hstable).trans h.roles.1,
      (congrArg TargetKey.role hstable').trans h.roles.2⟩

end Renamed

end Compiled

end Stands

/-- The second pair stands in the snapshot after the rename, and has the same keys. -/
structure IsRenamed (pair : Pair) (p : Project) (pair' : Pair) (p' : Project) : Prop where
  stands : pair'.Stands p'
  parsed : AllParsed (pair'.solution.trees p')
  field : pair'.field.stable = pair.field.stable
  property : pair'.property.stable = pair.property.stable
  kept : pair.field.symbol.name = pair.property.symbol.name → pair'.solution = pair.solution
  renames : pair.field.symbol.name ≠ pair.property.symbol.name →
    pair.solution.Renames p pair.compilation
    pair.field.symbol pair.property.symbol.name pair.renameOptions pair'.solution p'
    pair'.compilation

namespace Stands

variable (h : pair.Stands p) (hconsistent : Consistent store snapshots)
  (hs : pair.solution ∈ snapshots) (hparsed : AllParsed (pair.solution.trees p))
  (hkept : store.find? p.state = some pair.compilation)
include h hconsistent hs hparsed hkept

/-- The rename ends in conflicts, or both targets stand in the snapshot that it gives, whose
compilation is in the store then. -/
theorem renameField_run :
    ∃ outcome store' more,
      ((Services.workspace false).renameField pair).run store = (outcome, store') ∧
      Consistent store' more ∧ snapshots ⊆ more ∧
      ((∃ conflicts, outcome = .error (.rename (.conflicts conflicts))) ∨
        ∃ (pair' : Pair) (p' : Project),
        outcome = .ok ⟨pair'.solution, pair.field.stable, pair.property.stable⟩ ∧
        pair'.solution ∈ more ∧ store'.find? p'.state = some pair'.compilation ∧
        pair.IsRenamed p pair' p') := by
  have hwf := hconsistent.wellFormed _ hs
  obtain ⟨outcome, store', more, hrun, hconsistent', hmore, hkept', hcases⟩ :=
    Solution.rename_run hconsistent hs
      (h.isWord hparsed).isIdentifier (Solution.compilation_run_of_find? h.project hkept)
      (h.finds hwf hparsed) pair.renameOptions
  have hservice :
      ((Services.workspace false).rename pair.solution pair.field.symbol pair.property.symbol.name
      ⟨outside pair.field, some (acceptProperty pair.property.symbol pair.compilation)⟩).run store =
        (outcome, store') := hrun
  rw [Services.renameField, run_bind_of_ok (checkCancelled_run store), run_bind, run_adapt]
  rw [hservice]
  obtain ⟨hsame, rfl⟩ | ⟨conflicts, rfl⟩ | ⟨hne, next, p', c', hnext, hrenames, hfound, rfl⟩ :=
    hcases
  · exact ⟨_, _, more, rfl, hconsistent', hmore,
      .inr ⟨pair, p, rfl, hmore hs, hkept' _ _ hkept, h, hparsed, rfl, rfl, fun _ => rfl,
        fun hne => absurd hsame hne⟩⟩
  · exact ⟨_, _, more, rfl, hconsistent', hmore, .inl ⟨conflicts, rfl⟩⟩
  · obtain ⟨hparsed', pair', rfl, rfl, hstands, hfield, hproperty⟩ :=
      h.renamed hwf hparsed (hconsistent'.wellFormed next hnext) hrenames
    exact ⟨_, _, more, rfl, hconsistent', hmore,
      .inr ⟨pair', p', rfl, hnext, hfound, hstands, hparsed', hfield, hproperty,
        fun hsame => absurd hsame hne, fun _ => hrenames⟩⟩

/-- Where both targets stand, they are found by their keys. -/
theorem relocatePair_run :
    ((Services.workspace false).relocatePair ⟨pair.solution, pair.field.stable,
      pair.property.stable⟩).run store = (.ok pair, store) := by
  have hwf := hconsistent.wellFormed _ hs
  have hbuilt := h.isBuilt hwf
  obtain ⟨_, _, hfield⟩ := h.field
  obtain ⟨_, _, hproperty⟩ := h.property
  have hservice : ((Services.workspace false).compilation pair.solution p.id).run store =
      (.ok pair.compilation, store) :=
    run_adapt_of_ok (Solution.compilation_run_of_find? h.project hkept)
  rw [Services.relocatePair, run_bind_of_ok (checkCancelled_run store)]
  dsimp only [Target.stable]
  rw [run_bind_of_ok (ownerOf_run.mpr ⟨h.projectOf? hwf hfield, rfl⟩), run_bind_of_ok hservice,
    run_bind_of_ok (ownerOf_run.mpr ⟨h.projectOf? hwf hproperty, rfl⟩)]
  rw [if_neg (not_not.mpr h.compilation.project.symm), run_bind_of_ok (checkCancelled_run store)]
  have hfound := hbuilt.relocate_eq (h.allParsed hparsed) hfield
  have hfound' := hbuilt.relocate_eq (h.allParsed hparsed) hproperty
  dsimp only [Target.stable] at hfound hfound'
  rw [hfound, hfound']
  rfl

end Stands

end Pair

/-! ## Splicing -/

namespace Solution

/-- Documents that exist get new roots, one after another. -/
theorem setRoots_run (h : Consistent store snapshots) (hs : s ∈ snapshots)
    {roots : List (DocumentId × Node)}
    (hdocuments : ∀ root ∈ roots, ∃ d ∈ s.documents, d.id = root.1) :
    ∃ next store' more, (s.setRoots roots).run store = (.ok next, store') ∧ Consistent store' more ∧
      snapshots ⊆ more ∧ next ∈ more ∧ s.Edited (roots.map (·.1)) roots.length next := by
  induction roots generalizing s store snapshots with
  | nil => exact ⟨s, store, snapshots, rfl, h, fun _ h => h, hs, .refl s⟩
  | cons root roots ih =>
    obtain ⟨id, root⟩ := root
    obtain ⟨⟨d, hd, rfl⟩, hothers⟩ := List.forall_mem_cons.mp hdocuments
    let mid := s.withTree d (.ofRoot ⟨store.nextStamp⟩ root) ⟨store.nextStamp + 1⟩
    have hstep : (s.setRoot d.id root).run store =
        (.ok mid, { store with nextStamp := store.nextStamp + 2 }) :=
      replaceTree_run ((h.wellFormed s hs).document? hd) _
    have hmid : s.Edited [d.id] 1 mid := .withTree s d _ _
    have hconsistent := h.replaceTree hs hd (.ofRoot ⟨store.nextStamp⟩ root)
    obtain ⟨next, store', more, hrun, hconsistent', hmore, hnext, hedited⟩ :=
      ih (s := mid) hconsistent
        List.mem_cons_self fun root hroot => by
          obtain ⟨other, hother, hid⟩ := hothers root hroot
          obtain ⟨new, hnew, _⟩ :=
            hmid.document? (hconsistent.wellFormed mid List.mem_cons_self) hother
          exact ⟨new, (document?_some hnew).1, (document?_some hnew).2.trans hid⟩
    refine ⟨next, store', more, ?_, hconsistent', fun _ h => hmore (List.mem_cons_of_mem _ h),
      hnext, ?_⟩
    · rw [setRoots, run_bind_of_ok hstep]
      exact hrun
    · rw [List.map_cons, List.length_cons, Nat.add_comm]
      exact hmid.trans hedited

theorem currentTree_eq {c : Compilation} {p : Project} {id : DocumentId} {tree : Tree}
    (hover : c.IsOf s p) (h : c.tree? id = some tree) : s.currentTree c id = .ok tree := by
  obtain ⟨_, d, hd, rfl⟩ := mem_trees.mp (hover.mem_trees h)
  rw [currentTree, h, hd]
  exact if_neg (not_not.mpr rfl)

end Solution

theorem ok_bind {ε α β : Type} (a : α) (k : α → Except ε β) : (Except.ok a >>= k) = k a := rfl

theorem bind_eq_ok {ε α β : Type} {x : Except ε α} {k : α → Except ε β} {b : β} :
    (x >>= k) = .ok b ↔ ∃ a, x = .ok a ∧ k a = .ok b := by
  cases x with
  | error e => exact ⟨nofun, by rintro ⟨_, ⟨⟩, _⟩⟩
  | ok a => exact ⟨fun h => ⟨a, rfl, h⟩, by rintro ⟨_, ⟨⟩, h⟩; exact h⟩

namespace Pair

/-- The way on which two declarations are joined. -/
def path (pair : Pair) : SplicePath :=
  if pair.field.document = pair.property.document then .sameDocument else .crossDocument

def spliced (pair : Pair) : List DocumentId :=
  match pair.path with
  | .sameDocument => [pair.field.document]
  | .crossDocument => [pair.field.document, pair.property.document]

/-- The splice changes the documents of the field and of the property. -/
theorem mem_spliced {pair : Pair} {id : DocumentId} :
    id ∈ pair.spliced ↔ id = pair.field.document ∨ id = pair.property.document := by
  rw [spliced, path]
  split
  next heq =>
    have hsame : pair.field.document = pair.property.document := by
      by_contra hne
      rw [if_neg hne] at heq
      cases heq
    rw [hsame, or_self, List.mem_singleton]
  next => simp

end Pair

namespace Pair.Stands

variable {pair : Pair} {p : Project} (h : pair.Stands p)
  (hparsed : AllParsed (pair.solution.trees p))
include h hparsed

/-- Where both targets stand, there are new roots for their documents. -/
theorem splicedRoots_eq (options : FixOptions) : ∃ roots,
    pair.solution.splicedRoots pair.compilation pair.field pair.property options = .ok roots ∧
      roots.map (·.1) = pair.spliced := by
  obtain ⟨fieldTree, f, hfield⟩ := h.field
  obtain ⟨propertyTree, g, hproperty⟩ := h.property
  have hisField : f.IsField := by
    have := hfield.declares
    rwa [h.roles.1] at this
  have hisProperty : g.IsProperty := by
    have := hproperty.declares
    rwa [h.roles.2] at this
  have hconforms :=
    (h.allParsed hparsed).conforms _ (Compilation.mem_documents_of_tree? hproperty.present)
  obtain ⟨m, hm, hremovable, hplan⟩ := FieldRemoval.plan_eq hfield.focus hisField hfield.node
  obtain ⟨replacement, hreplacement⟩ :=
    propertyReplacement_eq hproperty.focus hisProperty.1 hconforms hproperty.node
      (if options.moveInitializer then initializerOf? f.node else none)
  rw [Solution.splicedRoots, Solution.currentTree_eq h.compilation hfield.present,
    Solution.currentTree_eq h.compilation hproperty.present]
  rw [ok_bind, ok_bind, hplan, ok_bind]
  dsimp only
  rw [hreplacement, ok_bind, Pair.spliced, Pair.path]
  -- In one document both edits are one batch, else there is one for each document.
  by_cases hsame : pair.field.document = pair.property.document
  · rw [if_pos hsame, if_pos hsame]
    have hcurrent := hfield.present
    rw [hsame, hproperty.present] at hcurrent
    obtain rfl := Option.some.inj hcurrent
    obtain ⟨hnodup, hapart⟩ := Tree.apart hm hproperty.focus hremovable hisProperty
    obtain ⟨root, hroot⟩ := options.edited_eq
      [.remove (propertyTree.nodeId m.node) fieldKeep, .replace pair.property.node replacement]
      (.cons ⟨hm, rfl, hremovable.inside⟩
      (.cons ⟨hproperty.focus, hproperty.node, hisProperty.2.1⟩ .nil)) hnodup hapart
    rw [hroot]
    exact ⟨_, rfl, rfl⟩
  · rw [if_neg hsame, if_neg hsame]
    obtain ⟨root, hroot⟩ :=
      options.edited_one hm hremovable.inside (.remove (fieldTree.nodeId m.node) fieldKeep) rfl
    obtain ⟨root', hroot'⟩ :=
      options.edited_one hproperty.focus hisProperty.2.1 (.replace pair.property.node replacement)
        hproperty.node
    rw [hroot, hroot']
    exact ⟨_, rfl, rfl⟩

/-- Where both targets stand, they can be joined. -/
theorem splice_run (hconsistent : Consistent store snapshots) (hs : pair.solution ∈ snapshots)
    (options : FixOptions) :
    ∃ next store' more, (pair.splice options).run store = (.ok (next, pair.path), store') ∧
      Consistent store' more ∧ snapshots ⊆ more ∧ next ∈ more ∧
      pair.solution.Edited pair.spliced pair.spliced.length next := by
  have hwf := hconsistent.wellFormed _ hs
  have hexists {t : Target} {tree : Tree} {f : Focus} (ht : t.Stands pair.compilation tree f) :
      ∃ d ∈ pair.solution.documents, d.id = t.document := by
    obtain ⟨d, hd, _⟩ := Option.map_eq_some_iff.mp (h.projectOf? hwf ht)
    exact ⟨d, Solution.document?_some hd⟩
  obtain ⟨roots, hroots, hids⟩ := h.splicedRoots_eq hparsed options
  obtain ⟨next, store', more, hrun, hconsistent', hmore, hnext, hedited⟩ :=
    Solution.setRoots_run hconsistent hs
      fun root (hroot : root ∈ roots) => by
        have hmem : root.1 ∈ pair.spliced := hids ▸ List.mem_map_of_mem hroot
        obtain ⟨_, _, hfield⟩ := h.field
        obtain ⟨_, _, hproperty⟩ := h.property
        obtain heq | heq := (Pair.mem_spliced).mp hmem <;> rw [heq]
        · exact hexists hfield
        · exact hexists hproperty
  refine ⟨next, store', more, ?_, hconsistent', hmore, hnext, ?_⟩
  · rw [Pair.splice, Solution.splice, hroots, run_bind_of_ok (run_mk_pure _ store),
      run_bind_of_ok (run_adapt_of_ok hrun)]
    rfl
  · rw [← hids, List.length_map]
    exact hedited

end Pair.Stands

/-! ## One edit after the other -/

/-- In one document both edits are one batch. -/
theorem Solution.splicedRoots_eq_ok {s : Solution} {c : Compilation} {field property : Target}
    {options : FixOptions}
    {roots : List (DocumentId × Node)} (hsame : field.document = property.document)
    (hroots : s.splicedRoots c field property options = .ok roots) :
    ∃ tree removal replacement root, s.currentTree c field.document = .ok tree ∧
      FieldRemoval.plan tree field = .ok removal ∧
      propertyReplacement tree property (if options.moveInitializer then removal.initializer?
        else none) = .ok replacement ∧
      EditBatch.apply
        ⟨tree.id, [.remove removal.target fieldKeep, .replace property.node replacement]⟩ tree =
          .ok root ∧
      roots = [(field.document, if options.format then root.collapseElastic else root)] := by
  rw [splicedRoots, bind_eq_ok] at hroots
  obtain ⟨tree, htree, hroots⟩ := hroots
  rw [← hsame, htree, ok_bind, bind_eq_ok] at hroots
  obtain ⟨removal, hremoval, hroots⟩ := hroots
  dsimp only at hroots
  rw [bind_eq_ok] at hroots
  obtain ⟨replacement, hreplacement, hroots⟩ := hroots
  rw [if_pos rfl, bind_eq_ok] at hroots
  obtain ⟨edited, hedited, hroots⟩ := hroots
  rw [FixOptions.edited, bind_eq_ok] at hedited
  obtain ⟨root, hroot, hedited⟩ := hedited
  cases happly : EditBatch.apply
    ⟨tree.id, [.remove removal.target fieldKeep, .replace property.node replacement]⟩ tree with
  | error e =>
    rw [happly] at hroot
    cases hroot
  | ok root' =>
    rw [happly] at hroot
    cases hroot
    cases hedited
    cases hroots
    exact ⟨tree, removal, replacement, root, htree, hremoval, hreplacement, happly, rfl⟩

/-- A batch that is accepted makes of a tree what its replacements and then its removals make of
it, the removals with all their options and at the same paths of the tree between. So where a
field and a property are joined in one document, it is as if the property were replaced first
and the field removed from what that gives. -/
theorem EditBatch.apply_eq_halves :
    (∀ (batch : EditBatch) (tree : Tree) (root : Node), batch.apply tree = .ok root →
      ∃ mid, batch.replacements.apply tree = .ok mid ∧ ∀ id,
        (∃ rest, List.Forall₂ (Edit.MovesTo tree (.ofRoot id mid)) batch.removals rest) ∧
        ∀ rest, List.Forall₂ (Edit.MovesTo tree (.ofRoot id mid)) batch.removals rest →
          EditBatch.apply ⟨id, rest⟩ (.ofRoot id mid) = .ok root) ∧
    ∀ (s : Solution) (c : Compilation) (field property : Target) (options : FixOptions)
      (roots : List (DocumentId × Node)),
      field.document = property.document → s.splicedRoots c field property options = .ok roots →
      ∃ tree removal replacement mid root, s.currentTree c field.document = .ok tree ∧
        FieldRemoval.plan tree field = .ok removal ∧
        propertyReplacement tree property (if options.moveInitializer then removal.initializer?
          else none) = .ok replacement ∧
        EditBatch.apply ⟨tree.id, [.replace property.node replacement]⟩ tree = .ok mid ∧
        (∀ id, ∃ edit, (Edit.remove removal.target fieldKeep).MovesTo tree (.ofRoot id mid) edit ∧
          EditBatch.apply ⟨id, [edit]⟩ (.ofRoot id mid) = .ok root) ∧
        s.splice c field property options = do
          let next ← ExceptT.adapt .solution
            (s.setRoots [(field.document, if options.format then root.collapseElastic else root)])
          return (next, .sameDocument) := by
  constructor
  · intro batch tree root happly
    exact apply_removals happly
  · intro s c field property options roots hsame hroots
    obtain ⟨tree, removal, replacement, root, htree, hremoval, hreplacement, happly, rfl⟩ :=
      Solution.splicedRoots_eq_ok hsame hroots
    obtain ⟨mid, hmid, hrest⟩ := apply_removals happly
    refine ⟨tree, removal, replacement, mid, root, htree, hremoval, hreplacement, hmid,
      fun id => ?_, ?_⟩
    · obtain ⟨⟨rest, hmoves⟩, hall⟩ := hrest id
      rcases hmoves with _ | ⟨hedit, hnone⟩
      cases hnone
      exact ⟨_, hedit, hall _ (.cons hedit .nil)⟩
    · rw [Solution.splice, hroots, if_pos hsame]
      rfl

/-- A variable goes away with the comma beside one that is replaced, and a property takes over
from the field in front of it. -/
theorem EditBatch.apply_eq_halves_use :
    (∃ root mid rest,
      let tree := Tree.ofText ⟨7⟩ "class C { int a, b; }"
      let batch : EditBatch := ⟨⟨7⟩, [.remove ⟨⟨7⟩, 5⟩ { marker := true },
        .replace ⟨⟨7⟩, 6⟩ ⟨.variableDeclarator, [.token (.bare .identifierToken "d")]⟩]⟩
      batch.apply tree = .ok root ∧ root.text = "class C { int d; }" ∧
      batch.replacements.apply tree = .ok mid ∧
        List.Forall₂ (Edit.MovesTo tree (.ofRoot ⟨8⟩ mid)) batch.removals rest ∧
        EditBatch.apply ⟨⟨8⟩, rest⟩ (.ofRoot ⟨8⟩ mid) = .ok root) ∧
    ∃ field property tree removal replacement mid edit root,
      let s := Solution.ofText Solution.usedField
      field.document = property.document ∧
      (s.splicedRoots (.ofText Solution.usedField) field property {}).isOk ∧
        EditBatch.apply ⟨tree.id, [.replace property.node replacement]⟩ tree = .ok mid ∧
        (Edit.remove removal fieldKeep).MovesTo tree (.ofRoot ⟨8⟩ mid) edit ∧
        EditBatch.apply ⟨⟨8⟩, [edit]⟩ (.ofRoot ⟨8⟩ mid) = .ok root := by
  constructor
  · have htext : ((EditBatch.apply ⟨⟨7⟩, [.remove ⟨⟨7⟩, 5⟩ { marker := true }, .replace ⟨⟨7⟩, 6⟩
        ⟨.variableDeclarator, [.token (.bare .identifierToken "d")]⟩]⟩
        (Tree.ofText ⟨7⟩ "class C { int a, b; }")).toOption.map Node.text) =
          some "class C { int d; }" := by decide +kernel
    obtain ⟨root, hroot, htext⟩ := Option.map_eq_some_iff.mp htext
    have happly := apply_eq_of_toOption hroot
    obtain ⟨mid, hmid, hrest⟩ := apply_eq_halves.1 _ _ root happly
    obtain ⟨⟨rest, hmoves⟩, hall⟩ := hrest ⟨8⟩
    exact ⟨root, mid, rest, happly, htext, hmid, hmoves, hall rest hmoves⟩
  · have hlocated :
        ((Compilation.ofText Solution.usedField).locate .field ⟨⟨0⟩, ⟨14, 15⟩⟩).toOption.any
          fun field =>
        ((Compilation.ofText Solution.usedField).locate .property ⟨⟨0⟩, ⟨21, 22⟩⟩).toOption.any
          fun property =>
          field.document == property.document && ((Solution.ofText Solution.usedField).splicedRoots
            (Compilation.ofText Solution.usedField) field property {}).isOk := by decide +kernel
    obtain ⟨field, -, hlocated⟩ := (Option.any_eq_true ..).mp hlocated
    obtain ⟨property, -, hlocated⟩ := (Option.any_eq_true ..).mp hlocated
    obtain ⟨hsame, hok⟩ := Bool.and_eq_true_iff.mp hlocated
    cases hroots : Solution.splicedRoots _ _ field property {} with
    | error e =>
      rw [hroots] at hok
      cases hok
    | ok roots =>
      obtain ⟨tree, removal, replacement, mid, root, -, -, -, hmid, hall, -⟩ :=
        apply_eq_halves.2 _ _ _ _ _ _ (beq_iff_eq.mp hsame) hroots
      obtain ⟨edit, hmoves, hrest⟩ := hall ⟨8⟩
      exact ⟨field, property, tree, removal.target, replacement, mid, edit, root,
        beq_iff_eq.mp hsame, hok, hmid, hmoves, hrest⟩

end AutoProperty
