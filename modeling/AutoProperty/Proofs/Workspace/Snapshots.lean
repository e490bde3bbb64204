import AutoProperty.Workspace.Solution
import Mathlib.Data.List.Nodup

/-! # Snapshots that share a store

Whatever edits lead to a snapshot, its documents and projects are numbered without gaps, and a
request for a compilation is answered with one of the very trees that the snapshot holds, also
where another snapshot asked for it first. What has been built stays in its place, and no two
places hold compilations of one identity.
-/

namespace AutoProperty

/-! ## Running work on snapshots -/

section Running

variable {ε α β : Type} {x : ExceptT ε StoreM α} {f : α → ExceptT ε StoreM β} {store store' : Store}
  {a : α}

/-- Two steps run one after the other, unless the first one fails. -/
theorem run_bind (x : ExceptT ε StoreM α) (f : α → ExceptT ε StoreM β) (store : Store) :
    (x >>= f).run store = match x.run store with
      | (.ok a, store) => (f a).run store
      | (.error e, store) => (.error e, store) := by
  have hbind : (x >>= f).run = x.run >>= fun
      | .ok a => (f a).run
      | .error e => pure (.error e) := ExceptT.run_bind x f
  rw [hbind]
  show (StateT.bind x.run _ : StoreM (Except ε β)) store = _
  rw [StateT.bind]
  show (match x.run store with
    | (r, store) => _ : Except ε β × Store) = _
  obtain ⟨r, store⟩ := x.run store
  cases r <;> rfl

theorem run_bind_of_ok (h : x.run store = (.ok a, store')) :
    (x >>= f).run store = (f a).run store' := by
  rw [run_bind, h]

/-- Two steps succeed if both do. -/
theorem run_bind_eq_ok {b : β} : (x >>= f).run store = (.ok b, store') ↔
    ∃ a store₁, x.run store = (.ok a, store₁) ∧ (f a).run store₁ = (.ok b, store') := by
  rw [run_bind]
  obtain ⟨r, store₁⟩ := x.run store
  cases r with
  | ok a =>
    constructor
    · exact fun h => ⟨a, store₁, rfl, h⟩
    · rintro ⟨_, _, heq, h⟩
      obtain ⟨hok, rfl⟩ := Prod.mk.inj heq
      cases hok
      exact h
  | error e =>
    constructor
    · intro h
      cases h
    · rintro ⟨_, _, heq, _⟩
      cases heq

/-- Another wording of the errors changes nothing else. -/
theorem run_adapt {ε' : Type} (wording : ε → ε') (x : ExceptT ε StoreM α) (store : Store) :
    (ExceptT.adapt wording x).run store = ((x.run store).1.mapError wording, (x.run store).2) := rfl

theorem run_adapt_of_ok {ε' : Type} {wording : ε → ε'} (h : x.run store = (.ok a, store')) :
    (ExceptT.adapt wording x).run store = (.ok a, store') := by
  rw [run_adapt, h]
  rfl

end Running

namespace Store

/-- The compilation that is built next. -/
def next (store : Store) (project : ProjectId) (documents : List (DocumentId × Tree)) :
    Compilation :=
  .build ⟨store.nextCompilation⟩ project documents

/-- The store after it was built for a state. -/
def keepNext (store : Store) (state : StateId) (project : ProjectId)
    (documents : List (DocumentId × Tree)) : Store :=
  { store with nextCompilation := store.nextCompilation + 1 }.keep state
    (store.next project documents)

end Store

namespace Solution

variable {s : Solution} {store : Store}

/-- A compilation is taken from the store, or it is built under the next identity and put there. -/
theorem compilation_run {id : ProjectId} {p : Project} (h : s.project? id = some p) :
    (s.compilation id).run store = match store.find? p.state with
      | some c => (.ok c, store)
      | none => (.ok (store.next id (s.trees p)), store.keepNext p.state id (s.trees p)) := by
  rw [compilation, h]
  have hget : (get : SolutionM Store).run store = (.ok store, store) := rfl
  rw [run_bind_of_ok hget]
  cases store.find? p.state <;> rfl

theorem document?_some {id : DocumentId} {d : Document} (h : s.document? id = some d) :
    d ∈ s.documents ∧ d.id = id :=
  ⟨List.mem_of_find?_eq_some h, by simpa using List.find?_some h⟩

theorem project?_some {id : ProjectId} {p : Project} (h : s.project? id = some p) :
    p ∈ s.projects ∧ p.id = id :=
  ⟨List.mem_of_find?_eq_some h, by simpa using List.find?_some h⟩

/-- What is in the store is not built again. -/
theorem compilation_run_of_find? {id : ProjectId} {p : Project} {c : Compilation}
    (h : s.project? id = some p) (hc : store.find? p.state = some c) :
    (s.compilation id).run store = (.ok c, store) := by
  rw [compilation_run h, hc]

/-- The snapshot with another tree for a document, in which the document's project has another
state. -/
def withTree (s : Solution) (d : Document) (tree : Tree) (state : StateId) : Solution :=
  { s with
    version := s.version + 1
    projects := s.renewProject d.project state (·)
    documents := s.documents.map fun other =>
      if other.id = d.id then { other with tree } else other }

theorem replaceTree_run {id : DocumentId} {d : Document} (h : s.document? id = some d)
    (tree : TreeId → Tree) : (s.replaceTree id tree).run store =
      (.ok (s.withTree d (tree ⟨store.nextStamp⟩) ⟨store.nextStamp + 1⟩),
        { store with nextStamp := store.nextStamp + 2 }) := by
  obtain ⟨_, rfl⟩ := document?_some h
  rw [replaceTree, h]
  rfl

end Solution

theorem exists_of_isOk {ε α : Type} {outcome : Except ε α × Store} (h : outcome.1.isOk) :
    ∃ a store, outcome = (.ok a, store) := by
  obtain ⟨_ | a, store⟩ := outcome
  · cases h
  · exact ⟨a, store, rfl⟩

theorem exists_of_mem_toOption {ε α : Type} {outcome : Except ε α × Store} {a : α}
    (h : a ∈ outcome.1.toOption) : ∃ store, outcome = (.ok a, store) := by
  obtain ⟨_ | a, store⟩ := outcome
  · cases h
  · cases h
    exact ⟨store, rfl⟩

/-! ## Well-formed snapshots -/

/-- Documents and projects are numbered without gaps, and a project lists exactly its documents. -/
structure Solution.WellFormed (s : Solution) : Prop where
  documentIds : s.documents.map (·.id) = (List.range s.documents.length).map DocumentId.mk
  projectIds : s.projects.map (·.id) = (List.range s.projects.length).map ProjectId.mk
  listed : ∀ p ∈ s.projects, ∀ id, id ∈ p.documents ↔
    ∃ d ∈ s.documents, d.id = id ∧ d.project = p.id
  nodup : ∀ p ∈ s.projects, p.documents.Nodup
  owned : ∀ d ∈ s.documents, ∃ p ∈ s.projects, p.id = d.project
  nextProject : s.nextProject = s.projects.length
  nextDocument : s.nextDocument = s.documents.length

namespace Solution

variable {s : Solution}

theorem nodup_numbered {α : Type} {f : Nat → α} (hf : Function.Injective f) (n : Nat) :
    ((List.range n).map f).Nodup :=
  List.nodup_range.map hf

/-- The empty snapshot numbers its documents and projects without gaps. -/
theorem WellFormed.empty : Solution.empty.WellFormed where
  documentIds := by simp [Solution.empty]
  projectIds := by simp [Solution.empty]
  listed _ hp := absurd hp List.not_mem_nil
  nodup _ hp := absurd hp List.not_mem_nil
  owned _ hd := absurd hd List.not_mem_nil
  nextProject := rfl
  nextDocument := rfl

theorem WellFormed.nodup_documents (h : s.WellFormed) : (s.documents.map (·.id)).Nodup := by
  rw [h.documentIds]
  exact nodup_numbered (fun _ _ heq => congrArg DocumentId.number heq) _

theorem WellFormed.nodup_projects (h : s.WellFormed) : (s.projects.map (·.id)).Nodup := by
  rw [h.projectIds]
  exact nodup_numbered (fun _ _ heq => congrArg ProjectId.number heq) _

/-- An entry is found by a key that no other one has. -/
theorem find?_of_nodup {α β : Type} [BEq β] [LawfulBEq β] {f : α → β} {xs : List α}
    (h : (xs.map f).Nodup) {x : α} (hx : x ∈ xs) : xs.find? (f · == f x) = some x := by
  induction xs with
  | nil => exact absurd hx List.not_mem_nil
  | cons y xs ih =>
    obtain ⟨hy, hxs⟩ := List.nodup_cons.mp h
    obtain rfl | hx := List.mem_cons.mp hx
    · simp
    · have hne : f y ≠ f x := fun heq => hy (heq ▸ List.mem_map_of_mem hx)
      rw [List.find?_cons_of_neg (by simpa using hne)]
      exact ih hxs hx

theorem WellFormed.document? (h : s.WellFormed) {d : Document} (hd : d ∈ s.documents) :
    s.document? d.id = some d :=
  find?_of_nodup h.nodup_documents hd

theorem WellFormed.project? (h : s.WellFormed) {p : Project} (hp : p ∈ s.projects) :
    s.project? p.id = some p :=
  find?_of_nodup h.nodup_projects hp

theorem WellFormed.document_eq (h : s.WellFormed) {d d' : Document} (hd : d ∈ s.documents)
    (hd' : d' ∈ s.documents) (heq : d.id = d'.id) : d = d' :=
  Option.some.inj ((h.document? hd).symm.trans ((congrArg s.document? heq).trans (h.document? hd')))

/-! ## Edits -/

/-- Only one project is in another state; all others have the same trees as before. -/
structure EditOf (s next : Solution) (id : ProjectId) (state : StateId) : Prop where
  others : ∀ p ∈ next.projects, p.id ≠ id → p ∈ s.projects ∧ next.trees p = s.trees p
  renewed : ∀ p ∈ next.projects, p.id = id → p.state = state

/-- Renewing a project changes its state and its documents, and no other project. -/
theorem mem_renewProject {id : ProjectId} {state : StateId}
    {documents : List DocumentId → List DocumentId} {p : Project} :
    p ∈ s.renewProject id state documents ↔
      p.id ≠ id ∧ p ∈ s.projects ∨ p.id = id ∧ ∃ old ∈ s.projects,
      old.id = id ∧ p = { old with documents := documents old.documents, state } := by
  simp only [renewProject, List.mem_map]
  constructor
  · rintro ⟨old, hold, rfl⟩
    split
    next hid => exact .inr ⟨hid, old, hold, hid, rfl⟩
    next hid => exact .inl ⟨hid, hold⟩
  · rintro (⟨hid, hp⟩ | ⟨hid, old, hold, hold', rfl⟩)
    · exact ⟨p, hp, if_neg hid⟩
    · exact ⟨old, hold, if_pos hold'⟩

theorem map_id_renewProject (s : Solution) (id : ProjectId) (state : StateId)
    (documents : List DocumentId → List DocumentId) :
    (s.renewProject id state documents).map (·.id) = s.projects.map (·.id) := by
  rw [renewProject, List.map_map]
  refine List.map_congr_left fun p _ => ?_
  simp only [Function.comp_apply]
  split <;> rfl

theorem projects_withTree (s : Solution) (d : Document) (tree : Tree) (state : StateId) :
    (s.withTree d tree state).projects = s.renewProject d.project state (·) := rfl

theorem document?_withTree (s : Solution) (d : Document) (tree : Tree) (state : StateId)
    (id : DocumentId) :
    (s.withTree d tree state).document? id = (s.document? id).map fun other =>
      if other.id = d.id then { other with tree } else other := by
  simp only [document?, withTree, List.find?_map]
  congr 2
  funext other
  simp only [Function.comp_apply]
  split <;> rfl

section WithTree

variable {d : Document} (hs : s.WellFormed) (hd : d ∈ s.documents) (tree : Tree) (state : StateId)
include hs

/-- Another tree changes no numbers. -/
theorem WellFormed.withTree : (s.withTree d tree state).WellFormed where
  documentIds := by
    rw [Solution.withTree, List.map_map, List.length_map, ← hs.documentIds]
    refine List.map_congr_left fun other _ => ?_
    simp only [Function.comp_apply]
    split <;> rfl
  projectIds := by
    have hlength : (s.renewProject d.project state (·)).length = s.projects.length :=
      List.length_map _
    rw [Solution.withTree, map_id_renewProject, hlength, hs.projectIds]
  listed p hp id := by
    have hdocuments : (∃ other ∈ (s.withTree d tree state).documents,
        other.id = id ∧ other.project = p.id) ↔
        ∃ other ∈ s.documents, other.id = id ∧ other.project = p.id := by
      simp only [Solution.withTree, List.mem_map]
      constructor
      · rintro ⟨_, ⟨other, hother, rfl⟩, hid, hproject⟩
        refine ⟨other, hother, ?_, ?_⟩
        · split at hid <;> exact hid
        · split at hproject <;> exact hproject
      · rintro ⟨other, hother, hid, hproject⟩
        refine ⟨_, ⟨other, hother, rfl⟩, ?_, ?_⟩ <;> split <;> assumption
    rw [hdocuments]
    rw [projects_withTree] at hp
    obtain ⟨_, hp⟩ | ⟨_, old, hold, _, rfl⟩ := (mem_renewProject).mp hp
    · exact hs.listed p hp id
    · exact hs.listed old hold id
  nodup p hp := by
    rw [projects_withTree] at hp
    obtain ⟨_, hp⟩ | ⟨_, old, hold, _, rfl⟩ := (mem_renewProject).mp hp
    · exact hs.nodup p hp
    · exact hs.nodup old hold
  owned other hother := by
    obtain ⟨old, hold, rfl⟩ := List.mem_map.mp hother
    obtain ⟨p, hp, hid⟩ := hs.owned old hold
    have hproject : (if old.id = d.id then { old with tree } else old : Document).project =
        old.project := by
      split <;> rfl
    rw [hproject, ← hid, projects_withTree]
    by_cases heq : p.id = d.project
    · exact ⟨{ p with state }, (mem_renewProject).mpr (.inr ⟨heq, p, hp, heq, rfl⟩), rfl⟩
    · exact ⟨p, (mem_renewProject).mpr (.inl ⟨heq, hp⟩), rfl⟩
  nextProject := hs.nextProject.trans (List.length_map _).symm
  nextDocument := hs.nextDocument.trans (List.length_map _).symm

include hd

/-- The project of the document has a new state, and the others are as they were. -/
theorem editOf_withTree : s.EditOf (s.withTree d tree state) d.project state where
  others p hp hid := by
    rw [projects_withTree] at hp
    obtain ⟨_, hp⟩ | ⟨heq, _⟩ := (mem_renewProject).mp hp
    · refine ⟨hp, List.filterMap_congr fun id hmem => ?_⟩
      have hne : ∀ other ∈ s.document? id, other.id ≠ d.id := by
        intro other hother heq
        obtain ⟨hmem', hother'⟩ := document?_some hother
        obtain ⟨d', hd', hid', hproject⟩ := (hs.listed p hp id).mp hmem
        have := hs.document_eq hd' hd (by rw [hid', ← hother', heq])
        exact hid (this ▸ hproject.symm)
      rw [document?_withTree]
      cases hother : s.document? id with
      | none => rfl
      | some other => simp [hne other hother]
    · exact absurd heq hid
  renewed p hp hid := by
    rw [projects_withTree] at hp
    obtain ⟨hne, _⟩ | ⟨_, old, _, _, rfl⟩ := (mem_renewProject).mp hp
    · exact absurd hid hne
    · rfl

end WithTree

/-! ### Frames -/

/-- Relations between lists compose. -/
theorem forall₂_trans {α β γ : Type} {r : α → β → Prop} {q : β → γ → Prop} {as : List α}
    {bs : List β} {cs : List γ} (h : List.Forall₂ r as bs) (h' : List.Forall₂ q bs cs) :
    List.Forall₂ (fun a c => ∃ b, r a b ∧ q b c) as cs := by
  induction h generalizing cs with
  | nil =>
    cases h'
    exact .nil
  | cons hab _ ih =>
    cases h' with
    | cons hbc hs => exact .cons ⟨_, hab, hbc⟩ (ih hs)

/-- Some edits were made, each of them to one of the documents. Everything else is as it was. -/
structure Edited (documents : List DocumentId) (edits : Nat) (s next : Solution) : Prop where
  version : next.version = s.version + edits
  documents : List.Forall₂ (fun old new : Document => new.id = old.id ∧ new.project = old.project ∧
    new.name = old.name ∧
    (old.id ∉ documents → new.tree = old.tree)) s.documents next.documents
  projects : List.Forall₂ (fun old new : Project => new.id = old.id ∧ new.name = old.name ∧
    new.documents = old.documents) s.projects next.projects

namespace Edited

variable {next last : Solution} {ids ids' : List DocumentId} {edits edits' : Nat}

theorem refl (s : Solution) : Edited [] 0 s s where
  version := rfl
  documents := List.forall₂_same.mpr fun _ _ => ⟨rfl, rfl, rfl, fun _ => rfl⟩
  projects := List.forall₂_same.mpr fun _ _ => ⟨rfl, rfl, rfl⟩

/-- Edits one after another add up. -/
theorem trans (h : Edited ids edits s next) (h' : Edited ids' edits' next last) :
    Edited (ids ++ ids') (edits + edits') s last where
  version := by rw [h'.version, h.version, Nat.add_assoc]
  documents := by
    refine (forall₂_trans h.documents h'.documents).imp ?_
    rintro old new ⟨mid, ⟨hid, hproject, hname, hkept⟩, hid', hproject', hname', hkept'⟩
    refine ⟨hid'.trans hid, hproject'.trans hproject, hname'.trans hname, fun hnot => ?_⟩
    rw [List.mem_append, not_or] at hnot
    exact (hkept' (hid ▸ hnot.2)).trans (hkept hnot.1)
  projects := by
    refine (forall₂_trans h.projects h'.projects).imp ?_
    rintro old new ⟨mid, ⟨hid, hname, hdocuments⟩, hid', hname', hdocuments'⟩
    exact ⟨hid'.trans hid, hname'.trans hname, hdocuments'.trans hdocuments⟩

/-- Another tree counts as one edit of one document. -/
theorem withTree (s : Solution) (d : Document) (tree : Tree) (state : StateId) :
    Edited [d.id] 1 s (s.withTree d tree state) where
  version := rfl
  documents := by
    rw [Solution.withTree, List.forall₂_map_right_iff, List.forall₂_same]
    intro old _
    split
    next hid => exact ⟨rfl, rfl, rfl, fun hnot => absurd (List.mem_singleton.mpr hid) hnot⟩
    next => exact ⟨rfl, rfl, rfl, fun _ => rfl⟩
  projects := by
    rw [projects_withTree, renewProject, List.forall₂_map_right_iff, List.forall₂_same]
    intro old _
    split <;> exact ⟨rfl, rfl, rfl⟩

theorem document? (h : Edited ids edits s next) (hnext : next.WellFormed) {old : Document}
    (hold : old ∈ s.documents) :
    ∃ new, next.document? old.id = some new ∧ new.project = old.project ∧ new.name = old.name ∧
      (old.id ∉ ids → new.tree = old.tree) := by
  obtain ⟨n, hn, rfl⟩ := List.getElem_of_mem hold
  have hn' : n < next.documents.length := h.documents.length_eq ▸ hn
  obtain ⟨hid, hrest⟩ := h.documents.get hn hn'
  exact ⟨_, hid ▸ hnext.document? (List.getElem_mem hn'), hrest⟩

end Edited

/-! ### New projects and documents -/

/-- The snapshot with one more project. -/
def withProject (s : Solution) (name : String) (state : StateId) : Solution :=
  { s with
    version := s.version + 1
    projects := s.projects ++ [⟨⟨s.nextProject⟩, name, [], state⟩]
    nextProject := s.nextProject + 1 }

/-- The snapshot with one more document in a project. -/
def withDocument (s : Solution) (project : ProjectId) (name : String) (tree : Tree)
    (state : StateId) : Solution :=
  { s with
    version := s.version + 1
    projects := s.renewProject project state (· ++ [⟨s.nextDocument⟩])
    documents := s.documents ++ [⟨⟨s.nextDocument⟩, project, name, tree⟩]
    nextDocument := s.nextDocument + 1 }

theorem projects_withDocument (s : Solution) (project : ProjectId) (name : String) (tree : Tree)
    (state : StateId) : (s.withDocument project name tree state).projects =
      s.renewProject project state (· ++ [⟨s.nextDocument⟩]) := rfl

theorem addProject_run (s : Solution) (name : String) (store : Store) : s.addProject name store =
    ((s.withProject name ⟨store.nextStamp⟩, ⟨s.nextProject⟩),
      { store with nextStamp := store.nextStamp + 1 }) := rfl

/-- A document is added to a project that has none of its name, or the request is refused and
nothing changes. -/
theorem addDocument_run (s : Solution) (project : ProjectId) (name text : String) (store : Store) :
    (∃ e, (s.addDocument project name text).run store = (.error e, store)) ∨
      ∃ p, s.project? project = some p ∧ (∀ id ∈ p.documents, ∀ d ∈ s.document? id, d.name ≠ name) ∧
        (s.addDocument project name text).run store =
          (.ok (s.withDocument project name (.ofText ⟨store.nextStamp⟩ text) ⟨store.nextStamp + 1⟩,
            ⟨s.nextDocument⟩), { store with nextStamp := store.nextStamp + 2 }) := by
  rw [addDocument]
  cases hp : s.project? project with
  | none => exact .inl ⟨_, rfl⟩
  | some p =>
    dsimp only
    split
    next => exact .inl ⟨_, rfl⟩
    next hname =>
      refine .inr ⟨p, rfl, ?_, rfl⟩
      intro id hid d hd heq
      apply hname
      apply List.any_eq_true.mpr
      refine ⟨id, hid, ?_⟩
      rw [Option.mem_def.mp hd]
      simpa using heq

section New

variable (hs : s.WellFormed)
include hs

theorem WellFormed.id_lt {d : Document} (hd : d ∈ s.documents) : d.id.number < s.nextDocument := by
  rw [hs.nextDocument]
  have hmem : d.id ∈ s.documents.map (·.id) := List.mem_map_of_mem hd
  rw [hs.documentIds] at hmem
  obtain ⟨n, hn, heq⟩ := List.mem_map.mp hmem
  rw [← heq]
  exact List.mem_range.mp hn

theorem WellFormed.project_id_lt {p : Project} (hp : p ∈ s.projects) :
    p.id.number < s.nextProject := by
  rw [hs.nextProject]
  have hmem : p.id ∈ s.projects.map (·.id) := List.mem_map_of_mem hp
  rw [hs.projectIds] at hmem
  obtain ⟨n, hn, heq⟩ := List.mem_map.mp hmem
  rw [← heq]
  exact List.mem_range.mp hn

/-- A new project gets the next number. -/
theorem WellFormed.withProject (name : String) (state : StateId) :
    (s.withProject name state).WellFormed where
  documentIds := hs.documentIds
  projectIds := by simp [Solution.withProject, hs.projectIds, hs.nextProject, List.range_succ]
  listed p hp id := by
    obtain hp | hp := List.mem_append.mp hp
    · exact hs.listed p hp id
    · obtain rfl := List.mem_singleton.mp hp
      refine ⟨fun h => absurd h List.not_mem_nil, ?_⟩
      rintro ⟨d, hd, _, hproject⟩
      obtain ⟨p, hp, hid⟩ := hs.owned d hd
      have := hs.project_id_lt hp
      rw [hid, hproject] at this
      exact absurd this (Nat.lt_irrefl _)
  nodup p hp := by
    obtain hp | hp := List.mem_append.mp hp
    · exact hs.nodup p hp
    · obtain rfl := List.mem_singleton.mp hp
      exact List.nodup_nil
  owned d hd := by
    obtain ⟨p, hp, hid⟩ := hs.owned d hd
    exact ⟨p, List.mem_append_left _ hp, hid⟩
  nextProject := by simp [Solution.withProject, hs.nextProject]
  nextDocument := hs.nextDocument

/-- A new project is new as a whole. -/
theorem editOf_withProject (name : String) (state : StateId) :
    s.EditOf (s.withProject name state) ⟨s.nextProject⟩ state where
  others p hp hid := by
    obtain hp | hp := List.mem_append.mp hp
    · exact ⟨hp, rfl⟩
    · obtain rfl := List.mem_singleton.mp hp
      exact absurd rfl hid
  renewed p hp hid := by
    obtain hp | hp := List.mem_append.mp hp
    · have := hs.project_id_lt hp
      rw [hid] at this
      exact absurd this (Nat.lt_irrefl _)
    · obtain rfl := List.mem_singleton.mp hp
      rfl

variable {project : ProjectId} (name : String) (tree : Tree) (state : StateId)

/-- A new document gets the next number and is listed by its project. -/
theorem WellFormed.withDocument (hproject : ∃ p ∈ s.projects, p.id = project) :
    (s.withDocument project name tree state).WellFormed where
  documentIds := by simp [Solution.withDocument, hs.documentIds, hs.nextDocument, List.range_succ]
  projectIds := by
    have hlength : (s.renewProject project state (· ++ [⟨s.nextDocument⟩])).length =
        s.projects.length :=
      List.length_map _
    rw [Solution.withDocument, map_id_renewProject, hlength, hs.projectIds]
  listed p hp id := by
    have hdocuments : (∃ d ∈ (s.withDocument project name tree state).documents,
        d.id = id ∧ d.project = p.id) ↔
        (∃ d ∈ s.documents, d.id = id ∧ d.project = p.id) ∨
        id = ⟨s.nextDocument⟩ ∧ project = p.id := by
      simp only [Solution.withDocument, List.mem_append, List.mem_singleton, or_and_right,
        exists_or, exists_eq_left, eq_comm (a := id)]
    rw [hdocuments]
    rw [projects_withDocument] at hp
    obtain ⟨hne, hp⟩ | ⟨_, old, hold, hid, rfl⟩ := (mem_renewProject).mp hp
    · rw [hs.listed p hp id]
      exact (or_iff_left fun h => hne h.2.symm).symm
    · simp only [List.mem_append, List.mem_singleton, hs.listed old hold id, hid, and_true]
  nodup p hp := by
    rw [projects_withDocument] at hp
    obtain ⟨_, hp⟩ | ⟨_, old, hold, _, rfl⟩ := (mem_renewProject).mp hp
    · exact hs.nodup p hp
    · refine List.nodup_append.mpr ⟨hs.nodup old hold, List.nodup_singleton _, ?_⟩
      rintro id hid _ hnew rfl
      obtain rfl := List.mem_singleton.mp hnew
      obtain ⟨d, hd, hid, _⟩ := (hs.listed old hold _).mp hid
      have := hs.id_lt hd
      rw [hid] at this
      exact absurd this (Nat.lt_irrefl _)
  owned d hd := by
    have howned : ∃ p ∈ s.projects, p.id = d.project := by
      obtain hd | hd := List.mem_append.mp hd
      · exact hs.owned d hd
      · obtain rfl := List.mem_singleton.mp hd
        exact hproject
    obtain ⟨p, hp, hid⟩ := howned
    rw [projects_withDocument]
    by_cases heq : p.id = project
    · exact ⟨{ p with documents := p.documents ++ [⟨s.nextDocument⟩], state },
        (mem_renewProject).mpr (.inr ⟨heq, p, hp, heq, rfl⟩), hid⟩
    · exact ⟨p, (mem_renewProject).mpr (.inl ⟨heq, hp⟩), hid⟩
  nextProject := hs.nextProject.trans (List.length_map _).symm
  nextDocument := by simp [Solution.withDocument, hs.nextDocument]

/-- A new document makes a new state of its project. -/
theorem editOf_withDocument : s.EditOf (s.withDocument project name tree state) project state where
  others p hp hid := by
    rw [projects_withDocument] at hp
    obtain ⟨_, hp⟩ | ⟨heq, _⟩ := (mem_renewProject).mp hp
    · refine ⟨hp, List.filterMap_congr fun id hmem => ?_⟩
      obtain ⟨d, hd, rfl, _⟩ := (hs.listed p hp id).mp hmem
      have hold : s.document? d.id = some d := hs.document? hd
      have hnew : (s.withDocument project name tree state).document? d.id = some d := by
        rw [document?, Solution.withDocument, List.find?_append]
        rw [document?] at hold
        rw [hold]
        rfl
      rw [hold, hnew]
    · exact absurd heq hid
  renewed p hp hid := by
    rw [projects_withDocument] at hp
    obtain ⟨hne, _⟩ | ⟨_, old, _, _, rfl⟩ := (mem_renewProject).mp hp
    · exact absurd hid hne
    · rfl

end New

end Solution

/-! ## Histories -/

/-- What can have happened so far: the store, and all snapshots that were made. Refused edits change
nothing, and a compilation that is asked for may be new to the store. -/
inductive History : Store → List Solution → Prop where
  | start : History .empty [.empty]
  | project {store store' : Store} {snapshots : List Solution} {s next : Solution} {name : String}
      {id : ProjectId} : History store snapshots → s ∈ snapshots →
      s.addProject name store = ((next, id), store') → History store' (next :: snapshots)
  | document {store store' : Store} {snapshots : List Solution} {s next : Solution}
    {project : ProjectId}
      {name text : String} {id : DocumentId} : History store snapshots → s ∈ snapshots →
      (s.addDocument project name text).run store = (.ok (next, id), store') →
      History store' (next :: snapshots)
  | text {store store' : Store} {snapshots : List Solution} {s next : Solution} {id : DocumentId}
      {text : String} : History store snapshots → s ∈ snapshots →
      (s.setText id text).run store = (.ok next, store') → History store' (next :: snapshots)
  | root {store store' : Store} {snapshots : List Solution} {s next : Solution} {id : DocumentId}
      {root : Node} : History store snapshots → s ∈ snapshots →
      (s.setRoot id root).run store = (.ok next, store') → History store' (next :: snapshots)
  | compilation {store store' : Store} {snapshots : List Solution} {s : Solution} {id : ProjectId}
      {c : Compilation} : History store snapshots → s ∈ snapshots →
      (s.compilation id).run store = (.ok c, store') → History store' snapshots

/-- The compilation is one of the trees that a project has, under whatever identity it was built. -/
structure Compilation.IsOf (c : Compilation) (s : Solution) (p : Project) : Prop where
  project : c.project = p.id
  documents : c.documents = s.trees p
  table : c.table = .build (s.trees p)

/-- No identity was given twice: what is in the store came out of the counters, and the
compilations of different states have different identities. -/
structure Store.IsOrderly (store : Store) : Prop where
  states : ∀ kept ∈ store.compilations, kept.1.stamp < store.nextStamp
  issued : ∀ kept ∈ store.compilations, kept.2.id.stamp < store.nextCompilation
  apart : (store.compilations.map (·.2.id)).Nodup

/-- The store and the snapshots fit together: a state that two projects share means the same
trees, and what the store has for it is a compilation of those. -/
structure Consistent (store : Store) (snapshots : List Solution) : Prop where
  wellFormed : ∀ s ∈ snapshots, s.WellFormed
  stamped : ∀ s ∈ snapshots, ∀ p ∈ s.projects, p.state.stamp < store.nextStamp
  orderly : store.IsOrderly
  agree : ∀ s ∈ snapshots, ∀ p ∈ s.projects, ∀ s' ∈ snapshots, ∀ p' ∈ s'.projects,
    p.state = p'.state →
    p.id = p'.id ∧ s.trees p = s'.trees p'
  served : ∀ s ∈ snapshots, ∀ p ∈ s.projects, ∀ c, (p.state, c) ∈ store.compilations → c.IsOf s p

namespace Store

variable {store : Store} {state state' : StateId} {c c' : Compilation} {project : ProjectId}
  {documents : List (DocumentId × Tree)}

/-- What the store has, a later one has in the same place. -/
def KeptIn (store later : Store) : Prop :=
  ∀ state c, store.find? state = some c → later.find? state = some c

theorem KeptIn.refl (store : Store) : store.KeptIn store :=
  fun _ _ h => h

theorem KeptIn.trans {later last : Store} (h : store.KeptIn later) (h' : later.KeptIn last) :
    store.KeptIn last :=
  fun state c hc => h' state c (h state c hc)

theorem mem_of_find? (h : store.find? state = some c) : (state, c) ∈ store.compilations := by
  obtain ⟨before, after, heq, _⟩ := List.lookup_eq_some_iff.mp h
  exact heq ▸ List.mem_append_right _ List.mem_cons_self

theorem IsOrderly.empty : Store.empty.IsOrderly where
  states _ h := absurd h List.not_mem_nil
  issued _ h := absurd h List.not_mem_nil
  apart := .nil

theorem IsOrderly.advance (h : store.IsOrderly) {limit : Nat} (hle : store.nextStamp ≤ limit) :
    IsOrderly { store with nextStamp := limit } where
  states kept hkept := Nat.lt_of_lt_of_le (h.states kept hkept) hle
  issued := h.issued
  apart := h.apart

/-- The next compilation has an identity that none in the store has. -/
theorem IsOrderly.keepNext (h : store.IsOrderly) (hstate : state.stamp < store.nextStamp) :
    (store.keepNext state project documents).IsOrderly where
  states := List.forall_mem_cons.mpr ⟨hstate, h.states⟩
  issued := List.forall_mem_cons.mpr
    ⟨Nat.lt_succ_self _, fun kept hkept => Nat.lt_succ_of_lt (h.issued kept hkept)⟩
  apart := by
    refine List.nodup_cons.mpr ⟨fun hmem => ?_, h.apart⟩
    obtain ⟨kept, hkept, hid⟩ := List.mem_map.mp hmem
    have hlt := h.issued kept hkept
    rw [hid] at hlt
    exact absurd hlt (Nat.lt_irrefl _)

theorem IsOrderly.eq_of_id (h : store.IsOrderly) (hc : store.find? state = some c)
    (hc' : store.find? state' = some c') (hid : c.id = c'.id) : state = state' := by
  have hpairs := List.inj_on_of_nodup_map h.apart (mem_of_find? hc) (mem_of_find? hc') hid
  exact congrArg Prod.fst hpairs

@[simp]
theorem find?_keepNext_self : (store.keepNext state project documents).find? state =
    some (store.next project documents) :=
  List.lookup_cons_self

/-- Keeping a compilation for a new state hides none that was kept before. -/
theorem keptIn_keepNext (hnone : store.find? state = none) :
    store.KeptIn (store.keepNext state project documents) := by
  intro state' c hc
  have hne : state' ≠ state := by
    rintro rfl
    rw [hnone] at hc
    cases hc
  rw [find?, keepNext, keep, List.lookup_cons, beq_false_of_ne hne]
  exact hc

end Store

namespace Consistent

variable {store : Store} {snapshots : List Solution} {s next : Solution}

/-- Nothing is inconsistent before the first snapshot. -/
theorem start : Consistent .empty [.empty] where
  wellFormed s hs := by
    rw [List.mem_singleton.mp hs]
    exact .empty
  stamped s hs p hp := by
    rw [List.mem_singleton.mp hs] at hp
    exact absurd hp List.not_mem_nil
  orderly := .empty
  agree s hs p hp := by
    rw [List.mem_singleton.mp hs] at hp
    exact absurd hp List.not_mem_nil
  served _ _ _ _ _ hc := absurd hc List.not_mem_nil

/-- An edit under fresh stamps keeps everything consistent. -/
theorem edit (h : Consistent store snapshots) (hs : s ∈ snapshots) {id : ProjectId}
    {stamp limit : Nat} (hedit : s.EditOf next id ⟨stamp⟩) (hnext : next.WellFormed)
    (hstamp : store.nextStamp ≤ stamp) (hlimit : stamp < limit) :
    Consistent { store with nextStamp := limit } (next :: snapshots) := by
  -- A project is as in an earlier snapshot, or it is the one that was edited.
  have hcases : ∀ s' ∈ next :: snapshots, ∀ p ∈ s'.projects,
      (∃ old ∈ snapshots, p ∈ old.projects ∧ s'.trees p = old.trees p) ∨
        s' = next ∧ p.id = id ∧ p.state = ⟨stamp⟩ := by
    intro s' hs' p hp
    obtain rfl | hs' := List.mem_cons.mp hs'
    · by_cases hid : p.id = id
      · exact .inr ⟨rfl, hid, hedit.renewed p hp hid⟩
      · exact .inl ⟨s, hs, hedit.others p hp hid⟩
    · exact .inl ⟨s', hs', hp, rfl⟩
  have hfresh : ∀ old ∈ snapshots, ∀ p ∈ old.projects, p.state ≠ ⟨stamp⟩ := by
    intro old hold p hp hstate
    have hlt : p.state.stamp < store.nextStamp := h.stamped old hold p hp
    have hstamp' : p.state.stamp = stamp := congrArg StateId.stamp hstate
    omega
  constructor
  · exact List.forall_mem_cons.mpr ⟨hnext, h.wellFormed⟩
  · intro s' hs' p hp
    obtain ⟨old, hold, hp, _⟩ | ⟨_, _, hstate⟩ := hcases s' hs' p hp
    · have hlt : p.state.stamp < store.nextStamp := h.stamped old hold p hp
      show p.state.stamp < limit
      omega
    · rw [hstate]
      exact hlimit
  · exact h.orderly.advance (by omega)
  · intro s₁ hs₁ p hp s₂ hs₂ p' hp' hstate
    obtain ⟨old, hold, hp, htrees⟩ | ⟨rfl, hid, hnew⟩ := hcases s₁ hs₁ p hp
    · obtain ⟨old', hold', hp', htrees'⟩ | ⟨_, _, hnew'⟩ := hcases s₂ hs₂ p' hp'
      · rw [htrees, htrees']
        exact h.agree old hold p hp old' hold' p' hp' hstate
      · exact absurd (hstate.trans hnew') (hfresh old hold p hp)
    · obtain ⟨old', hold', hp', _⟩ | ⟨rfl, hid', _⟩ := hcases s₂ hs₂ p' hp'
      · exact absurd (hstate.symm.trans hnew) (hfresh old' hold' p' hp')
      · have hsame : p = p' :=
          Option.some.inj
            ((hnext.project? hp).symm.trans
              ((congrArg _ (hid.trans hid'.symm)).trans (hnext.project? hp')))
        rw [hsame]
        exact ⟨rfl, rfl⟩
  · intro s' hs' p hp c hc
    obtain ⟨old, hold, hp, htrees⟩ | ⟨_, _, hstate⟩ := hcases s' hs' p hp
    · have hserved := h.served old hold p hp c hc
      exact ⟨hserved.project, hserved.documents.trans htrees.symm, htrees ▸ hserved.table⟩
    · have hlt : p.state.stamp < store.nextStamp := h.orderly.states _ hc
      rw [hstate] at hlt
      exact absurd hlt (Nat.not_lt_of_le hstamp)

/-- A request is answered with a compilation of the trees of the project, which is in its place
from then on. -/
theorem compilation_run (h : Consistent store snapshots) (hs : s ∈ snapshots) {id : ProjectId}
    {p : Project} (hp : s.project? id = some p) :
    ∃ c store', (s.compilation id).run store = (.ok c, store') ∧ c.IsOf s p ∧
      Consistent store' snapshots ∧ store'.find? p.state = some c ∧ store.KeptIn store' := by
  obtain ⟨hmem, rfl⟩ := Solution.project?_some hp
  have hrun := @Solution.compilation_run s store p.id p hp
  cases hfind : store.find? p.state with
  | some c =>
    rw [hfind] at hrun
    exact ⟨c, store, hrun, h.served s hs p hmem c (Store.mem_of_find? hfind), h, hfind, .refl store⟩
  | none =>
    rw [hfind] at hrun
    refine ⟨_, _, hrun, ⟨rfl, rfl, rfl⟩, ⟨h.wellFormed, h.stamped, ?_, h.agree, ?_⟩,
      Store.find?_keepNext_self, Store.keptIn_keepNext hfind⟩
    · exact h.orderly.keepNext (h.stamped s hs p hmem)
    · intro s' hs' p' hp' c hc
      obtain heq | hc := List.mem_cons.mp hc
      · -- The new compilation serves all projects in the state that it was built for.
        obtain ⟨hstate, rfl⟩ := Prod.mk.inj heq
        obtain ⟨hsame, htrees⟩ := h.agree s hs p hmem s' hs' p' hp' hstate.symm
        exact ⟨hsame, htrees, congrArg SymbolTable.build htrees⟩
      · exact h.served s' hs' p' hp' c hc

/-- A document gets another tree under fresh stamps. -/
theorem replaceTree (h : Consistent store snapshots) (hs : s ∈ snapshots) {d : Document}
    (hd : d ∈ s.documents) (tree : Tree) :
    Consistent { store with nextStamp := store.nextStamp + 2 }
      (s.withTree d tree ⟨store.nextStamp + 1⟩ :: snapshots) :=
  h.edit hs (Solution.editOf_withTree (h.wellFormed s hs) hd tree _)
    ((h.wellFormed s hs).withTree tree _)
    (Nat.le_succ _) (Nat.lt_succ_self _)

/-- A new tree makes a new state, for which nothing has been kept. -/
theorem of_replaceTree (h : Consistent store snapshots) (hs : s ∈ snapshots) {id : DocumentId}
    {tree : TreeId → Tree} {store' : Store}
    (hrun : (s.replaceTree id tree).run store = (.ok next, store')) :
    Consistent store' (next :: snapshots) := by
  cases hd : s.document? id with
  | none =>
    rw [Solution.replaceTree, hd] at hrun
    cases hrun
  | some d =>
    rw [Solution.replaceTree_run hd] at hrun
    cases hrun
    exact h.replaceTree hs (Solution.document?_some hd).1 _

end Consistent

/-- Whatever has happened, the store and the snapshots fit together. -/
theorem History.consistent {store : Store} {snapshots : List Solution}
    (h : History store snapshots) : Consistent store snapshots := by
  induction h with
  | start => exact .start
  | project _ hs hrun ih =>
    rw [Solution.addProject_run] at hrun
    cases hrun
    exact ih.edit hs (Solution.editOf_withProject (ih.wellFormed _ hs) _ _)
      ((ih.wellFormed _ hs).withProject _ _)
      (Nat.le_refl _) (Nat.lt_succ_self _)
  | @document store _ _ s _ project name text _ _ hs hrun ih =>
    obtain ⟨e, herror⟩ | ⟨p, hp, _, hok⟩ := s.addDocument_run project name text store
    · rw [herror] at hrun
      cases hrun
    · rw [hok] at hrun
      cases hrun
      exact ih.edit hs (Solution.editOf_withDocument (ih.wellFormed _ hs) _ _ _)
        ((ih.wellFormed _ hs).withDocument _ _ _ ⟨p, Solution.project?_some hp⟩) (Nat.le_succ _)
        (Nat.lt_succ_self _)
  | text _ hs hrun ih => exact ih.of_replaceTree hs hrun
  | root _ hs hrun ih => exact ih.of_replaceTree hs hrun
  | @compilation store store' _ s id c _ hs hrun ih =>
    cases hp : s.project? id with
    | none =>
      rw [Solution.compilation, hp] at hrun
      cases hrun
    | some p =>
      obtain ⟨_, _, hok, _, hconsistent, _⟩ := ih.compilation_run hs hp
      rw [hok] at hrun
      cases hrun
      exact hconsistent

/-! ## One document -/

/-- A project of one document. -/
def Project.single : Project :=
  ⟨⟨0⟩, "project", [⟨0⟩], ⟨2⟩⟩

/-- A snapshot with one project of one document. -/
def Solution.ofText (text : String) : Solution where
  version := 2
  projects := [.single]
  documents := [⟨⟨0⟩, ⟨0⟩, "document", .ofText ⟨1⟩ text⟩]
  nextProject := 1
  nextDocument := 1

/-- The first compilation of it. -/
def Compilation.ofText (text : String) : Compilation :=
  .build ⟨0⟩ ⟨0⟩ ((Solution.ofText text).trees .single)

theorem History.ofText (text : String) :
    History ⟨3, 0, []⟩ [.ofText text, Solution.empty.withProject "project" ⟨0⟩, .empty] := by
  have hadd : ((Solution.empty.withProject "project" ⟨0⟩).addDocument ⟨0⟩ "document" text).run
      ⟨1, 0, []⟩ =
      (.ok (.ofText text, ⟨0⟩), ⟨3, 0, []⟩) := rfl
  exact .document (.project .start List.mem_cons_self rfl) List.mem_cons_self hadd

end AutoProperty
