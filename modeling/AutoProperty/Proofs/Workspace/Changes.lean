import AutoProperty.Proofs.Workspace.Snapshots

/-! # Changes of snapshots

Whatever changes lead to a snapshot, and whatever was refused on the way, its documents are
numbered in the order in which they came, each project lists its own documents and no others,
and the version counts the changes that were made. A change of one document leaves all others as
they were.
-/

namespace AutoProperty

/-- What can be done to a snapshot. -/
inductive Change where
  | project (name : String)
  | document (project : ProjectId) (name content : String)
  | text (document : DocumentId) (content : String)
  | root (document : DocumentId) (content : Node)

namespace Change

/-- The document that gets other content. -/
def target? : Change → Option DocumentId
  | project _ => none
  | document _ _ _ => none
  | text id _ => some id
  | root id _ => some id

/-- The root that a document gets. -/
def content? : Change → Option Node
  | project _ => none
  | document _ _ content => some (parse content).root
  | text _ content => some (parse content).root
  | root _ content => some content

/-- The project that gets another document, or other content for one. -/
def project? (s : Solution) : Change → Option ProjectId
  | project _ => none
  | document id _ _ => some id
  | text id _ => s.projectOf? id
  | root id _ => s.projectOf? id

end Change

namespace Solution

/-- Makes a change, or refuses it. -/
def make (s : Solution) : Change → SolutionM Solution
  | .project name => return (← s.addProject name).1
  | .document project name content => return (← s.addDocument project name content).1
  | .text id content => s.setText id content
  | .root id content => s.setRoot id content

/-- What a change makes of a snapshot: a project is new or in the state `state`, all else stays. -/
inductive Made (s : Solution) (state : StateId) : Change → Solution → Prop where
  | project (name : String) : Made s state (.project name) (s.withProject name state)
  | document {id : ProjectId} {p : Project} {name content : String} (tree : TreeId) :
    s.project? id = some p →
      (∀ listed ∈ p.documents, ∀ d ∈ s.document? listed, d.name ≠ name) →
      Made s state (.document id name content) (s.withDocument id name (.ofText tree content) state)
  | text {id : DocumentId} {d : Document} {content : String} (tree : TreeId) : s.document? id =
    some d →
      Made s state (.text id content) (s.withTree d (.ofText tree content) state)
  | root {id : DocumentId} {d : Document} {content : Node} (tree : TreeId) : s.document? id =
    some d →
      Made s state (.root id content) (s.withTree d (.ofRoot tree content) state)

variable {s next : Solution} {store store' : Store} {change : Change} {state : StateId}
  {count : Nat}

theorem replaceTree_cases (s : Solution) (id : DocumentId) (tree : TreeId → Tree) (store : Store) :
    (∃ e, (s.replaceTree id tree).run store = (.error e, store)) ∨
      ∃ d, s.document? id = some d ∧ (s.replaceTree id tree).run store =
        (.ok (s.withTree d (tree ⟨store.nextStamp⟩) ⟨store.nextStamp + 1⟩),
          { store with nextStamp := store.nextStamp + 2 }) := by
  cases hd : s.document? id with
  | none =>
    left
    rw [replaceTree, hd]
    exact ⟨_, rfl⟩
  | some d => exact .inr ⟨d, rfl, replaceTree_run hd tree⟩

/-- A change is refused, and then nothing happens, or it is made under stamps that are new. -/
theorem make_run (s : Solution) (change : Change) (store : Store) :
    (∃ e, (s.make change).run store = (.error e, store)) ∨
      ∃ next stamp, (s.make change).run store = (.ok next, { store with nextStamp := stamp + 1 }) ∧
        store.nextStamp ≤ stamp ∧ s.Made ⟨stamp⟩ change next := by
  cases change with
  | project name => exact .inr ⟨_, _, rfl, Nat.le_refl _, .project name⟩
  | document id name content =>
    rw [make, run_bind]
    rcases s.addDocument_run id name content store with ⟨e, herror⟩ | ⟨p, hp, hname, hok⟩
    · rw [herror]
      exact .inl ⟨e, rfl⟩
    · rw [hok]
      exact .inr ⟨_, _, rfl, Nat.le_succ _, .document _ hp hname⟩
  | text id content =>
    rcases s.replaceTree_cases id (Tree.ofText · content) store with ⟨e, herror⟩ | ⟨d, hd, hok⟩
    · exact .inl ⟨e, herror⟩
    · exact .inr ⟨_, _, hok, Nat.le_succ _, .text _ hd⟩
  | root id content =>
    rcases s.replaceTree_cases id (Tree.ofRoot · content) store with ⟨e, herror⟩ | ⟨d, hd, hok⟩
    · exact .inl ⟨e, herror⟩
    · exact .inr ⟨_, _, hok, Nat.le_succ _, .root _ hd⟩

/-- A change that is made draws new states only. -/
theorem made_of_make (h : (s.make change).run store = (.ok next, store')) :
    ∃ stamp, store' = { store with nextStamp := stamp + 1 } ∧ store.nextStamp ≤ stamp ∧
      s.Made ⟨stamp⟩ change next := by
  rcases s.make_run change store with ⟨e, herror⟩ | ⟨made, stamp, hok, hstamp, hmade⟩
  · rw [herror] at h
    cases h
  · rw [hok] at h
    cases h
    exact ⟨stamp, rfl, hstamp, hmade⟩

/-- A change that is refused leaves the store as it was. -/
theorem store_of_refused {e : SolutionError} (h : (s.make change).run store = (.error e, store')) :
    store' = store := by
  rcases s.make_run change store with ⟨_, herror⟩ | ⟨_, _, hok, _⟩
  · rw [herror] at h
    cases h
    rfl
  · rw [hok] at h
    cases h

theorem WellFormed.made (hs : s.WellFormed) (h : s.Made state change next) : next.WellFormed := by
  cases h with
  | project name => exact hs.withProject name state
  | document tree hp _ => exact hs.withDocument _ _ _ ⟨_, project?_some hp⟩
  | text tree _ => exact hs.withTree _ _
  | root tree _ => exact hs.withTree _ _

/-! ## What every change keeps -/

/-- Documents are numbered as they came. Each is listed once, in its own project, and a project
lists nothing else; within a project the numbers grow and the names differ. The next numbers are
the numbers of documents and projects so far. -/
structure IsOrderly (s : Solution) : Prop where
  documentIds : s.documents.map (·.id) = (List.range s.documents.length).map DocumentId.mk
  projectIds : s.projects.map (·.id) = (List.range s.projects.length).map ProjectId.mk
  nextDocument : s.nextDocument = s.documents.length
  nextProject : s.nextProject = s.projects.length
  owned : ∀ d ∈ s.documents, ∃ p ∈ s.projects, p.id = d.project ∧ p.documents.count d.id = 1 ∧
    ∀ other ∈ s.projects, other.id ≠ p.id → d.id ∉ other.documents
  listed : ∀ p ∈ s.projects, ∀ id ∈ p.documents, ∃ d ∈ s.documents, d.id = id ∧ d.project = p.id
  increasing : ∀ p ∈ s.projects, p.documents.Pairwise fun a b => a.number < b.number
  names : ∀ d ∈ s.documents, ∀ d' ∈ s.documents, d.project = d'.project → d.name = d'.name → d = d'

/-- The part of the order that the numbering does not give. -/
structure IsSorted (s : Solution) : Prop where
  increasing : ∀ p ∈ s.projects, p.documents.Pairwise fun a b => a.number < b.number
  names : ∀ d ∈ s.documents, ∀ d' ∈ s.documents, d.project = d'.project → d.name = d'.name →
    d.id = d'.id

/-- In a sorted snapshot without gaps, all names are found where they belong. -/
theorem WellFormed.orderly (hs : s.WellFormed) (hsorted : s.IsSorted) : s.IsOrderly where
  documentIds := hs.documentIds
  projectIds := hs.projectIds
  nextDocument := hs.nextDocument
  nextProject := hs.nextProject
  owned d hd := by
    obtain ⟨p, hp, hid⟩ := hs.owned d hd
    have hmem : d.id ∈ p.documents := (hs.listed p hp d.id).mpr ⟨d, hd, rfl, hid.symm⟩
    refine ⟨p, hp, hid, List.count_eq_one_of_mem (hs.nodup p hp) hmem, ?_⟩
    intro other hother hne hlisted
    -- A project that lists the document would be its project.
    obtain ⟨d', hd', heq, hproject⟩ := (hs.listed other hother d.id).mp hlisted
    rw [hs.document_eq hd' hd heq] at hproject
    exact hne (hproject.symm.trans hid.symm)
  listed p hp id hid := (hs.listed p hp id).mp hid
  increasing := hsorted.increasing
  names d hd d' hd' hproject hname :=
  hs.document_eq hd hd' (hsorted.names d hd d' hd' hproject hname)

theorem IsSorted.empty : Solution.empty.IsSorted where
  increasing _ hp := absurd hp List.not_mem_nil
  names _ hd := absurd hd List.not_mem_nil

section Sorted

variable (hs : s.WellFormed) (hsorted : s.IsSorted)
include hsorted

theorem IsSorted.withProject (name : String) : (s.withProject name state).IsSorted where
  increasing p hp := by
    rcases List.mem_append.mp hp with hp | hp
    · exact hsorted.increasing p hp
    · rw [List.mem_singleton.mp hp]
      exact List.Pairwise.nil
  names := hsorted.names

/-- Another tree changes no names. -/
theorem IsSorted.withTree (d : Document) (tree : Tree) : (s.withTree d tree state).IsSorted where
  increasing p hp := by
    rw [projects_withTree] at hp
    rcases mem_renewProject.mp hp with ⟨_, hp⟩ | ⟨_, old, hold, _, rfl⟩
    · exact hsorted.increasing p hp
    · exact hsorted.increasing old hold
  names := by
    -- The documents have the numbers, projects and names that they had.
    have hold : ∀ other ∈ (s.withTree d tree state).documents, ∃ old ∈ s.documents,
        other.id = old.id ∧
        other.project = old.project ∧ other.name = old.name := by
      intro other hother
      obtain ⟨old, hold, rfl⟩ := List.mem_map.mp hother
      refine ⟨old, hold, ?_⟩
      split <;> exact ⟨rfl, rfl, rfl⟩
    intro a ha b hb hproject hname
    obtain ⟨a', ha', hid, hproject', hname'⟩ := hold a ha
    obtain ⟨b', hb', hid', hproject'', hname''⟩ := hold b hb
    rw [hid, hid']
    apply hsorted.names a' ha' b' hb'
    · rw [← hproject', ← hproject'', hproject]
    · rw [← hname', ← hname'', hname]

include hs

/-- A document of a new name keeps the names of a project apart. -/
theorem IsSorted.withDocument {id : ProjectId} {p : Project} {name : String} (tree : Tree)
    (hp : s.project? id = some p)
    (hname : ∀ listed ∈ p.documents, ∀ d ∈ s.document? listed, d.name ≠ name) :
    (s.withDocument id name tree state).IsSorted where
  increasing q hq := by
    rw [projects_withDocument] at hq
    rcases mem_renewProject.mp hq with ⟨_, hq⟩ | ⟨_, old, hold, _, rfl⟩
    · exact hsorted.increasing q hq
    · refine List.pairwise_append.mpr ⟨hsorted.increasing old hold, List.pairwise_singleton _ _, ?_⟩
      -- The new number is the number of documents so far, and all listed ones are below it.
      intro listed hlisted new hnew
      obtain ⟨d, hd, hid, _⟩ := (hs.listed old hold listed).mp hlisted
      rw [List.mem_singleton.mp hnew, ← hid]
      exact hs.id_lt hd
  names := by
    have hfresh : ∀ d ∈ s.documents, d.project = id → d.name ≠ name := by
      intro d hd hproject
      obtain ⟨hmem, hid⟩ := project?_some hp
      apply hname d.id ((hs.listed p hmem d.id).mpr ⟨d, hd, rfl, hproject.trans hid.symm⟩)
      exact hs.document? hd
    intro a ha b hb hproject heq
    rcases List.mem_append.mp ha with ha | ha <;> rcases List.mem_append.mp hb with hb | hb
    · exact hsorted.names a ha b hb hproject heq
    · rw [List.mem_singleton.mp hb] at hproject heq
      exact absurd heq (hfresh a ha hproject)
    · rw [List.mem_singleton.mp ha] at hproject heq
      exact absurd heq.symm (hfresh b hb hproject.symm)
    · rw [List.mem_singleton.mp ha, List.mem_singleton.mp hb]

theorem IsSorted.made (h : s.Made state change next) : next.IsSorted := by
  cases h with
  | project name => exact hsorted.withProject name
  | document tree hp hname => exact hsorted.withDocument hs _ hp hname
  | text tree _ => exact hsorted.withTree _ _
  | root tree _ => exact hsorted.withTree _ _

end Sorted

/-- The snapshots that changes lead to, with the number of changes that were made on the way and
not refused. Each change finds the store as it is by then, whatever else has used it. -/
inductive Reached : Nat → Solution → Prop where
  | empty : Reached 0 .empty
  | refused {count : Nat} {s : Solution} {change : Change} {store store' : Store}
    {e : SolutionError} :
      Reached count s → (s.make change).run store = (.error e, store') → Reached count s
  | made {count : Nat} {s next : Solution} {change : Change} {store store' : Store} : Reached count
    s →
      (s.make change).run store = (.ok next, store') → Reached (count + 1) next

theorem Made.version (h : s.Made state change next) : next.version = s.version + 1 := by
  cases h <;> rfl

/-- What holds of the empty snapshot and is kept by every change holds of all snapshots that are
reached. -/
theorem Reached.invariant (h : Reached count s) :
    s.WellFormed ∧ s.IsSorted ∧ s.version = count := by
  induction h with
  | empty => exact ⟨.empty, .empty, rfl⟩
  | refused _ _ ih => exact ih
  | made _ hrun ih =>
    obtain ⟨hs, hsorted, hversion⟩ := ih
    obtain ⟨_, _, _, hmade⟩ := made_of_make hrun
    exact ⟨hs.made hmade, hsorted.made hs hmade, by rw [hmade.version, hversion]⟩

/-! ## What a change leaves alone -/

/-- What a change does to the documents: at most one gets other content, at most one is new, and
all others stay in their places as they were. -/
structure ChangedBy (change : Change) (s next : Solution) : Prop where
  version : next.version = s.version + 1
  others : ∀ (n : Nat) (d : Document), s.documents[n]? = some d → change.target? ≠ some d.id →
    next.documents[n]? = some d
  target : ∀ (n : Nat) (d : Document), s.documents[n]? = some d → change.target? = some d.id →
    ∃ tree : Tree, next.documents[n]? = some { d with tree } ∧ change.content? = some tree.root
  added : ∀ project name content, change = .document project name content →
    ∃ tree : Tree, next.documents = s.documents ++ [⟨⟨s.documents.length⟩, project, name, tree⟩] ∧
      change.content? = some tree.root
  length : (∀ project name content, change ≠ .document project name content) →
    next.documents.length = s.documents.length

/-- Giving a document another tree changes that document only. -/
theorem changedBy_withTree {id : DocumentId} {d : Document} {tree : Tree}
    (hd : s.document? id = some d) (htarget : change.target? = some id)
    (hcontent : change.content? = some tree.root) :
    ChangedBy change s (s.withTree d tree state) := by
  obtain ⟨_, rfl⟩ := document?_some hd
  have hdocuments (n : Nat) : (s.withTree d tree state).documents[n]? =
      s.documents[n]?.map fun other => if other.id = d.id then { other with tree } else other :=
    List.getElem?_map ..
  constructor
  case version => rfl
  case others =>
    intro n other hother hne
    have hid : other.id ≠ d.id := fun heq => hne (heq ▸ htarget)
    simp [hdocuments, hother, hid]
  case target =>
    intro n other hother heq
    have hid : other.id = d.id := Option.some.inj (heq.symm.trans htarget)
    exact ⟨tree, by simp [hdocuments, hother, hid], hcontent⟩
  case added =>
    rintro project name content rfl
    cases htarget
  case length => exact fun _ => List.length_map ..

/-- A change that is made changes what it is about, and nothing else. -/
theorem Made.changedBy (hs : s.WellFormed) (h : s.Made state change next) :
    ChangedBy change s next := by
  cases h with
  | project name =>
    exact ⟨rfl, fun _ _ hd _ => hd, fun _ _ _ => nofun, fun _ _ _ => nofun, fun _ => rfl⟩
  | @document id p name content tree hp hname =>
    constructor
    case version => rfl
    case others =>
      intro n d hd _
      have hlt := (List.getElem?_eq_some_iff.mp hd).1
      exact (List.getElem?_append_left hlt).trans hd
    case target => exact fun _ _ _ => nofun
    case added =>
      rintro _ _ _ ⟨⟩
      rw [← hs.nextDocument]
      exact ⟨_, rfl, rfl⟩
    case length => exact fun hne => absurd rfl (hne id name content)
  | text tree hd => exact changedBy_withTree hd rfl rfl
  | root tree hd => exact changedBy_withTree hd rfl rfl

/-- Every snapshot that is reached is orderly, its version counts the changes that were made,
and a change of it is refused without a trace or does to the documents just what it says. -/
theorem Reached.isOrderly (h : Reached count s) : s.IsOrderly ∧ s.version = count ∧
    ∀ change store, match (s.make change).run store with
      | (.ok next, _) => ChangedBy change s next
      | (.error _, store') => store' = store := by
  obtain ⟨hs, hsorted, hversion⟩ := h.invariant
  refine ⟨hs.orderly hsorted, hversion, fun change store => ?_⟩
  rcases s.make_run change store with ⟨e, herror⟩ | ⟨next, stamp, hok, _, hmade⟩
  · rw [herror]
  · rw [hok]
    exact hmade.changedBy hs

/-- Two projects with a document of one name each. -/
def twoProjects : Solution :=
  let s := (empty.withProject "p" ⟨0⟩).withProject "q" ⟨1⟩
  (s.withDocument ⟨1⟩ "D" (.ofText ⟨2⟩ "class A { }") ⟨3⟩).withDocument ⟨0⟩ "D"
  (.ofText ⟨4⟩ "class B { }") ⟨5⟩

theorem reached_twoProjects : Reached 4 twoProjects := by
  have hp : Reached 1 (empty.withProject "p" ⟨0⟩) :=
    .made .empty (show (empty.make (.project "p")).run ⟨0, 0, []⟩ = (.ok _, ⟨1, 0, []⟩) from rfl)
  have hq :=
    Reached.made hp
      (show (Solution.make _ (.project "q")).run ⟨1, 0, []⟩ = (.ok _, ⟨2, 0, []⟩) from rfl)
  have ha := Reached.made hq
    (show (Solution.make _ (.document ⟨1⟩ "D" "class A { }")).run ⟨2, 0, []⟩ =
      (.ok _, ⟨4, 0, []⟩) from rfl)
  exact .made ha
    (show (Solution.make _ (.document ⟨0⟩ "D" "class B { }")).run ⟨4, 0, []⟩ =
      (.ok _, ⟨6, 0, []⟩) from rfl)

theorem Reached.isOrderly_use :
    Reached 4 twoProjects ∧ twoProjects.IsOrderly ∧ twoProjects.version = 4 ∧
      twoProjects.projects.map (fun p => p.documents.map (·.number)) = [[1], [0]] := by
  obtain ⟨horderly, hversion, _⟩ := Reached.isOrderly reached_twoProjects
  exact ⟨reached_twoProjects, horderly, hversion, rfl⟩

end Solution

end AutoProperty
