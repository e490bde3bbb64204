import AutoProperty.Proofs.Workspace.Changes

/-! # Sessions

In a session snapshots branch: a change may be made from any snapshot so far, and compilations
may be asked of any of them at any time. The answer is always over the trees that the snapshot
holds, and it is what the store has kept for the state of the project since the first request.
So two snapshots share a compilation exactly if nothing has happened to the project since their
ways parted.
-/

namespace AutoProperty

/-- What happens in a session. Snapshots go by number, in the order in which they were made. -/
inductive Event where
  | change (base : Nat) (change : Change)
  | request (snapshot : Nat) (project : ProjectId)

/-- The snapshot that was changed, and the change. -/
structure Origin where
  base : Nat
  change : Change

/-- A snapshot with the way in which it was made; the empty one, with which a session starts,
has no origin. -/
structure Snapshot where
  solution : Solution
  origin? : Option Origin

/-- What a request for a compilation was answered with. -/
structure Answer where
  snapshot : Nat
  project : ProjectId
  compilation : Compilation

structure Session where
  store : Store
  snapshots : List Snapshot
  answers : List Answer

namespace Session

def start : Session := ⟨.empty, [⟨.empty, none⟩], []⟩

/-- What is refused, or asked of a snapshot that does not exist, adds neither a snapshot nor an
answer. -/
def step (session : Session) : Event → Session
  | .change base change =>
    match session.snapshots[base]? with
    | none => session
    | some snapshot =>
      match (snapshot.solution.make change).run session.store with
      | (.ok next, store) =>
        { session with store, snapshots := session.snapshots ++ [⟨next, some ⟨base, change⟩⟩] }
      | (.error _, store) => { session with store }
  | .request number project =>
    match session.snapshots[number]? with
    | none => session
    | some snapshot =>
      match (snapshot.solution.compilation project).run session.store with
      | (.ok c, store) =>
        { session with store, answers := session.answers ++ [⟨number, project, c⟩] }
      | (.error _, store) => { session with store }

/-- The session in which the events happen one after the other. -/
def run (events : List Event) : Session :=
  events.foldl step start

variable (session : Session)

/-! ## Ancestors -/

def origin? (n : Nat) : Option Origin :=
  session.snapshots[n]?.bind (·.origin?)

/-- The snapshots on the way to a snapshot, itself first and the empty one last. -/
def lineage (n : Nat) : List Nat :=
  match session.origin? n with
  | some origin => if origin.base < n then n :: lineage origin.base else [n]
  | none => [n]
termination_by n

/-- The last snapshot that is on the way to both. -/
def lastCommon? (i j : Nat) : Option Nat :=
  (session.lineage i).find? fun n => (session.lineage j).contains n

/-- The snapshots that were made after `a` on the way to `n`. -/
def madeSince (a n : Nat) : List Nat :=
  (session.lineage n).takeWhile (· != a)

/-- The change that made a snapshot added a document to the project or replaced one of its
documents. -/
def touches (project : ProjectId) (n : Nat) : Bool :=
  match session.origin? n with
  | some origin => session.snapshots[origin.base]?.any fun base =>
      decide (origin.change.project? base.solution = some project)
  | none => false

end Session

/-! ## What a change does to the projects -/

namespace Solution

variable {s next : Solution} {change : Change} {state : StateId} {p : Project}

/-- A project is new, or one is in the new state. -/
theorem Made.projects_eq (h : s.Made state change next) :
    change.project? s = none ∧ (∃ new, next.projects = s.projects ++ [new]) ∨
      ∃ id documents, change.project? s = some id ∧
      next.projects = s.renewProject id state documents := by
  cases h with
  | project name => exact .inl ⟨rfl, _, rfl⟩
  | document tree _ _ => exact .inr ⟨_, _, rfl, projects_withDocument ..⟩
  | @text id d content tree hd =>
    have hproject : s.projectOf? id = some d.project := congrArg (Option.map Document.project) hd
    exact .inr ⟨_, _, hproject, projects_withTree ..⟩
  | @root id d content tree hd =>
    have hproject : s.projectOf? id = some d.project := congrArg (Option.map Document.project) hd
    exact .inr ⟨_, _, hproject, projects_withTree ..⟩

/-- A project is as it was unless the change concerns it. -/
theorem Made.kept (h : s.Made state change next) (hp : p ∈ s.projects)
    (hne : change.project? s ≠ some p.id) : p ∈ next.projects := by
  rcases h.projects_eq with ⟨_, new, hnew⟩ | ⟨id, documents, hid, hrenewed⟩
  · rw [hnew]
    exact List.mem_append_left _ hp
  · rw [hrenewed]
    exact mem_renewProject.mpr (.inl ⟨fun heq => hne (heq ▸ hid), hp⟩)

/-- The project that a change concerns is in the new state. -/
theorem Made.renewed (h : s.Made state change next) (hp : p ∈ next.projects)
    (heq : change.project? s = some p.id) : p.state = state := by
  rcases h.projects_eq with ⟨hnone, _⟩ | ⟨id, documents, hid, hrenewed⟩
  · rw [hnone] at heq
    cases heq
  · rw [hrenewed] at hp
    rcases mem_renewProject.mp hp with ⟨hne, _⟩ | ⟨_, _, _, _, rfl⟩
    · exact absurd (Option.some.inj (heq.symm.trans hid)) hne
    · rfl

/-- No change takes a project away. -/
theorem Made.exists_project (h : s.Made state change next) (hp : p ∈ s.projects) :
    ∃ q ∈ next.projects, q.id = p.id := by
  rcases h.projects_eq with ⟨_, new, hnew⟩ | ⟨id, documents, _, hrenewed⟩
  · exact ⟨p, hnew ▸ List.mem_append_left _ hp, rfl⟩
  · have hmem : p.id ∈ s.projects.map (·.id) := List.mem_map_of_mem hp
    rw [← map_id_renewProject s id state documents, ← hrenewed] at hmem
    exact List.mem_map.mp hmem

end Solution

/-- The history goes on with each change that is made. -/
theorem History.made {store store' : Store} {snapshots : List Solution} {s next : Solution}
    {change : Change} (h : History store snapshots) (hs : s ∈ snapshots)
    (hrun : (s.make change).run store = (.ok next, store')) :
    History store' (next :: snapshots) := by
  cases change with
  | project name =>
    cases hrun
    exact .project h hs rfl
  | document id name content =>
    rw [Solution.make, run_bind_eq_ok] at hrun
    obtain ⟨⟨made, new⟩, store₁, hadd, hpure⟩ := hrun
    cases hpure
    exact .document h hs hadd
  | text id content => exact .text h hs hrun
  | root id content => exact .root h hs hrun

namespace Session

/-! ## What every event keeps -/

/-- A snapshot comes from an earlier one. What the change did not concern is as it was there,
and what it did concern is in a state that no earlier snapshot has. -/
structure ComesFrom (session : Session) (n : Nat) (next : Solution) (origin : Origin)
    (base : Snapshot) : Prop where
  base_lt : origin.base < n
  found : session.snapshots[origin.base]? = some base
  kept : ∀ p ∈ base.solution.projects, origin.change.project? base.solution ≠ some p.id →
    p ∈ next.projects
  renewed : ∀ p ∈ next.projects, origin.change.project? base.solution = some p.id →
    ∀ k < n, ∀ earlier : Snapshot, session.snapshots[k]? = some earlier →
    ∀ q ∈ earlier.solution.projects, q.state ≠ p.state
  projects : ∀ p ∈ base.solution.projects, ∃ q ∈ next.projects, q.id = p.id

/-- The answer is over the trees that the snapshot holds, and still in the store. -/
def IsRight (session : Session) (answer : Answer) : Prop :=
  ∃ snapshot p, session.snapshots[answer.snapshot]? = some snapshot ∧
    snapshot.solution.project? answer.project = some p ∧
    answer.compilation.IsOf snapshot.solution p ∧
    session.store.find? p.state = some answer.compilation

structure IsSound (session : Session) : Prop where
  history : History session.store (session.snapshots.map (·.solution)).reverse
  origins : ∀ (n : Nat) (snapshot : Snapshot), session.snapshots[n]? = some snapshot →
    match snapshot.origin? with
    | none => n = 0
    | some origin => ∃ base, session.ComesFrom n snapshot.solution origin base
  answers : ∀ answer ∈ session.answers, session.IsRight answer

variable {session : Session}

theorem mem_history {n : Nat} {snapshot : Snapshot} (h : session.snapshots[n]? = some snapshot) :
    snapshot.solution ∈ (session.snapshots.map (·.solution)).reverse :=
  List.mem_reverse.mpr (List.mem_map_of_mem (List.mem_of_getElem? h))

theorem isSound_start : start.IsSound where
  history := .start
  origins n snapshot h := by
    rcases List.mem_singleton.mp (List.mem_of_getElem? h)
    have hlt : n < 1 := (List.getElem?_eq_some_iff.mp h).1
    omega
  answers _ h := absurd h List.not_mem_nil

/-- A snapshot is in its place also when there are more. -/
theorem getElem?_more {n : Nat} {snapshot : Snapshot} (h : session.snapshots[n]? = some snapshot)
    (more : List Snapshot) : (session.snapshots ++ more)[n]? = some snapshot := by
  rw [List.getElem?_append_left (List.getElem?_eq_some_iff.mp h).1, h]

/-- A change adds a snapshot, and all answers stay right. -/
theorem IsSound.change (h : session.IsSound) {base : Nat} {snapshot : Snapshot} {change : Change}
    {next : Solution} {store : Store} (hbase : session.snapshots[base]? = some snapshot)
    (hrun : (snapshot.solution.make change).run session.store = (.ok next, store)) :
    IsSound
      { session with store, snapshots := session.snapshots ++ [⟨next, some ⟨base, change⟩⟩] } where
  history := by
    rw [List.map_append, List.reverse_append]
    exact h.history.made (mem_history hbase) hrun
  origins n made hmade := by
    obtain ⟨stamp, _, hstamp, hchange⟩ := Solution.made_of_make hrun
    rcases Nat.lt_trichotomy n session.snapshots.length with hlt | rfl | hlt
    · -- An earlier snapshot has the origin that it had.
      rw [List.getElem?_append_left hlt] at hmade
      have hold := h.origins n made hmade
      cases horigin : made.origin? with
      | none =>
        rw [horigin] at hold
        exact hold
      | some origin =>
        rw [horigin] at hold
        obtain ⟨from', hfrom⟩ := hold
        refine ⟨from', hfrom.base_lt, getElem?_more hfrom.found _, hfrom.kept, ?_, hfrom.projects⟩
        intro p hp hconcerned k hk earlier hearlier
        rw [List.getElem?_append_left (by omega)] at hearlier
        exact hfrom.renewed p hp hconcerned k hk earlier hearlier
    · -- The new snapshot was made under a stamp that no project has yet.
      rw [List.getElem?_concat_length] at hmade
      cases hmade
      have hlt : base < session.snapshots.length := (List.getElem?_eq_some_iff.mp hbase).1
      refine ⟨snapshot, hlt, getElem?_more hbase _, fun p => hchange.kept, ?_,
        fun p => hchange.exists_project⟩
      intro p hp hconcerned k hk earlier hearlier q hq hstate
      rw [List.getElem?_append_left hk] at hearlier
      have hold : q.state.stamp < session.store.nextStamp :=
        h.history.consistent.stamped _ (mem_history hearlier) q hq
      have hnew : q.state.stamp = stamp :=
        congrArg StateId.stamp (hstate.trans (hchange.renewed hp hconcerned))
      omega
    · have := (List.getElem?_eq_some_iff.mp hmade).1
      rw [List.length_append, List.length_singleton] at this
      omega
  answers answer hanswer := by
    obtain ⟨_, hstore, _⟩ := Solution.made_of_make hrun
    obtain ⟨asked, p, hasked, hp, hover, hkept⟩ := h.answers answer hanswer
    exact ⟨asked, p, getElem?_more hasked _, hp, hover, hstore ▸ hkept⟩

/-- A project that the snapshot has is compiled, and the session goes on with a store that has
the compilation beside all that it had. -/
theorem IsSound.compilation_run (h : session.IsSound) {n : Nat} {snapshot : Snapshot}
    {id : ProjectId} {p : Project} (hsnapshot : session.snapshots[n]? = some snapshot)
    (hp : snapshot.solution.project? id = some p) :
    ∃ c store, (snapshot.solution.compilation id).run session.store = (.ok c, store) ∧
      c.IsOf snapshot.solution p ∧ store.find? p.state = some c ∧ session.store.KeptIn store :=
  let ⟨c, store, hrun, hover, _, hkept⟩ :=
    h.history.consistent.compilation_run (mem_history hsnapshot) hp
  ⟨c, store, hrun, hover, hkept⟩

/-- A request adds an answer, which is right, as all earlier ones are. -/
theorem IsSound.request (h : session.IsSound) {n : Nat} {snapshot : Snapshot} {id : ProjectId}
    {c : Compilation} {store : Store} (hsnapshot : session.snapshots[n]? = some snapshot)
    (hrun : (snapshot.solution.compilation id).run session.store = (.ok c, store)) :
    IsSound { session with store, answers := session.answers ++ [⟨n, id, c⟩] } where
  history := .compilation h.history (mem_history hsnapshot) hrun
  origins n' snapshot' hsnapshot' := by
    have hold := h.origins n' snapshot' hsnapshot'
    cases horigin : snapshot'.origin? with
    | none =>
      rw [horigin] at hold
      exact hold
    | some origin =>
      rw [horigin] at hold
      obtain ⟨base, hbase⟩ := hold
      exact ⟨base, hbase.base_lt, hbase.found, hbase.kept, hbase.renewed, hbase.projects⟩
  answers answer hanswer := by
    cases hp : snapshot.solution.project? id with
    | none =>
      rw [Solution.compilation, hp] at hrun
      cases hrun
    | some p =>
      obtain ⟨_, _, hok, hover, hfound, hkept⟩ := h.compilation_run hsnapshot hp
      rw [hok] at hrun
      cases hrun
      rcases List.mem_append.mp hanswer with hanswer | hanswer
      · obtain ⟨asked, q, hasked, hq, hover', hfound'⟩ := h.answers answer hanswer
        exact ⟨asked, q, hasked, hq, hover', hkept _ _ hfound'⟩
      · rw [List.mem_singleton.mp hanswer]
        exact ⟨snapshot, p, hsnapshot, hp, hover, hfound⟩

/-- Each event keeps a session sound. -/
theorem IsSound.step (h : session.IsSound) (event : Event) : (session.step event).IsSound := by
  cases event with
  | change base change =>
    unfold Session.step
    dsimp only
    cases hbase : session.snapshots[base]? with
    | none => exact h
    | some snapshot =>
      dsimp only
      cases hrun : (snapshot.solution.make change).run session.store with
      | mk result store =>
        cases result with
        | ok next => exact h.change hbase hrun
        | error e =>
          rw [Solution.store_of_refused hrun]
          exact h
  | request n id =>
    unfold Session.step
    dsimp only
    cases hsnapshot : session.snapshots[n]? with
    | none => exact h
    | some snapshot =>
      dsimp only
      cases hrun : (snapshot.solution.compilation id).run session.store with
      | mk result store =>
        cases result with
        | ok c => exact h.request hsnapshot hrun
        | error e =>
          cases hp : snapshot.solution.project? id with
          | none =>
            rw [Solution.compilation, hp] at hrun
            cases hrun
            exact h
          | some p =>
            obtain ⟨_, _, hok, _⟩ := h.compilation_run hsnapshot hp
            rw [hok] at hrun
            cases hrun

/-- Every session is sound. -/
theorem isSound_run (events : List Event) : (run events).IsSound := by
  suffices h : ∀ session : Session, session.IsSound →
    (events.foldl Session.step session).IsSound from
    h start isSound_start
  induction events with
  | nil => exact fun _ h => h
  | cons event events ih => exact fun session h => ih _ (h.step event)

/-! ## The way to a snapshot -/

theorem exists_origin {n : Nat} {origin : Origin} (h : session.origin? n = some origin) :
    ∃ snapshot, session.snapshots[n]? = some snapshot ∧ snapshot.origin? = some origin :=
  Option.bind_eq_some_iff.mp h

theorem IsSound.comesFrom (h : session.IsSound) {n : Nat} {snapshot : Snapshot} {origin : Origin}
    (hsnapshot : session.snapshots[n]? = some snapshot)
    (horigin : session.origin? n = some origin) :
    ∃ base, session.ComesFrom n snapshot.solution origin base := by
  obtain ⟨_, hsnapshot', horigin'⟩ := exists_origin horigin
  rw [hsnapshot] at hsnapshot'
  cases hsnapshot'
  have hfrom := h.origins n snapshot hsnapshot
  rw [horigin'] at hfrom
  exact hfrom

theorem lineage_of_none {n : Nat} (h : session.origin? n = none) : session.lineage n = [n] := by
  rw [lineage, h]

theorem lineage_of_some {n : Nat} {origin : Origin} (h : session.origin? n = some origin)
    (hlt : origin.base < n) : session.lineage n = n :: session.lineage origin.base := by
  rw [lineage, h]
  exact if_pos hlt

/-- A snapshot has no earlier one on its way, or it comes next to the way to one. -/
theorem lineage_cases (session : Session) (n : Nat) : session.lineage n = [n] ∨
    ∃ origin, session.origin? n = some origin ∧ origin.base < n ∧
      session.lineage n = n :: session.lineage origin.base := by
  cases horigin : session.origin? n with
  | none => exact .inl (lineage_of_none horigin)
  | some origin =>
    by_cases hlt : origin.base < n
    · exact .inr ⟨origin, rfl, hlt, lineage_of_some horigin hlt⟩
    · left
      rw [lineage, horigin]
      exact if_neg hlt

theorem mem_lineage_self (session : Session) (n : Nat) : n ∈ session.lineage n := by
  rcases session.lineage_cases n with heq | ⟨_, _, _, heq⟩ <;> simp [heq]

/-- The way to a snapshot goes back through smaller and smaller numbers. -/
theorem le_of_mem_lineage {a : Nat} (n : Nat) (h : a ∈ session.lineage n) : a ≤ n := by
  induction n using Nat.strongRecOn with
  | _ n ih =>
    rcases session.lineage_cases n with heq | ⟨origin, _, hlt, heq⟩
    · rw [heq] at h
      exact Nat.le_of_eq (List.mem_singleton.mp h)
    · rw [heq] at h
      rcases List.mem_cons.mp h with rfl | h
      · exact Nat.le_refl _
      · have := ih origin.base hlt h
        omega

/-- A snapshot comes later than those it was made from. -/
theorem pairwise_lineage (session : Session) (n : Nat) : (session.lineage n).Pairwise (· > ·) := by
  induction n using Nat.strongRecOn with
  | _ n ih =>
    rcases session.lineage_cases n with heq | ⟨origin, _, hlt, heq⟩
    · rw [heq]
      exact List.pairwise_singleton ..
    · rw [heq]
      refine List.pairwise_cons.mpr ⟨fun a ha => ?_, ih origin.base hlt⟩
      have := le_of_mem_lineage origin.base ha
      omega

/-- No snapshot on the way to both comes behind the last common one. -/
theorem le_of_lastCommon? {i j a b : Nat} (h : session.lastCommon? i j = some a)
    (hi : b ∈ session.lineage i) (hj : b ∈ session.lineage j) : b ≤ a := by
  obtain ⟨_, before, after, hsplit, hnot⟩ := List.find?_eq_some_iff_append.mp h
  have hpairwise := session.pairwise_lineage i
  rw [hsplit] at hi hpairwise
  rcases List.mem_append.mp hi with hbefore | hafter
  · have := hnot b hbefore
    simp [hj] at this
  · rcases List.mem_cons.mp hafter with rfl | hafter
    · exact Nat.le_refl _
    · exact Nat.le_of_lt (List.rel_of_pairwise_cons (List.pairwise_append.mp hpairwise).2.1 hafter)

theorem mem_of_lastCommon? {i j a : Nat} (h : session.lastCommon? i j = some a) :
    a ∈ session.lineage i ∧ a ∈ session.lineage j :=
  ⟨List.mem_of_find?_eq_some h, by simpa using List.find?_some h⟩

/-- All ways lead back to the empty snapshot. -/
theorem IsSound.zero_mem_lineage (h : session.IsSound) {n : Nat}
    (hlt : n < session.snapshots.length) : 0 ∈ session.lineage n := by
  induction n using Nat.strongRecOn with
  | _ n ih =>
    have hsnapshot := List.getElem?_eq_getElem hlt
    cases horigin : session.origin? n with
    | none =>
      have hfirst := h.origins n _ hsnapshot
      rw [show session.snapshots[n].origin? = none by simpa [origin?, hsnapshot] using horigin]
        at hfirst
      rw [lineage_of_none horigin, hfirst]
      exact List.mem_singleton_self 0
    | some origin =>
      obtain ⟨base, hfrom⟩ := h.comesFrom hsnapshot horigin
      rw [lineage_of_some horigin hfrom.base_lt]
      exact List.mem_cons_of_mem _ (ih _ hfrom.base_lt (List.getElem?_eq_some_iff.mp hfrom.found).1)

theorem IsSound.exists_lastCommon (h : session.IsSound) {i j : Nat}
    (hi : i < session.snapshots.length) (hj : j < session.snapshots.length) :
    ∃ a, session.lastCommon? i j = some a := by
  apply Option.isSome_iff_exists.mp
  apply List.find?_isSome.mpr
  exact ⟨0, h.zero_mem_lineage hi, by simpa using h.zero_mem_lineage hj⟩

theorem madeSince_self (session : Session) (n : Nat) : session.madeSince n n = [] := by
  rcases session.lineage_cases n with heq | ⟨_, _, _, heq⟩ <;> simp [madeSince, heq]

/-- Beyond the snapshot itself, the way to a later one goes through the one that it was made
from. -/
theorem exists_base {a n : Nat} (h : a ∈ session.lineage n) (hne : a ≠ n) : ∃ origin,
    session.origin? n = some origin ∧ origin.base < n ∧ a ∈ session.lineage origin.base ∧
      session.lineage n = n :: session.lineage origin.base ∧
      session.madeSince a n = n :: session.madeSince a origin.base := by
  rcases session.lineage_cases n with heq | ⟨origin, horigin, hlt, heq⟩
  · rw [heq] at h
    exact absurd (List.mem_singleton.mp h) hne
  · rw [heq] at h
    refine ⟨origin, horigin, hlt, (List.mem_cons.mp h).resolve_left hne, heq, ?_⟩
    rw [madeSince, heq, List.takeWhile_cons_of_pos (by simpa using Ne.symm hne)]
    rfl

theorem touches_eq {project : ProjectId} {n : Nat} {next : Solution} {origin : Origin}
    {base : Snapshot} (horigin : session.origin? n = some origin)
    (hfrom : session.ComesFrom n next origin base) :
    session.touches project n = decide (origin.change.project? base.solution = some project) := by
  simp [touches, horigin, hfrom.found]

/-! ## The states of a project -/

variable {a n : Nat} {first last : Snapshot} {id : ProjectId} {p : Project}

/-- A project that nothing has happened to is as it was. -/
theorem IsSound.mem_projects (h : session.IsSound) (hfirst : session.snapshots[a]? = some first)
    (hp : p ∈ first.solution.projects) :
    ∀ n last, session.snapshots[n]? = some last → a ∈ session.lineage n →
      (∀ k ∈ session.madeSince a n, session.touches p.id k = false) →
      p ∈ last.solution.projects := by
  intro n
  induction n using Nat.strongRecOn with
  | _ n ih =>
    intro last hlast hmem huntouched
    by_cases hself : a = n
    · rw [← hself, hfirst] at hlast
      cases hlast
      exact hp
    · obtain ⟨origin, horigin, hlt, hbase, _, hsince⟩ := exists_base hmem hself
      obtain ⟨base, hfrom⟩ := h.comesFrom hlast horigin
      rw [hsince] at huntouched
      obtain ⟨hhere, hbefore⟩ := List.forall_mem_cons.mp huntouched
      rw [touches_eq horigin hfrom] at hhere
      exact hfrom.kept p (ih _ hlt base hfrom.found hbase hbefore) (of_decide_eq_false hhere)

/-- A project stays, whatever happens to it. -/
theorem IsSound.exists_project (h : session.IsSound) (hfirst : session.snapshots[a]? = some first)
    (hp : p ∈ first.solution.projects) :
    ∀ n last, session.snapshots[n]? = some last → a ∈ session.lineage n →
      ∃ q ∈ last.solution.projects, q.id = p.id := by
  intro n
  induction n using Nat.strongRecOn with
  | _ n ih =>
    intro last hlast hmem
    by_cases hself : a = n
    · rw [← hself, hfirst] at hlast
      cases hlast
      exact ⟨p, hp, rfl⟩
    · obtain ⟨origin, horigin, hlt, hbase, _⟩ := exists_base hmem hself
      obtain ⟨base, hfrom⟩ := h.comesFrom hlast horigin
      obtain ⟨q, hq, hid⟩ := ih _ hlt base hfrom.found hbase
      obtain ⟨r, hr, hid'⟩ := hfrom.projects q hq
      exact ⟨r, hr, hid'.trans hid⟩

/-- The state that a project is in came up with a certain snapshot: no earlier one has it. -/
structure BornAt (session : Session) (b : Nat) (p : Project) : Prop where
  present : ∃ snapshot, session.snapshots[b]? = some snapshot ∧ p ∈ snapshot.solution.projects
  first : ∀ k < b, ∀ earlier : Snapshot, session.snapshots[k]? = some earlier →
    ∀ q ∈ earlier.solution.projects, q.state ≠ p.state

/-- A project that something has happened to is in a state that came up on the way. -/
theorem IsSound.exists_bornAt (h : session.IsSound) (hfirst : session.snapshots[a]? = some first)
    (hp : p ∈ first.solution.projects) :
    ∀ n last, session.snapshots[n]? = some last → a ∈ session.lineage n →
      (∃ k ∈ session.madeSince a n, session.touches p.id k = true) → ∀ q ∈ last.solution.projects,
      q.id = p.id → ∃ b ∈ session.lineage n, a < b ∧ session.BornAt b q := by
  intro n
  induction n using Nat.strongRecOn with
  | _ n ih =>
    intro last hlast hmem htouched q hq hid
    by_cases hself : a = n
    · subst hself
      rw [madeSince_self] at htouched
      obtain ⟨k, hk, _⟩ := htouched
      exact absurd hk List.not_mem_nil
    · obtain ⟨origin, horigin, hlt, hbase, hway, hsince⟩ := exists_base hmem hself
      obtain ⟨base, hfrom⟩ := h.comesFrom hlast horigin
      have htouches : session.touches p.id n = _ := touches_eq horigin hfrom
      by_cases hhere : origin.change.project? base.solution = some p.id
      · -- The last change concerned the project, so the state came up right here.
        rw [← hid] at hhere
        have hle := le_of_mem_lineage n hmem
        exact ⟨n, session.mem_lineage_self n, by omega, ⟨last, hlast, hq⟩, hfrom.renewed q hq hhere⟩
      · -- Otherwise it came up before, and the project was the same in the snapshot that was
        -- changed.
        obtain ⟨k, hk, hk'⟩ := htouched
        rw [hsince] at hk
        rcases List.mem_cons.mp hk with rfl | hk
        · rw [htouches] at hk'
          exact absurd (of_decide_eq_true hk') hhere
        · obtain ⟨r, hr, hid'⟩ := h.exists_project hfirst hp _ base hfrom.found hbase
          have hkept := hfrom.kept r hr (hid' ▸ hhere)
          have hwell := h.history.consistent.wellFormed _ (mem_history hlast)
          have hsame : r = q := Option.some.inj
            ((hwell.project? hkept).symm.trans
              ((congrArg _ (hid'.trans hid.symm)).trans (hwell.project? hq)))
          subst hsame
          obtain ⟨b, hb, hab, hborn⟩ := ih _ hlt base hfrom.found hbase ⟨k, hk, hk'⟩ r hr hid'
          exact ⟨b, hway ▸ List.mem_cons_of_mem _ hb, hab, hborn⟩

theorem BornAt.eq_of_state {b b' : Nat} {q q' : Project} (h : session.BornAt b q)
    (h' : session.BornAt b' q') (hstate : q.state = q'.state) : b = b' := by
  obtain ⟨snapshot, hsnapshot, hq⟩ := h.present
  obtain ⟨snapshot', hsnapshot', hq'⟩ := h'.present
  rcases Nat.lt_trichotomy b b' with hlt | heq | hlt
  · exact absurd hstate (h'.first b hlt snapshot hsnapshot q hq)
  · exact heq
  · exact absurd hstate.symm (h.first b' hlt snapshot' hsnapshot' q' hq')

/-- Something has happened to the project on one of the ways from `a`. -/
theorem IsSound.state_ne (h : session.IsSound) {i j : Nat} {x y : Snapshot} {q r : Project}
    (hcommon : ∀ b ∈ session.lineage i, b ∈ session.lineage j → b ≤ a) (hi : a ∈ session.lineage i)
    (hj : a ∈ session.lineage j) (hfirst : session.snapshots[a]? = some first)
    (hp : p ∈ first.solution.projects) (hx : session.snapshots[i]? = some x)
    (hy : session.snapshots[j]? = some y) (hq : q ∈ x.solution.projects)
    (hr : r ∈ y.solution.projects) (hqid : q.id = p.id) (hrid : r.id = p.id)
    (htouched : ∃ k ∈ session.madeSince a i, session.touches p.id k = true) :
    q.state ≠ r.state := by
  intro hstate
  obtain ⟨b, hb, hab, hborn⟩ := h.exists_bornAt hfirst hp i x hx hi htouched q hq hqid
  by_cases hother : ∃ k ∈ session.madeSince a j, session.touches p.id k = true
  · -- Both states came up with one snapshot, which is then on both ways, but behind the last common
    -- one.
    obtain ⟨b', hb', _, hborn'⟩ := h.exists_bornAt hfirst hp j y hy hj hother r hr hrid
    obtain rfl := hborn.eq_of_state hborn' hstate
    have := hcommon b hb hb'
    omega
  · -- The other project is as it was at `a`, before this state came up.
    have huntouched : ∀ k ∈ session.madeSince a j, session.touches p.id k = false :=
      fun k hk => Bool.eq_false_iff.mpr fun htouches => hother ⟨k, hk, htouches⟩
    have hmem := h.mem_projects hfirst hp j y hy hj huntouched
    have hwell := h.history.consistent.wellFormed _ (mem_history hy)
    have hsame : p = r := Option.some.inj
      ((hwell.project? hmem).symm.trans ((congrArg _ hrid.symm).trans (hwell.project? hr)))
    exact hborn.first a hab first hfirst p hp (hsame ▸ hstate.symm)

/-! ## Requests -/

/-- Nothing has happened to a project on the way from `a` to `n`. -/
def IsUntouched (session : Session) (project : ProjectId) (a n : Nat) : Prop :=
  ∀ k ∈ session.madeSince a n, session.touches project k = false

instance (session : Session) (project : ProjectId) (a n : Nat) :
    Decidable (session.IsUntouched project a n) :=
  inferInstanceAs (Decidable (∀ k ∈ session.madeSince a n, session.touches project k = false))

/-- The project is the same on two ways that nothing has happened to it on. -/
theorem IsSound.same_project (h : session.IsSound) {i j : Nat} {x y : Snapshot} {q r : Project}
    (hi : a ∈ session.lineage i) (hj : a ∈ session.lineage j)
    (hfirst : session.snapshots[a]? = some first) (hp : p ∈ first.solution.projects)
    (hx : session.snapshots[i]? = some x) (hy : session.snapshots[j]? = some y)
    (hq : x.solution.project? p.id = some q) (hr : y.solution.project? p.id = some r)
    (huntouched : session.IsUntouched p.id a i ∧ session.IsUntouched p.id a j) : q = r := by
  have hwell := h.history.consistent.wellFormed
  have hpx := h.mem_projects hfirst hp i x hx hi huntouched.1
  have hpy := h.mem_projects hfirst hp j y hy hj huntouched.2
  obtain rfl := Option.some.inj (((hwell _ (mem_history hx)).project? hpx).symm.trans hq)
  exact Option.some.inj (((hwell _ (mem_history hy)).project? hpy).symm.trans hr)

/-- Two snapshots have a project in the same state just if nothing has happened to it since
their ways parted. -/
theorem IsSound.state_eq_iff (h : session.IsSound) {i j : Nat} {x y : Snapshot} {q r : Project}
    (hcommon : session.lastCommon? i j = some a) (hfirst : session.snapshots[a]? = some first)
    (hp : p ∈ first.solution.projects) (hx : session.snapshots[i]? = some x)
    (hy : session.snapshots[j]? = some y) (hq : x.solution.project? p.id = some q)
    (hr : y.solution.project? p.id = some r) :
    q.state = r.state ↔ session.IsUntouched p.id a i ∧ session.IsUntouched p.id a j := by
  obtain ⟨hi, hj⟩ := mem_of_lastCommon? hcommon
  obtain ⟨hqmem, hqid⟩ := Solution.project?_some hq
  obtain ⟨hrmem, hrid⟩ := Solution.project?_some hr
  have hle : ∀ b ∈ session.lineage i, b ∈ session.lineage j → b ≤ a :=
    fun b => le_of_lastCommon? hcommon
  constructor
  · intro hstate
    constructor
    · intro k hk
      apply Bool.eq_false_iff.mpr
      intro htouches
      exact h.state_ne hle hi hj hfirst hp hx hy hqmem hrmem hqid hrid ⟨k, hk, htouches⟩ hstate
    · intro k hk
      apply Bool.eq_false_iff.mpr
      intro htouches
      exact h.state_ne (fun b hb hb' => hle b hb' hb) hj hi hfirst hp hy hx hrmem hqmem hrid hqid
        ⟨k, hk, htouches⟩ hstate.symm
  · intro huntouched
    rw [h.same_project hi hj hfirst hp hx hy hq hr huntouched]

end Session

/-- The compilation is built from the documents of a project, in its order, with the trees that
a snapshot has for them. -/
structure Compilation.IsOver (c : Compilation) (s : Solution) (p : Project) : Prop where
  project : c.project = p.id
  documents : List.Forall₂ (fun id document => document.1 = id ∧
    ∃ d ∈ s.documents, d.id = id ∧ d.project = p.id ∧ document.2 = d.tree) p.documents c.documents
  table : c.table = .build c.documents

/-- A compilation of a project is over the documents that the snapshot has. -/
theorem Compilation.IsOf.isOver {c : Compilation} {s : Solution} {p : Project} (h : c.IsOf s p)
    (hs : s.WellFormed) (hp : p ∈ s.projects) : c.IsOver s p where
  project := h.project
  documents := by
    have hlisted : ∀ id ∈ p.documents, ∃ d ∈ s.documents, d.id = id ∧ d.project = p.id :=
      fun id => (hs.listed p hp id).mp
    rw [h.documents, Solution.trees]
    generalize p.documents = ids at hlisted
    induction ids with
    | nil => exact .nil
    | cons id ids ih =>
      obtain ⟨⟨d, hd, rfl, hproject⟩, hrest⟩ := List.forall_mem_cons.mp hlisted
      rw [List.filterMap_cons_some (b := (d.id, d.tree)) (by simp [hs.document? hd])]
      exact .cons ⟨rfl, d, hd, rfl, hproject, rfl⟩ (ih hrest)
  table := by rw [h.table, h.documents]

theorem Compilation.compilation_of_mem_symbols {c : Compilation} {s : Symbol} (h : s ∈ c.symbols) :
    s.compilation = c.id := by
  obtain ⟨_, _, rfl⟩ := List.mem_map.mp h
  rfl

namespace Session

/-- In every session, a request for a project that the snapshot has is answered, and each answer
is over the trees that the snapshot holds. Two snapshots of which the last common one has the
project get the same compilation, with equal symbols, exactly if no change on the ways from
there concerned the project. -/
theorem run_shares (events : List Event) :
    let session := run events
    (∀ n snapshot, session.snapshots[n]? = some snapshot → ∀ p ∈ snapshot.solution.projects,
      ∃ c, (session.step (.request n p.id)).answers = session.answers ++ [⟨n, p.id, c⟩]) ∧
    (∀ answer ∈ session.answers, ∃ snapshot p, session.snapshots[answer.snapshot]? = some snapshot ∧
      snapshot.solution.project? answer.project = some p ∧
      answer.compilation.IsOver snapshot.solution p) ∧
    (∀ i < session.snapshots.length, ∀ j < session.snapshots.length, ∃ a,
      session.lastCommon? i j = some a) ∧
    ∀ x ∈ session.answers, ∀ y ∈ session.answers, x.project = y.project →
      ∀ a, session.lastCommon? x.snapshot y.snapshot = some a →
      ∀ first, session.snapshots[a]? = some first → (first.solution.project? x.project).isSome →
      let untouched :=
        session.IsUntouched x.project a x.snapshot ∧ session.IsUntouched x.project a y.snapshot
      (x.compilation.id = y.compilation.id ↔ untouched) ∧ (x.compilation = y.compilation ↔
        untouched) ∧
        ∀ u ∈ x.compilation.symbols, ∀ v ∈ y.compilation.symbols, u.same v ↔
        untouched ∧ u.id = v.id := by
  intro session
  have h : session.IsSound := isSound_run events
  refine ⟨?_, ?_, fun i hi j hj => h.exists_lastCommon hi hj, ?_⟩
  · intro n snapshot hsnapshot p hp
    have hproject := (h.history.consistent.wellFormed _ (mem_history hsnapshot)).project? hp
    obtain ⟨c, store, hrun, _⟩ := h.compilation_run hsnapshot hproject
    refine ⟨c, ?_⟩
    unfold step
    simp only [hsnapshot, hrun]
  · intro answer hanswer
    obtain ⟨snapshot, p, hsnapshot, hp, hover, _⟩ := h.answers answer hanswer
    have hwell := h.history.consistent.wellFormed _ (mem_history hsnapshot)
    exact ⟨snapshot, p, hsnapshot, hp, hover.isOver hwell (Solution.project?_some hp).1⟩
  · intro x hx y hy hsame a hcommon first hfirst hproject untouched
    obtain ⟨p, hp⟩ := Option.isSome_iff_exists.mp hproject
    obtain ⟨hp, hid⟩ := Solution.project?_some hp
    obtain ⟨sx, q, hsx, hq, _, hx⟩ := h.answers x hx
    obtain ⟨sy, r, hsy, hr, _, hy⟩ := h.answers y hy
    rw [← hid] at hq
    rw [← hsame, ← hid] at hr
    have hstates := h.state_eq_iff hcommon hfirst hp hsx hsy hq hr
    rw [hid] at hstates
    -- In one state both answers are what the store has for it; elsewhere no identity comes again.
    have hequal : untouched → x.compilation = y.compilation := by
      intro huntouched
      rw [hstates.mpr huntouched, hy] at hx
      exact (Option.some.inj hx).symm
    have hids : x.compilation.id = y.compilation.id ↔ untouched :=
      ⟨fun heq => hstates.mp (h.history.consistent.orderly.eq_of_id hx hy heq),
        fun h => congrArg _ (hequal h)⟩
    refine ⟨hids, ⟨fun heq => hids.mp (congrArg _ heq), hequal⟩, ?_⟩
    intro u hu v hv
    rw [Symbol.same, Bool.and_eq_true, beq_iff_eq, beq_iff_eq, ← hids]
    rw [Compilation.compilation_of_mem_symbols hu, Compilation.compilation_of_mem_symbols hv]

/-- A document is added to one project. Then the ways part: on one of them it gets another text,
on the other one the other project gets a document. -/
def branches : List Event :=
  [.change 0 (.project "p"), .change 1 (.project "q"), .change 2 (.document ⟨0⟩ "A" "class A { }"),
    .request 3 ⟨0⟩, .change 3 (.text ⟨0⟩ "class B { }"),
    .change 3 (.document ⟨1⟩ "C" "class C { }"), .request 5 ⟨0⟩, .request 4 ⟨0⟩]

theorem run_shares_use : ∃ x y z, (run branches).answers = [x, y, z] ∧
    (x.snapshot, y.snapshot, z.snapshot) = (3, 5, 4) ∧ x.compilation = y.compilation ∧
    ∀ u ∈ x.compilation.symbols, ∀ v ∈ z.compilation.symbols, u.same v = false := by
  have hkeys : (run branches).answers.map (fun x => (x.snapshot, x.project)) =
      [(3, ⟨0⟩), (5, ⟨0⟩), (4, ⟨0⟩)] := by
    decide +kernel
  obtain ⟨x, y, z, hanswers⟩ : ∃ x y z, (run branches).answers = [x, y, z] :=
    List.length_eq_three.mp (by simpa using congrArg List.length hkeys)
  have hfirst : (run branches).snapshots[3]?.any
      (fun first => (first.solution.project? ⟨0⟩).isSome) = true := by
    decide +kernel
  obtain ⟨first, hfirst, hproject⟩ := (Option.any_eq_true ..).mp hfirst
  obtain ⟨_, _, _, hshares⟩ := run_shares branches
  rw [hanswers] at hkeys hshares
  obtain ⟨xs, xp, xc⟩ := x
  obtain ⟨ys, yp, yc⟩ := y
  obtain ⟨zs, zp, zc⟩ := z
  simp only [List.map_cons, List.map_nil, List.cons.injEq, Prod.mk.injEq] at hkeys
  obtain ⟨⟨rfl, rfl⟩, ⟨rfl, rfl⟩, ⟨rfl, rfl⟩, _⟩ := hkeys
  have hcommon : (run branches).lastCommon? 3 5 = some 3 ∧
      (run branches).lastCommon? 3 4 = some 3 := by
    decide +kernel
  have huntouched : (run branches).IsUntouched ⟨0⟩ 3 3 ∧ (run branches).IsUntouched ⟨0⟩ 3 5 := by
    decide +kernel
  have htouched : ¬ (run branches).IsUntouched ⟨0⟩ 3 4 := by
    decide +kernel
  obtain ⟨_, hsame, _⟩ :=
    hshares ⟨3, ⟨0⟩, xc⟩ (by simp) ⟨5, ⟨0⟩, yc⟩ (by simp) rfl 3 hcommon.1 first hfirst hproject
  obtain ⟨_, _, hapart⟩ :=
    hshares ⟨3, ⟨0⟩, xc⟩ (by simp) ⟨4, ⟨0⟩, zc⟩ (by simp) rfl 3 hcommon.2 first hfirst hproject
  refine ⟨_, _, _, hanswers, rfl, hsame.mpr huntouched, ?_⟩
  intro u hu v hv
  apply Bool.eq_false_iff.mpr
  intro hequal
  exact htouched ((hapart u hu v hv).mp hequal).1.2

end Session

end AutoProperty
