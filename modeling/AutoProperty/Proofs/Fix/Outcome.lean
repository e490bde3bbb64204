import AutoProperty.Proofs.Fix.Stages

/-! # What the fix comes to

Once both declarations are located, nothing but a conflict of names can stop the fix. If it
succeeds, it has changed the documents with the two declarations and those that mention the
field, and nothing else.
-/

namespace AutoProperty

/-- Where documents keep their places, those that changed are the ones whose texts differ. -/
theorem Solution.changedSince_eq {s next : Solution} (hs : s.WellFormed)
    (hids : List.Forall₂ (fun old new : Document => new.id = old.id) s.documents next.documents) :
    next.changedSince s =
      ((s.documents.zip next.documents).filter fun (old, new) => old.text != new.text).map
        (·.1.id) := by
  have hnext : next.documents = (s.documents.zip next.documents).map (·.2) :=
    (List.map_snd_zip (Nat.le_of_eq hids.length_eq.symm)).symm
  have hpair {d : Document × Document} (hd : d ∈ s.documents.zip next.documents) : d.2.id = d.1.id ∧
      d.1 ∈ s.documents :=
    ⟨(List.forall₂_iff_zip.mp hids).2 hd, (List.of_mem_zip hd).1⟩
  rw [changedSince, hnext, List.filter_map, List.map_map, ← hnext]
  rw [List.filter_congr (q := fun d => d.1.text != d.2.text) fun d hd => ?_]
  · refine List.map_congr_left fun d hd => ?_
    exact (hpair (List.mem_filter.mp hd).1).1
  · obtain ⟨hid, hold⟩ := hpair hd
    simp only [Function.comp_apply, hid, hs.document? hold, Option.all_some]

variable {store store' : Store} {snapshots : List Solution} {s : Solution} {cancelled : Bool}
  {f : Finding} {pair : Pair}

/-- The splice of the pair gave `next`. -/
structure Pair.IsSpliced (pair : Pair) (options : FixOptions) (next : Solution) : Prop where
  wellFormed : pair.solution.WellFormed
  wellFormed' : next.WellFormed
  edited : pair.solution.Edited pair.spliced pair.spliced.length next
  run : ∃ store store', (pair.splice options).run store = (.ok (next, pair.path), store')

/-- The fix as a whole, from where both declarations are located. -/
theorem applyFix_run (options : FixOptions) (h : Consistent store snapshots) (hs : s ∈ snapshots)
    (hparsed : s.IsParsed) (hhandled : f.isHandled)
    (hlocate : ((Services.workspace false).locatePair s f).run store = (.ok pair, store')) :
    ∃ outcome store'',
      (s.applyFix (Services.workspace false) f options).run store = (outcome, store'') ∧
      ((∃ conflicts, outcome = .error (.rename (.conflicts conflicts))) ∨ ∃ p pair' p' next,
        pair.solution = s ∧ pair.Stands p ∧ pair.IsRenamed p pair' p' ∧
        pair'.IsSpliced options next ∧ outcome = .ok ⟨next, pair'.path, next.changedSince s⟩) := by
  obtain ⟨_, rfl, hconsistent, p, hstands, hkept⟩ :=
    locatePair_run h hs (fun p _ => hparsed.allParsed p) hlocate
  obtain ⟨outcome, store₂, more, hrename, hconsistent₂, hmore, hcases⟩ :=
    hstands.renameField_run hconsistent hs (hparsed.allParsed p) hkept
  rw [Solution.applyFix, if_neg (by simp [hhandled]), run_bind_of_ok hlocate, run_bind, hrename]
  obtain ⟨conflicts, rfl⟩ | ⟨pair', p', rfl, hmem, hkept', hrenamed⟩ := hcases
  · exact ⟨_, _, rfl, .inl ⟨conflicts, rfl⟩⟩
  · have hrelocate := hrenamed.stands.relocatePair_run hconsistent₂ hmem hrenamed.parsed hkept'
    obtain ⟨next, store₃, _, hsplice, hconsistent₃, _, hnext, hedited⟩ :=
      hrenamed.stands.splice_run hrenamed.parsed hconsistent₂ hmem options
    rw [hrenamed.field, hrenamed.property] at hrelocate
    dsimp only
    have hstep : (ExceptT.mk (liftM (m := StoreM) (pair'.splice options).run) :
        ExceptT FixError StoreM (Solution × SplicePath)).run store₂ = _ := hsplice
    rw [run_bind_of_ok hrelocate, run_bind_of_ok hstep]
    exact ⟨_, _, rfl, .inr ⟨p, pair', p', next, rfl, hstands, hrenamed,
      ⟨hconsistent₂.wellFormed _ hmem, hconsistent₃.wellFormed _ hnext, hedited, _, _, hsplice⟩,
      rfl⟩⟩

/-- A fix that succeeds has located both declarations, renamed the field and joined the
declarations. -/
theorem exists_of_applyFix (h : Consistent store snapshots) (hs : s ∈ snapshots)
    (hparsed : s.IsParsed) {options : FixOptions} {result : FixOutcome}
    (hrun : (s.applyFix (Services.workspace cancelled) f options).run store =
      (.ok result, store')) :
    ∃ pair store₁ p pair' p' next,
      ((Services.workspace cancelled).locatePair s f).run store = (.ok pair, store₁) ∧
      pair.solution = s ∧ pair.Stands p ∧ pair.IsRenamed p pair' p' ∧ pair'.IsSpliced options next ∧
      result = ⟨next, pair'.path, next.changedSince s⟩ := by
  have hfix := hrun
  rw [Solution.applyFix] at hrun
  by_cases hhandled : f.isHandled
  · rw [if_neg (by simp [hhandled]), run_bind_eq_ok] at hrun
    obtain ⟨pair, store₁, hlocate, _⟩ := hrun
    obtain ⟨rfl, hsolution, _, _⟩ := locatePair_run h hs (fun p _ => hparsed.allParsed p) hlocate
    obtain ⟨_, _, hrun, hcases⟩ := applyFix_run options h hs hparsed hhandled hlocate
    rw [hfix] at hrun
    cases hrun
    obtain ⟨_, herror⟩ | ⟨p, pair', p', next, _, hstands, hrenamed, hspliced, hok⟩ := hcases
    · cases herror
    · cases hok
      exact ⟨pair, store₁, p, pair', p', next, hlocate, hsolution, hstands, hrenamed, hspliced, rfl⟩
  · rw [if_pos (by simp [hhandled])] at hrun
    cases hrun

/-- The number of edits that join two declarations. -/
def SplicePath.edits : SplicePath → Nat
  | .sameDocument => 1
  | .crossDocument => 2

theorem Pair.length_spliced (pair : Pair) : pair.spliced.length = pair.path.edits := by
  rw [spliced]
  cases pair.path <;> rfl

/-- What the fix of two declarations in `s` has changed, and what not. -/
structure FixOutcome.Frames (result : FixOutcome) (s : Solution) (pair : Pair) : Prop where
  projects : List.Forall₂ (fun old new : Project => new.id = old.id ∧ new.name = old.name ∧
    new.documents = old.documents) s.projects result.solution.projects
  documents : List.Forall₂ (fun old new : Document => new.id = old.id ∧ new.project = old.project ∧
    new.name = old.name) s.documents result.solution.documents
  kept : ∀ old new, (old, new) ∈ s.documents.zip result.solution.documents →
    pair.field.document ≠ old.id → pair.property.document ≠ old.id →
    (∀ r ∈ pair.compilation.references pair.field.symbol, r.document ≠ old.id) → new.tree = old.tree
  changed : result.changed =
    ((s.documents.zip result.solution.documents).filter fun (old, new) => old.text != new.text).map
      (·.1.id)
  path : result.path = .sameDocument ↔ pair.field.document = pair.property.document
  version : pair.field.symbol.name ≠ pair.property.symbol.name →
    result.solution.version = s.version +
    (s.documents.filter fun d =>
      ((pair.compilation.references pair.field.symbol).filter (outside pair.field)).any
        (·.document == d.id)).length + result.path.edits

/-- The rename of the field edits the documents that mention it outside of its declarator, each
of them once. -/
theorem Pair.IsRenamed.edited {pair' : Pair} {p p' : Project} (h : pair.IsRenamed p pair' p')
    (hstands : pair.Stands p) (hs : pair.solution.WellFormed)
    (hparsed : AllParsed (pair.solution.trees p)) :
    ∃ ids edits, pair.solution.Edited ids edits pair'.solution ∧
      (∀ id ∈ ids, ∃ r ∈ pair.compilation.references pair.field.symbol, r.document = id) ∧
      (pair.field.symbol.name ≠ pair.property.symbol.name →
        edits =
          (pair.solution.documents.filter fun d =>
            ((pair.compilation.references pair.field.symbol).filter (outside pair.field)).any
              (·.document == d.id)).length) := by
  by_cases hsame : pair.field.symbol.name = pair.property.symbol.name
  · rw [h.kept hsame]
    exact ⟨[], 0, .refl _, nofun, fun hne => absurd hsame hne⟩
  · refine ⟨_, _, (h.renames hsame).documents.edited, fun id hid => ?_, fun _ => ?_⟩
    · obtain ⟨⟨_, references⟩, hgroup, rfl⟩ := List.mem_map.mp hid
      obtain ⟨⟨r, hr, hdocument⟩, _⟩ := (mem_groupByDocument).mp hgroup
      exact ⟨r, (List.mem_filter.mp hr).1, hdocument⟩
    · rw [Solution.length_keptGroups hs (hstands.finds hs hparsed)]
      rfl

namespace Solution

/-- Once both declarations are located, the fix succeeds or ends in a conflict of names. -/
theorem applyFix_ends (h : History store snapshots) (hs : s ∈ snapshots) (hparsed : s.IsParsed)
    (hhandled : f.isHandled)
    (hlocate : ((Services.workspace false).locatePair s f).run store = (.ok pair, store'))
    (options : FixOptions) :
    ∃ outcome store'',
      (s.applyFix (Services.workspace false) f options).run store = (outcome, store'') ∧
      ((∃ result, outcome = .ok result) ∨
        ∃ conflicts, outcome = .error (.rename (.conflicts conflicts))) := by
  obtain ⟨outcome, store'', hrun, hcases⟩ :=
    applyFix_run options h.consistent hs hparsed hhandled hlocate
  refine ⟨outcome, store'', hrun, ?_⟩
  obtain hconflicts | ⟨_, _, _, _, _, _, _, _, hok⟩ := hcases
  · exact .inr hconflicts
  · exact .inl ⟨_, hok⟩

/-- The finding about a property that only reads its field. -/
def usedFinding : Finding :=
  .ofLocations ⟨⟨0⟩, ⟨21, 22⟩⟩ ⟨⟨0⟩, ⟨14, 15⟩⟩

theorem applyFix_ends_use :
    ∃ outcome store'', ((ofText usedField).applyFix (Services.workspace false) usedFinding {}).run
      ⟨3, 0, []⟩ = (outcome, store'') ∧
      ((∃ result, outcome = .ok result) ∨
        ∃ conflicts, outcome = .error (.rename (.conflicts conflicts))) := by
  obtain ⟨pair, store', hlocate⟩ := exists_of_isOk (show Except.isOk
    (((Services.workspace false).locatePair (ofText usedField) usedFinding).run ⟨3, 0, []⟩).1 by
      decide +kernel)
  exact applyFix_ends (.ofText usedField) List.mem_cons_self (isParsed_ofText usedField) rfl hlocate
    {}

/-- A fix that succeeds has changed only the documents with the two declarations and with
references of the field, each of them once for its references and once for its declarations. -/
theorem applyFix_frames (h : History store snapshots) (hs : s ∈ snapshots) (hparsed : s.IsParsed)
    {options : FixOptions} {result : FixOutcome}
    (hrun : (s.applyFix (Services.workspace cancelled) f options).run store =
      (.ok result, store')) :
    ∃ pair store₁, ((Services.workspace cancelled).locatePair s f).run store = (.ok pair, store₁) ∧
      result.Frames s pair := by
  obtain ⟨pair, store₁, p, pair', p', next, hlocate, rfl, hstands, hrenamed, hspliced, rfl⟩ :=
    exists_of_applyFix h.consistent hs hparsed hrun
  refine ⟨pair, store₁, hlocate, ?_⟩
  have hwf := h.consistent.wellFormed _ hs
  have hfield : pair'.field.document = pair.field.document :=
    congrArg TargetKey.document hrenamed.field
  have hproperty : pair'.property.document = pair.property.document :=
    congrArg TargetKey.document hrenamed.property
  obtain ⟨ids, edits, hedited, hids, hedits⟩ := hrenamed.edited hstands hwf (hparsed.allParsed p)
  have hframe := hedited.trans hspliced.edited
  refine ⟨hframe.projects, hframe.documents.imp fun _ _ hnew => ⟨hnew.1, hnew.2.1, hnew.2.2.1⟩, ?_,
    ?_, ?_, ?_⟩
  · intro old new hmem hnotField hnotProperty hnone
    refine ((List.forall₂_iff_zip.mp hframe.documents).2 hmem).2.2.2 fun hold => ?_
    obtain hold | hold := List.mem_append.mp hold
    · obtain ⟨r, hr, hdocument⟩ := hids old.id hold
      exact hnone r hr hdocument
    · rw [Pair.mem_spliced, hfield, hproperty] at hold
      exact hold.elim (fun heq => hnotField heq.symm) fun heq => hnotProperty heq.symm
  · exact changedSince_eq hwf (hframe.documents.imp fun _ _ hnew => hnew.1)
  · rw [Pair.path, hfield, hproperty]
    split
    next hsame => simp [hsame]
    next hsame => simp [hsame]
  · intro hne
    rw [hframe.version, hedits hne, Pair.length_spliced, Nat.add_assoc]

theorem applyFix_frames_use :
    ∃ result store', ((ofText usedField).applyFix (Services.workspace false) usedFinding {}).run
      ⟨3, 0, []⟩ = (.ok result, store') ∧ ∃ pair, result.Frames (ofText usedField) pair := by
  obtain ⟨result, store', hrun⟩ := exists_of_isOk (show Except.isOk
    (((ofText usedField).applyFix (Services.workspace false) usedFinding {}).run ⟨3, 0, []⟩).1 by
      decide +kernel)
  obtain ⟨pair, _, _, hframes⟩ :=
    applyFix_frames (.ofText usedField) List.mem_cons_self (isParsed_ofText usedField) hrun
  exact ⟨result, store', hrun, pair, hframes⟩

end Solution

end AutoProperty
