import Mathlib.Data.List.Perm.Subperm
import Mathlib.Data.List.Sort
import AutoProperty.Proofs.Syntax.Directives

/-! # Reduction to the unbalanced directives

A run of trivia is reduced to the directives that are unbalanced in it. The groups that are read
hold no place twice, so to sort their places is to list the unbalanced directives in order. The
reduction is a congruence: any part of a run may be reduced first.
-/

namespace AutoProperty

namespace OpenDirectives

/-- Reading a directive adds no place but its own. -/
theorem subperm_places_read (o : OpenDirectives) (i : Nat) (kind : DirectiveKind) :
    (o.read i kind).places.Subperm (i :: o.places) := by
  have hkept : o.places.Subperm (i :: o.places) := (List.sublist_cons_self i _).subperm
  have hadded {as bs : List Nat} (h : o.places = as ++ bs) : (as ++ i :: bs).Subperm
      (i :: o.places) := by
    rw [h]
    exact List.perm_middle.subperm
  have hstray : (o.stray ++ [i] ++ o.conditionals.flatten ++ o.regions).Subperm
      (i :: o.places) := by
    rw [List.append_assoc, List.append_assoc]
    exact hadded (List.append_assoc ..)
  -- A directive joins a group, closes one, or is stray.
  cases kind with
  | other => exact hkept
  | ifBegin =>
    have h := @hadded o.stray (o.conditionals.flatten ++ o.regions) (List.append_assoc ..)
    simpa [read, places] using h
  | regionBegin => exact hadded rfl
  | ifEnd =>
    cases h : o.conditionals with
    | nil => simpa [read, places, h] using hstray
    | cons group outer =>
      have hclosed : (o.stray ++ outer.flatten ++ o.regions).Sublist o.places := by
        rw [places, h, List.flatten_cons]
        exact ((List.Sublist.refl _).append (List.sublist_append_right group _)).append (.refl _)
      simpa [read, places, h] using hclosed.subperm.trans hkept
  | regionEnd =>
    cases h : o.regions with
    | nil =>
      rw [h] at hstray
      simpa [read, places, h] using hstray
    | cons region outer =>
      have hclosed : (o.stray ++ o.conditionals.flatten ++ outer).Sublist o.places := by
        rw [places, h]
        exact (List.Sublist.refl _).append (List.sublist_cons_self region _)
      simpa [read, places, h] using hclosed.subperm.trans hkept
  | elifBranch | elseBranch =>
    cases h : o.conditionals with
    | nil => simpa [read, places, h] using hstray
    | cons group outer =>
      have h' := @hadded (o.stray ++ group) (outer.flatten ++ o.regions) (by simp [places, h])
      simpa [read, places, h] using h'

theorem nodup_places_read {o : OpenDirectives} {i : Nat} (h : o.Below i) (hnodup : o.places.Nodup)
    (kind : DirectiveKind) : (o.read i kind).places.Nodup := by
  obtain ⟨places, hperm, hsublist⟩ := o.subperm_places_read i kind
  have hnew : i ∉ o.places := fun hmem => Nat.lt_irrefl i (h i hmem)
  exact hperm.nodup_iff.mp ((List.nodup_cons.mpr ⟨hnew, hnodup⟩).sublist hsublist)

/-- No place is held twice. -/
theorem nodup_places_readAll {o : OpenDirectives} {i : Nat} (h : o.Below i)
    (hnodup : o.places.Nodup) (ts : List Trivia) : (o.readAll i ts).places.Nodup := by
  induction ts generalizing o i with
  | nil => exact hnodup
  | cons t ts ih =>
    rw [readAll]
    split
    next kind _ => exact ih (below_read h kind) (nodup_places_read h hnodup kind)
    next => exact ih (fun place hplace => Nat.lt_succ_of_lt (h place hplace)) hnodup

theorem below_none : none.Below 0 :=
  fun _ hplace => absurd hplace List.not_mem_nil

end OpenDirectives

variable {trivia : List Trivia}

theorem mem_unbalancedDirectives {i : Nat} :
    i ∈ unbalancedDirectives trivia ↔ i ∈ (OpenDirectives.none.readAll 0 trivia).places := by
  have hbelow := OpenDirectives.below_readAll OpenDirectives.below_none trivia
  rw [unbalancedDirectives, List.mem_filter, List.mem_range, List.contains_iff_mem,
    and_iff_right_iff_imp]
  intro hplace
  have := hbelow i hplace
  rwa [Nat.zero_add] at this

theorem pairwise_unbalancedDirectives (trivia : List Trivia) :
    (unbalancedDirectives trivia).Pairwise (· < ·) :=
  List.pairwise_lt_range.filter _

/-- To list the unbalanced directives in order is to sort what the groups hold in the end. -/
theorem mergeSort_places (trivia : List Trivia) :
    (OpenDirectives.none.readAll 0 trivia).places.mergeSort = unbalancedDirectives trivia := by
  have hnodup := OpenDirectives.nodup_places_readAll OpenDirectives.below_none List.nodup_nil trivia
  have hincreasing := pairwise_unbalancedDirectives trivia
  have hperm : (OpenDirectives.none.readAll 0 trivia).places.Perm (unbalancedDirectives trivia) :=
    (List.perm_ext_iff_of_nodup hnodup hincreasing.nodup).mpr fun _ => mem_unbalancedDirectives.symm
  exact ((List.mergeSort_perm _ _).trans hperm).eq_of_pairwise' (List.pairwise_mergeSort' (· ≤ ·) _)
    (hincreasing.imp Nat.le_of_lt)

/-- What is loose belongs to a group. -/
theorem Trivia.exists_kind_of_isLoose {t : Trivia} {d e : Family → Nat} (h : t.isLoose d e) :
    ∃ kind, t.kind = .directive kind ∧ kind ≠ .other := by
  rcases t.family_or with hnone | ⟨family, part, hpart⟩
  · rw [isLoose_of_none hnone] at h
    cases h
  · rw [part?] at hpart
    split at hpart
    next kind hkind =>
      refine ⟨kind, hkind, ?_⟩
      rintro rfl
      cases family <;> cases hpart
    next => cases hpart

/-- What is kept loose is a directive with a family. -/
theorem exists_kind_of_mem_looseWithin {d e : Family → Nat} {t : Trivia}
    (h : t ∈ looseWithin d e trivia) : ∃ kind, t.kind = .directive kind ∧ kind ≠ .other := by
  induction trivia generalizing d with
  | nil => cases h
  | cons u us ih =>
    by_cases hloose : u.isLoose d fun family => debt family (e family) us
    · rw [looseWithin_cons_of_loose hloose] at h
      rcases List.mem_cons.mp h with rfl | h
      · exact Trivia.exists_kind_of_isLoose hloose
      · exact ih h
    · rw [looseWithin_cons_of_not hloose] at h
      exact ih h

/-- At the place of an unbalanced directive stands one that belongs to a group. -/
theorem exists_of_mem_unbalancedDirectives {i : Nat} (h : i ∈ unbalancedDirectives trivia) :
    ∃ kind text, trivia[i]? = some ⟨.directive kind, text⟩ ∧ kind ≠ .other := by
  have hlt : i < trivia.length := List.mem_range.mp (List.mem_of_mem_filter h)
  have hget : trivia[i]? = some trivia[i] := List.getElem?_eq_getElem hlt
  have hmem : trivia[i] ∈ looseAmong trivia := List.mem_filterMap.mpr ⟨i, h, hget⟩
  rw [looseAmong_eq] at hmem
  obtain ⟨kind, hkind, hne⟩ := exists_kind_of_mem_looseWithin hmem
  exact ⟨kind, trivia[i].text, by rw [hget, ← hkind], hne⟩

/-- The places of directives in a run of trivia, in order. Directives that belong to no group
are not among them. -/
structure PointsAtDirectives (trivia : List Trivia) (places : List Nat) : Prop where
  increasing : places.Pairwise (· < ·)
  grouped : ∀ i ∈ places, ∃ kind text, trivia[i]? = some ⟨.directive kind, text⟩ ∧ kind ≠ .other

theorem pointsAtDirectives_unbalancedDirectives (trivia : List Trivia) :
    PointsAtDirectives trivia (unbalancedDirectives trivia) where
  increasing := pairwise_unbalancedDirectives trivia
  grouped _ := exists_of_mem_unbalancedDirectives

/-- A part of a run may be reduced to its unbalanced directives first. These are found by
sorting what the groups hold in the end, and to reduce twice is to reduce once. -/
theorem looseAmong_congruence (as bs cs : List Trivia) :
    looseAmong (as ++ looseAmong bs ++ cs) = looseAmong (as ++ bs ++ cs) ∧
      looseAmong (looseAmong bs) = looseAmong bs ∧
      PointsAtDirectives bs (unbalancedDirectives bs) ∧
      unbalancedDirectives bs = (OpenDirectives.none.readAll 0 bs).places.mergeSort :=
  ⟨SameLoose.reduced bs as cs, (SameLoose.reduced bs).looseAmong_eq,
    pointsAtDirectives_unbalancedDirectives bs, (mergeSort_places bs).symm⟩

end AutoProperty
