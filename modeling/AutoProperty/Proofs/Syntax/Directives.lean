import Mathlib.Data.List.Basic
import AutoProperty.Syntax.Directive

/-! # Loose directives

Conditionals and regions nest each on their own. Whether a directive is unbalanced depends on
two numbers: how many groups of its family are open in front of it, and how many ends behind it
still look for the group they close. So a run of trivia can be read from both sides, and in any
surroundings its unbalanced directives do the same as the whole run.
-/

namespace AutoProperty

/-- What directives come in groups of. -/
inductive Family where
  | conditional
  | region
deriving DecidableEq

/-- The part of a directive in its group. -/
inductive Part where
  | opens
  | continues
  | closes
deriving DecidableEq

/-- The part that a directive has in a group of the family, if any. -/
def DirectiveKind.part? (family : Family) (kind : DirectiveKind) : Option Part :=
  match family, kind with
  | .conditional, .ifBegin => some .opens
  | .conditional, .elifBranch => some .continues
  | .conditional, .elseBranch => some .continues
  | .conditional, .ifEnd => some .closes
  | .region, .regionBegin => some .opens
  | .region, .regionEnd => some .closes
  | _, _ => none

def Trivia.part? (family : Family) (t : Trivia) : Option Part :=
  match t.kind with
  | .directive kind => kind.part? family
  | _ => none

namespace Part

/-- How many groups are open behind a directive, if there are `d` in front of it. -/
def depth (part? : Option Part) (d : Nat) : Nat :=
  match part? with
  | some .opens => d + 1
  | some .closes => d - 1
  | _ => d

/-- How many ends look for a group from a directive on, if there are `e` behind it. -/
def debt (part? : Option Part) (e : Nat) : Nat :=
  match part? with
  | some .opens => e - 1
  | some .closes => e + 1
  | _ => e

/-- With `d` groups open in front and `e` ends behind, the group of the directive is not
complete. -/
def isLoose (part? : Option Part) (d e : Nat) : Bool :=
  match part? with
  | some .opens => e == 0
  | some .continues => d == 0 || e == 0
  | some .closes => d == 0
  | none => false

end Part

/-- How many groups are open behind trivia, if there are `d` in front of it. -/
def depth (family : Family) (d : Nat) : List Trivia → Nat
  | [] => d
  | t :: ts => depth family (Part.depth (t.part? family) d) ts

/-- How many ends look for a group from trivia on, if there are `e` behind it. -/
def debt (family : Family) (e : Nat) : List Trivia → Nat
  | [] => e
  | t :: ts => Part.debt (t.part? family) (debt family e ts)

/-- The directive is unbalanced where so many groups of each family are open and so many ends
follow. -/
def Trivia.isLoose (d e : Family → Nat) (t : Trivia) : Bool :=
  Part.isLoose (t.part? .conditional) (d .conditional) (e .conditional) ||
    Part.isLoose (t.part? .region) (d .region) (e .region)

/-- How many groups of each family are open behind a piece of trivia. -/
def Trivia.after (t : Trivia) (d : Family → Nat) : Family → Nat :=
  fun family => Part.depth (t.part? family) (d family)

/-- The unbalanced directives of a run of trivia in its surroundings. -/
def looseWithin (d e : Family → Nat) : List Trivia → List Trivia
  | [] => []
  | t :: ts =>
    if t.isLoose d fun family => debt family (e family) ts then
      t :: looseWithin (t.after d) e ts
    else
      looseWithin (t.after d) e ts

/-- Nothing is open and nothing follows. -/
def nowhere : Family → Nat := fun _ => 0

/-! ## Runs in a row -/

theorem depth_append (family : Family) (d : Nat) (as bs : List Trivia) :
    depth family d (as ++ bs) = depth family (depth family d as) bs := by
  induction as generalizing d with
  | nil => rfl
  | cons a as ih => exact ih _

theorem debt_append (family : Family) (e : Nat) (as bs : List Trivia) :
    debt family e (as ++ bs) = debt family (debt family e bs) as := by
  induction as with
  | nil => rfl
  | cons a as ih => rw [List.cons_append, debt, ih, debt]

theorem looseWithin_append (d e : Family → Nat) (as bs : List Trivia) :
    looseWithin d e (as ++ bs) =
      looseWithin d (fun family => debt family (e family) bs) as ++
        looseWithin (fun family => depth family (d family) as) e bs := by
  induction as generalizing d with
  | nil => rfl
  | cons a as ih =>
    simp only [List.cons_append, looseWithin, debt_append, ih]
    split <;> rfl

/-- More ends behind leave no fewer in front. -/
theorem debt_mono (family : Family) {e e' : Nat} (h : e ≤ e') (ts : List Trivia) :
    debt family e ts ≤ debt family e' ts := by
  induction ts with
  | nil => exact h
  | cons t ts ih =>
    rw [debt, debt]
    rcases t.part? family with _ | _ | _ | _ <;> simp only [Part.debt] <;> omega

/-! ## A directive belongs to one family -/

namespace Trivia

variable {t : Trivia} {family : Family} {part : Part}

theorem part?_of_ne (h : t.part? family = some part) {other : Family} (hne : other ≠ family) :
    t.part? other = none := by
  unfold Trivia.part? at h ⊢
  split at h
  next kind _ =>
    cases kind <;> cases family <;> cases other <;> first | rfl | exact absurd rfl hne | cases h
  next => cases h

/-- A directive of a family is loose if its partner is not there. -/
theorem isLoose_of_part? (h : t.part? family = some part) (d e : Family → Nat) :
    t.isLoose d e = Part.isLoose (some part) (d family) (e family) := by
  cases family with
  | conditional =>
    rw [isLoose, h, @part?_of_ne _ _ _ h .region (by decide)]
    exact Bool.or_false _
  | region =>
    rw [isLoose, h, @part?_of_ne _ _ _ h .conditional (by decide)]
    exact Bool.false_or _

theorem part?_of_not_directive (h : ∀ kind, t.kind = .directive kind → False) (family : Family) :
    t.part? family = none := by
  unfold Trivia.part?
  split
  next kind hkind => exact absurd hkind (h kind)
  next => rfl

/-- Trivia of no family is not loose. -/
theorem isLoose_of_none (h : ∀ family, t.part? family = none) (d e : Family → Nat) :
    t.isLoose d e = false := by
  rw [isLoose, h, h]
  rfl

theorem after_of_none (h : ∀ family, t.part? family = none) (d : Family → Nat) : t.after d = d := by
  funext family
  rw [after, h]
  rfl

theorem family_or (t : Trivia) :
    (∀ family, t.part? family = none) ∨ ∃ family part, t.part? family = some part := by
  by_cases h : ∃ family, t.part? family ≠ none
  · obtain ⟨family, hne⟩ := h
    obtain ⟨part, hpart⟩ := Option.ne_none_iff_exists'.mp hne
    exact .inr ⟨family, part, hpart⟩
  · exact .inl fun family => Classical.not_not.mp fun hne => h ⟨family, hne⟩

end Trivia

/-! ## Reduction -/

section Reduction

variable {t : Trivia} {d e : Family → Nat} {ts : List Trivia}

theorem looseWithin_cons_of_loose (h : t.isLoose d fun family => debt family (e family) ts) :
    looseWithin d e (t :: ts) = t :: looseWithin (t.after d) e ts :=
  if_pos h

theorem looseWithin_cons_of_not (h : ¬t.isLoose d fun family => debt family (e family) ts) :
    looseWithin d e (t :: ts) = looseWithin (t.after d) e ts :=
  if_neg h

end Reduction

/-- Of the ends that look for a group, those go that find one among the `d` open in front. -/
theorem debt_looseWithin (family : Family) (E : Nat) (d : Family → Nat) (ts : List Trivia) :
    debt family E (looseWithin d nowhere ts) = debt family E ts - min (d family)
      (debt family 0 ts) := by
  induction ts generalizing d with
  | nil => simp [looseWithin, debt]
  | cons t ts ih =>
    have hmono := debt_mono family (Nat.zero_le E) ts
    have hothers := ih (t.after d)
    rw [Trivia.after] at hothers
    rw [debt, debt]
    by_cases hloose : t.isLoose d fun family => debt family (nowhere family) ts
    · rw [looseWithin_cons_of_loose hloose, debt, hothers]
      cases hpart : t.part? family with
      | none => rfl
      | some part =>
        rw [Trivia.isLoose_of_part? hpart] at hloose
        cases part <;> simp [Part.isLoose, nowhere] at hloose <;> simp only [Part.debt,
          Part.depth] <;> omega
    · rw [looseWithin_cons_of_not hloose, hothers]
      cases hpart : t.part? family with
      | none => rfl
      | some part =>
        rw [Trivia.isLoose_of_part? hpart] at hloose
        cases part <;> simp [Part.isLoose, nowhere] at hloose <;> simp only [Part.debt,
          Part.depth] <;> omega

/-- Trivia may be put in place of the directives that are unbalanced in it. -/
theorem looseWithin_looseWithin {d D D' E : Family → Nat} (ts : List Trivia)
    (hle : ∀ family, d family ≤ D family)
    (hdepth : ∀ family, D' family = D family - min (d family) (debt family 0 ts)) :
    looseWithin D' E (looseWithin d nowhere ts) = looseWithin D E ts := by
  induction ts generalizing d D D' with
  | nil => rfl
  | cons t ts ih =>
    have hdebt := fun family => debt_looseWithin family (E family) (t.after d) ts
    have hmono := fun family => debt_mono family (Nat.zero_le (E family)) ts
    have hafter : ∀ family, t.after d family ≤ t.after D family := by
      intro family
      have := hle family
      rw [Trivia.after, Trivia.after]
      rcases t.part? family with _ | _ | _ | _ <;> simp only [Part.depth] <;> omega
    obtain hnone | ⟨family, part, hpart⟩ := t.family_or
    · have hdrop (d e : Family → Nat) : looseWithin d e (t :: ts) = looseWithin d e ts := by
        rw [looseWithin_cons_of_not (by simp [Trivia.isLoose_of_none hnone]),
          Trivia.after_of_none hnone]
      rw [hdrop, hdrop]
      refine ih hle fun family => ?_
      have := hdepth family
      rwa [debt, hnone] at this
    have hother : ∀ other, other ≠ family →
        D' other = t.after D other - min (t.after d other) (debt other 0 ts) ∧
        t.after D' other = D' other := by
      intro other hne
      have hnone := Trivia.part?_of_ne hpart hne
      have := hdepth other
      rw [debt, hnone] at this
      rw [Trivia.after, Trivia.after, Trivia.after, hnone]
      exact ⟨this, rfl⟩
    have hfamily := hdepth family
    have hle' := hle family
    have hdebt' := hdebt family
    have hmono' := hmono family
    rw [debt, hpart] at hfamily
    rw [Trivia.after, hpart] at hdebt'
    by_cases hloose : t.isLoose d fun family => debt family (nowhere family) ts
    · have hrest : looseWithin (t.after D') E (looseWithin (t.after d) nowhere ts) = looseWithin
          (t.after D) E ts := by
        refine ih hafter fun other => ?_
        by_cases hne : other = family
        · subst hne
          rw [Trivia.isLoose_of_part? hpart] at hloose
          rw [Trivia.after, Trivia.after, Trivia.after, hpart]
          cases part <;> simp [Part.isLoose, nowhere] at hloose <;> simp only [Part.depth,
            Part.debt] at hfamily ⊢ <;> omega
        · rw [(hother other hne).2, (hother other hne).1]
      have hiff :
          (t.isLoose D' fun family => debt family (E family) (looseWithin (t.after d) nowhere ts)) =
          t.isLoose D fun family => debt family (E family) ts := by
        rw [Trivia.isLoose_of_part? hpart] at hloose ⊢
        rw [Trivia.isLoose_of_part? hpart, hdebt', Bool.eq_iff_iff]
        cases part <;> simp [Part.isLoose, nowhere] at hloose ⊢ <;> simp only [Part.depth,
          Part.debt] at hfamily ⊢ <;> omega
      rw [looseWithin_cons_of_loose hloose, looseWithin, hiff, hrest, looseWithin]
    · have hnot : ¬t.isLoose D fun family => debt family (E family) ts := by
        rw [Trivia.isLoose_of_part? hpart] at hloose ⊢
        cases part <;> simp [Part.isLoose, nowhere] at hloose ⊢ <;> omega
      rw [looseWithin_cons_of_not hloose, looseWithin_cons_of_not hnot]
      refine ih hafter fun other => ?_
      by_cases hne : other = family
      · subst hne
        rw [Trivia.isLoose_of_part? hpart] at hloose
        rw [Trivia.after, Trivia.after, hpart]
        cases part <;> simp [Part.isLoose, nowhere] at hloose <;> simp only [Part.depth,
          Part.debt] at hfamily ⊢ <;> omega
      · exact (hother other hne).1

/-- What is unbalanced in a run of trivia opens and closes the groups that the whole run does. -/
theorem depth_looseWithin (family : Family) {d : Family → Nat} {D D' : Nat} (ts : List Trivia)
    (hle : d family ≤ D) (hdepth : D' = D - min (d family) (debt family 0 ts)) :
    depth family D' (looseWithin d nowhere ts) = depth family D ts := by
  induction ts generalizing d D D' with
  | nil => simpa [looseWithin, depth, debt] using hdepth
  | cons t ts ih =>
    rw [debt] at hdepth
    have hnext (D' : Nat) := @ih (t.after d) (Part.depth (t.part? family) D) D'
    rw [Trivia.after] at hnext
    by_cases hloose : t.isLoose d fun family => debt family (nowhere family) ts
    · rw [looseWithin_cons_of_loose hloose, depth, depth]
      cases hpart : t.part? family with
      | none =>
        rw [hpart] at hdepth hnext
        exact hnext D' hle hdepth
      | some part =>
        rw [Trivia.isLoose_of_part? hpart] at hloose
        rw [hpart] at hdepth hnext
        apply hnext <;> cases part <;> simp [Part.isLoose, nowhere] at hloose <;>
          simp only [Part.depth, Part.debt] at hdepth ⊢ <;> omega
    · rw [looseWithin_cons_of_not hloose, depth]
      cases hpart : t.part? family with
      | none =>
        rw [hpart] at hdepth hnext
        exact hnext D' hle hdepth
      | some part =>
        rw [Trivia.isLoose_of_part? hpart] at hloose
        rw [hpart] at hdepth hnext
        apply hnext <;> cases part <;> simp [Part.isLoose, nowhere] at hloose <;>
          simp only [Part.depth, Part.debt] at hdepth ⊢ <;> omega

/-- The trivia in the middle may be put in place of its unbalanced directives. -/
theorem looseWithin_middle (d e : Family → Nat) (as bs cs : List Trivia) :
    looseWithin d e (as ++ looseWithin nowhere nowhere bs ++ cs) = looseWithin d e
      (as ++ bs ++ cs) := by
  have hdebt : ∀ family E, debt family E (looseWithin nowhere nowhere bs) = debt family E bs := by
    intro family E
    rw [debt_looseWithin]
    exact congrArg (debt family E bs - ·) (Nat.zero_min _)
  have hdepth : ∀ family D,
      depth family D (looseWithin nowhere nowhere bs) = depth family D bs := by
    intro family D
    refine depth_looseWithin family bs (Nat.zero_le _) ?_
    rw [show nowhere family = 0 from rfl, Nat.zero_min, Nat.sub_zero]
  have hmiddle : ∀ D E : Family → Nat,
      looseWithin D E (looseWithin nowhere nowhere bs) = looseWithin D E bs :=
    fun D E => looseWithin_looseWithin bs (fun _ => Nat.zero_le _) fun family => by
      rw [show nowhere family = 0 from rfl, Nat.zero_min, Nat.sub_zero]
  simp only [looseWithin_append, depth_append, hdebt, hdepth, hmiddle]

/-- Groups that are open in front make no difference where nothing ends them. -/
theorem looseWithin_eq_of_debt {d D : Family → Nat} (ts : List Trivia)
    (hle : ∀ family, d family ≤ D family)
    (hdebt : ∀ family, D family = d family ∨ debt family 0 ts ≤ d family) :
    looseWithin D nowhere ts = looseWithin d nowhere ts := by
  induction ts generalizing d D with
  | nil => rfl
  | cons t ts ih =>
    have hothers : looseWithin (t.after D) nowhere ts = looseWithin (t.after d) nowhere ts := by
      have hstep : ∀ family, t.after d family ≤ t.after D family ∧
          (t.after D family = t.after d family ∨ debt family 0 ts ≤ t.after d family) := by
        intro family
        have hle := hle family
        have hdebt := hdebt family
        rw [debt] at hdebt
        rw [Trivia.after, Trivia.after]
        generalize t.part? family = part? at hdebt ⊢
        rcases part? with _ | _ | _ | _ <;> simp only [Part.depth, Part.debt] at hdebt ⊢ <;> omega
      exact ih (fun family => (hstep family).1) fun family => (hstep family).2
    have hsame : (t.isLoose D fun family => debt family (nowhere family) ts) =
        t.isLoose d fun family => debt family (nowhere family) ts := by
      obtain hnone | ⟨family, part, hpart⟩ := t.family_or
      · rw [Trivia.isLoose_of_none hnone, Trivia.isLoose_of_none hnone]
      · have hle := hle family
        have hdebt := hdebt family
        rw [debt, hpart] at hdebt
        rw [Trivia.isLoose_of_part? hpart, Trivia.isLoose_of_part? hpart, Bool.eq_iff_iff]
        cases part <;> simp [Part.isLoose, nowhere] <;> simp only [Part.debt] at hdebt <;> omega
    rw [looseWithin, looseWithin, hsame, hothers]

/-! ## Reading with groups -/

namespace OpenDirectives

/-- Of the places that the groups hold, those whose group stays open when so many ends follow. -/
def Stays (o : OpenDirectives) (e : Family → Nat) (place : Nat) : Prop :=
  place ∈ o.stray ∨ place ∈ (o.conditionals.drop (e .conditional)).flatten ∨
    place ∈ o.regions.drop (e .region)

/-- All places lie in front of one. -/
def Below (o : OpenDirectives) (i : Nat) : Prop :=
  ∀ place ∈ o.places, place < i

/-- How many groups are open. -/
def level (o : OpenDirectives) : Family → Nat
  | .conditional => o.conditionals.length
  | .region => o.regions.length

theorem stays_nowhere (o : OpenDirectives) (place : Nat) :
    o.Stays nowhere place ↔ place ∈ o.places := by
  simp [Stays, nowhere, places]

/-- Reading a directive changes no more about other places than its part in the group says. -/
theorem stays_read (o : OpenDirectives) {i place : Nat} (hne : place ≠ i) (kind : DirectiveKind)
    (e : Family → Nat) :
    (o.read i kind).Stays e place ↔
      o.Stays (fun family => Part.debt (kind.part? family) (e family)) place := by
  cases kind with
  | other => rfl
  | ifBegin =>
    simp only [Stays, read, DirectiveKind.part?, Part.debt]
    cases e .conditional <;> simp [hne]
  | regionBegin =>
    simp only [Stays, read, DirectiveKind.part?, Part.debt]
    cases e .region <;> simp [hne]
  | ifEnd =>
    simp only [Stays, read, DirectiveKind.part?, Part.debt]
    cases o.conditionals <;> simp [hne]
  | regionEnd =>
    simp only [Stays, read, DirectiveKind.part?, Part.debt]
    cases o.regions <;> simp [hne]
  | elifBranch =>
    simp only [Stays, read, DirectiveKind.part?, Part.debt]
    cases o.conditionals <;> cases e .conditional <;> simp [hne]
  | elseBranch =>
    simp only [Stays, read, DirectiveKind.part?, Part.debt]
    cases o.conditionals <;> cases e .conditional <;> simp [hne]

theorem Stays.mem_places {o : OpenDirectives} {e : Family → Nat} {place : Nat}
    (h : o.Stays e place) : place ∈ o.places := by
  rw [places, List.mem_append, List.mem_append]
  obtain hstray | hconditional | hregion := h
  · exact .inl (.inl hstray)
  · obtain ⟨group, hgroup, hmem⟩ := List.mem_flatten.mp hconditional
    exact .inl (.inr (List.mem_flatten.mpr ⟨group, List.mem_of_mem_drop hgroup, hmem⟩))
  · exact .inr (List.mem_of_mem_drop hregion)

theorem Below.not_stays {o : OpenDirectives} {i : Nat} (h : o.Below i) (e : Family → Nat) :
    ¬o.Stays e i :=
  fun hstays => Nat.lt_irrefl i (h i hstays.mem_places)

/-- The place of a directive that is read stays if the directive is loose. -/
theorem stays_read_self (o : OpenDirectives) {i : Nat} (hbelow : o.Below i) (kind : DirectiveKind)
    (text : String) (e : Family → Nat) :
    (o.read i kind).Stays e i ↔ Trivia.isLoose o.level e ⟨.directive kind, text⟩ := by
  have hnot (e : Family → Nat) := hbelow.not_stays e
  simp only [Stays, not_or] at hnot
  have hstray : i ∉ o.stray := (hnot e).1
  have hconditional (n : Nat) : i ∉ (o.conditionals.drop n).flatten := (hnot fun _ => n).2.1
  have hregion (n : Nat) : i ∉ o.regions.drop n := (hnot fun _ => n).2.2
  simp only [List.mem_flatten, not_exists, not_and] at hconditional
  simp only [Trivia.isLoose, Trivia.part?]
  cases kind with
  | ifBegin =>
    cases h : e .conditional <;>
      simp [Stays, read, DirectiveKind.part?, Part.isLoose, h, hstray, hregion]
    exact hconditional _
  | regionBegin =>
    cases h : e .region <;>
      simp [Stays, read, DirectiveKind.part?, Part.isLoose, h, hstray, hregion]
    exact hconditional _
  | ifEnd =>
    cases h : o.conditionals <;>
      simp [Stays, read, DirectiveKind.part?, Part.isLoose, level, h, hstray, hregion]
    rw [h] at hconditional
    exact hconditional (e .conditional + 1)
  | regionEnd =>
    cases h : o.regions <;>
      simp [Stays, read, DirectiveKind.part?, Part.isLoose, level, h, hstray]
    rw [h] at hregion
    exact ⟨hconditional _, hregion (e .region + 1)⟩
  | elifBranch =>
    cases h : o.conditionals <;> cases h' : e .conditional <;>
      simp [Stays, read, DirectiveKind.part?, Part.isLoose, level, h, h', hstray, hregion]
    rw [h] at hconditional
    exact hconditional (_ + 1)
  | elseBranch =>
    cases h : o.conditionals <;> cases h' : e .conditional <;>
      simp [Stays, read, DirectiveKind.part?, Part.isLoose, level, h, h', hstray, hregion]
    rw [h] at hconditional
    exact hconditional (_ + 1)
  | other =>
    simp [Stays, read, DirectiveKind.part?, Part.isLoose, hstray, hregion]
    exact hconditional _

theorem level_read (o : OpenDirectives) (i : Nat) (kind : DirectiveKind) (text : String) :
    (o.read i kind).level = Trivia.after ⟨.directive kind, text⟩ o.level := by
  funext family
  cases hconditionals : o.conditionals <;> cases hregions : o.regions <;> cases kind <;>
    cases family <;>
    simp [read, level, Trivia.after, Trivia.part?, DirectiveKind.part?, Part.depth, hconditionals,
      hregions]

theorem below_read {o : OpenDirectives} {i : Nat} (h : o.Below i) (kind : DirectiveKind) :
    (o.read i kind).Below (i + 1) := by
  intro place hplace
  by_cases heq : place = i
  · exact heq ▸ Nat.lt_succ_self i
  rw [← stays_nowhere, stays_read o heq] at hplace
  exact Nat.lt_succ_of_lt (h place hplace.mem_places)

/-- The directives of two runs of trivia are read one run after the other. -/
theorem readAll_append (o : OpenDirectives) (i : Nat) (as bs : List Trivia) :
    o.readAll i (as ++ bs) = (o.readAll i as).readAll (i + as.length) bs := by
  induction as generalizing o i with
  | nil => rfl
  | cons a as ih =>
    have hlength : i + (a :: as).length = i + 1 + as.length := by
      rw [List.length_cons]
      omega
    rw [List.cons_append, readAll, readAll, hlength]
    split
    next => exact ih _ _
    next => exact ih _ _

/-- The depth of nesting is what has been opened and not been closed. -/
theorem level_readAll (o : OpenDirectives) (i : Nat) (ts : List Trivia) :
    (o.readAll i ts).level = fun family => depth family (o.level family) ts := by
  induction ts generalizing o i with
  | nil => rfl
  | cons t ts ih =>
    rw [readAll]
    split
    next kind hkind =>
      obtain ⟨_, text⟩ := t
      cases hkind
      rw [ih, level_read o i kind text]
      rfl
    next hkind =>
      rw [ih]
      simp only [depth, Trivia.part?_of_not_directive hkind, Part.depth]

/-- All places that are noted lie in front of what is still to be read. -/
theorem below_readAll {o : OpenDirectives} {i : Nat} (h : o.Below i) (ts : List Trivia) :
    (o.readAll i ts).Below (i + ts.length) := by
  induction ts generalizing o i with
  | nil => exact h
  | cons t ts ih =>
    have hlength : i + (t :: ts).length = i + 1 + ts.length := by
      rw [List.length_cons]
      omega
    rw [readAll, hlength]
    split
    next kind _ => exact ih (below_read h kind)
    next => exact ih fun place hplace => Nat.lt_succ_of_lt (h place hplace)

/-- Places in front of what is read stay where their groups stay open. -/
theorem mem_places_readAll (o : OpenDirectives) {i place : Nat} (hlt : place < i)
    (ts : List Trivia) :
    place ∈ (o.readAll i ts).places ↔ o.Stays (fun family => debt family 0 ts) place := by
  induction ts generalizing o i with
  | nil => exact (o.stays_nowhere place).symm
  | cons t ts ih =>
    rw [readAll]
    split
    next kind hkind =>
      rw [ih _ (Nat.lt_succ_of_lt hlt), stays_read o (Nat.ne_of_lt hlt)]
      simp only [debt, Trivia.part?, hkind]
    next hkind =>
      rw [ih _ (Nat.lt_succ_of_lt hlt)]
      simp only [debt, Trivia.part?_of_not_directive hkind, Part.debt]

/-- The directives at the places that are left are the loose ones. -/
theorem filter_places_readAll (o : OpenDirectives) {i : Nat} (h : o.Below i) (ts : List Trivia) :
    ((ts.zipIdx i).filter fun p => (o.readAll i ts).places.contains p.2).map Prod.fst = looseWithin
      o.level nowhere ts := by
  induction ts generalizing o i with
  | nil => rfl
  | cons t ts ih =>
    rw [List.zipIdx_cons, List.filter_cons, readAll]
    split
    next kind hkind =>
      obtain ⟨_, text⟩ := t
      cases hkind
      have hself : ((o.read i kind).readAll (i + 1) ts).places.contains i =
          Trivia.isLoose o.level (fun family => debt family (nowhere family) ts)
            ⟨.directive kind, text⟩ := by
        rw [Bool.eq_iff_iff, List.contains_iff_mem, mem_places_readAll _ (Nat.lt_succ_self i)]
        exact stays_read_self o h kind text _
      have hothers := ih (o.read i kind) (below_read h kind)
      rw [hself, looseWithin, ← level_read o i kind text, ← hothers]
      split <;> rfl
    next hkind =>
      have hnone := Trivia.part?_of_not_directive hkind
      have hself : (o.readAll (i + 1) ts).places.contains i = false := by
        rw [Bool.eq_false_iff, Ne, List.contains_iff_mem, mem_places_readAll _ (Nat.lt_succ_self i)]
        exact h.not_stays _
      have hothers := ih o fun place hplace => Nat.lt_succ_of_lt (h place hplace)
      rw [hself, looseWithin_cons_of_not (by simp [Trivia.isLoose_of_none hnone]),
        Trivia.after_of_none hnone, ← hothers]
      rfl

end OpenDirectives

/-- Of the unbalanced directives of two runs together, those in the second one. -/
theorem filterMap_unbalancedDirectives (as bs : List Trivia) :
    ((unbalancedDirectives (as ++ bs)).filterMap fun i => if i < as.length then none
      else (as ++ bs)[i]?) =
      looseWithin (fun family => depth family 0 as) nowhere bs := by
  have hnone : OpenDirectives.none.Below 0 := fun place h => absurd h List.not_mem_nil
  have hbelow := OpenDirectives.below_readAll hnone as
  have hread := OpenDirectives.filter_places_readAll _ hbelow bs
  have hlevel : (OpenDirectives.none.readAll 0 as).level = fun family => depth family 0 as := by
    rw [OpenDirectives.level_readAll]
    funext family
    cases family <;> rfl
  rw [hlevel, ← OpenDirectives.readAll_append, Nat.zero_add] at hread
  have hrange : List.range (as ++ bs).length = (as.zipIdx ++ bs.zipIdx as.length).map Prod.snd := by
    rw [← Nat.zero_add as.length, ← List.zipIdx_append, List.zipIdx_map_snd, List.range_eq_range']
  rw [unbalancedDirectives, hrange, List.filter_map, List.filterMap_map, List.filter_append,
    List.filterMap_append, ← hread, ← List.filterMap_eq_map]
  refine (congrArg (· ++ _) (List.filterMap_eq_nil_iff.mpr fun p hp => ?_)).trans
    (List.filterMap_congr fun p hp => ?_)
  · have hlt := List.snd_lt_of_mem_zipIdx (List.mem_of_mem_filter hp)
    exact if_pos (by simpa using hlt)
  · obtain ⟨hle, hget⟩ := List.mk_mem_zipIdx_iff_le_and_getElem?_sub.mp (List.mem_of_mem_filter hp)
    show (if p.2 < as.length then none else (as ++ bs)[p.2]?) = some p.1
    rw [if_neg (Nat.not_lt.mpr hle), List.getElem?_append_right hle, hget]

/-- The unbalanced directives of a run of trivia, in order. -/
def looseAmong (trivia : List Trivia) : List Trivia :=
  (unbalancedDirectives trivia).filterMap (trivia[·]?)

theorem looseAmong_eq (trivia : List Trivia) :
    looseAmong trivia = looseWithin nowhere nowhere trivia :=
  filterMap_unbalancedDirectives [] trivia

/-! ## Runs that do the same -/

/-- In all surroundings the same directives are unbalanced, apart from those within. -/
def SameLoose (bs bs' : List Trivia) : Prop :=
  ∀ as cs, looseAmong (as ++ bs ++ cs) = looseAmong (as ++ bs' ++ cs)

namespace SameLoose

variable {as as' bs bs' cs : List Trivia}

theorem refl (bs : List Trivia) : SameLoose bs bs :=
  fun _ _ => rfl

theorem append (h : SameLoose as as') (h' : SameLoose bs bs') :
    SameLoose (as ++ bs) (as' ++ bs') := by
  intro before behind
  have hfirst := h before (bs ++ behind)
  have hsecond := h' (before ++ as') behind
  simp only [List.append_assoc] at hfirst hsecond ⊢
  exact hfirst.trans hsecond

theorem looseAmong_eq (h : SameLoose bs bs') : looseAmong bs = looseAmong bs' := by
  have := h [] []
  rwa [List.append_nil, List.append_nil] at this

/-- Trivia may be reduced to its unbalanced directives before or after what is around it. -/
theorem reduced (bs : List Trivia) : SameLoose (looseAmong bs) bs := by
  intro as cs
  simp only [AutoProperty.looseAmong_eq, looseWithin_middle]

theorem symm (h : SameLoose as bs) : SameLoose bs as :=
  fun before behind => (h before behind).symm

/-- Trivia that is no directive has nothing to keep. -/
theorem of_not_directive {t : Trivia} (h : t.isDirective = false) : SameLoose [t] [] := by
  have hkind : ∀ kind, t.kind = .directive kind → False := by
    intro kind hkind
    rw [Trivia.isDirective, hkind] at h
    cases h
  have hnone : looseAmong [t] = [] := by
    rw [AutoProperty.looseAmong_eq,
      looseWithin_cons_of_not
        (by simp [Trivia.isLoose_of_none (Trivia.part?_of_not_directive hkind)])]
    rfl
  intro before behind
  rw [← reduced [t] before behind, hnone]

/-- What is no directive can be left out. -/
theorem of_blank (h : ∀ t ∈ bs, t.isDirective = false) : SameLoose bs [] := by
  induction bs with
  | nil => exact refl _
  | cons t ts ih =>
    obtain ⟨hfirst, hothers⟩ := List.forall_mem_cons.mp h
    exact (of_not_directive hfirst).append (ih hothers)

/-- What is not a directive does not count for loose ones. -/
theorem filter (bs : List Trivia) : SameLoose (bs.filter Trivia.isDirective) bs := by
  induction bs with
  | nil => exact refl _
  | cons t ts ih =>
    cases h : t.isDirective with
    | true =>
      rw [List.filter_cons_of_pos h]
      exact (refl [t]).append ih
    | false =>
      rw [List.filter_cons_of_neg (by simp [h])]
      exact (of_not_directive h).symm.append ih

end SameLoose

end AutoProperty
