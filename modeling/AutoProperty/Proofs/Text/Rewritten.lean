import Mathlib.Data.Option.Basic
import Mathlib.Logic.Basic
import AutoProperty.Text.Replace
import AutoProperty.Text.Rewriting

/-! # Replacing spans, there and back

Of spans in any order those are replaced that come first and do not overlap. What is done to the
text is the same whether it is consumed or gone over by offsets, and no offset ever falls
outside of it. Since the relation between the two texts has two sides that are alike, the old
texts can be put back in place of the new ones.
-/

namespace AutoProperty

/-- The span lies in the text, its ends are in order and stand between characters. -/
def Span.LiesIn (span : Span) (text : List Char) : Prop :=
  ∃ before inside after, text = before ++ inside ++ after ∧
    span = .ofLength (byteLength before) (byteLength inside)

/-- A span lies in a text if its text can be cut out. -/
theorem Span.liesIn_iff {span : Span} {text : List Char} :
    span.LiesIn text ↔ (cutBytes? span.start span.stop text).isSome := by
  rw [Option.isSome_iff_exists]
  simp only [cutBytes?_eq_some_iff, LiesIn]
  constructor
  · rintro ⟨before, inside, after, htext, rfl⟩
    exact ⟨inside, before, after, htext, rfl, rfl⟩
  · rintro ⟨inside, before, after, htext, hstart, hstop⟩
    refine ⟨before, inside, after, htext, ?_⟩
    obtain ⟨start, stop⟩ := span
    cases hstart
    cases hstop
    rfl

/-- The span lies in the rest of a text, which begins at the cursor. -/
def Span.LiesAhead (span : Span) (cursor : Nat) (rest : List Char) : Prop :=
  ∃ before inside after, rest = before ++ inside ++ after ∧
    span = .ofLength (cursor + byteLength before) (byteLength inside)

theorem byteLength_eq_zero {cs : List Char} : byteLength cs = 0 ↔ cs = [] := by
  cases cs with
  | nil => simp
  | cons c cs =>
    have := c.utf8Size_pos
    simp only [byteLength_cons, reduceCtorEq, iff_false]
    omega

/-- A span lies ahead if it lies in the text and not in what has been copied. -/
theorem Span.liesAhead_iff (span : Span) (done rest : List Char) :
    span.LiesAhead (byteLength done) rest ↔
      byteLength done ≤ span.start ∧ span.LiesIn (done ++ rest) := by
  constructor
  · rintro ⟨before, inside, after, rfl, rfl⟩
    refine ⟨Nat.le_add_right .., done ++ before, inside,
      after, by simp only [List.append_assoc], ?_⟩
    rw [byteLength_append]
  · rintro ⟨hle, before, inside, after, htext, rfl⟩
    have hle : byteLength done ≤ byteLength before := hle
    rw [List.append_assoc] at htext
    rcases List.append_eq_append_iff.mp htext with ⟨between, rfl, hrest⟩ | ⟨between, rfl, hrest⟩
    · exact ⟨between, inside, after, by rw [hrest, List.append_assoc], by rw [byteLength_append]⟩
    · have hempty : between = [] := by
        rw [byteLength_append] at hle
        exact byteLength_eq_zero.mp (by omega)
      subst hempty
      refine ⟨[], inside, after, ?_, by rw [List.append_nil]; rfl⟩
      rw [List.nil_append] at hrest
      exact hrest.symm

/-- The rests of two texts, which begin at two offsets: the second one is the first one with
another text in place of each span that has a place. Edits whose span does not lie ahead have
none. -/
inductive Rewritten :
    Nat → Nat → List (Span × List Char) → List (Option Span) → List Char → List Char → Prop where
  | nil {cursor written : Nat} {rest : List Char} : Rewritten cursor written [] [] rest rest
  | skip {cursor written : Nat} {span : Span} {new rest rest' : List Char}
    {edits : List (Span × List Char)}
      {places : List (Option Span)} :
      ¬span.LiesAhead cursor rest → Rewritten cursor written edits places rest rest' →
      Rewritten cursor written ((span, new) :: edits) (none :: places) rest rest'
  | take {cursor written : Nat} {span place : Span} {before inside new rest rest' : List Char}
      {edits : List (Span × List Char)} {places : List (Option Span)} :
      span = .ofLength (cursor + byteLength before) (byteLength inside) →
      place = .ofLength (written + byteLength before) (byteLength new) →
      Rewritten span.stop place.stop edits places rest rest' →
      Rewritten cursor written ((span, new) :: edits) (some place :: places)
        (before ++ inside ++ rest)
        (before ++ new ++ rest')

/-- Consuming the text gives one that is rewritten. -/
theorem rewritten_replaceSpansFrom (name : List Char) (cursor written : Nat) (rest : List Char)
    (spans : List Span) :
    let outcome := replaceSpansFrom name cursor written rest spans
    Rewritten cursor written (spans.map (·, name)) outcome.2 rest outcome.1 := by
  induction spans generalizing cursor written rest with
  | nil => exact .nil
  | cons span spans ih =>
    rw [replaceSpansFrom]
    dsimp only
    split
    next hpieces =>
      refine .skip ?_ (ih cursor written rest)
      rintro ⟨before, inside, after, rfl, rfl⟩
      simp [Span.ofLength, splitBytes?_append] at hpieces
    next before behind hpieces =>
      obtain ⟨_, hguard, hpieces⟩ := Option.bind_eq_some_iff.mp hpieces
      simp only [Option.bind_eq_bind, Option.bind_eq_some_iff, Option.pure_def, Option.some.injEq,
        Prod.mk.injEq, Prod.exists] at hpieces
      obtain ⟨before, after, hbefore, inside, behind, hinside, rfl, rfl⟩ := hpieces
      have horder : cursor ≤ span.start ∧ span.start ≤ span.stop := by
        by_cases h : (cursor ≤ span.start && span.start ≤ span.stop)
        · simpa using h
        · cases (show none = some _ from (if_neg h).symm.trans hguard)
      obtain ⟨rfl, hstart⟩ := splitBytes?_some hbefore
      obtain ⟨rfl, hstop⟩ := splitBytes?_some hinside
      have hspan : span = .ofLength (cursor + byteLength before) (byteLength inside) := by
        obtain ⟨start, stop⟩ := span
        rw [Span.ofLength, Span.mk.injEq]
        simp only at horder hstart hstop
        omega
      rw [← List.append_assoc]
      exact .take hspan rfl (ih _ _ _)

/-! ## Going over the text -/

theorem stop_ofLength_append (done before inside : List Char) :
    (Span.ofLength (byteLength done + byteLength before) (byteLength inside)).stop =
      byteLength (done ++ before ++ inside) := by
  rw [byteLength_append, byteLength_append, Span.ofLength]

namespace Rewriting

theorem step?_pass {text : List Char} {r : Rewriting} {edit : Span × List Char}
    (h : ¬(r.cursor ≤ edit.1.start ∧ edit.1.LiesIn text)) :
    step? text r edit = some { r with places := r.places ++ [none] } := by
  rw [Span.liesIn_iff, not_and_or] at h
  exact if_pos (by simpa using h)

/-- A step copies what is in front of the span and puts the new text in its place. -/
theorem step?_copy (done before inside rest written new : List Char) (front : List (Option Span)) :
    step? (done ++ before ++ inside ++ rest) ⟨byteLength done, written, front⟩
      (.ofLength (byteLength done + byteLength before) (byteLength inside), new) =
        some ⟨byteLength (done ++ before ++ inside), written ++ before ++ new,
          front ++
            [some (Span.ofLength (byteLength written + byteLength before)
              (byteLength new)).wrapped]⟩ := by
  have hinside := cutBytes?_append (done ++ before) inside rest
  have hbefore := cutBytes?_append done before (inside ++ rest)
  rw [byteLength_append] at hinside
  rw [← List.append_assoc] at hbefore
  have htaken : (decide (byteLength done + byteLength before < byteLength done) ||
      (cutBytes? (byteLength done + byteLength before)
        (byteLength done + byteLength before + byteLength inside)
        (done ++ before ++ inside ++ rest)).isNone) = false := by
    rw [hinside]
    simp
  refine (if_neg (Bool.eq_false_iff.mp htaken)).trans ?_
  show (cutBytes? _ (byteLength done + byteLength before) _).bind _ = _
  rw [hbefore, Option.bind_some]
  dsimp only
  rw [byteLength_append written, ← stop_ofLength_append]
  rfl

theorem finish?_eq (done written rest : List Char) (front : List (Option Span)) :
    finish? (done ++ rest) ⟨byteLength done, written, front⟩ =
      some (String.ofList (written ++ rest), front) := by
  have hrest := cutBytes?_append done rest []
  rw [List.append_nil, ← byteLength_append] at hrest
  rw [finish?, hrest]
  rfl

end Rewriting

namespace Rewritten

variable {cursor written : Nat} {edits : List (Span × List Char)} {places : List (Option Span)}
  {rest rest' done done' : List Char}

theorem length_eq (h : Rewritten cursor written edits places rest rest') :
    places.length = edits.length := by
  induction h with
  | nil => rfl
  | skip _ _ ih => exact congrArg (· + 1) ih
  | take _ _ _ ih => exact congrArg (· + 1) ih

/-- To go over the text by offsets is to rewrite it, and no cut fails. The places are reported. -/
theorem foldlM_step? (h : Rewritten cursor written edits places rest rest')
    (hdone : byteLength done = cursor) (hdone' : byteLength done' = written)
    (front : List (Option Span)) :
    (edits.foldlM (Rewriting.step? (done ++ rest)) ⟨cursor, done', front⟩).bind
      (Rewriting.finish? (done ++ rest)) = some (String.ofList (done' ++ rest'),
        front ++ places.map (·.map Span.wrapped)) := by
  -- Both cursors stand at the ends of what has been gone over and of what has been written.
  induction h generalizing done done' front with
  | @nil cursor written rest =>
    subst hdone
    rw [List.map_nil, List.append_nil]
    exact Rewriting.finish?_eq done done' rest front
  | @skip cursor written span new rest rest' edits places hnot _ ih =>
    subst hdone
    rw [Span.liesAhead_iff] at hnot
    have hothers := ih rfl hdone' (front ++ [none])
    rw [List.append_assoc] at hothers
    rw [List.foldlM_cons, Rewriting.step?_pass hnot]
    exact hothers
  | @take cursor written span place before inside new rest rest' edits places hspan hplace _ ih =>
    subst hdone hdone'
    have hothers :=
      @ih (done ++ before ++ inside) (done' ++ before ++ new) (by rw [hspan, stop_ofLength_append])
        (by rw [hplace, stop_ofLength_append]) (front ++ [some place.wrapped])
    rw [hspan, stop_ofLength_append, List.append_assoc front, List.append_assoc _ new,
      List.append_assoc done'] at hothers
    rw [← List.append_assoc done, ← List.append_assoc done, List.foldlM_cons, hspan,
      Rewriting.step?_copy, ← hplace]
    simp only [List.append_assoc] at hothers ⊢
    exact hothers

end Rewritten

end AutoProperty
