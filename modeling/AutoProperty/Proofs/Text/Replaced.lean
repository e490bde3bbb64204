import AutoProperty.Proofs.Text.Rewritten

/-! # What a replacement changes

A text in which spans were replaced is the old text everywhere but at the spans, which come in
order and do not overlap. Whatever spans are asked for, exactly those are replaced for which a
new place is told.
-/

namespace AutoProperty

/-- The second text is the first one, which begins at an offset, with `name` in place of each of the
spans. -/
inductive Replaced (name : List Char) : Nat → List Span → List Char → List Char → Prop where
  | nothing {offset : Nat} {text : List Char} : Replaced name offset [] text text
  | span {offset : Nat} {span : Span} {spans : List Span} {before inside rest rest' : List Char} :
      span.start = offset + byteLength before → span.stop = span.start + byteLength inside →
      Replaced name span.stop spans rest rest' →
      Replaced name offset (span :: spans) (before ++ inside ++ rest) (before ++ name ++ rest')

/-- The spans that were replaced: those for which a place is told. -/
def replacedSpans (spans : List Span) (places : List (Option Span)) : List Span :=
  (spans.zip places).filterMap fun (span, place?) => place?.map fun _ => span

theorem mem_replacedSpans {spans : List Span} {places : List (Option Span)} {span : Span} :
    span ∈ replacedSpans spans places ↔ ∃ place, (span, some place) ∈ spans.zip places := by
  simp only [replacedSpans, List.mem_filterMap, Prod.exists, Option.map_eq_some_iff]
  constructor
  · rintro ⟨s, _, hmem, place, rfl, rfl⟩
    exact ⟨place, hmem⟩
  · rintro ⟨place, hmem⟩
    exact ⟨span, some place, hmem, place, rfl, rfl⟩

/-- If one name is written everywhere, it is in place of the spans that have a place. -/
theorem Rewritten.replaced {name : List Char} {cursor written : Nat}
    {edits : List (Span × List Char)} {places : List (Option Span)} {rest rest' : List Char}
    (h : Rewritten cursor written edits places rest rest') (hname : ∀ edit ∈ edits, edit.2 = name) :
    Replaced name cursor (replacedSpans (edits.map Prod.fst) places) rest rest' := by
  induction h with
  | nil => exact .nothing
  | skip _ _ ih => exact ih (List.forall_mem_cons.mp hname).2
  | @take cursor written span place before inside new rest rest' edits places hspan _ _ ih =>
    obtain ⟨rfl, hothers⟩ := List.forall_mem_cons.mp hname
    exact .span (by rw [hspan]; rfl) (by rw [hspan]; rfl) (ih hothers)

theorem replaced_replaceSpansFrom (name : List Char) (cursor written : Nat) (rest : List Char)
    (spans : List Span) :
    let outcome := replaceSpansFrom name cursor written rest spans
    Replaced name cursor (replacedSpans spans outcome.2) rest outcome.1 := by
  intro outcome
  have hname : ∀ edit ∈ spans.map (·, name), edit.2 = name := by simp
  have hreplaced := (rewritten_replaceSpansFrom name cursor written rest spans).replaced hname
  rwa [List.map_map, Function.comp_def, List.map_id'] at hreplaced

/-- Replacing spans of a text changes exactly those for which it tells a new place. -/
theorem replaced_replaceSpans (text : String) (spans : List Span) (name : String) :
    let outcome := replaceSpans text spans name
    Replaced name.toList 0 (replacedSpans spans outcome.2) text.toList outcome.1.toList := by
  have hreplaced := replaced_replaceSpansFrom name.toList 0 0 text.toList spans
  simp only [replaceSpans, String.toList_ofList]
  exact hreplaced

end AutoProperty
