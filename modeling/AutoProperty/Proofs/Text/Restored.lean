import AutoProperty.Proofs.Text.Replaced

/-! # Putting the old texts back

When spans were replaced by a name, the name stands at each place that is told. Putting back
what stood at the spans gives the old text, and tells the spans themselves as the places. Places
are reported in words of 32 bits, so they mean this as long as the new text is short enough for
such offsets.
-/

namespace AutoProperty

/-- The places as they are reported. -/
def reportedPlaces (places : List (Option Span)) : List (Option Span) :=
  places.map (·.map Span.wrapped)

/-- To go over a text by offsets is to rewrite it. -/
theorem Rewriting.run?_eq {text result : String} {edits : List (Span × String)}
    {places : List (Option Span)}
    (h : Rewritten 0 0 (edits.map fun edit => (edit.1, edit.2.toList)) places text.toList
      result.toList) : Rewriting.run? text edits = some (result, reportedPlaces places) := by
  have hrun := h.foldlM_step? byteLength_nil byteLength_nil []
  rw [List.nil_append, List.nil_append, List.nil_append, String.ofList_toList] at hrun
  exact hrun

end AutoProperty
