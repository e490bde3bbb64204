import AutoProperty.Text.Span

/-! # Replacing spans

One text takes the place of several spans of another. Spans that cannot be replaced stay as they
are, and for all others it is told where they come to lie. As in trees, the offsets are exact; a
place that is reported is wrapped.
-/

namespace AutoProperty

/-- Replaces spans by `name` in `rest`, the text from offset `cursor` on. `written` bytes come
before the result. -/
def replaceSpansFrom (name : List Char) (cursor written : Nat) (rest : List Char) :
    List Span → List Char × List (Option Span)
  | [] => (rest, [])
  | span :: spans =>
    let pieces? := do
      guard (cursor ≤ span.start && span.start ≤ span.stop)
      let (before, rest) ← splitBytes? (span.start - cursor) rest
      let (_, rest) ← splitBytes? (span.stop - span.start) rest
      return (before, rest)
    match pieces? with
    | none =>
      let (text, moved) := replaceSpansFrom name cursor written rest spans
      (text, none :: moved)
    | some (before, rest) =>
      let start := written + byteLength before
      let placed := Span.ofLength start (byteLength name)
      let (text, moved) := replaceSpansFrom name span.stop placed.stop rest spans
      (before ++ name ++ text, some placed :: moved)

/-- Replaces spans of a text by `name`, and says where each of them is in the new text. A span that
begins before the end of the last replaced one, or that cannot be cut out of the text, is left
alone. -/
def replaceSpans (text : String) (spans : List Span) (name : String) :
    String × List (Option Span) :=
  let (text, moved) := replaceSpansFrom name.toList 0 0 text.toList spans
  (String.ofList text, moved)

end AutoProperty
