import AutoProperty.Text.Span

/-! # Rewriting by offsets

Spans are replaced in one pass over the text they belong to. A cursor says how far the text has
been copied. Each cut of the text between the cursor and a span may fail, and the rewriting with
it. The places are reported in words of 32 bits.
-/

namespace AutoProperty

/-- A text that is being rewritten: how far it has been copied, what has been written by then,
and where the spans have come to lie. -/
structure Rewriting where
  cursor : Nat
  written : List Char
  places : List (Option Span)

namespace Rewriting

def start : Rewriting := ⟨0, [], []⟩

/-- Copies the text up to a span and writes the other text in its place. A span that begins in
front of the cursor or cannot be cut out of the text is passed over. -/
def step? (text : List Char) (r : Rewriting) (edit : Span × List Char) : Option Rewriting :=
  if edit.1.start < r.cursor || (cutBytes? edit.1.start edit.1.stop text).isNone then
    return { r with places := r.places ++ [none] }
  else do
    let before ← cutBytes? r.cursor edit.1.start text
    let written := r.written ++ before
    let place := Span.ofLength (byteLength written) (byteLength edit.2)
    return ⟨edit.1.stop, written ++ edit.2, r.places ++ [some place.wrapped]⟩

def finish? (text : List Char) (r : Rewriting) : Option (String × List (Option Span)) := do
  let rest ← cutBytes? r.cursor (byteLength text) text
  return (String.ofList (r.written ++ rest), r.places)

def run? (text : String) (edits : List (Span × String)) : Option (String × List (Option Span)) := do
  let r ← (edits.map fun edit => (edit.1, edit.2.toList)).foldlM (step? text.toList) start
  r.finish? text.toList

end Rewriting

end AutoProperty
