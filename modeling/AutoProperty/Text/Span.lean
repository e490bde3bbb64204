import AutoProperty.Text.Bytes

/-! # Spans

A span is a half-open range of byte offsets. Nothing keeps its ends in order: a span read from
outside may be reversed or lie beyond the text, and every operation says what it does then.
-/

namespace AutoProperty

/-- The bytes from `start` up to, and without, `stop`. -/
structure Span where
  start : Nat
  stop : Nat
deriving DecidableEq, Inhabited

namespace Span

/-- Offsets are words of 32 bits. -/
def offsetLimit : Nat := .pow 2 32

/-- The span of `length` bytes from `start` on. -/
def ofLength (start length : Nat) : Span :=
  ⟨start, start + length⟩

/-- The span as it is reported: both ends as words of 32 bits. -/
def wrapped (s : Span) : Span :=
  ⟨s.start % offsetLimit, s.stop % offsetLimit⟩

/-- The number of bytes, unless the span is reversed. -/
def length? (s : Span) : Option Nat :=
  if s.start ≤ s.stop then some (s.stop - s.start) else none

def isEmpty (s : Span) : Bool :=
  s.start == s.stop

def contains (s : Span) (offset : Nat) : Bool :=
  s.start ≤ offset && offset < s.stop

/-- Every end of `other` lies between the ends of `s`. -/
def covers (s other : Span) : Bool :=
  s.start ≤ other.start && other.stop ≤ s.stop

/-- The spans share a byte or meet at an end. -/
def touches (s other : Span) : Bool :=
  other.start ≤ s.stop && s.start ≤ other.stop

/-- The spans share at least one byte. -/
def overlaps (s other : Span) : Bool :=
  max s.start other.start < min s.stop other.stop

/-- Moves both ends by `delta`. No end falls below zero, and one that leaves the range of offsets
wraps around. -/
def shift (s : Span) (delta : Int) : Span :=
  ⟨move s.start, move s.stop⟩
where
  move (offset : Nat) : Nat := (offset + delta).toNat % offsetLimit

def order (s other : Span) : Ordering :=
  (compare s.start other.start).then (compare s.stop other.stop)

/-- The text the span covers, if both ends lie between characters of the text and are in order. -/
def slice? (s : Span) (text : String) : Option String :=
  (cutBytes? s.start s.stop text.toList).map String.ofList

/-- Writes the span as `[start..stop)`. -/
def display (s : Span) : String :=
  "[" ++ toString s.start ++ ".." ++ toString s.stop ++ ")"

end Span

end AutoProperty
