/-! # Sets of code points

A set of characters given as closed ranges of code points, in increasing order.
-/

namespace AutoProperty

abbrev CodeRanges := List (Nat × Nat)

def CodeRanges.contains (ranges : CodeRanges) (c : Char) : Bool :=
  ranges.any fun range => range.1 ≤ c.toNat && c.toNat ≤ range.2

end AutoProperty
