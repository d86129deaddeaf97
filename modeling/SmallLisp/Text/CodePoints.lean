/-!
# Sets of characters

A set of characters, as the Unicode standard lists it: ranges of code points in increasing order.
-/

namespace SmallLisp.Text

/-- Ranges of code points, with both ends included. -/
abbrev CodePoints := List (Nat × Nat)

/-- Whether a code point lies in one of the ranges. -/
def CodePoints.contains (points : CodePoints) (n : Nat) : Bool :=
  points.any fun (first, last) => first ≤ n && n ≤ last

end SmallLisp.Text
