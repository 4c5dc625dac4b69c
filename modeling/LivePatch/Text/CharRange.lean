/-
Sets of characters given by ranges of code points, the form in which the character tables of this
library are written.
-/
namespace LivePatch.Text

/-- A set of characters as inclusive ranges of code points. -/
abbrev CharRanges := List (Nat × Nat)

/-- A character is in the set when one of the ranges holds its code point. -/
def CharRanges.has (ranges : CharRanges) (c : Char) : Bool :=
  ranges.any fun (low, high) => low ≤ c.toNat && c.toNat ≤ high

end LivePatch.Text
