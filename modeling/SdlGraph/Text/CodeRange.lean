/-!
# Ranges of code points

Properties of characters are tables of closed ranges of code points.
-/

namespace SdlGraph.Text

/-- A closed range of code points, given by its first and its last member. -/
abbrev CodeRange := Nat × Nat

/-- Whether a character lies in a range. -/
def CodeRange.contains (range : CodeRange) (c : Char) : Bool :=
  range.1 ≤ c.toNat && c.toNat ≤ range.2

end SdlGraph.Text
