/-!
# Character classes as ranges

A class of characters is a sorted list of closed ranges of code points.
-/

namespace StubManager.Text

/-- The closed ranges of code points a character class consists of, in ascending order. -/
abbrev Ranges := List (Nat × Nat)

/-- Membership of a character in a class. -/
def Ranges.has (ranges : Ranges) (c : Char) : Bool :=
  ranges.any fun (low, high) => low ≤ c.toNat && c.toNat ≤ high

end StubManager.Text
