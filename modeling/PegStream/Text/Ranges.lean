/-!
# Sets of code points given by ranges

A property of characters that holds on many ranges of code points is kept as the sorted list of the
places where it changes: it starts to hold at the first bound, stops at the second, and so on. A
code point has the property when an odd number of bounds lie at or below it, which a binary search
counts.
-/

namespace PegStream.Text

/-- A set of code points: the ascending bounds at which membership changes. -/
structure RangeTable where
  bounds : Array Nat

namespace RangeTable

/-- The number of bounds at or below `n`, given that those before `lo` are and those from `hi` on
are not. -/
def rank (t : RangeTable) (n lo hi : Nat) : Nat :=
  if h : lo < hi then
    let mid := (lo + hi) / 2
    if t.bounds.getD mid 0 ≤ n then rank t n (mid + 1) hi else rank t n lo mid
  else lo
termination_by hi - lo

/-- Membership of a character. -/
def contains (t : RangeTable) (c : Char) : Bool :=
  t.rank c.toNat 0 t.bounds.size % 2 == 1

end RangeTable

end PegStream.Text
