import PegStream.Error

/-!
# Bounds on a count

How often something may be repeated: at least `min` times and, unless `max` is zero, at most `max`
times. The two are in order by construction.
-/

namespace PegStream

/-- A least and a greatest count; a `max` of zero is no limit. -/
structure Bounds where
  min : Nat
  max : Nat
  ordered : max = 0 ∨ min ≤ max
  deriving DecidableEq

namespace Bounds

/-- At least `min`, without limit. -/
def atLeast (min : Nat) : Bounds := ⟨min, 0, .inl rfl⟩

/-- Bounds from two numbers, unless they are inverted. -/
def ofNats? (min max : Nat) : Option Bounds :=
  if h : max = 0 ∨ min ≤ max then some ⟨min, max, h⟩ else none

/-- Whether a count has reached the greatest one allowed. -/
def isFull (b : Bounds) (count : Nat) : Bool :=
  b.max != 0 && count == b.max

end Bounds

end PegStream
