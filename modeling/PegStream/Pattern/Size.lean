import PegStream.Pattern.Basic

/-!
# Sizes of patterns

The number of nodes of a pattern, which a walk over a pattern uses up: `Pattern.size_eq` says that
the children together are one node smaller.
-/

namespace PegStream.Pattern

mutual

/-- The number of nodes of a pattern. -/
def size : Pattern → Nat
  | .char _ | .literal _ | .endOfInput | .pass | .fail | .int _ | .symbol _ | .rule _ => 1
  | .sequence ps | .alternative ps => 1 + sizes ps
  | .repetition p _ | .optional p | .not p | .discard p | .map p _ | .tap p _ | .lexeme p =>
    1 + size p
  | .list p q | .except p q | .skipping p q => 1 + (size p + size q)

/-- The number of nodes of several patterns. -/
def sizes : List Pattern → Nat
  | [] => 0
  | p :: ps => size p + sizes ps

end

theorem sizes_append (ps qs : List Pattern) : sizes (ps ++ qs) = sizes ps + sizes qs := by
  induction ps with
  | nil => simp [sizes]
  | cons p ps ih => simp [sizes, ih, Nat.add_assoc]

theorem size_eq (p : Pattern) : p.size = 1 + sizes p.children := by
  cases p <;> simp [size, children, sizes]

end PegStream.Pattern
