import PegStream.Pattern.Basic

/-!
# Collected values

A repetition gathers the values of its rounds by the shape of its operand: a silent operand leaves
nothing, text joins into a string, and anything else becomes a list.
-/

namespace PegStream

/-- The values of the rounds so far, the latest first. -/
inductive Collected where
  | silent
  | text (pieces : List String)
  | items (values : List Value)

namespace Collected

/-- Nothing collected yet, for an operand of the given shape. -/
def ofShape : Shape → Collected
  | .silent => silent
  | .text => text []
  | .other => items []

/-- Adds the value of one more round. A text operand owes a value with a text. -/
def push (v : Value) : Collected → Except Fault Collected
  | silent => .ok silent
  | text pieces =>
    match v.text? with
    | some piece => .ok (text (piece :: pieces))
    | none => .error (.notText v.kind)
  | items values => .ok (items (v :: values))

/-- The value of all rounds together. -/
def finish : Collected → Value
  | silent => .nil
  | text pieces => .str (String.join pieces.reverse)
  | items values => .list values.reverse

end Collected

end PegStream
