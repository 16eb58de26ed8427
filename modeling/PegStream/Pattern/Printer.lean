import PegStream.Pattern.Basic

/-!
# Written form of patterns

`Pattern.render` writes a pattern on one line as its constructor applied to its contents. Functions
have no written form and are left out, and a rule is written by its name only, so that the form of a
recursive grammar is finite.
-/

namespace PegStream

/-- The written form of the accepted spellings of an integer. -/
def IntFormat.render (s : IntFormat) : String :=
  let (min, max) := (s.digits.min, s.digits.max)
  "IntSpec \x7b base: " ++ toString s.base ++ ", min_digits: " ++ toString min ++
    ", max_digits: " ++ toString max ++ ", signed: " ++ toString s.signed ++ " \x7d"

namespace Pattern

mutual

/-- The written form of a pattern. -/
def render : Pattern → String
  | .char accepted => "Char(" ++ accepted.render ++ ")"
  | .literal text => "Literal(" ++ Text.quoteString text ++ ")"
  | .endOfInput => "Eoi"
  | .pass => "Pass"
  | .fail => "Fail"
  | .int format => "Int(" ++ format.render ++ ")"
  | .symbol table => "Symbol(" ++ table.render ++ ")"
  | .sequence ps => "Sequence([" ++ String.intercalate ", " (renderAll ps) ++ "])"
  | .alternative ps => "Alternative([" ++ String.intercalate ", " (renderAll ps) ++ "])"
  | .repetition p bounds =>
    "Repeat \x7b operand: " ++ render p ++ ", min: " ++ toString bounds.min ++ ", max: " ++
      toString bounds.max ++ " \x7d"
  | .optional p => "Optional(" ++ render p ++ ")"
  | .list p q => "List \x7b operand: " ++ render p ++ ", separator: " ++ render q ++ " \x7d"
  | .except p q => "Except \x7b operand: " ++ render p ++ ", excluded: " ++ render q ++ " \x7d"
  | .not p => "Not(" ++ render p ++ ")"
  | .discard p => "Discard(" ++ render p ++ ")"
  | .map p _ => "Action \x7b operand: " ++ render p ++ ", action: Map(..) \x7d"
  | .tap p _ => "Action \x7b operand: " ++ render p ++ ", action: Tap(..) \x7d"
  | .lexeme p => "Lexeme(" ++ render p ++ ")"
  | .skipping p q =>
    "WithSkipper \x7b operand: " ++ render p ++ ", skipper: " ++ render q ++ " \x7d"
  | .rule ref => "Rule(Rule(" ++ ref.name ++ "))"

/-- The written forms of `ps`, in order. -/
def renderAll : List Pattern → List String
  | [] => []
  | p :: ps => render p :: renderAll ps

end

end Pattern

end PegStream
