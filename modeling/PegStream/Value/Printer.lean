import PegStream.Text.Quoted
import PegStream.Value.Basic

/-!
# Written form of values

`Value.render` writes a value on one line as its constructor applied to its contents.
-/

namespace PegStream.Value

mutual

/-- The written form of a value. -/
def render : Value → String
  | .nil => "Nil"
  | .char c => "Char(" ++ Text.quoteChar c ++ ")"
  | .int n => "Int(" ++ toString n.toInt ++ ")"
  | .str s => "Str(" ++ Text.quoteString s ++ ")"
  | .list vs => "List([" ++ String.intercalate ", " (renderAll vs) ++ "])"
  | .tuple vs => "Tuple([" ++ String.intercalate ", " (renderAll vs) ++ "])"

/-- The written forms of `vs`, in order. -/
def renderAll : List Value → List String
  | [] => []
  | v :: vs => render v :: renderAll vs

end

end PegStream.Value
