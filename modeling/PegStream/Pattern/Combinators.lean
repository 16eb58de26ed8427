import PegStream.Pattern.Basic
import PegStream.Text.Alphabetic
import PegStream.Text.WhiteSpace

/-!
# Building patterns

The vocabulary in which grammars are written, beside the constructors of `Pattern`. `a >> b` and
`a <|> b` join sequences and alternatives that stand as operands into one; `Pattern.sequence` and
`Pattern.alternative` keep them as they are. Builders that can be misused check their arguments.
-/

namespace PegStream.Pattern

/-! ## Characters -/

/-- Any character. -/
def any : Pattern := .char .any

/-- The character `c`, kept as the value. -/
def exactly (c : Char) : Pattern := .char (.single c)

/-- A character from `lo` to `hi`. -/
def range (lo hi : Char) : Pattern := .char (.range lo hi)

/-- A character that occurs in `s`. -/
def oneOf (s : String) : Pattern := .char (.ofString s)

/-- A character that does not occur in `s`. -/
def noneOf (s : String) : Pattern := .char (~~~ .ofString s)

/-- A character that a predicate accepts. -/
def satisfy (accepts : Char → Bool) : Pattern := .char (.satisfying accepts)

/-- An ASCII digit. -/
def digit : Pattern := range '0' '9'

/-- A letter of any script. -/
def alpha : Pattern := satisfy Text.isAlphabetic

/-- A blank or a line break of any script. -/
def space : Pattern := satisfy Text.isWhiteSpace

/-! ## Tokens -/

/-- The text `c`, matched as a literal. -/
def literalChar (c : Char) : Pattern := .literal c.toString

/-- A decimal integer with an optional sign. -/
def signedInt : Pattern := .int (.decimal true)

/-- A decimal integer without a sign. -/
def unsignedInt : Pattern := .int (.decimal false)

/-- An integer of a given base and number of digits. -/
def intWith (base minDigits maxDigits : Nat) (signed : Bool) : Except Fault Pattern :=
  .int <$> IntFormat.ofNats base minDigits maxDigits signed

/-- The longest of some keys. -/
def symbols (entries : List (String × Value)) : Except Error Pattern :=
  .symbol <$> SymbolTable.ofList entries

/-! ## Repetition -/

/-- The pattern between `min` and `max` times, or without limit if `max` is zero. -/
def times (p : Pattern) (min max : Nat) : Except Fault Pattern :=
  match Bounds.ofNats? min max with
  | some bounds => .ok (.repetition p bounds)
  | none => .error (.invertedRepeat min max)

/-- The pattern any number of times. -/
def many (p : Pattern) : Pattern := .repetition p (.atLeast 0)

/-- The pattern at least once. -/
def many1 (p : Pattern) : Pattern := .repetition p (.atLeast 1)

/-! ## Joining -/

/-- The parts of a sequence, or the pattern itself. -/
def parts : Pattern → List Pattern
  | sequence ps => ps
  | p => [p]

/-- The branches of an alternative, or the pattern itself. -/
def branches : Pattern → List Pattern
  | alternative ps => ps
  | p => [p]

/-- First `p`, then `q`. -/
def followedBy (p q : Pattern) : Pattern := .sequence (p.parts ++ q.parts)

/-- First `p`, and `q` where `p` does not match. -/
def orElse (p q : Pattern) : Pattern := .alternative (p.branches ++ q.branches)

instance : AndThen Pattern := ⟨fun p q => p.followedBy (q ())⟩

instance : OrElse Pattern := ⟨fun p q => p.orElse (q ())⟩

end PegStream.Pattern
