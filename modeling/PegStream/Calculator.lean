import PegStream.Parse
import PegStream.Pattern.Combinators
import PegStream.Text.Utf8

/-!
# A calculator

Arithmetic expressions over 64-bit integers, one per line: sums of products of factors, where a
factor is an integer or an expression between parentheses, with spaces allowed in front of every
token. Operators of one level associate to the left. Sums, differences and products wrap around;
division truncates, and gives zero where it has no answer.
-/

namespace PegStream.Calculator

/-! ## Arithmetic -/

/-- The quotient truncated toward zero, or zero where there is none in 64 bits. -/
def divide (a b : Int64) : Int64 :=
  if b = 0 ∨ (a = Int64.minValue ∧ b = -1) then 0 else a / b

/-- Applies an operator; every character but `+`, `-` and `*` divides. -/
def apply (op : Char) (a b : Int64) : Int64 :=
  if op = '+' then a + b
  else if op = '-' then a - b
  else if op = '*' then a * b
  else divide a b

/-- One operator and its right operand, applied to what stands on the left. Anything else is passed
over. -/
def applyStep (acc : Int64) : Value → Int64
  | .tuple [.char op, .int rhs] => apply op acc rhs
  | _ => acc

/-- The value of a first operand followed by operators and operands, from the left. -/
def fold (v : Value) : Value :=
  let parts := v.items
  let first := (parts.head?.bind Value.int?).getD 0
  let steps := (parts[1]?.map Value.items).getD []
  .int (steps.foldl applyStep first)

/-! ## Grammar -/

def expression : RuleRef := ⟨0, "expr"⟩

def term : RuleRef := ⟨1, "term"⟩

def factor : RuleRef := ⟨2, "factor"⟩

/-- An operand, and any number of operators with another one each. -/
def chain (operand : RuleRef) (operators : String) : Pattern :=
  .map (.rule operand >> (Pattern.oneOf operators >> .rule operand).many) fold

/-- An integer, or an expression between parentheses. -/
def factorPattern : Pattern :=
  Pattern.signedInt <|>
    (Pattern.literalChar '(' >> .rule expression >> Pattern.literalChar ')')

/-- The rules of the grammar. -/
def rules : RuleBook where
  cells := [
    ⟨expression.id, expression.name, some (chain term "+-")⟩,
    ⟨term.id, term.name, some (chain factor "*/")⟩,
    ⟨factor.id, factor.name, some factorPattern⟩]
  next := 3

/-- A whole line: one expression, with spaces skipped. -/
def line : Pattern :=
  .skipping (.rule expression >> .endOfInput) (.literal " ")

/-! ## Lines -/

/-- The value of a line. -/
def evaluate (fuel : Nat) (text : String) : Except PegStream.Failure Int :=
  (parseInto (.int .int64) rules fuel line text).outcome.map Subtype.val

/-- What is printed for a line. -/
def answer (fuel : Nat) (text : String) : String :=
  match evaluate fuel text with
  | .ok n => toString n
  | .error (.error e) => "error: " ++ e.message
  | .error (.fault f) => "fault: " ++ f.message
  | .error .outOfFuel => "error: out of fuel"

def isBlank (text : String) : Bool :=
  text.toList.all Text.isWhiteSpace

/-- A line without the line feed at its end and a carriage return in front of that. -/
def stripEnd (bytes : List UInt8) : List UInt8 :=
  match bytes.reverse with
  | 10 :: 13 :: rest => rest.reverse
  | 10 :: rest => rest.reverse
  | _ => bytes

/-- The lines of some bytes after the bytes `line`, which are given in reverse. -/
def linesAfter (line : List UInt8) : List UInt8 → List (List UInt8)
  | [] => if line.isEmpty then [] else [line.reverse]
  | b :: bs =>
    if b = 10 then (b :: line).reverse :: linesAfter [] bs else linesAfter (b :: line) bs

/-- The lines of some bytes, each up to and with its line feed. -/
def splitLines (bytes : List UInt8) : List (List UInt8) :=
  linesAfter [] bytes

/-- What a session prints, and whether it ended because a line was no text. -/
structure Transcript where
  lines : List String
  aborted : Bool

/-- Answers every line that is not blank, up to the first that is no text. -/
def answerLines (fuel : Nat) : List (List UInt8) → Transcript
  | [] => ⟨[], false⟩
  | bytes :: rest =>
    match Utf8.decode? (stripEnd bytes) with
    | none => ⟨[], true⟩
    | some text =>
      let t := answerLines fuel rest
      if isBlank text then t else { t with lines := answer fuel text :: t.lines }

/-- Answers all lines of an input. -/
def session (fuel : Nat) (input : List UInt8) : Transcript :=
  answerLines fuel (splitLines input)

end PegStream.Calculator
