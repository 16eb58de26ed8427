import PegStream.Pattern.CharClass
import PegStream.Pattern.Numeral
import PegStream.Pattern.SymbolTable

/-!
# Patterns

A `Pattern` describes what to match and what value to keep. Patterns are plain trees without any
state of a match; a rule stands in them by reference only, so a grammar may be recursive.

The shape of a pattern (`Pattern.shape`) is known before any match: a silent pattern never keeps a
value, a text pattern keeps characters or strings. Sequences leave out what silent parts produce,
and repetitions of text join into a string.
-/

namespace PegStream

/-- A reference to a rule: its identity, and its name for messages. -/
structure RuleRef where
  id : Nat
  name : String
  deriving DecidableEq

/-- What to match. -/
inductive Pattern where
  /-- One character of a class, kept as the value. -/
  | char (accepted : CharClass)
  /-- A fixed text. -/
  | literal (text : String)
  | endOfInput
  /-- Matches everywhere without reading. -/
  | pass
  /-- Matches nowhere. -/
  | fail
  | int (format : IntFormat)
  /-- The longest key of a table that stands next, with the value of the key. -/
  | symbol (table : SymbolTable)
  | sequence (parts : List Pattern)
  /-- The first branch that matches. -/
  | alternative (branches : List Pattern)
  | repetition (operand : Pattern) (bounds : Bounds)
  | optional (operand : Pattern)
  /-- The operand any number of times, with the separator in between. -/
  | list (operand separator : Pattern)
  /-- The operand, where the excluded pattern does not match. -/
  | except (operand excluded : Pattern)
  /-- Matches without reading where the operand does not. -/
  | not (operand : Pattern)
  /-- The operand without its value. -/
  | discard (operand : Pattern)
  /-- The operand, with its value replaced by a function of it. -/
  | map (operand : Pattern) (f : Value → Value)
  /-- The operand, with its value noted under a label and not kept. -/
  | tap (operand : Pattern) (label : String)
  /-- The operand with nothing skipped inside. -/
  | lexeme (operand : Pattern)
  /-- The operand, with matches of `skipper` passed over in front of every token. -/
  | skipping (operand skipper : Pattern)
  | rule (ref : RuleRef)

/-! ## Shapes -/

/-- What is known of a pattern's value before the match. -/
inductive Shape where
  /-- No value is kept. -/
  | silent
  /-- The value is a character or a string. -/
  | text
  /-- Any value. -/
  | other
  deriving DecidableEq

namespace Shape

/-- The shape of two parts in a row: two values side by side are no text. -/
def beside : Shape → Shape → Shape
  | silent, s => s
  | s, silent => s
  | _, _ => other

/-- The shape of a choice: text only if every value is. -/
def orElse : Shape → Shape → Shape
  | silent, s => s
  | s, silent => s
  | text, text => text
  | _, _ => other

theorem beside_assoc (a b c : Shape) : (a.beside b).beside c = a.beside (b.beside c) := by
  cases a <;> cases b <;> cases c <;> rfl

theorem orElse_assoc (a b c : Shape) : (a.orElse b).orElse c = a.orElse (b.orElse c) := by
  cases a <;> cases b <;> cases c <;> rfl

end Shape

namespace Pattern

mutual

/-- The shape of a pattern's value. -/
def shape : Pattern → Shape
  | .char _ => .text
  | .literal _ | .endOfInput | .pass | .fail | .not _ | .discard _ | .tap _ _ => .silent
  | .int _ | .symbol _ | .rule _ | .map _ _ => .other
  | .sequence parts => sequenceShape parts
  | .alternative branches => alternativeShape branches
  | .repetition operand _ | .optional operand | .list operand _ | .except operand _
  | .lexeme operand | .skipping operand _ => shape operand

/-- The shape of `parts` in a row. -/
def sequenceShape : List Pattern → Shape
  | [] => .silent
  | p :: ps => (shape p).beside (sequenceShape ps)

/-- The shape of a choice between `branches`. -/
def alternativeShape : List Pattern → Shape
  | [] => .silent
  | p :: ps => (shape p).orElse (alternativeShape ps)

end

theorem sequenceShape_append (ps qs : List Pattern) :
    sequenceShape (ps ++ qs) = (sequenceShape ps).beside (sequenceShape qs) := by
  induction ps with
  | nil => rfl
  | cons p ps ih => rw [List.cons_append, sequenceShape, sequenceShape, ih, Shape.beside_assoc]

theorem alternativeShape_append (ps qs : List Pattern) :
    alternativeShape (ps ++ qs) = (alternativeShape ps).orElse (alternativeShape qs) := by
  induction ps with
  | nil => rfl
  | cons p ps ih =>
    rw [List.cons_append, alternativeShape, alternativeShape, ih, Shape.orElse_assoc]

/-- Whether the pattern keeps no value. -/
def isSilent (p : Pattern) : Bool := p.shape == .silent

/-- Whether the pattern's value is a character or a string. -/
def isText (p : Pattern) : Bool := p.shape == .text

/-- The patterns that a pattern is directly made of, from left to right. -/
def children : Pattern → List Pattern
  | char _ | literal _ | endOfInput | pass | fail | int _ | symbol _ | rule _ => []
  | sequence ps | alternative ps => ps
  | repetition p _ | optional p | not p | discard p | map p _ | tap p _ | lexeme p => [p]
  | list p q | except p q | skipping p q => [p, q]

end Pattern

end PegStream
