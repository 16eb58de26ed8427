import PegStream.Text.Quoted
import PegStream.Value.Basic

/-!
# What can go wrong

Three kinds of failure are kept apart. An `Error` is an answer that a caller handles: the input does
not match, a grammar is incomplete, a value has the wrong shape. A `Fault` is a broken contract: a
checkpoint closed out of order, inverted bounds, a read past the end. A run that used up its fuel
has no answer at all. `Failure` joins the three.
-/

namespace PegStream

/-! ## Errors -/

/-- The integer types that a value can be stored into. -/
inductive IntKind where
  | int8 | int16 | int32 | int64 | uint8 | uint16 | uint32 | uint64 | usize
  deriving DecidableEq

namespace IntKind

/-- The name of the type in messages. -/
def name : IntKind → String
  | int8 => "i8"
  | int16 => "i16"
  | int32 => "i32"
  | int64 => "i64"
  | uint8 => "u8"
  | uint16 => "u16"
  | uint32 => "u32"
  | uint64 => "u64"
  | usize => "usize"

def lowest : IntKind → Int
  | int8 => -0x80
  | int16 => -0x8000
  | int32 => -0x80000000
  | int64 => -0x8000000000000000
  | uint8 | uint16 | uint32 | uint64 | usize => 0

def highest : IntKind → Int
  | int8 => 0x7F
  | int16 => 0x7FFF
  | int32 => 0x7FFFFFFF
  | int64 => 0x7FFFFFFFFFFFFFFF
  | uint8 => 0xFF
  | uint16 => 0xFFFF
  | uint32 => 0xFFFFFFFF
  | uint64 | usize => 0xFFFFFFFFFFFFFFFF

/-- The numbers of the type. -/
def Fits (k : IntKind) (n : Int) : Prop :=
  k.lowest ≤ n ∧ n ≤ k.highest

instance (k : IntKind) (n : Int) : Decidable (k.Fits n) :=
  inferInstanceAs (Decidable (_ ∧ _))

end IntKind

/-- The shape that a destination asks of a value. -/
inductive Expectation where
  | integer (kind : IntKind)
  | char
  | text
  | sequence
  | tuple (arity : Nat)
  deriving DecidableEq

/-- The words for an expected shape in messages. -/
def Expectation.name : Expectation → String
  | integer k => k.name
  | char => "char"
  | text => "String"
  | sequence => "Vec"
  | tuple n => s!"tuple of {n}"

/-- Answers other than a value. -/
inductive Error where
  /-- The input does not match the pattern. -/
  | noMatch
  /-- A rule is referred to, but is gone or has no definition. -/
  | unboundRule (name : String)
  /-- A rule was given a second definition. -/
  | ruleAlreadyBound (name : String)
  /-- A symbol table was given the empty key. -/
  | emptySymbol
  /-- A value does not have the shape its destination asks for. -/
  | shapeMismatch (expected : Expectation) (found : Value.Kind)
  deriving DecidableEq

def Error.message : Error → String
  | noMatch => "input does not match the pattern"
  | unboundRule name => s!"rule `{name}` is used but was never defined"
  | ruleAlreadyBound name => s!"rule `{name}` is already defined"
  | emptySymbol => "symbol tables cannot contain the empty key"
  | shapeMismatch expected found =>
    "cannot store " ++ found.name ++ " value into " ++ expected.name

/-! ## Faults -/

/-- The two kinds of input, as faults name them. -/
inductive InputKind where
  | whole
  | chunked
  deriving DecidableEq

/-- The name of an input kind in messages. -/
def InputKind.name : InputKind → String
  | whole => "StrSource"
  | chunked => "ChunkSource"

/-- Broken contracts. -/
inductive Fault where
  /-- A character was taken from an input that has none left. -/
  | advancePastEnd (input : InputKind)
  /-- A chunk was added to an input declared complete. -/
  | pushAfterFinish
  /-- A rollback to a checkpoint that is no longer open. -/
  | rollbackClosed
  /-- A rollback to a checkpoint that is not the innermost open one. -/
  | rollbackOutOfOrder (input : InputKind)
  /-- A commit of a checkpoint that is not the innermost open one. -/
  | commitOutOfOrder (input : InputKind)
  /-- A difference of offsets or indices would be negative. -/
  | negativeDifference
  /-- A depth of checkpoints would not fit into 64 bits. -/
  | depthOverflow
  /-- A cursor beyond the end of a text of some number of bytes. -/
  | outOfBounds (offset length : Nat)
  /-- A cursor inside the encoding of a character. -/
  | splitsCharacter (offset : Nat) (text : String)
  | integerBase (base : Nat)
  | invertedDigits (min max : Nat)
  | invertedRepeat (min max : Nat)
  /-- A pattern classified as text produced something else. -/
  | notText (found : Value.Kind)
  | droppedRule (name : String)
  | undefinedRule (name : String)
  /-- A finished match left a checkpoint open. -/
  | openCheckpoint
  /-- A match asked for more of an input that is all there. -/
  | undecidedOnWhole
  /-- A match asked for more after the end of its input. -/
  | undecidedAtEnd
  /-- A read buffer of a size that no memory has. -/
  | bufferTooLarge
  | invalidGrammar (error : Error)
  deriving DecidableEq

namespace Fault

/-- The character whose encoding covers byte `offset`, with its first byte and the one after it. -/
def covering (offset : Nat) : Nat → List Char → Option (Char × Nat × Nat)
  | _, [] => none
  | start, c :: cs =>
    if offset < start + c.utf8Size then some (c, start, start + c.utf8Size)
    else covering offset (start + c.utf8Size) cs

def message : Fault → String
  | advancePastEnd .whole => "StrSource: advance past end of input"
  | advancePastEnd .chunked => "ChunkSource: advance past end of buffered input"
  | pushAfterFinish => "ChunkSource: push after finish"
  | rollbackClosed => "StrSource: rollback of a closed checkpoint"
  | rollbackOutOfOrder input => input.name ++ ": rollback out of stack order"
  | commitOutOfOrder input => input.name ++ ": commit out of stack order"
  | negativeDifference => "attempt to subtract with overflow"
  | depthOverflow => "attempt to add with overflow"
  | outOfBounds offset length =>
    s!"start byte index {offset} is out of bounds for string of length {length}"
  | splitsCharacter offset text =>
    s!"start byte index {offset} is not a char boundary" ++
      match covering offset 0 text.toList with
      | some (c, first, next) =>
        "; it is inside " ++ Text.quoteChar c ++ s!" (bytes {first}..{next} of string)"
      | none => ""
  | integerBase base => s!"integer base must be between 2 and 36, got {base}"
  | invertedDigits min max => s!"integer digit bounds are inverted: min {min} > max {max}"
  | invertedRepeat min max => s!"repeat bounds are inverted: min {min} > max {max}"
  | notText found => "text operand produced a " ++ found.name ++ " value"
  | droppedRule name => s!"rule `{name}` was dropped while in use"
  | undefinedRule name => s!"rule `{name}` is used before being defined"
  | openCheckpoint => "checkpoint left open after parse"
  | undecidedOnWhole => "operation reported Partial on a final source"
  | undecidedAtEnd => "operation reported Partial after end of input"
  | bufferTooLarge => "capacity overflow"
  | invalidGrammar error => "invalid grammar: " ++ error.message

end Fault

/-! ## Failures -/

/-- Why there is no value. -/
inductive Failure where
  | error (error : Error)
  | fault (fault : Fault)
  /-- The run was cut off before it decided. -/
  | outOfFuel
  deriving DecidableEq

namespace Failure

/-- A step that can only err, among steps that can fail. -/
def ofError {α : Type} : Except Error α → Except Failure α :=
  Except.mapError error

/-- A step that can only break a contract, among steps that can fail. -/
def ofFault {α : Type} : Except Fault α → Except Failure α :=
  Except.mapError fault

end Failure

end PegStream
