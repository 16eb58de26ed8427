import PegStream.Input.Source
import PegStream.Machine.Collected
import PegStream.Rules

/-!
# States of a match

A match is a machine that works on an input. Its control says what it does next, and its stack holds
one frame for each pattern that waits for the outcome of a part of it. All that a suspended match
needs to go on is in this state, so a match can pause wherever its input does.

A checkpoint of the input belongs to the frame that opened it, or to the longest-match read in
progress.
-/

namespace PegStream

/-- The pattern passed over in front of tokens, if there is one. -/
abbrev Scope := Option Pattern

/-- The value that a tapped pattern produced, under the label of the tap. -/
structure Tap where
  label : String
  value : Value

namespace Machine

/-- A token being read, after what stands in front of it has been skipped. -/
inductive Scan where
  | char (accepted : CharClass)
  /-- The characters of a literal still to come. -/
  | literal (expected : List Char)
  | endOfInput
  | int (format : IntFormat) (numeral : Numeral)
  /-- A walk down a symbol table: the node reached, and the longest key passed on the way, by its
  value and a checkpoint after it. -/
  | symbol (table : SymbolTable) (node : Nat) (best : Option (Value × Checkpoint))

/-- What follows once everything to be skipped is skipped. -/
inductive Token where
  | scan (scan : Scan)
  /-- A pattern in which nothing is skipped. -/
  | lexeme (operand : Pattern)

/-- What the machine does next. -/
inductive Control where
  | enter (pattern : Pattern) (scope : Scope)
  /-- Match `skipper` once more, in front of a token. -/
  | skip (skipper : Pattern) (next : Token)
  | scan (scan : Scan)
  /-- The innermost waiting pattern's part has matched. -/
  | matched (value : Value)
  /-- The innermost waiting pattern's part has failed. -/
  | failed

/-- A pattern that waits for the outcome of a part of it. -/
inductive Frame where
  /-- A match of a skipper, started at `mark`. -/
  | noise (skipper : Pattern) (next : Token) (mark : Checkpoint)
  /-- A sequence with the values kept so far, the latest first, and the parts to come. -/
  | sequence (keep : Bool) (rest : List Pattern) (scope : Scope) (values : List Value)
  /-- A branch of an alternative, started at `mark`, and the branches to come. -/
  | alternative (keep : Bool) (rest : List Pattern) (scope : Scope) (mark : Checkpoint)
  /-- A round of a repetition, started at `mark`, after `count` rounds. A repetition that needs any
  round at all has a checkpoint at its `entry`. -/
  | repetition (operand : Pattern) (bounds : Bounds) (scope : Scope) (entry : Option Checkpoint)
      (mark : Checkpoint) (count : Nat) (collected : Collected)
  /-- An element of a list; `mark` stands before the separator in front of it, if it has one. -/
  | listElement (operand separator : Pattern) (scope : Scope) (mark : Checkpoint) (first : Bool)
      (collected : Collected)
  /-- A separator of a list, started at `mark`. -/
  | listSeparator (operand separator : Pattern) (scope : Scope) (mark : Checkpoint)
      (collected : Collected)
  | optional (keep : Bool) (mark : Checkpoint)
  /-- The excluded pattern, tried in front of the operand. -/
  | except (operand : Pattern) (scope : Scope) (mark : Checkpoint)
  | not (mark : Checkpoint)
  | discard
  | map (f : Value → Value)
  | tap (label : String)

/-- The control that goes on with a token. -/
def Token.control : Token → Control
  | .scan s => .scan s
  | .lexeme p => .enter p none

/-- The control that reads a token, after skipping what the scope says. -/
def Control.ofToken (scope : Scope) (token : Token) : Control :=
  match scope with
  | none => token.control
  | some skipper => .skip skipper token

end Machine

/-- A match in progress on an input. -/
structure Machine (σ : Type) where
  control : Machine.Control
  /-- The waiting patterns, the innermost first. -/
  stack : List Machine.Frame
  source : σ
  /-- The values tapped so far, the latest first. -/
  log : List Tap

namespace Machine

variable {σ : Type}

/-- A match of `p` from the cursor of an input. -/
def start (p : Pattern) (source : σ) : Machine σ where
  control := .enter p none
  stack := []
  source
  log := []

/-- The values tapped so far, in order. -/
def taps (m : Machine σ) : List Tap := m.log.reverse

/-- Turns to something else. -/
def goto (control : Control) (m : Machine σ) : Machine σ := { m with control }

/-- Enters a pattern while `frame` waits for its outcome. -/
def call (frame : Frame) (p : Pattern) (scope : Scope) (m : Machine σ) : Machine σ :=
  { m with control := .enter p scope, stack := frame :: m.stack }

variable [Source σ]

/-- Whether the cursor has moved on since a checkpoint. -/
def hasPassed (mark : Checkpoint) (m : Machine σ) : Bool :=
  mark.index < Source.offset m.source

def mark (m : Machine σ) : Checkpoint × Machine σ :=
  let (cp, source) := Source.mark m.source
  (cp, { m with source })

def commit (cp : Checkpoint) (m : Machine σ) : Except Fault (Machine σ) :=
  (fun source => { m with source }) <$> Source.commit cp m.source

def rollback (cp : Checkpoint) (m : Machine σ) : Except Fault (Machine σ) :=
  (fun source => { m with source }) <$> Source.rollback cp m.source

def advance (m : Machine σ) : Except Fault (Machine σ) :=
  (fun source => { m with source }) <$> Source.advance m.source

end Machine

end PegStream
