import PegStream.Input.Source
import PegStream.Text.Slice

/-!
# Inputs that are all there

A `Whole` is an input over one complete text: it never waits, and since nothing is ever released it
keeps only the number of open checkpoints.
-/

namespace PegStream

/-- A complete text with a cursor. -/
structure Whole where
  text : String
  /-- The byte offset of the cursor. -/
  cursor : Nat := 0
  position : Position := .start
  /-- The number of open checkpoints. -/
  marks : Nat := 0

namespace Whole

def ofString (text : String) : Whole := { text }

/-- The text after the cursor. -/
def remaining (s : Whole) : String := Text.dropBytes s.text s.cursor

/-- The text before the cursor. -/
def consumed (s : Whole) : String := Text.takeBytes s.text s.cursor

def peek (s : Whole) : Except Fault (Option Char) :=
  Text.charAt s.text s.cursor

def advance (s : Whole) : Except Fault Whole := do
  match ← s.peek with
  | none => .error (.advancePastEnd .whole)
  | some c => .ok { s with cursor := s.cursor + c.utf8Size, position := s.position.advance c }

def mark (s : Whole) : Checkpoint × Whole :=
  (⟨s.cursor, s.position, s.marks⟩, { s with marks := s.marks + 1 })

def rollback (cp : Checkpoint) (s : Whole) : Except Fault Whole :=
  if s.marks ≤ cp.depth then .error .rollbackClosed
  else if cp.depth + 1 ≠ s.marks then .error (.rollbackOutOfOrder .whole)
  else .ok { s with cursor := cp.index, position := cp.position, marks := cp.depth }

def commit (cp : Checkpoint) (s : Whole) : Except Fault Whole :=
  if cp.depth + 1 ≠ s.marks then .error (cp.outOfOrder (.commitOutOfOrder .whole))
  else .ok { s with marks := cp.depth }

instance : Source Whole where
  peek := peek
  advance := advance
  isFinal _ := true
  offset := cursor
  position := position
  mark := mark
  rollback := rollback
  commit := commit
  openMarks := marks

end Whole

end PegStream
