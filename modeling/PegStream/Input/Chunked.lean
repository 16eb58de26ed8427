import PegStream.Input.Source
import PegStream.Text.Slice

/-!
# Inputs that arrive in chunks

A `Chunked` input grows by `push` until `finish` declares it complete. It keeps the chunks that can
still be read: once the cursor and every open checkpoint have passed the end of a chunk, `release`
lets the chunk go, so that what is held is bounded by the oldest open checkpoint and not by what has
been received.
-/

namespace PegStream

/-- A piece of an input. -/
structure Chunk where
  text : String
  /-- The byte offset of the piece in the whole input. -/
  start : Nat
  deriving DecidableEq

namespace Chunk

/-- The byte offset after the last character. -/
def stop (c : Chunk) : Nat := c.start + c.text.utf8ByteSize

/-- Whether the byte at `offset` belongs to the chunk. -/
def covers (c : Chunk) (offset : Nat) : Bool := c.start ≤ offset && offset < c.stop

end Chunk

/-- An input received in chunks, with a cursor. -/
structure Chunked where
  /-- The chunks still held, in order of arrival. -/
  chunks : List Chunk := []
  /-- The index of the chunk under the cursor, or the number of chunks when all are consumed. -/
  current : Nat := 0
  /-- The byte offset of the cursor in the whole input. -/
  cursor : Nat := 0
  position : Position := .start
  /-- The number of bytes received. -/
  received : Nat := 0
  /-- The open checkpoints, the innermost first. -/
  marks : List Checkpoint := []
  /-- Whether the input is complete. -/
  finished : Bool := false

namespace Chunked

def empty : Chunked := {}

/-- Adds a chunk at the end; an empty one changes nothing. -/
def push (text : String) (s : Chunked) : Except Fault Chunked :=
  if s.finished then .error .pushAfterFinish
  else if text.isEmpty then .ok s
  else .ok { s with
    chunks := s.chunks ++ [⟨text, s.received⟩]
    received := s.received + text.utf8ByteSize }

/-- Declares the input complete. -/
def finish (s : Chunked) : Chunked := { s with finished := true }

/-- The number of chunks held. -/
def retainedChunks (s : Chunked) : Nat := s.chunks.length

/-- The number of bytes held. -/
def retainedBytes (s : Chunked) : Nat :=
  s.chunks.foldr (fun c n => c.text.utf8ByteSize + n) 0

/-- The least offset that a later read can reach: that of the oldest open checkpoint, or else the
cursor. -/
def floor (s : Chunked) : Nat :=
  match s.marks.getLast? with
  | some oldest => oldest.index
  | none => s.cursor

/-- Drops the chunks in front that end at or before `floor`, and moves the index `current` along. -/
def dropPassed (floor : Nat) : List Chunk → Nat → Except Fault (List Chunk × Nat)
  | [], current => .ok ([], current)
  | c :: cs, current =>
    if floor < c.stop then .ok (c :: cs, current)
    else match current with
      | 0 => .error .negativeDifference
      | current + 1 => dropPassed floor cs current

/-- Lets go of the chunks that no later read can reach. -/
def release (s : Chunked) : Except Fault Chunked := do
  let (chunks, current) ← dropPassed s.floor s.chunks s.current
  return { s with chunks, current }

/-- The index of the chunk that covers `offset`, or the number of chunks. -/
def locate (s : Chunked) (offset : Nat) : Nat :=
  s.chunks.findIdx (·.covers offset)

def peek (s : Chunked) : Except Fault (Option Char) :=
  match s.chunks[s.current]? with
  | none => .ok none
  | some chunk =>
    if s.cursor < chunk.start then .error .negativeDifference
    else Text.charAt chunk.text (s.cursor - chunk.start)

/-- Moves past the next character, and releases chunks when it was the last of its chunk. -/
def advance (s : Chunked) : Except Fault Chunked := do
  match s.chunks[s.current]?, ← s.peek with
  | some chunk, some c =>
    let s' := { s with cursor := s.cursor + c.utf8Size, position := s.position.advance c }
    if s'.cursor = chunk.stop then release { s' with current := s.current + 1 } else .ok s'
  | _, _ => .error (.advancePastEnd .chunked)

def mark (s : Chunked) : Checkpoint × Chunked :=
  let cp : Checkpoint := ⟨s.cursor, s.position, s.marks.length⟩
  (cp, { s with marks := cp :: s.marks })

def rollback (cp : Checkpoint) (s : Chunked) : Except Fault Chunked :=
  if cp.depth + 1 ≠ s.marks.length then .error (cp.outOfOrder (.rollbackOutOfOrder .chunked))
  else release { s with
    marks := s.marks.tail
    cursor := cp.index
    position := cp.position
    current := s.locate cp.index }

def commit (cp : Checkpoint) (s : Chunked) : Except Fault Chunked :=
  if cp.depth + 1 ≠ s.marks.length then .error (cp.outOfOrder (.commitOutOfOrder .chunked))
  else release { s with marks := s.marks.tail }

instance : Source Chunked where
  peek := peek
  advance := advance
  isFinal := finished
  offset := cursor
  position := position
  mark := mark
  rollback := rollback
  commit := commit
  openMarks s := s.marks.length

end Chunked

end PegStream
