import PegStream.Error
import PegStream.Text.Position

/-!
# Inputs that a match reads

A match reads characters strictly from left to right through the operations of `Source`. A
speculative read is bracketed: `mark` opens a checkpoint, and exactly one of `commit` and `rollback`
closes it. Checkpoints form a stack, and only the innermost open one may be closed; an input that
sees this order broken raises a `Fault`.

An input may still grow. `peek` gives nothing when no character is buffered, and `isFinal` tells
whether that is the end or only a pause.
-/

namespace PegStream

/-- A cursor saved by an input, to return to later. -/
structure Checkpoint where
  /-- The byte offset of the saved cursor in the whole input. -/
  index : Nat
  position : Position
  /-- The number of checkpoints that were open before this one. -/
  depth : Nat
  deriving DecidableEq, Repr, Inhabited

/-- The largest depth that can be written down. -/
def Checkpoint.maxDepth : Nat := 0xFFFFFFFFFFFFFFFF

/-- The fault of closing `cp` while it is not the innermost open checkpoint: `fault`, unless there
is no depth inside that of `cp` to compare with. -/
def Checkpoint.outOfOrder (cp : Checkpoint) (fault : Fault) : Fault :=
  if cp.depth = maxDepth then .depthOverflow else fault

/-- An input read through a cursor, with a stack of open checkpoints. -/
class Source (σ : Type) where
  /-- The next character, if one is buffered. -/
  peek : σ → Except Fault (Option Char)
  /-- Moves the cursor past the next character. -/
  advance : σ → Except Fault σ
  /-- Whether no more characters can arrive. -/
  isFinal : σ → Bool
  /-- The byte offset of the cursor in the whole input. -/
  offset : σ → Nat
  position : σ → Position
  /-- Opens a checkpoint at the cursor. -/
  mark : σ → Checkpoint × σ
  /-- Closes a checkpoint and moves the cursor back to it. -/
  rollback : Checkpoint → σ → Except Fault σ
  /-- Closes a checkpoint and leaves the cursor where it is. -/
  commit : Checkpoint → σ → Except Fault σ
  /-- The number of open checkpoints. -/
  openMarks : σ → Nat

end PegStream
