import PegStream.Pipeline.Reader
import PegStream.Stream
import PegStream.Text.Utf8

/-!
# Pipelines

A pipeline matches a pattern over bytes from a reader, or over a list of chunks, and stops pulling
as soon as the match is decided. Bytes are decoded on the way, so a character may be cut by the end
of a read; bytes that are no text end the run at their offset, unless the match was decided before.
-/

namespace PegStream

/-- A pattern and the number of bytes to ask for at each read. -/
structure Pipeline where
  pattern : Pattern
  chunkSize : Nat

namespace Pipeline

/-- The number of bytes asked for unless told otherwise. -/
def defaultChunkSize : Nat := 8 * 1024

/-- A pipeline that asks for at least one byte at a time. -/
def ofChunkSize (pattern : Pattern) (chunkSize : Nat) : Pipeline :=
  ⟨pattern, max chunkSize 1⟩

/-- A pipeline with the usual chunk size. -/
def ofPattern (pattern : Pattern) : Pipeline :=
  ofChunkSize pattern defaultChunkSize

/-- The largest buffer that memory can hold. -/
def maxCapacity : Nat := 0x7FFFFFFFFFFFFFFF

/-- The number of bytes that the buffer holds. -/
def capacity (p : Pipeline) : Nat := max p.chunkSize 1

theorem capacity_pos (p : Pipeline) : 0 < p.capacity :=
  Nat.lt_of_lt_of_le Nat.zero_lt_one (Nat.le_max_right _ _)

/-! ## Answers -/

/-- Why a pipeline has no value. -/
inductive Failure where
  /-- The reader failed. -/
  | read (message : String)
  /-- The byte at an offset belongs to no character. -/
  | invalidUtf8 (offset : Nat)
  | parse (failure : PegStream.Failure)

def Failure.message : Failure → String
  | read message => "failed to read input: " ++ message
  | invalidUtf8 offset => s!"invalid UTF-8 at byte {offset}"
  | parse (.error e) => e.message
  | parse (.fault f) => f.message
  | parse .outOfFuel => "out of fuel"

/-- An answer, the values tapped on the way, and how much was pulled. -/
structure Run where
  outcome : Except Failure Value
  taps : List Tap := []
  /-- The number of reads, or of chunks taken. -/
  pulls : Nat := 0
  /-- The number of bytes delivered. -/
  bytes : Nat := 0

/-- The run of a pattern that cannot be started. -/
def unstarted (e : Error) : Run :=
  { outcome := .error (.parse (.error e)) }

/-- Ends a run without an answer from the match. -/
def abort (failure : Failure) (stream : Stream) (pulls bytes : Nat) : Run :=
  { outcome := .error failure, taps := stream.taps, pulls, bytes }

/-- Ends a run with the answer of the match. -/
def complete (rules : RuleBook) (fuel : Nat) (stream : Stream) (pulls bytes : Nat) : Run :=
  let report := stream.finish rules fuel
  { outcome := report.outcome.mapError .parse, taps := report.taps, pulls, bytes }

/-! ## Chunks -/

/-- Feeds chunks until the match is decided. -/
def feedChunks (rules : RuleBook) (fuel : Nat) (stream : Stream) (pulls bytes : Nat) :
    List String → Run
  | [] => complete rules fuel stream pulls bytes
  | chunk :: chunks =>
    let (pulls, bytes) := (pulls + 1, bytes + chunk.utf8ByteSize)
    match stream.feed rules fuel chunk with
    | .error failure => abort (.parse failure) stream pulls bytes
    | .ok stream =>
      if stream.status.isDone then complete rules fuel stream pulls bytes
      else feedChunks rules fuel stream pulls bytes chunks

/-- Matches the pattern over a list of chunks. -/
def runChunks (p : Pipeline) (rules : RuleBook) (fuel : Nat) (chunks : List String) : Run :=
  match Stream.start rules p.pattern with
  | .error e => unstarted e
  | .ok stream => feedChunks rules fuel stream 0 0 chunks

/-! ## Readers -/

/-- Reads and feeds until the match is decided, the reader ends or fails, or the bytes are no
text. -/
def pump (p : Pipeline) (rules : RuleBook) (fuel : Nat) (stream : Stream)
    (decoder : Utf8.Decoder) (pulls bytes : Nat) (script : Script) : Run :=
  let pulls := pulls + 1
  match _ : script.read p.capacity with
  | (.bytes [], _) =>
    match decoder.finish with
    | .error offset => abort (.invalidUtf8 offset) stream pulls bytes
    | .ok () => complete rules fuel stream pulls bytes
  | (.bytes (b :: bs), rest) =>
    let bytes := bytes + (b :: bs).length
    match decoder.push (b :: bs) with
    | .error offset => abort (.invalidUtf8 offset) stream pulls bytes
    | .ok (text, decoder) =>
      match stream.feed rules fuel text with
      | .error failure => abort (.parse failure) stream pulls bytes
      | .ok stream =>
        if stream.status.isDone then complete rules fuel stream pulls bytes
        else p.pump rules fuel stream decoder pulls bytes rest
  | (.interrupted, rest) => p.pump rules fuel stream decoder pulls bytes rest
  | (.failed message, _) => abort (.read message) stream pulls bytes
termination_by script.size
decreasing_by
  all_goals
    apply Script.size_read_lt p.capacity_pos
    · assumption
    · nofun

/-- Matches the pattern over the bytes of a reader, if there can be a buffer for them. -/
def runReader (p : Pipeline) (rules : RuleBook) (fuel : Nat) (script : Script) : Run :=
  match Stream.start rules p.pattern with
  | .error e => unstarted e
  | .ok stream =>
    if maxCapacity < p.capacity then abort (.parse (.fault .bufferTooLarge)) stream 0 0
    else p.pump rules fuel stream {} 0 0 script

end Pipeline

end PegStream
