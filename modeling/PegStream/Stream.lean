import PegStream.Input.Chunked
import PegStream.Machine.Run
import PegStream.Parse

/-!
# Matching a text that arrives in chunks

A `Stream` is a match of a pattern over a text delivered one chunk at a time. Each `feed` goes on
where the one before stopped; once the match is decided, further chunks are ignored. `finish`
declares the text complete and gives the answer.

A stream keeps in use the rules that its pattern reaches, as found when it was started.
-/

namespace PegStream

/-- What is known of a match so far. -/
inductive Status where
  | undecided
  | matched (value : Value)
  | failed

namespace Status

def isDone : Status → Bool
  | undecided => false
  | matched _ | failed => true

def isSuccess : Status → Bool
  | matched _ => true
  | undecided | failed => false

/-- What a run tells of a match. -/
def ofVerdict : Machine.Verdict → Except Failure Status
  | .matched v => .ok (matched v)
  | .failed => .ok failed
  | .waiting => .ok undecided
  | .fault f => .error (.fault f)
  | .outOfFuel => .error .outOfFuel

end Status

/-- A match over a text that is still arriving. -/
structure Stream where
  machine : Machine Chunked
  status : Status
  /-- The identities of the rules in use. -/
  held : List Nat

namespace Stream

/-- Starts a match, unless it can reach an undefined rule. -/
def start (rules : RuleBook) (p : Pattern) : Except Error Stream := do
  return { machine := .start p .empty, status := .undecided, held := ← rules.collect p }

/-- The place of the cursor in the text so far. -/
def position (s : Stream) : Position := s.machine.source.position

/-- The number of bytes held for reading again. -/
def retainedBytes (s : Stream) : Nat := s.machine.source.retainedBytes

/-- The values tapped so far. -/
def taps (s : Stream) : List Tap := s.machine.taps

/-- Adds a chunk to the text and goes on with the match, unless it is decided. -/
def feed (rules : RuleBook) (fuel : Nat) (chunk : String) (s : Stream) : Except Failure Stream := do
  if s.status.isDone then return s
  else
    let source ← Failure.ofFault (s.machine.source.push chunk)
    let (machine, verdict) := { s.machine with source }.run rules fuel
    return { s with machine, status := ← Status.ofVerdict verdict }

/-- The match after the end of the text, and how its last run ended. -/
def conclude (rules : RuleBook) (fuel : Nat) (s : Stream) : Machine Chunked × Machine.Verdict :=
  match s.status with
  | .undecided => { s.machine with source := s.machine.source.finish }.run rules fuel
  | .matched v => (s.machine, .matched v)
  | .failed => (s.machine, .failed)

/-- The answer to a match whose text is complete. -/
def concluded : Machine.Verdict → Except Failure Value
  | .matched v => .ok v
  | .failed => .error (.error .noMatch)
  | .waiting => .error (.fault .undecidedAtEnd)
  | .fault f => .error (.fault f)
  | .outOfFuel => .error .outOfFuel

/-- Declares the text complete and gives the answer. -/
def finish (rules : RuleBook) (fuel : Nat) (s : Stream) : Report Value :=
  let (machine, verdict) := s.conclude rules fuel
  ⟨concluded verdict, machine.taps⟩

/-- Declares the text complete and stores the answer into a destination. -/
def finishInto (target : Target) (rules : RuleBook) (fuel : Nat) (s : Stream) :
    Report target.Carrier :=
  (s.finish rules fuel).andThen fun v => Failure.ofError (target.read v)

end Stream

end PegStream
