import PegStream.Stream

/-!
# Sessions

A session is a run in which rules are declared, defined and let go while any number of streams come
and go. A rule lives as long as its handle is kept, or as long as a stream that reaches it is not
finished; a pattern that refers to a rule does not keep it alive. Streams see the rules alive at
each step, and the streams themselves are numbered.
-/

namespace PegStream

/-- Rules, the handles kept on them, and the streams not yet finished. -/
structure Session where
  /-- Every rule ever declared. -/
  declared : RuleBook := {}
  /-- The identities of the rules whose handle is kept. -/
  handles : List Nat := []
  /-- The unfinished streams by number. -/
  streams : List (Nat × Stream) := []

namespace Session

def empty : Session := {}

/-! ## Rules -/

/-- Whether a rule is alive: its handle is kept, or an unfinished stream holds it. -/
def isAlive (s : Session) (id : Nat) : Bool :=
  s.handles.contains id || s.streams.any (·.2.held.contains id)

/-- The rules that are alive. -/
def rules (s : Session) : RuleBook := s.declared.restrict s.isAlive

/-- Declares a rule and keeps a handle on it. -/
def declare (s : Session) (name : String) : RuleRef × Session :=
  let (ref, declared) := s.declared.declare name
  (ref, { s with declared, handles := ref.id :: s.handles })

/-- Gives a rule its definition. -/
def define (s : Session) (ref : RuleRef) (p : Pattern) : Except Error Session := do
  return { s with declared := ← s.declared.define ref p }

/-- Lets go of the handle on a rule. -/
def drop (s : Session) (ref : RuleRef) : Session :=
  { s with handles := s.handles.filter (· != ref.id) }

/-- Lets go of all handles. -/
def dropAll (s : Session) : Session := { s with handles := [] }

/-! ## Streams -/

/-- The stream of a number. -/
def stream? (s : Session) (n : Nat) : Option Stream := s.streams.lookup n

/-- The session with a number's stream removed. -/
def remove (s : Session) (n : Nat) : Session :=
  { s with streams := s.streams.filter (·.1 != n) }

/-- The session with a stream under a number, in place of the one there. -/
def put (s : Session) (n : Nat) (stream : Stream) : Session :=
  { s with streams := (n, stream) :: (s.remove n).streams }

/-- Starts a stream under a number. A stream already there is given up, once the new one has
started. -/
def start (s : Session) (n : Nat) (p : Pattern) : Except Error Session := do
  return s.put n (← Stream.start s.rules p)

/-- Feeds a chunk to a stream. -/
def feed (s : Session) (fuel n : Nat) (chunk : String) : Except Failure Session :=
  match s.stream? n with
  | none => .ok s
  | some stream => do return s.put n (← stream.feed s.rules fuel chunk)

/-- Finishes a stream, which leaves the session. -/
def finish (s : Session) (fuel n : Nat) : Option (Report Value × Session) :=
  (s.stream? n).map fun stream => (stream.finish s.rules fuel, s.remove n)

/-- Finishes a stream, and stores its answer into a destination. -/
def finishInto (s : Session) (target : Target) (fuel n : Nat) :
    Option (Report target.Carrier × Session) :=
  (s.stream? n).map fun stream => (stream.finishInto target s.rules fuel, s.remove n)

end Session

end PegStream
