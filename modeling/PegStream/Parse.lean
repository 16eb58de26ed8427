import PegStream.Input.Whole
import PegStream.Machine.Run
import PegStream.Value.Target

/-!
# Matching a complete text

`parsePrefix` matches a pattern at the beginning of a text and gives the value together with the
rest of the text; the other entry points are cut from it. Before anything is read, all rules within
reach must be defined. Every answer comes with the values tapped on the way, those from attempts
that were undone included.
-/

namespace PegStream

/-- An answer and the values tapped on the way to it. -/
structure Report (α : Type) where
  outcome : Except Failure α
  taps : List Tap

namespace Report

/-- The same taps with an answer computed from the first one. -/
def andThen {α β : Type} (r : Report α) (f : α → Except Failure β) : Report β :=
  ⟨r.outcome >>= f, r.taps⟩

end Report

/-- The answer to a finished match of a complete text. -/
def wholeOutcome (m : Machine Whole) : Machine.Verdict → Except Failure (Value × String)
  | .fault f => .error (.fault f)
  | .outOfFuel => .error .outOfFuel
  | verdict =>
    if m.source.marks ≠ 0 then .error (.fault .openCheckpoint)
    else match verdict with
      | .matched v => .ok (v, m.source.remaining)
      | .failed => .error (.error .noMatch)
      | _ => .error (.fault .undecidedOnWhole)

/-- Matches a pattern at the beginning of a text, and gives its value and the rest of the text. -/
def parsePrefix (rules : RuleBook) (fuel : Nat) (p : Pattern) (input : String) :
    Report (Value × String) :=
  match rules.collect p with
  | .error e => ⟨.error (.error e), []⟩
  | .ok _ =>
    let (m, verdict) := (Machine.start p (Whole.ofString input)).run rules fuel
    ⟨wholeOutcome m verdict, m.taps⟩

/-- The value of a pattern at the beginning of a text. -/
def parse (rules : RuleBook) (fuel : Nat) (p : Pattern) (input : String) : Report Value :=
  (parsePrefix rules fuel p input).andThen fun (v, _) => .ok v

/-- The value of a pattern at the beginning of a text, stored into a destination. -/
def parseInto (target : Target) (rules : RuleBook) (fuel : Nat) (p : Pattern) (input : String) :
    Report target.Carrier :=
  (parse rules fuel p input).andThen fun v => Failure.ofError (target.read v)

/-- Whether a pattern matches at the beginning of a text; a grammar with undefined rules is a
fault. -/
def accepts (rules : RuleBook) (fuel : Nat) (p : Pattern) (input : String) : Report Bool :=
  let r := parse rules fuel p input
  ⟨match r.outcome with
    | .ok _ => .ok true
    | .error (.error .noMatch) => .ok false
    | .error (.error e) => .error (.fault (.invalidGrammar e))
    | .error failure => .error failure,
    r.taps⟩

end PegStream
