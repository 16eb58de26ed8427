import PegStream.Machine.Step

/-!
# Runs of a match

`Machine.run` takes steps until the match is decided or has to wait for more input. A grammar that
calls itself without reading would never stop, so a run has fuel for a given number of steps and
says so when it has used it up. Running again from where a run stopped is how a match goes on.
-/

namespace PegStream.Machine

variable {σ : Type} [Source σ]

/-- How a run ended. -/
inductive Verdict where
  | matched (value : Value)
  | failed
  /-- The match needs more input. -/
  | waiting
  | fault (fault : Fault)
  | outOfFuel

/-- Takes at most `fuel` steps, and gives the state they lead to and how the run ended. -/
def run (rules : RuleBook) : (fuel : Nat) → Machine σ → Machine σ × Verdict
  | 0, m => (m, .outOfFuel)
  | fuel + 1, m =>
    match m.step rules with
    | .error f => (m, .fault f)
    | .ok (.moved m') => run rules fuel m'
    | .ok .waiting => (m, .waiting)
    | .ok (.halted (some v)) => (m, .matched v)
    | .ok (.halted none) => (m, .failed)

/-- More steps than any run can take in practice. -/
def ampleFuel : Nat := 0x4000000000000000

end PegStream.Machine
