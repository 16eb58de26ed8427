import PegStream.Calculator
import PegStream.Main
import PegStream.Pattern.Printer
import PegStream.Pipeline
import PegStream.Proofs.Tape
import PegStream.Session
import PegStream.Proofs.Follow
import PegStream.Proofs.Inputs
import PegStream.Proofs.Checkpoints
import PegStream.Proofs.Feeding
import PegStream.Proofs.Derivations
import PegStream.Proofs.Reading
import PegStream.Proofs.Execution
import PegStream.Proofs.LeftRecursion
import PegStream.Proofs.Growth
import PegStream.Proofs.Streaming
import PegStream.Proofs.Usage
import PegStream.Proofs.Retention
import PegStream.Proofs.Composition
import PegStream.Proofs.Adequacy
import PegStream.Proofs.Shapes
import PegStream.Proofs.Termination
import PegStream.Proofs.Confinement
import PegStream.Proofs.Lifetimes
import PegStream.Proofs.Encoding
import PegStream.Proofs.Settling
import PegStream.Proofs.Delivery
import PegStream.Proofs.Answers
import PegStream.Proofs.Decoding
import PegStream.Proofs.Outcomes
import PegStream.Proofs.Numerals
import PegStream.Proofs.Symbols
import PegStream.Proofs.Nesting
import PegStream.Proofs.Expressions
import PegStream.Proofs.Calculator
import PegStream.Proofs.Operations
import PegStream.Proofs.Backtracking
import PegStream.Proofs.Complete
import PegStream.Proofs.Repetition
import PegStream.Proofs.Lists
import PegStream.Proofs.Waiting
import PegStream.Proofs.Simulation
import PegStream.Proofs.Interchange
import PegStream.Proofs.Flattening
import PegStream.Proofs.Verbatim
import PegStream.Proofs.Neutrality
import PegStream.Proofs.Tries
import PegStream.Proofs.FullMatches
import PegStream.Proofs.Collection
import PegStream.Proofs.StaleCheckpoints
import PegStream.Proofs.Texts
