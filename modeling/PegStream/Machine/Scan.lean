import PegStream.Machine.Basic

/-!
# Reading a token

A token is read one character at a time. Where the next character is not there yet, the machine
waits and its state stays as it is; where the input has ended, the token is decided by what has been
read.
-/

namespace PegStream.Machine

variable {σ : Type}

/-- What one step of a machine leads to. -/
inductive Step (σ : Type) where
  | moved (m : Machine σ)
  /-- Nothing can be decided before more input arrives. -/
  | waiting
  /-- The whole match is decided. -/
  | halted (result : Option Value)

variable [Source σ]

/-- What stands at the cursor. -/
inductive Ahead where
  | char (c : Char)
  /-- The input has ended. -/
  | ended
  /-- The next character has not arrived yet. -/
  | unknown

/-- Looks at the next character. -/
def ahead (m : Machine σ) : Except Fault Ahead := do
  match ← Source.peek m.source with
  | some c => return .char c
  | none => return if Source.isFinal m.source then .ended else .unknown

/-- Consumes a character and turns to something else. -/
def take (next : Control) (m : Machine σ) : Except Fault (Step σ) := do
  return .moved ((← m.advance).goto next)

/-- Turns to something else without reading. -/
def settle (next : Control) (m : Machine σ) : Except Fault (Step σ) :=
  .ok (.moved (m.goto next))

/-- The outcome of an integer that has been read to its end. -/
def intOutcome (format : IntFormat) (n : Numeral) : Control :=
  match n.value? format with
  | some v => .matched (.int v)
  | none => .failed

/-- Reads one more character of an integer: a sign in front, or a digit. A character that is neither
ends the integer. -/
def scanInt (format : IntFormat) (n : Numeral) (m : Machine σ) : Except Fault (Step σ) := do
  if format.digits.isFull n.count then m.settle (intOutcome format n)
  else match ← m.ahead with
    | .unknown => return .waiting
    | .ended => m.settle (intOutcome format n)
    | .char c =>
      match if format.signed && n.sign.isNone && n.count == 0 then Sign.ofChar? c else none with
      | some sign => m.take (.scan (.int format { n with sign := some sign }))
      | none =>
        match digitOf format.base c with
        | none => m.settle (intOutcome format n)
        | some d =>
          match n.push? format.base d with
          | none => m.settle .failed
          | some n' => m.take (.scan (.int format n'))

/-- Closes the checkpoint after the longest key so far, if there is one. -/
def commitBest (best : Option (Value × Checkpoint)) (m : Machine σ) : Except Fault (Machine σ) :=
  match best with
  | some (_, cp) => m.commit cp
  | none => .ok m

/-- Ends a walk down a symbol table: the cursor goes back to the end of the longest key passed. -/
def resolveSymbol (best : Option (Value × Checkpoint)) (m : Machine σ) :
    Except Fault (Step σ) := do
  match best with
  | some (v, cp) => return .moved ((← m.rollback cp).goto (.matched v))
  | none => m.settle .failed

/-- Goes one character down a symbol table, to `node`. -/
def descendSymbol (table : SymbolTable) (node : Nat) (best : Option (Value × Checkpoint))
    (m : Machine σ) : Except Fault (Step σ) := do
  let m ← m.advance
  match table.value? node with
  | none => m.settle (.scan (.symbol table node best))
  | some v =>
    let m ← m.commitBest best
    if table.isLeaf node then m.settle (.matched v)
    else
      let (cp, m) := m.mark
      m.settle (.scan (.symbol table node (some (v, cp))))

/-- Reads one more character of a symbol. -/
def scanSymbol (table : SymbolTable) (node : Nat) (best : Option (Value × Checkpoint))
    (m : Machine σ) : Except Fault (Step σ) := do
  match ← m.ahead with
  | .unknown => return .waiting
  | .ended => m.resolveSymbol best
  | .char c =>
    match table.child? node c with
    | some next => m.descendSymbol table next best
    | none => m.resolveSymbol best

/-- Reads one more character of a token, or decides it. -/
def scan (token : Scan) (m : Machine σ) : Except Fault (Step σ) := do
  match token with
  | .char accepted =>
    match ← m.ahead with
    | .char c => if accepted.contains c then m.take (.matched (.char c)) else m.settle .failed
    | .ended => m.settle .failed
    | .unknown => return .waiting
  | .literal [] => m.settle (.matched .nil)
  | .literal (expected :: rest) =>
    match ← m.ahead with
    | .char c => if c = expected then m.take (.scan (.literal rest)) else m.settle .failed
    | .ended => m.settle .failed
    | .unknown => return .waiting
  | .endOfInput =>
    match ← m.ahead with
    | .char _ => m.settle .failed
    | .ended => m.settle (.matched .nil)
    | .unknown => return .waiting
  | .int format n => m.scanInt format n
  | .symbol table node best => m.scanSymbol table node best

end PegStream.Machine
