import PegStream.Error

/-!
# Typed destinations

A caller that knows the shape of a result asks for it by a `Target`. Each target names a type, its
`Carrier`, and `Target.read` stores a value there or says which shape was expected and which was
found. `unit` and `value` accept everything, `text` accepts whatever has a text, `list` also splits
a string into its characters, and `optional` takes `nil` for an absent value.
-/

namespace PegStream

/-- A description of a type that values can be stored into. -/
inductive Target where
  | unit
  | value
  | int (kind : IntKind)
  | char
  | text
  | list (item : Target)
  | optional (item : Target)
  | tuple (parts : List Target)

namespace Target

mutual

/-- The type that a target describes. -/
def Carrier : Target → Type
  | .unit => Unit
  | .value => Value
  | .int kind => { n : Int // kind.Fits n }
  | .char => Char
  | .text => String
  | .list item => List (Carrier item)
  | .optional item => Option (Carrier item)
  | .tuple parts => Carriers parts

/-- The product of the types that `parts` describe. -/
def Carriers : List Target → Type
  | [] => Unit
  | part :: parts => Carrier part × Carriers parts

end

/-- The error of a destination that does not take `v`. -/
def mismatch {α : Type} (expected : Expectation) (v : Value) : Except Error α :=
  .error (.shapeMismatch expected v.kind)

/-- Stores an integer that is in range. -/
def readInt (kind : IntKind) (v : Value) : Except Error { n : Int // kind.Fits n } :=
  match v with
  | .int n => if h : kind.Fits n.toInt then .ok ⟨n.toInt, h⟩ else mismatch (.integer kind) v
  | _ => mismatch (.integer kind) v

def readChar : Value → Except Error Char
  | .char c => .ok c
  | v => mismatch .char v

/-- Stores the text of a value. -/
def readText (v : Value) : Except Error String :=
  match v.text? with
  | some s => .ok s
  | none => mismatch .text v

/-- The values that a list destination stores one by one. -/
def listItems : Value → Except Error (List Value)
  | .list vs | .tuple vs => .ok vs
  | .str s => .ok (s.toList.map .char)
  | .nil => .ok []
  | v => mismatch .sequence v

/-- The values that a destination of `arity` parts stores one by one. -/
def tupleItems (arity : Nat) (v : Value) : Except Error (List Value) :=
  match v with
  | .tuple vs => if vs.length = arity then .ok vs else mismatch (.tuple arity) v
  | _ => mismatch (.tuple arity) v

mutual

/-- Stores a value, or reports the first part that does not fit. -/
def read : (t : Target) → Value → Except Error (Carrier t)
  | .unit, _ => .ok ()
  | .value, v => .ok v
  | .int kind, v => readInt kind v
  | .char, v => readChar v
  | .text, v => readText v
  | .list item, v => do (← listItems v).mapM (read item)
  | .optional _, .nil => .ok none
  | .optional item, v => some <$> read item v
  | .tuple parts, v => do readParts parts (← tupleItems parts.length v)

/-- Stores values into parts in order, taking `nil` where there are too few. -/
def readParts : (parts : List Target) → List Value → Except Error (Carriers parts)
  | [], _ => .ok ()
  | part :: parts, vs => do
    let first ← read part (vs.headD .nil)
    let others ← readParts parts vs.tail
    return (first, others)

end

end Target

end PegStream
