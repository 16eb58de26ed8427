import PegStream.Pattern.Bounds

/-!
# Written integers

An integer is written as an optional sign and digits of some base. `IntFormat` says which spellings
are accepted. A `Numeral` is a spelling read so far; `Numeral.value?` is the number it stands for,
if the spelling is complete and the number fits into 64 bits.
-/

namespace PegStream

/-- Which spellings of an integer are accepted. -/
structure IntFormat where
  base : Nat
  /-- How many digits are needed, and after how many the reader stops. -/
  digits : Bounds
  /-- Whether a sign may stand in front. -/
  signed : Bool
  base_mem : 2 ≤ base ∧ base ≤ 36
  deriving DecidableEq

namespace IntFormat

/-- Decimal, with at least one digit and no limit. -/
def decimal (signed : Bool) : IntFormat where
  base := 10
  digits := .atLeast 1
  signed
  base_mem := by decide

/-- The accepted spellings by four numbers; the base is checked before the bounds. -/
def ofNats (base min max : Nat) (signed : Bool) : Except Fault IntFormat :=
  if h : 2 ≤ base ∧ base ≤ 36 then
    match Bounds.ofNats? min max with
    | some digits => .ok ⟨base, digits, signed, h⟩
    | none => .error (.invertedDigits min max)
  else .error (.integerBase base)

end IntFormat

/-- The number that a character stands for as a digit: `0` to `9`, then the letters of either
case. -/
def digitValue (c : Char) : Option Nat :=
  if '0' ≤ c ∧ c ≤ '9' then some (c.toNat - '0'.toNat)
  else if 'a' ≤ c ∧ c ≤ 'z' then some (c.toNat - 'a'.toNat + 10)
  else if 'A' ≤ c ∧ c ≤ 'Z' then some (c.toNat - 'A'.toNat + 10)
  else none

/-- The value of a digit of the given base. -/
def digitOf (base : Nat) (c : Char) : Option Nat :=
  (digitValue c).filter (· < base)

inductive Sign where
  | plus
  | minus
  deriving DecidableEq

namespace Sign

def ofChar? (c : Char) : Option Sign :=
  if c = '+' then some plus else if c = '-' then some minus else none

end Sign

/-- An integer read so far. -/
structure Numeral where
  sign : Option Sign := none
  /-- How many digits have been read. -/
  count : Nat := 0
  /-- The number that the digits stand for. -/
  magnitude : Nat := 0
  deriving DecidableEq, Inhabited

namespace Numeral

/-- The largest magnitude of a 64-bit integer of either sign. -/
def limit : Nat := 0x8000000000000000

/-- Reads one more digit, unless the magnitude passes the limit. -/
def push? (base digit : Nat) (n : Numeral) : Option Numeral :=
  let magnitude := n.magnitude * base + digit
  if limit < magnitude then none
  else some { n with count := n.count + 1, magnitude }

/-- The number that a spelling stands for. -/
def toInt (n : Numeral) : Int :=
  match n.sign with
  | some .minus => -n.magnitude
  | _ => n.magnitude

/-- The value of a complete spelling: there are enough digits, a sign is followed by one at least,
and the number fits. -/
def value? (format : IntFormat) (n : Numeral) : Option Int64 :=
  if n.count < format.digits.min then none
  else if n.count = 0 ∧ n.sign.isSome then none
  else if IntKind.int64.Fits n.toInt then some (Int64.ofInt n.toInt)
  else none

end Numeral

end PegStream
