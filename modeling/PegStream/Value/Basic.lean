/-!
# Values produced by a match

A match produces a tree of characters, integers, strings, lists and tuples. Sequences make tuples of
what their parts produce (`Value.ofParts`), repetitions make lists or strings.

The text of a value (`Value.text?`) is the concatenation of its characters and strings from left to
right; a value with an integer anywhere inside has none.
-/

namespace PegStream

/-- What a match produces. -/
inductive Value where
  /-- Nothing: an absent optional, or a pattern that keeps no value. -/
  | nil
  | char (c : Char)
  | int (n : Int64)
  | str (s : String)
  | list (items : List Value)
  | tuple (items : List Value)
  deriving Inhabited

namespace Value

/-- The constructors of `Value`, as error messages tell them apart. -/
inductive Kind where
  | nil | char | int | string | list | tuple
  deriving DecidableEq, Inhabited

/-- The word for a kind in messages. -/
def Kind.name : Kind → String
  | .nil => "nil"
  | .char => "char"
  | .int => "int"
  | .string => "string"
  | .list => "list"
  | .tuple => "tuple"

def kind : Value → Kind
  | nil => .nil
  | char _ => .char
  | int _ => .int
  | str _ => .string
  | list _ => .list
  | tuple _ => .tuple

/-! ## Views -/

def isNil : Value → Bool
  | nil => true
  | _ => false

def int? : Value → Option Int64
  | int n => some n
  | _ => none

def char? : Value → Option Char
  | char c => some c
  | _ => none

def str? : Value → Option String
  | str s => some s
  | _ => none

/-- The elements of a list or a tuple. -/
def elements? : Value → Option (List Value)
  | list vs | tuple vs => some vs
  | _ => none

/-- A list or a tuple gives its elements, `nil` none, and any other value itself. -/
def items : Value → List Value
  | list vs | tuple vs => vs
  | nil => []
  | v => [v]

/-- The value of a sequence whose parts kept `vs`: nothing, the only value, or a tuple. -/
def ofParts : List Value → Value
  | [] => nil
  | [v] => v
  | vs => tuple vs

/-! ## Text -/

mutual

/-- Appends the text of a value to `out`, or gives nothing if the value holds an integer. -/
def appendText : Value → String → Option String
  | .nil, out => some out
  | .char c, out => some (out.push c)
  | .str s, out => some (out ++ s)
  | .int _, _ => none
  | .list vs, out => appendTexts vs out
  | .tuple vs, out => appendTexts vs out

/-- Appends the texts of `vs` from left to right. -/
def appendTexts : List Value → String → Option String
  | [], out => some out
  | v :: vs, out => (appendText v out).bind (appendTexts vs)

end

/-- The text of a value, if it holds no integer. -/
def text? (v : Value) : Option String :=
  v.appendText ""

end Value

end PegStream
