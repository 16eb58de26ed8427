import PegStream.Machine.Basic
import PegStream.Pattern.Combinators

/-!
# What a pattern matches

The meaning of patterns, without machine, cursor or checkpoints: a pattern, the skipper in force and
the text that is left decide whether the pattern matches, with which value, what is left after it,
and which values are tapped on the way. `Matches` is this relation, given by one rule for each way
in which a pattern can match or fail. A grammar that calls itself without reading has no derivation,
so the relation says nothing where a match would go on forever.

A failed attempt gives no rest: whoever goes on after it goes on from the text in front of it. What
it tapped stays tapped.
-/

namespace PegStream

/-! ## Outcomes -/

/-- What becomes of an attempt on a text. -/
inductive Outcome (α : Type) where
  | matched (value : α) (rest : List Char)
  | failed

namespace Outcome

variable {α β γ : Type}

/-- The same outcome with another value. -/
def map (f : α → β) : Outcome α → Outcome β
  | matched a rest => matched (f a) rest
  | failed => failed

/-- A match, or none. -/
def ofOption : Option (α × List Char) → Outcome α
  | some (a, rest) => matched a rest
  | none => failed

@[simp] theorem map_matched (f : α → β) (a : α) (rest : List Char) :
    (matched a rest).map f = matched (f a) rest := rfl

theorem map_map (g : β → γ) (f : α → β) (out : Outcome α) :
    (out.map f).map g = out.map fun a => g (f a) := by
  cases out <;> rfl

end Outcome

/-! ## Tokens -/

/-- One character of a class. -/
def CharClass.read (accepted : CharClass) : List Char → Outcome Value
  | [] => .failed
  | c :: cs => if accepted.contains c then .matched (.char c) cs else .failed

/-- The characters of a fixed text. -/
def readLiteral : (expected : List Char) → List Char → Outcome Value
  | [], text => .matched .nil text
  | _ :: _, [] => .failed
  | e :: expected, c :: cs => if c = e then readLiteral expected cs else .failed

/-- Nothing, at the end of the text. -/
def readEnd : List Char → Outcome Value
  | [] => .matched .nil []
  | _ :: _ => .failed

namespace Numeral

/-- The outcome of an integer whose digits have been read. -/
def outcome (format : IntFormat) (n : Numeral) (rest : List Char) : Outcome Value :=
  match n.value? format with
  | some v => .matched (.int v) rest
  | none => .failed

/-- As many more digits as there are and as the format takes. -/
def readDigits (format : IntFormat) (n : Numeral) : List Char → Outcome Value
  | [] => n.outcome format []
  | c :: cs =>
    if format.digits.isFull n.count then n.outcome format (c :: cs)
    else match digitOf format.base c with
      | none => n.outcome format (c :: cs)
      | some d =>
        match n.push? format.base d with
        | none => .failed
        | some n => n.readDigits format cs

end Numeral

/-- A sign, where the format takes one and there is one, and digits. -/
def IntFormat.read (format : IntFormat) : List Char → Outcome Value
  | [] => Numeral.readDigits format {} []
  | c :: cs =>
    match if format.signed then Sign.ofChar? c else none with
    | some sign => Numeral.readDigits format { sign := some sign } cs
    | none => Numeral.readDigits format {} (c :: cs)

namespace SymbolTable

/-- The longest key below a node that a text begins with: its value and the rest of the text. -/
def longestBelow (t : SymbolTable) (node : Nat) : List Char → Option (Value × List Char)
  | [] => none
  | c :: cs => (t.child? node c).bind fun next =>
    (t.longestBelow next cs).or ((t.value? next).map (·, cs))

/-- The longest key of the table. -/
def read (t : SymbolTable) (text : List Char) : Outcome Value :=
  .ofOption (t.longestBelow root text)

end SymbolTable

/-- What a pattern that stands for a token makes of a text, once everything in front is skipped. -/
def Pattern.read? (text : List Char) : Pattern → Option (Outcome Value)
  | .char accepted => some (accepted.read text)
  | .literal expected => some (readLiteral expected.toList text)
  | .endOfInput => some (readEnd text)
  | .int format => some (format.read text)
  | .symbol table => some (table.read text)
  | _ => none

/-! ## Values of several parts -/

/-- What a sequence keeps of the value of one of its parts. -/
def Pattern.keep (p : Pattern) (v : Value) : List Value :=
  if p.isSilent then [] else [v]

/-- The value of a repetition whose rounds produced `values`, by the shape of its operand. -/
def Shape.gather (values : List Value) : Shape → Value
  | .silent => .nil
  | .text => .str (String.join (values.filterMap Value.text?))
  | .other => .list values

/-! ## Patterns -/

mutual

/-- A pattern, tried on a text, comes to an outcome and taps some values on the way. -/
inductive Matches (rules : RuleBook) :
    Pattern → Scope → List Char → Outcome Value → List Tap → Prop
  | token {p scope text text' out taps} : Skips rules scope text text' taps →
    p.read? text' = some out → Matches rules p scope text out taps
  | pass {scope text} : Matches rules .pass scope text (.matched .nil text) []
  | fail {scope text} : Matches rules .fail scope text .failed []
  | sequence {ps scope text out taps} : MatchesAll rules ps scope text out taps →
    Matches rules (.sequence ps) scope text (out.map .ofParts) taps
  | alternative {ps scope text out taps} : MatchesFirst rules ps scope text out taps →
    Matches rules (.alternative ps) scope text out taps
  | repetition {p bounds scope text out taps} : Rounds rules p bounds scope 0 text out taps →
    Matches rules (.repetition p bounds) scope text (out.map fun vs => p.shape.gather vs) taps
  | optional_some {p scope text v rest taps} : Matches rules p scope text (.matched v rest) taps →
    Matches rules (.optional p) scope text (.matched v rest) taps
  | optional_none {p scope text taps} : Matches rules p scope text .failed taps →
    Matches rules (.optional p) scope text (.matched .nil text) taps
  | list_none {p q scope text taps} : Matches rules p scope text .failed taps →
    Matches rules (.list p q) scope text (.matched (p.shape.gather []) text) taps
  | list_some {p q scope text text₁ rest v vs taps₁ taps₂} :
    Matches rules p scope text (.matched v text₁) taps₁ →
    Pairs rules p q scope text₁ vs rest taps₂ →
    Matches rules (.list p q) scope text (.matched (p.shape.gather (v :: vs)) rest) (taps₁ ++ taps₂)
  | except_excluded {p q scope text v rest taps} :
    Matches rules q scope text (.matched v rest) taps →
    Matches rules (.except p q) scope text .failed taps
  | except_operand {p q scope text out taps₁ taps₂} : Matches rules q scope text .failed taps₁ →
    Matches rules p scope text out taps₂ →
    Matches rules (.except p q) scope text out (taps₁ ++ taps₂)
  | not_matched {p scope text v rest taps} : Matches rules p scope text (.matched v rest) taps →
    Matches rules (.not p) scope text .failed taps
  | not_failed {p scope text taps} : Matches rules p scope text .failed taps →
    Matches rules (.not p) scope text (.matched .nil text) taps
  | discard {p scope text out taps} : Matches rules p scope text out taps →
    Matches rules (.discard p) scope text (out.map fun _ => .nil) taps
  | map {p f scope text out taps} : Matches rules p scope text out taps →
    Matches rules (.map p f) scope text (out.map f) taps
  | tap_matched {p label scope text v rest taps} :
    Matches rules p scope text (.matched v rest) taps →
    Matches rules (.tap p label) scope text (.matched .nil rest) (taps ++ [⟨label, v⟩])
  | tap_failed {p label scope text taps} : Matches rules p scope text .failed taps →
    Matches rules (.tap p label) scope text .failed taps
  | lexeme {p scope text text' out taps₁ taps₂} : Skips rules scope text text' taps₁ →
    Matches rules p none text' out taps₂ →
    Matches rules (.lexeme p) scope text out (taps₁ ++ taps₂)
  | skipping {p skipper scope text out taps} : Matches rules p (some skipper) text out taps →
    Matches rules (.skipping p skipper) scope text out taps
  | rule {ref p scope text out taps} : rules.resolve ref = .ok p →
    Matches rules p scope text out taps → Matches rules (.rule ref) scope text out taps

/-- What stands in front of a token is passed over: matches of the skipper, one after another, as
long as they read something. Inside the skipper nothing is skipped. -/
inductive Skips (rules : RuleBook) : Scope → List Char → List Char → List Tap → Prop
  | none {text} : Skips rules none text text []
  | failed {skipper text taps} : Matches rules skipper none text .failed taps →
    Skips rules (some skipper) text text taps
  | idle {skipper text v taps} : Matches rules skipper none text (.matched v text) taps →
    Skips rules (some skipper) text text taps
  | more {skipper text text₁ text' v taps₁ taps₂} :
    Matches rules skipper none text (.matched v text₁) taps₁ → text₁ ≠ text →
    Skips rules (some skipper) text₁ text' taps₂ →
    Skips rules (some skipper) text text' (taps₁ ++ taps₂)

/-- The parts of a sequence match one after another, and the values of those that are not silent are
kept. -/
inductive MatchesAll (rules : RuleBook) :
    List Pattern → Scope → List Char → Outcome (List Value) → List Tap → Prop
  | nil {scope text} : MatchesAll rules [] scope text (.matched [] text) []
  | failed {p ps scope text taps} : Matches rules p scope text .failed taps →
    MatchesAll rules (p :: ps) scope text .failed taps
  | cons {p ps scope text text₁ v out taps₁ taps₂} :
    Matches rules p scope text (.matched v text₁) taps₁ →
    MatchesAll rules ps scope text₁ out taps₂ →
    MatchesAll rules (p :: ps) scope text (out.map fun vs => p.keep v ++ vs) (taps₁ ++ taps₂)

/-- The first branch that matches decides an alternative. -/
inductive MatchesFirst (rules : RuleBook) :
    List Pattern → Scope → List Char → Outcome Value → List Tap → Prop
  | nil {scope text} : MatchesFirst rules [] scope text .failed []
  | matched {p ps scope text v rest taps} : Matches rules p scope text (.matched v rest) taps →
    MatchesFirst rules (p :: ps) scope text (.matched v rest) taps
  | failed {p ps scope text out taps₁ taps₂} : Matches rules p scope text .failed taps₁ →
    MatchesFirst rules ps scope text out taps₂ →
    MatchesFirst rules (p :: ps) scope text out (taps₁ ++ taps₂)

/-- The rounds of a repetition after `count` rounds. They end when there are enough, when a round
fails, and after a round that reads nothing. -/
inductive Rounds (rules : RuleBook) : Pattern → Bounds → Scope → Nat → List Char →
    Outcome (List Value) → List Tap → Prop
  | full {p bounds scope count text} : bounds.isFull count = true →
    Rounds rules p bounds scope count text (.matched [] text) []
  | enough {p bounds scope count text taps} : bounds.isFull count = false →
    Matches rules p scope text .failed taps → bounds.min ≤ count →
    Rounds rules p bounds scope count text (.matched [] text) taps
  | short {p bounds scope count text taps} : bounds.isFull count = false →
    Matches rules p scope text .failed taps → count < bounds.min →
    Rounds rules p bounds scope count text .failed taps
  | idle {p bounds scope count text v taps} : bounds.isFull count = false →
    Matches rules p scope text (.matched v text) taps →
    Rounds rules p bounds scope count text (.matched [v] text) taps
  | round {p bounds scope count text text₁ v out taps₁ taps₂} : bounds.isFull count = false →
    Matches rules p scope text (.matched v text₁) taps₁ → text₁ ≠ text →
    Rounds rules p bounds scope (count + 1) text₁ out taps₂ →
    Rounds rules p bounds scope count text (out.map fun vs => v :: vs) (taps₁ ++ taps₂)

/-- The elements of a list after the first one, each with the separator in front. They end when a
separator or an element fails, in front of the separator, and after a pair that reads nothing. -/
inductive Pairs (rules : RuleBook) : Pattern → Pattern → Scope → List Char → List Value →
    List Char → List Tap → Prop
  | separator_failed {p q scope text taps} : Matches rules q scope text .failed taps →
    Pairs rules p q scope text [] text taps
  | element_failed {p q scope text text₁ w taps₁ taps₂} :
    Matches rules q scope text (.matched w text₁) taps₁ →
    Matches rules p scope text₁ .failed taps₂ →
    Pairs rules p q scope text [] text (taps₁ ++ taps₂)
  | idle {p q scope text text₁ w v taps₁ taps₂} :
    Matches rules q scope text (.matched w text₁) taps₁ →
    Matches rules p scope text₁ (.matched v text) taps₂ →
    Pairs rules p q scope text [v] text (taps₁ ++ taps₂)
  | pair {p q scope text text₁ text₂ rest w v vs taps₁ taps₂ taps₃} :
    Matches rules q scope text (.matched w text₁) taps₁ →
    Matches rules p scope text₁ (.matched v text₂) taps₂ → text₂ ≠ text →
    Pairs rules p q scope text₂ vs rest taps₃ →
    Pairs rules p q scope text (v :: vs) rest (taps₁ ++ taps₂ ++ taps₃)

end

/-! ## A recursive grammar

An `x` in any number of parentheses. -/

namespace Nested

def ref : RuleRef := ⟨0, "nested"⟩

/-- What the rule stands for. -/
def body : Pattern :=
  .alternative [.sequence [.literal "(", .rule ref, .literal ")"], .tap (.exactly 'x') "x"]

def rules : RuleBook := { cells := [⟨0, "nested", some body⟩], next := 1 }

/-- The taps of an `x` are noted once, after the branch in front of it has failed. -/
theorem matches_x (rest : List Char) : Matches rules (.rule ref) none ('x' :: rest)
    (.matched .nil rest) [⟨"x", .char 'x'⟩] := by
  have hparen : Matches rules (.literal "(") none ('x' :: rest) .failed [] := .token .none rfl
  have hx : Matches rules (.exactly 'x') none ('x' :: rest) (.matched (.char 'x') rest) [] :=
    .token .none rfl
  have hseq : Matches rules (.sequence [.literal "(", .rule ref, .literal ")"]) none ('x' :: rest)
    .failed [] := .sequence (.failed hparen)
  exact .rule rfl (.alternative (.failed hseq (.matched (.tap_matched hx))))

theorem matches_nested (rest : List Char) :
    Matches rules (.rule ref) none ('(' :: 'x' :: ')' :: rest) (.matched .nil rest)
      [⟨"x", .char 'x'⟩] := by
  have hopen : Matches rules (.literal "(") none ('(' :: 'x' :: ')' :: rest)
    (.matched .nil ('x' :: ')' :: rest)) [] := .token .none rfl
  have hclose : Matches rules (.literal ")") none (')' :: rest) (.matched .nil rest) [] :=
    .token .none rfl
  exact .rule rfl (.alternative (.matched (.sequence (.cons hopen (.cons (matches_x (')' :: rest))
    (.cons hclose .nil))))))

end Nested

end PegStream
