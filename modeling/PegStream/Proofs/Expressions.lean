import PegStream.Calculator
import PegStream.Proofs.Numerals

/-!
# Written expressions

The grammar of arithmetic expressions, apart from any way to read them: sums of products of factors,
with spaces in front of every token, and with the value that an expression stands for.

A reader that takes the first branch that matches, and as many rounds as there are, comes to these
values if what follows an expression cannot be taken for a part of it. So there are two directions.

* `Chain.matches`: an expression is read as its value, where what follows is `Clear` of it;
* `settles_expression`: every text is read as some expression at its beginning, or fails.
-/

namespace PegStream.Calculator

/-! ## The grammar -/

inductive Operator where
  | plus
  | minus
  | times
  | divide
  deriving DecidableEq

namespace Operator

def char : Operator → Char
  | plus => '+'
  | minus => '-'
  | times => '*'
  | divide => '/'

/-- The value of an operation: the number that it gives, wrapped around to 64 bits. A quotient is
truncated toward zero, and is zero where the divisor is or where the quotient would not fit. -/
def eval : Operator → Int64 → Int64 → Int64
  | plus, a, b => .ofInt (a.toInt + b.toInt)
  | minus, a, b => .ofInt (a.toInt - b.toInt)
  | times, a, b => .ofInt (a.toInt * b.toInt)
  | divide, a, b =>
    if b = 0 ∨ (a = Int64.minValue ∧ b = -1) then 0 else .ofInt (a.toInt.tdiv b.toInt)

end Operator

/-- An operator and the value of its right operand. -/
abbrev Step := Operator × Int64

/-- The value of a first operand and steps after it, from the left. -/
def evalSteps (first : Int64) (steps : List Step) : Int64 :=
  steps.foldl (fun acc step => step.1.eval acc step.2) first

/-- The levels of operators: those of a sum bind less tightly than those of a product. -/
inductive Level where
  | sum
  | product

def Level.operators : Level → List Operator
  | sum => [.plus, .minus]
  | product => [.times, .divide]

/-- Some spaces. -/
def blanks (k : Nat) : List Char := List.replicate k ' '

/-- One decimal digit or more. -/
def IsDecimal (digits : List Char) : Prop := digits ≠ [] ∧ ∀ c ∈ digits, c.isDigit = true

instance (digits : List Char) : Decidable (IsDecimal digits) :=
  decidable_of_iff ((!digits.isEmpty && digits.all Char.isDigit) = true) (by simp [IsDecimal])

/-- A number of 64 bits as it is written, with a sign or without. -/
inductive Literal : List Char → Int64 → Prop
  | plain {digits : List Char} {n : Int64} : IsDecimal digits →
    n.toInt = positional 10 digits → Literal digits n
  | plus {digits : List Char} {n : Int64} : IsDecimal digits →
    n.toInt = positional 10 digits → Literal ('+' :: digits) n
  | minus {digits : List Char} {n : Int64} : IsDecimal digits →
    n.toInt = -positional 10 digits → Literal ('-' :: digits) n

mutual

/-- Operands of a level with operators between them, and their value. -/
inductive Chain : Level → List Char → Int64 → Prop
  | intro {level s t first steps} : Operand level s first → Steps level t steps →
    Chain level (s ++ t) (evalSteps first steps)

/-- Operators of a level, each with an operand after it. -/
inductive Steps : Level → List Char → List Step → Prop
  | nil {level} : Steps level [] []
  | cons {level op k s n t steps} : op ∈ level.operators → Operand level s n →
    Steps level t steps → Steps level (blanks k ++ op.char :: (s ++ t)) ((op, n) :: steps)

/-- What stands between operators: products in a sum, and in a product a number or an expression
between parentheses. -/
inductive Operand : Level → List Char → Int64 → Prop
  | product {s n} : Chain .product s n → Operand .sum s n
  | literal {k s n} : Literal s n → Operand .product (blanks k ++ s) n
  | parentheses {j k s n} : Chain .sum s n →
    Operand .product (blanks j ++ '(' :: (s ++ (blanks k ++ [')']))) n

end

/-- A line: one expression, and spaces at the end. -/
def Line (s : List Char) (n : Int64) : Prop := ∃ e k, s = e ++ blanks k ∧ Chain .sum e n

/-! ## Operators -/

theorem ofInt_tdiv_toInt (a b : Int64) : Int64.ofInt (a.toInt.tdiv b.toInt) = a / b := by
  rw [Int64.ofInt_tdiv a.minValue_le_toInt a.toInt_le b.minValue_le_toInt b.toInt_le,
    Int64.ofInt_toInt, Int64.ofInt_toInt]

theorem apply_char (op : Operator) (a b : Int64) : apply op.char a b = op.eval a b := by
  cases op with
  | plus =>
    show a + b = .ofInt (a.toInt + b.toInt)
    rw [Int64.ofInt_add, Int64.ofInt_toInt, Int64.ofInt_toInt]
  | minus =>
    show a - b = .ofInt (a.toInt - b.toInt)
    rw [Int64.ofInt_sub, Int64.ofInt_toInt, Int64.ofInt_toInt]
  | times =>
    show a * b = .ofInt (a.toInt * b.toInt)
    rw [Int64.ofInt_mul, Int64.ofInt_toInt, Int64.ofInt_toInt]
  | divide =>
    show divide a b = _
    rw [divide, Operator.eval, ofInt_tdiv_toInt]

/-- The value that stands for a step in the value of a chain. -/
def Step.value (step : Step) : Value := .tuple [.char step.1.char, .int step.2]

theorem foldl_applyStep (first : Int64) (steps : List Step) :
    (steps.map Step.value).foldl applyStep first = evalSteps first steps := by
  have hstep : ∀ acc (step : Step), applyStep acc step.value = step.1.eval acc step.2 :=
    fun acc step => apply_char step.1 acc step.2
  rw [evalSteps, List.foldl_map]
  simp only [hstep]

theorem fold_steps (first : Int64) (steps : List Step) :
    fold (.tuple [.int first, .list (steps.map Step.value)]) = .int (evalSteps first steps) :=
  congrArg Value.int (foldl_applyStep first steps)

/-! ## Spaces -/

/-- The pattern passed over in front of tokens. -/
def spaces : Scope := some (.literal " ")

/-- The text after the spaces in front. -/
def pastBlanks (text : List Char) : List Char := text.dropWhile (· == ' ')

theorem pastBlanks_cons {c : Char} (hc : c ≠ ' ') (cs : List Char) :
    pastBlanks (c :: cs) = c :: cs := by
  simp [pastBlanks, hc]

@[simp] theorem pastBlanks_blanks (k : Nat) (text : List Char) :
    pastBlanks (blanks k ++ text) = pastBlanks text := by
  induction k with
  | zero => rfl
  | succ k ih => simp [blanks, List.replicate_succ, pastBlanks]

theorem exists_blanks (text : List Char) : ∃ k, text = blanks k ++ pastBlanks text := by
  induction text with
  | nil => exact ⟨0, rfl⟩
  | cons c cs ih =>
    by_cases hc : c = ' '
    · subst hc
      obtain ⟨k, hk⟩ := ih
      refine ⟨k + 1, ?_⟩
      calc ' ' :: cs = ' ' :: (blanks k ++ pastBlanks cs) := by rw [← hk]
        _ = blanks (k + 1) ++ pastBlanks (' ' :: cs) := by
          simp [blanks, List.replicate_succ, pastBlanks]
    · exact ⟨0, (pastBlanks_cons hc cs).symm⟩

theorem length_lt_of_pastBlanks {text cs : List Char} {c : Char} (h : pastBlanks text = c :: cs) :
    cs.length < text.length := by
  have hle : (pastBlanks text).length ≤ text.length := (List.dropWhile_suffix _).length_le
  rwa [h, List.length_cons] at hle

theorem skips_spaces (text : List Char) : Skips rules spaces text (pastBlanks text) [] := by
  induction text with
  | nil =>
    have hfail : Matches rules (.literal " ") none [] .failed [] := .token .none rfl
    exact .failed hfail
  | cons c cs ih =>
    by_cases hc : c = ' '
    · subst hc
      have hspace : Matches rules (.literal " ") none (' ' :: cs) (.matched .nil cs) [] :=
        .token .none rfl
      exact .more hspace (by simp) ih
    · have hfail : Matches rules (.literal " ") none (c :: cs) .failed [] := by
        refine .token .none ?_
        show some (if c = ' ' then _ else _) = _
        rw [if_neg hc]
      rw [pastBlanks_cons hc]
      exact .failed hfail

/-- A token is read after the spaces in front of it. -/
theorem matches_token {p : Pattern} {text : List Char} {out : Outcome Value}
    (h : p.read? (pastBlanks text) = some out) : Matches rules p spaces text out [] :=
  .token (skips_spaces text) h

/-! ## Literals -/

/-- The first character is no digit. -/
def NoDigit (text : List Char) : Prop := ∀ c ∈ text.head?, c.isDigit = false

theorem isSome_digitOf_ten (c : Char) : (digitOf 10 c).isSome = c.isDigit := by
  have hle : ∀ a b : Char, a ≤ b ↔ a.toNat ≤ b.toNat := fun a b => by
    rw [Char.le_def, UInt32.le_iff_toNat_le]
    rfl
  have hdigit : c.isDigit = true ↔ 48 ≤ c.toNat ∧ c.toNat ≤ 57 := by
    simp [Char.isDigit, UInt32.le_iff_toNat_le]
  rw [Bool.eq_iff_iff, hdigit, digitOf, Option.isSome_filter, Option.any_eq_true]
  simp only [digitValue, hle, Char.reduceToNat, decide_eq_true_eq]
  split
  · simp only [Option.some.injEq, exists_eq_left']
    omega
  · split
    · simp only [Option.some.injEq, exists_eq_left']
      omega
    · split
      · simp only [Option.some.injEq, exists_eq_left']
        omega
      · simp only [reduceCtorEq, false_and, exists_false, false_iff]
        omega

theorem digitRun_append {digits rest : List Char} (hd : ∀ c ∈ digits, c.isDigit = true)
    (hr : NoDigit rest) : digitRun 10 (digits ++ rest) = digits := by
  have hrest : rest.takeWhile Char.isDigit = [] := by
    cases rest with
    | nil => rfl
    | cons c cs => rw [List.takeWhile_cons, hr c rfl]; rfl
  simp only [digitRun, isSome_digitOf_ten]
  rw [List.takeWhile_append_of_pos hd, hrest, List.append_nil]

/-- A text begins with a sign or not. -/
theorem takeSign_cases (text : List Char) : takeSign true text = (none, text) ∨
    (∃ rest, text = '+' :: rest ∧ takeSign true text = (some .plus, rest)) ∨
      ∃ rest, text = '-' :: rest ∧ takeSign true text = (some .minus, rest) := by
  unfold takeSign
  split <;> simp_all

theorem takeSign_decimal {digits : List Char} (h : IsDecimal digits) (rest : List Char) :
    takeSign true (digits ++ rest) = (none, digits ++ rest) := by
  obtain ⟨c, cs, rfl⟩ := List.exists_cons_of_ne_nil h.1
  have hc : c.isDigit = true := h.2 c List.mem_cons_self
  rcases takeSign_cases (c :: cs ++ rest) with hs | ⟨_, he, -⟩ | ⟨_, he, -⟩
  · exact hs
  · cases he
    cases hc
  · cases he
    cases hc

theorem read_decimal {text : List Char} {s : Spelling} (hs : s = .ofText 10 0 true text) :
    (IntFormat.decimal true).read text =
      if s.Accepted 10 1 then .matched (.int (.ofInt (s.number 10))) s.rest else .failed :=
  IntFormat.read_spelling (.decimal true) hs

/-- A literal is read to its end, if no digit follows. -/
theorem Literal.read {s rest : List Char} {n : Int64} (h : Literal s n) (hr : NoDigit rest) :
    (IntFormat.decimal true).read (s ++ rest) = .matched (.int n) rest := by
  have hspelling : ∃ sign digits, IsDecimal digits ∧
      takeSign true (s ++ rest) = (sign, digits ++ rest) ∧
      Spelling.number 10 ⟨sign, digits, rest⟩ = n.toInt := by
    cases h with
    | plain hd hn => exact ⟨none, s, hd, takeSign_decimal hd rest, hn.symm⟩
    | @plus digits _ hd hn => exact ⟨some .plus, digits, hd, rfl, hn.symm⟩
    | @minus digits _ hd hn => exact ⟨some .minus, digits, hd, rfl, hn.symm⟩
  obtain ⟨sign, digits, hd, hsign, hnumber⟩ := hspelling
  have hof : Spelling.ofText 10 0 true (s ++ rest) = ⟨sign, digits, rest⟩ := by
    simp [Spelling.ofText, hsign, cutAt, digitRun_append hd.2 hr]
  have haccepted : Spelling.Accepted 10 1 ⟨sign, digits, rest⟩ := by
    refine ⟨List.length_pos_iff.2 hd.1, fun _ => hd.1, ?_⟩
    rw [hnumber, IntKind.fits_int64]
    exact ⟨n.le_toInt, n.toInt_lt⟩
  rw [read_decimal hof.symm, if_pos haccepted, hnumber, Int64.ofInt_toInt]

/-- What is read as an integer is a literal. -/
theorem literal_of_read (text : List Char) : (IntFormat.decimal true).read text = .failed ∨
    ∃ s n rest, text = s ++ rest ∧ Literal s n ∧
      (IntFormat.decimal true).read text = .matched (.int n) rest := by
  rw [read_decimal rfl]
  split
  · rename_i haccepted
    have hn := toInt_ofInt_of_fits haccepted.2.2
    generalize Int64.ofInt _ = n at hn
    have hof : Spelling.ofText 10 0 true text = ⟨(takeSign true text).1,
      digitRun 10 (takeSign true text).2,
      (takeSign true text).2.drop (digitRun 10 (takeSign true text).2).length⟩ := rfl
    have hsplit : ∀ cs, digitRun 10 cs ++ cs.drop (digitRun 10 cs).length = cs := fun cs =>
      List.prefix_iff_eq_append.1 (List.takeWhile_prefix _)
    have hdecimal : IsDecimal (digitRun 10 (takeSign true text).2) := by
      refine ⟨List.length_pos_iff.1 haccepted.1, fun c hc => ?_⟩
      rw [← isSome_digitOf_ten]
      exact List.all_eq_true.1 List.all_takeWhile c hc
    refine .inr ?_
    rw [hof] at hn ⊢
    rcases takeSign_cases text with hs | ⟨rest, rfl, hs⟩ | ⟨rest, rfl, hs⟩
    · rw [hs] at hn hdecimal ⊢
      exact ⟨_, n, _, (hsplit text).symm, .plain hdecimal hn, rfl⟩
    · rw [hs] at hn hdecimal ⊢
      exact ⟨_, n, _, congrArg ('+' :: ·) (hsplit rest).symm, .plus hdecimal hn, rfl⟩
    · rw [hs] at hn hdecimal ⊢
      exact ⟨_, n, _, congrArg ('-' :: ·) (hsplit rest).symm, .minus hdecimal hn, rfl⟩
  · exact .inl rfl

/-! ## The rules -/

namespace Level

/-- The rule of a level. -/
def ref : Level → RuleRef
  | sum => expression
  | product => term

/-- The rule of what stands between the operators of a level. -/
def operand : Level → RuleRef
  | sum => term
  | product => factor

/-- The characters of the operators of a level. -/
def symbols : Level → String
  | sum => "+-"
  | product => "*/"

theorem resolve_ref (level : Level) :
    rules.resolve level.ref = .ok (chain level.operand level.symbols) := by
  cases level <;> rfl

theorem contains_symbols (level : Level) (c : Char) :
    (CharClass.ofString level.symbols).contains c = true ↔ ∃ op ∈ level.operators, c = op.char := by
  rw [CharClass.contains_ofString]
  cases level <;> simp [symbols, operators, Operator.char]

/-- An operator and an operand of a level. -/
def step (level : Level) : Pattern :=
  .sequence [.char (.ofString level.symbols), .rule level.operand]

/-- What the rule of a level hands to the fold. -/
def parts (level : Level) : Pattern :=
  .sequence [.rule level.operand, .repetition level.step (.atLeast 0)]

end Level

section

variable {level : Level} {op : Operator} {text text₁ text₂ rest : List Char} {n first : Int64}
  {steps : List Step}

theorem matches_operator (hop : op ∈ level.operators) (htext : pastBlanks text = op.char :: text₁) :
    Matches rules (.char (.ofString level.symbols)) spaces text (.matched (.char op.char) text₁)
      [] := by
  refine matches_token ?_
  rw [htext]
  show some (if (CharClass.ofString level.symbols).contains op.char then _ else _) = _
  rw [if_pos ((level.contains_symbols _).2 ⟨op, hop, rfl⟩)]

theorem matches_step (hop : op ∈ level.operators) (htext : pastBlanks text = op.char :: text₁)
    (h : Matches rules (.rule level.operand) spaces text₁ (.matched (.int n) rest) []) :
    Matches rules level.step spaces text (.matched (Step.value (op, n)) rest) [] :=
  .sequence (.cons (matches_operator hop htext) (.cons h .nil))

theorem step_failed_operand (hop : op ∈ level.operators)
    (htext : pastBlanks text = op.char :: text₁)
    (h : Matches rules (.rule level.operand) spaces text₁ .failed []) :
    Matches rules level.step spaces text .failed [] :=
  .sequence (.cons (matches_operator hop htext) (.failed h))

theorem step_failed (h : ∀ op ∈ level.operators, (pastBlanks text).head? ≠ some op.char) :
    Matches rules level.step spaces text .failed [] := by
  have hchar : Matches rules (.char (.ofString level.symbols)) spaces text .failed [] := by
    refine matches_token ?_
    cases htext : pastBlanks text with
    | nil => rfl
    | cons c cs =>
      show some (if (CharClass.ofString level.symbols).contains c then _ else _) = _
      rw [if_neg]
      intro hc
      obtain ⟨op, hop, rfl⟩ := (level.contains_symbols c).1 hc
      exact h op hop (by rw [htext]; rfl)
  exact .sequence (.failed hchar)

/-- The rounds of operators end where a step fails. -/
theorem rounds_nil (h : Matches rules level.step spaces text .failed []) (count : Nat) :
    Rounds rules level.step (.atLeast 0) spaces count text (.matched [] text) [] :=
  .enough rfl h (Nat.zero_le _)

theorem rounds_cons {step : Step}
    (h : Matches rules level.step spaces text (.matched step.value text₁) [])
    (hlt : text₁.length < text.length) {count : Nat}
    (hs : Rounds rules level.step (.atLeast 0) spaces (count + 1) text₁
      (.matched (steps.map Step.value) rest) []) :
    Rounds rules level.step (.atLeast 0) spaces count text
      (.matched ((step :: steps).map Step.value) rest) [] :=
  .round rfl h (fun he => Nat.lt_irrefl _ (he ▸ hlt)) hs

theorem matches_chain
    (h : Matches rules (.rule level.operand) spaces text (.matched (.int first) text₁) [])
    (hs : Rounds rules level.step (.atLeast 0) spaces 0 text₁
      (.matched (steps.map Step.value) rest) []) :
    Matches rules (.rule level.ref) spaces text (.matched (.int (evalSteps first steps)) rest)
      [] := by
  have hparts : Matches rules level.parts spaces text
      (.matched (.tuple [.int first, .list (steps.map Step.value)]) rest) [] :=
    .sequence (.cons h (.cons (.repetition hs) .nil))
  rw [← fold_steps]
  exact .rule level.resolve_ref (.map hparts)

theorem chain_failed (h : Matches rules (.rule level.operand) spaces text .failed []) :
    Matches rules (.rule level.ref) spaces text .failed [] :=
  .rule level.resolve_ref (.map (.sequence (.failed h)))

theorem matches_literalChar {c : Char} (htext : pastBlanks text = c :: rest) :
    Matches rules (.literalChar c) spaces text (.matched .nil rest) [] := by
  refine matches_token ?_
  rw [htext]
  simp [Pattern.read?, Pattern.literalChar, readLiteral]

theorem literalChar_failed {c : Char} (h : (pastBlanks text).head? ≠ some c) :
    Matches rules (.literalChar c) spaces text .failed [] := by
  refine matches_token ?_
  cases htext : pastBlanks text with
  | nil => simp [Pattern.read?, Pattern.literalChar, readLiteral]
  | cons d cs =>
    have hd : d ≠ c := fun he => h (by rw [htext, he]; rfl)
    simp [Pattern.read?, Pattern.literalChar, readLiteral, hd]

theorem matches_literal
    (h : (IntFormat.decimal true).read (pastBlanks text) = .matched (.int n) rest) :
    Matches rules (.rule factor) spaces text (.matched (.int n) rest) [] :=
  .rule rfl (.alternative (.matched (matches_token (congrArg some h))))

/-- What is no integer is a factor as far as it is an expression between parentheses. -/
theorem matches_factor {out : Outcome (List Value)}
    (hint : (IntFormat.decimal true).read (pastBlanks text) = .failed)
    (h : MatchesAll rules [.literalChar '(', .rule expression, .literalChar ')'] spaces text out
      []) : Matches rules (.rule factor) spaces text (out.map .ofParts) [] := by
  have hfailed : Matches rules .signedInt spaces text .failed [] :=
    matches_token (congrArg some hint)
  have hparts : Matches rules (.sequence [.literalChar '(', .rule expression, .literalChar ')'])
      spaces text (out.map .ofParts) [] := .sequence h
  cases out with
  | failed => exact .rule rfl (.alternative (.failed hfailed (.failed hparts .nil)))
  | matched vs rest => exact .rule rfl (.alternative (.failed hfailed (.matched hparts)))

theorem matches_parentheses (hopen : pastBlanks text = '(' :: text₁)
    (h : Matches rules (.rule expression) spaces text₁ (.matched (.int n) text₂) [])
    (hclose : pastBlanks text₂ = ')' :: rest) :
    Matches rules (.rule factor) spaces text (.matched (.int n) rest) [] := by
  have hint : (IntFormat.decimal true).read (pastBlanks text) = .failed := by
    rw [hopen]
    rfl
  exact matches_factor hint (.cons (matches_literalChar hopen) (.cons h
    (.cons (matches_literalChar hclose) .nil)))

end

/-! ## From expressions to matches -/

/-- The operators that bind more tightly than those of a level. -/
def Level.tighter : Level → List Operator
  | sum => product.operators
  | product => []

/-- A text that cannot go on with an expression in front of it: it does not begin with a digit, nor
with one of the operators after spaces. -/
structure Clear (ops : List Operator) (text : List Char) : Prop where
  noDigit : NoDigit text
  noOperator : ∀ op ∈ ops, (pastBlanks text).head? ≠ some op.char

theorem clear_blanks {ops : List Operator} {c : Char} (hblank : c ≠ ' ')
    (hdigit : c.isDigit = false) (hops : ∀ op ∈ ops, c ≠ op.char) (k : Nat) (cs : List Char) :
    Clear ops (blanks k ++ c :: cs) := by
  refine ⟨fun d hd => ?_, fun op hop h => ?_⟩
  · cases k with
    | zero =>
      cases hd
      exact hdigit
    | succ k =>
      cases hd
      rfl
  · rw [pastBlanks_blanks, pastBlanks_cons hblank] at h
    exact hops op hop (Option.some.inj h)

theorem Operator.char_ne_blank (op : Operator) : op.char ≠ ' ' := by
  cases op <;> decide

theorem pastBlanks_operator (k : Nat) (op : Operator) (cs : List Char) :
    pastBlanks (blanks k ++ op.char :: cs) = op.char :: cs := by
  rw [pastBlanks_blanks, pastBlanks_cons op.char_ne_blank]

section

variable {level : Level} {s rest : List Char} {n : Int64} {steps : List Step}

/-- Steps of a level cannot be taken for a part of the operand in front of them. -/
theorem Steps.clear (h : Steps level s steps)
    (hr : Clear (level.tighter ++ level.operators) rest) : Clear level.tighter (s ++ rest) := by
  cases h with
  | nil => exact ⟨hr.noDigit, fun op hop => hr.noOperator op (List.mem_append_left _ hop)⟩
  | @cons _ op k s n t steps hop _ _ =>
    rw [List.append_assoc, List.cons_append]
    -- nothing binds more tightly than a product, and the operators of the levels are different
    refine clear_blanks op.char_ne_blank (by cases op <;> rfl) (fun op' hop' he => ?_) k _
    have hlevels : ∀ op ∈ Level.sum.operators, ∀ op' ∈ Level.product.operators,
        op.char ≠ op'.char := by decide
    cases level with
    | sum => exact hlevels op hop op' hop' he
    | product => cases hop'

theorem Literal.pastBlanks_append (h : Literal s n) (rest : List Char) :
    pastBlanks (s ++ rest) = s ++ rest := by
  cases h with
  | plain hd =>
    obtain ⟨c, cs, rfl⟩ := List.exists_cons_of_ne_nil hd.1
    have hc : c.isDigit = true := hd.2 c List.mem_cons_self
    exact pastBlanks_cons (by rintro rfl; cases hc) _
  | plus | minus => exact pastBlanks_cons (by decide) _

end

mutual

/-- An expression is read as its value, if what follows is clear of it. -/
theorem Chain.matches {level : Level} {s rest : List Char} {n : Int64} :
    Chain level s n → Clear (level.tighter ++ level.operators) rest →
      Matches rules (.rule level.ref) spaces (s ++ rest) (.matched (.int n) rest) []
  | .intro ho hs, hr => by
    rw [List.append_assoc]
    exact matches_chain (ho.matches (hs.clear hr)) (hs.rounds hr 0)

theorem Steps.rounds {level : Level} {s rest : List Char} {steps : List Step} :
    Steps level s steps → Clear (level.tighter ++ level.operators) rest → ∀ count,
      Rounds rules level.step (.atLeast 0) spaces count (s ++ rest)
        (.matched (steps.map Step.value) rest) []
  | .nil, hr, count =>
    rounds_nil (step_failed fun op hop => hr.noOperator op (List.mem_append_right _ hop)) count
  | @Steps.cons _ op k s n t steps hop ho hs, hr, count => by
    have htext : blanks k ++ op.char :: (s ++ t) ++ rest =
        blanks k ++ op.char :: (s ++ (t ++ rest)) := by simp
    rw [htext]
    have hstep := matches_step hop (pastBlanks_operator k op _) (ho.matches (hs.clear hr))
    refine rounds_cons hstep ?_ (hs.rounds hr (count + 1))
    simp only [List.length_append, List.length_cons]
    omega

theorem Operand.matches {level : Level} {s rest : List Char} {n : Int64} :
    Operand level s n → Clear level.tighter rest →
      Matches rules (.rule level.operand) spaces (s ++ rest) (.matched (.int n) rest) []
  | .product h, hr => h.matches hr
  | @Operand.literal k s n h, hr => by
    refine matches_literal ?_
    rw [List.append_assoc, pastBlanks_blanks, h.pastBlanks_append]
    exact h.read hr.noDigit
  | @Operand.parentheses j k s n h, hr => by
    have htext : blanks j ++ '(' :: (s ++ (blanks k ++ [')'])) ++ rest =
        blanks j ++ '(' :: (s ++ (blanks k ++ ')' :: rest)) := by simp
    rw [htext]
    have hclear : Clear (Level.sum.tighter ++ Level.sum.operators) (blanks k ++ ')' :: rest) :=
      clear_blanks (by decide) rfl (by decide) k rest
    refine matches_parentheses ?_ (h.matches hclear) ?_
    · rw [pastBlanks_blanks, pastBlanks_cons (by decide)]
    · rw [pastBlanks_blanks, pastBlanks_cons (by decide)]

end

/-! ## From texts to expressions -/

/-- The rule fails on a text, or reads what is written at its beginning. -/
def Settles (ref : RuleRef) (Written : List Char → Int64 → Prop) (text : List Char) : Prop :=
  Matches rules (.rule ref) spaces text .failed [] ∨ ∃ s n rest, text = s ++ rest ∧ Written s n ∧
    Matches rules (.rule ref) spaces text (.matched (.int n) rest) []

/-- Rounds of steps read steps, where the operands in what is left do. -/
theorem settles_steps (level : Level) (text : List Char)
    (h : ∀ t : List Char, t.length < text.length → Settles level.operand (Operand level) t)
    (count : Nat) : ∃ s steps rest, text = s ++ rest ∧ Steps level s steps ∧
      Rounds rules level.step (.atLeast 0) spaces count text
        (.matched (steps.map Step.value) rest) [] := by
  by_cases hop : ∃ op ∈ level.operators, (pastBlanks text).head? = some op.char
  · obtain ⟨op, hop, hhead⟩ := hop
    obtain ⟨text₁, htext⟩ := List.head?_eq_some_iff.1 hhead
    obtain ⟨k, hk⟩ := exists_blanks text
    have hlength := length_lt_of_pastBlanks htext
    rcases h text₁ hlength with hfail | ⟨s, n, rest₁, rfl, ho, hm⟩
    -- an operator without an operand is given back, with the spaces in front of it
    · exact ⟨[], [], text, rfl, .nil, rounds_nil (step_failed_operand hop htext hfail) count⟩
    · have hlt : rest₁.length < text.length := by
        rw [List.length_append] at hlength
        omega
      obtain ⟨t, steps, rest, rfl, hs, hr⟩ :=
        settles_steps level rest₁ (fun t ht => h t (by omega)) (count + 1)
      refine ⟨blanks k ++ op.char :: (s ++ t), (op, n) :: steps, rest, ?_, .cons hop ho hs,
        rounds_cons (matches_step hop htext hm) hlt hr⟩
      rw [hk, htext]
      simp
  · have hfail := step_failed fun op hop' he => hop ⟨op, hop', he⟩
    exact ⟨[], [], text, rfl, .nil, rounds_nil hfail count⟩
termination_by text.length

theorem settles_chain (level : Level) {text : List Char}
    (h : ∀ t : List Char, t.length ≤ text.length → Settles level.operand (Operand level) t) :
    Settles level.ref (Chain level) text := by
  rcases h text (Nat.le_refl _) with hfail | ⟨s, first, rest₁, rfl, ho, hm⟩
  · exact .inl (chain_failed hfail)
  · have hlength : rest₁.length ≤ (s ++ rest₁).length := by simp
    obtain ⟨t, steps, rest, rfl, hs, hr⟩ :=
      settles_steps level rest₁ (fun t ht => h t (by omega)) 0
    exact .inr ⟨s ++ t, _, rest, (List.append_assoc ..).symm, .intro ho hs, matches_chain hm hr⟩

theorem settles_factor {text : List Char}
    (h : ∀ t : List Char, t.length < text.length → Settles expression (Chain .sum) t) :
    Settles factor (Operand .product) text := by
  obtain ⟨k, hk⟩ := exists_blanks text
  rcases literal_of_read (pastBlanks text) with hint | ⟨s, n, rest, he, hl, hread⟩
  · by_cases hopen : (pastBlanks text).head? = some '('
    · obtain ⟨text₁, htext⟩ := List.head?_eq_some_iff.1 hopen
      have hparen := matches_literalChar htext
      rcases h text₁ (length_lt_of_pastBlanks htext) with hfail | ⟨s, n, text₂, rfl, hc, hm⟩
      · exact .inl (matches_factor hint (.cons hparen (.failed hfail)))
      · by_cases hclose : (pastBlanks text₂).head? = some ')'
        · obtain ⟨rest, htext₂⟩ := List.head?_eq_some_iff.1 hclose
          obtain ⟨j, hj⟩ := exists_blanks text₂
          refine .inr ⟨blanks k ++ '(' :: (s ++ (blanks j ++ [')'])), n, rest, ?_, .parentheses hc,
            matches_parentheses htext hm htext₂⟩
          rw [hk, htext, hj, htext₂]
          simp
        · exact .inl (matches_factor hint (.cons hparen (.cons hm
            (.failed (literalChar_failed hclose)))))
    · exact .inl (matches_factor hint (.failed (literalChar_failed hopen)))
  · refine .inr ⟨blanks k ++ s, n, rest, ?_, .literal hl, matches_literal hread⟩
    rw [hk, he, List.append_assoc]

/-- Every text begins with an expression that is read as its value, or fails. -/
theorem settles_expression (text : List Char) : Settles expression (Chain .sum) text := by
  -- on the length of the text: only a parenthesis comes back to an expression, and it takes one
  -- character at least
  have hfactor : ∀ t : List Char, t.length ≤ text.length → Settles factor (Operand .product) t :=
    fun t ht => settles_factor fun u hu => settles_expression u
  have hterm : ∀ t : List Char, t.length ≤ text.length → Settles term (Operand .sum) t := by
    intro t ht
    refine (settles_chain .product fun u hu => hfactor u (by omega)).imp_right ?_
    rintro ⟨s, n, rest, htext, hc, hm⟩
    exact ⟨s, n, rest, htext, .product hc, hm⟩
  exact settles_chain .sum hterm
termination_by text.length

end PegStream.Calculator
