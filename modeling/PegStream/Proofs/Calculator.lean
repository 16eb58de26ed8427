import Mathlib.Data.Set.List
import PegStream.Proofs.Expressions
import PegStream.Proofs.Nesting

/-!
# What the calculator answers

A line that is an expression is answered with its value, and every other line with the error of an
input that does not match (`answer_iff_line`). The value of a line is always an integer, and so is
what the rules hand to each other: what is folded is a first operand and steps, and the fold takes
every one of them (`folded_steps`).
-/

namespace PegStream.Calculator

open Machine (Moves)

/-! ## Lines -/

theorem pastBlanks_end (k : Nat) : pastBlanks (blanks k) = [] := by
  simpa [pastBlanks] using pastBlanks_blanks k []

theorem clear_end (ops : List Operator) (k : Nat) : Clear ops (blanks k) := by
  refine ⟨fun c hc => ?_, fun op _ h => ?_⟩
  · cases k with
    | zero => cases hc
    | succ k =>
      cases hc
      rfl
  · rw [pastBlanks_end] at h
    cases h

theorem matches_end (k : Nat) :
    Matches rules .endOfInput spaces (blanks k) (.matched .nil []) [] := by
  refine matches_token ?_
  rw [pastBlanks_end]
  rfl

/-- A line is read as its value, and nothing is left. -/
theorem Line.matches {text : List Char} {n : Int64} (h : Line text n) :
    Matches rules line none text (.matched (.int n) []) [] := by
  obtain ⟨e, k, rfl, hc⟩ := h
  exact .skipping (.sequence (.cons (hc.matches (clear_end _ k)) (.cons (matches_end k) .nil)))

theorem line_failed {text : List Char}
    (h : MatchesAll rules [.rule expression, .endOfInput] spaces text .failed []) :
    Matches rules line none text .failed [] :=
  .skipping (.sequence h)

/-- A text is a line and read as its value, or it is none and fails. -/
theorem settles_line (text : List Char) :
    (∃ n, Line text n ∧ Matches rules line none text (.matched (.int n) []) []) ∨
      (¬ ∃ n, Line text n) ∧ Matches rules line none text .failed [] := by
  have hnone : Matches rules line none text .failed [] → ¬ ∃ n, Line text n := by
    rintro hfail ⟨n, hn⟩
    cases (hfail.unique hn.matches).1
  have hsettles : (∃ n, Line text n) ∨ Matches rules line none text .failed [] := by
    rcases settles_expression text with hfail | ⟨s, n, rest, rfl, hc, hm⟩
    · exact .inr (line_failed (.failed hfail))
    · obtain ⟨k, hk⟩ := exists_blanks rest
      cases hrest : pastBlanks rest with
      | nil =>
        rw [hrest, List.append_nil] at hk
        exact .inl ⟨n, s, k, by rw [hk], hc⟩
      | cons c cs =>
        have hend : Matches rules .endOfInput spaces rest .failed [] := by
          refine matches_token ?_
          rw [hrest]
          rfl
        exact .inr (line_failed (.cons hm (.failed hend)))
  rcases hsettles with ⟨n, hn⟩ | hfail
  · exact .inl ⟨n, hn, hn.matches⟩
  · exact .inr ⟨hnone hfail, hfail⟩

/-! ## The patterns of the grammar -/

theorem line_eq :
    line = .skipping (.sequence [.rule expression, .endOfInput]) (.literal " ") := rfl

theorem factorPattern_eq : factorPattern = .alternative [.signedInt,
    .sequence [.literalChar '(', .rule expression, .literalChar ')']] := rfl

/-- The patterns of one level. -/
def Level.patterns (level : Level) : List Pattern :=
  [.map level.parts fold, level.parts, .rule level.operand, .repetition level.step (.atLeast 0),
    level.step, .char (.ofString level.symbols)]

/-- The patterns of the grammar. -/
def patterns : List Pattern :=
  [line, .sequence [.rule expression, .endOfInput], .literal " ", .rule expression, .endOfInput,
    factorPattern, .signedInt, .sequence [.literalChar '(', .rule expression, .literalChar ')'],
    .literalChar '(', .literalChar ')'] ++ Level.sum.patterns ++ Level.product.patterns

theorem mem_patterns (level : Level) {p : Pattern} (hp : p ∈ level.patterns) : p ∈ patterns := by
  cases level with
  | sum => exact List.mem_append_left _ (List.mem_append_right _ hp)
  | product => exact List.mem_append_right _ hp

theorem Level.children_subset (level : Level) {p : Pattern} (hp : p ∈ level.patterns) :
    p.children ⊆ level.patterns := by
  simp only [patterns, List.mem_cons, List.not_mem_nil, or_false] at hp
  rcases hp with rfl | rfl | rfl | rfl | rfl | rfl <;>
    simp [patterns, Pattern.children, parts, step]

theorem closed_patterns : rules.Closed (· ∈ patterns) where
  child {p q} hp hq := by
    simp only [patterns, List.mem_append] at hp
    rcases hp with (hp | hp) | hp
    · suffices h : p.children ⊆ patterns from h hq
      simp only [line_eq, factorPattern_eq, List.mem_cons, List.not_mem_nil, or_false] at hp
      rcases hp with rfl | rfl | rfl | rfl | rfl | rfl | rfl | rfl | rfl | rfl <;>
        simp [patterns, Pattern.children, Pattern.signedInt, Pattern.literalChar]
    · exact mem_patterns .sum (Level.sum.children_subset hp hq)
    · exact mem_patterns .product (Level.product.children_subset hp hq)
  definition {ref} hp := by
    have href : ref = Level.sum.ref ∨ ref = Level.product.ref ∨ ref = factor := by
      simpa [patterns, line_eq, factorPattern_eq, Level.patterns, Level.ref, Level.operand,
        Level.parts, Level.step, Pattern.signedInt, Pattern.literalChar] using hp
    rcases href with rfl | rfl | rfl
    · exact ⟨_, Level.sum.resolve_ref, mem_patterns .sum List.mem_cons_self⟩
    · exact ⟨_, Level.product.resolve_ref, mem_patterns .product List.mem_cons_self⟩
    · exact ⟨factorPattern, rfl, by simp [patterns]⟩

/-- The mappings of the grammar fold the parts of a level. -/
theorem of_map_mem {q : Pattern} {f : Value → Value} (h : .map q f ∈ patterns) :
    f = fold ∧ ∃ level : Level, q = level.parts := by
  have hparts : (q = Level.sum.parts ∧ f = fold) ∨ (q = Level.product.parts ∧ f = fold) := by
    simpa [patterns, line_eq, factorPattern_eq, Level.patterns, Level.parts,
        Level.step, Pattern.signedInt, Pattern.literalChar] using h
  rcases hparts with ⟨rfl, rfl⟩ | ⟨rfl, rfl⟩
  · exact ⟨rfl, .sum, rfl⟩
  · exact ⟨rfl, .product, rfl⟩

theorem collect_line : rules.collect line = .ok [0, 1, 2] := by
  have hchain : ∀ ref s, chain ref s = .map (.sequence [.rule ref,
    .repetition (.sequence [.char (.ofString s), .rule ref]) (.atLeast 0)]) fold := fun _ _ => rfl
  simp [RuleBook.collect, RuleBook.visit_other, RuleBook.visit_rule, RuleBook.visit_nil,
    RuleBook.find?, Pattern.children, Pattern.signedInt, Pattern.literalChar, rules, line_eq,
    hchain, factorPattern_eq, expression, term, factor]

/-! ## Folded values -/

section

variable {scope : Scope} {text rest : List Char} {v : Value} {taps : List Tap}

theorem int_of_chain (level : Level)
    (h : Matches rules (.rule level.ref) scope text (.matched v rest) taps) : ∃ n, v = .int n := by
  obtain ⟨d, hd, hm⟩ := h.of_rule
  cases level.resolve_ref.symm.trans hd
  obtain ⟨w, -, rfl⟩ := hm.of_map
  exact ⟨_, rfl⟩

theorem int_of_factor (h : Matches rules (.rule factor) scope text (.matched v rest) taps) :
    ∃ n, v = .int n := by
  obtain ⟨d, hd, hm⟩ := h.of_rule
  cases hd
  cases hm.of_alternative with
  | matched hint =>
    obtain ⟨text', hread⟩ := hint.of_token rfl
    rcases literal_of_read text' with hfail | ⟨s, n, rest', -, -, hmatched⟩
    · cases (congrArg some hfail).symm.trans hread
    · cases (congrArg some hmatched).symm.trans hread
      exact ⟨n, rfl⟩
  | failed _ hparen =>
    cases hparen with
    | failed _ hnil => cases hnil
    | matched hparen =>
      obtain ⟨vs, hopen, rfl⟩ := hparen.of_sequence
      obtain ⟨_, _, _, _, _, -, hinner, rfl⟩ := hopen.of_cons
      obtain ⟨w, _, _, _, _, hw, hclose, rfl⟩ := hinner.of_cons
      obtain ⟨_, _, _, _, _, -, hnil, rfl⟩ := hclose.of_cons
      obtain ⟨rfl, -⟩ := hnil.of_nil
      obtain ⟨n, rfl⟩ := int_of_chain .sum hw
      exact ⟨n, rfl⟩

theorem int_of_operand (level : Level)
    (h : Matches rules (.rule level.operand) scope text (.matched v rest) taps) :
    ∃ n, v = .int n := by
  cases level with
  | sum => exact int_of_chain .product h
  | product => exact int_of_factor h

theorem value_of_step (level : Level)
    (h : Matches rules level.step scope text (.matched v rest) taps) :
    ∃ step : Step, step.value = v := by
  obtain ⟨c, w, _, _, _, hc, hw, rfl⟩ := Matches.of_pair h
  obtain ⟨n, rfl⟩ := int_of_operand level hw
  obtain ⟨text', hread⟩ := hc.of_token rfl
  cases text' with
  | nil => cases hread
  | cons d cs =>
    change some (if (CharClass.ofString level.symbols).contains d then _ else _) = _ at hread
    split at hread
    · next hd =>
      cases hread
      obtain ⟨op, -, rfl⟩ := (level.contains_symbols d).1 hd
      exact ⟨(op, n), rfl⟩
    · cases hread

/-- What is folded is the value of a first operand and the values of steps. -/
theorem value_of_parts (level : Level)
    (h : Matches rules level.parts scope text (.matched v rest) taps) :
    ∃ first, ∃ steps : List Step, v = .tuple [.int first, .list (steps.map Step.value)] := by
  obtain ⟨w, u, _, _, _, hw, hu, rfl⟩ := Matches.of_pair h
  obtain ⟨first, rfl⟩ := int_of_operand level hw
  obtain ⟨vs, hrounds, rfl⟩ := hu.of_repetition
  have hsteps := hrounds.forall_values (fun _ _ _ _ hm => value_of_step level hm) rfl
  have hrange : vs ∈ Set.range (List.map Step.value) := by
    rw [Set.range_list_map]
    exact hsteps
  obtain ⟨steps, rfl⟩ := hrange
  exact ⟨first, steps, rfl⟩

end

/-- Whenever a value is handed to a mapping, in the match of any text, it is folded, and it is a
first operand with steps after it, all of which the fold takes. -/
theorem folded_steps {text : String} {k : Nat} {m : Machine Whole} {v : Value} {f : Value → Value}
    {stack : List Machine.Frame} (hm : Moves rules k (.start line (Whole.ofString text)) m)
    (hv : m.control = .matched v) (hf : m.stack = .map f :: stack) :
    f = fold ∧ ∃ first, ∃ steps : List Step,
      v = .tuple [.int first, .list (steps.map Step.value)] ∧
        fold v = .int (evalSteps first steps) := by
  have hline : line ∈ patterns := List.mem_cons_self
  obtain ⟨q, scope, text', rest, taps, hmem, hmatches⟩ :=
    Machine.matches_of_handed closed_patterns hline hm hv hf
  obtain ⟨rfl, level, rfl⟩ := of_map_mem hmem
  obtain ⟨first, steps, rfl⟩ := value_of_parts level hmatches
  exact ⟨rfl, first, steps, rfl, fold_steps first steps⟩

/-! ## Answers -/

section

variable {fuel : Nat} {text : String}

theorem evaluate_of_ok {n : Int64} {rest : String}
    (h : (parsePrefix rules fuel line text).outcome = .ok (.int n, rest)) :
    evaluate fuel text = .ok n.toInt := by
  have hfits : IntKind.int64.Fits n.toInt := IntKind.fits_int64.2 ⟨n.le_toInt, n.toInt_lt⟩
  have hread : Target.read (.int .int64) (.int n) = .ok ⟨n.toInt, hfits⟩ := dif_pos hfits
  simp only [evaluate, parseInto, parse, Report.andThen, h]
  show Except.map Subtype.val (Failure.ofError (Target.read (.int .int64) (.int n))) = _
  rw [hread]
  rfl

theorem evaluate_of_error {failure : Failure}
    (h : (parsePrefix rules fuel line text).outcome = .error failure) :
    evaluate fuel text = .error failure := by
  simp only [evaluate, parseInto, parse, Report.andThen, h]
  rfl

theorem parsePrefix_line_error {e : Error}
    (h : (parsePrefix rules fuel line text).outcome = .error (.error e)) : e = .noMatch := by
  unfold parsePrefix at h
  rw [collect_line] at h
  generalize (Machine.start line (Whole.ofString text)).run rules fuel = ended at h
  obtain ⟨m, verdict⟩ := ended
  change wholeOutcome m verdict = _ at h
  by_cases hm : m.source.marks = 0
  · cases verdict with
    | failed => simpa [wholeOutcome, hm] using h.symm
    | matched | waiting => simp [wholeOutcome, hm] at h
    | fault | outOfFuel => cases h
  · cases verdict <;> simp [wholeOutcome, hm] at h

/-- The value of a line has the shape that is asked for. -/
theorem evaluate_ne_shapeMismatch (fuel : Nat) (text : String) (expected : Expectation)
    (found : Value.Kind) :
    evaluate fuel text ≠ .error (.error (.shapeMismatch expected found)) := by
  intro h
  cases ho : (parsePrefix rules fuel line text).outcome with
  | error failure =>
    rw [evaluate_of_error ho] at h
    cases h
    cases parsePrefix_line_error ho
  | ok answer =>
    obtain ⟨v, rest⟩ := answer
    obtain ⟨taps, hm⟩ := matches_of_parsePrefix ho
    rcases settles_line text.toList with ⟨n, -, hn⟩ | ⟨-, hfail⟩
    · obtain ⟨rfl, -⟩ := Outcome.matched.inj (hm.unique hn).1
      rw [evaluate_of_ok ho] at h
      cases h
    · cases (hm.unique hfail).1

end

/-- The lines of a session that are texts are answered in order, without the blank ones. -/
theorem answerLines_eq (fuel : Nat) {raws : List (List UInt8)} {texts : List String}
    (h : raws.map (fun raw => Utf8.decode? (stripEnd raw)) = texts.map some) :
    answerLines fuel raws =
      ⟨(texts.filter fun text => !isBlank text).map (answer fuel), false⟩ := by
  induction raws generalizing texts with
  | nil =>
    obtain rfl := List.map_eq_nil_iff.1 h.symm
    rfl
  | cons raw raws ih =>
    cases texts with
    | nil => cases h
    | cons text texts =>
      obtain ⟨hraw, hraws⟩ := List.cons.inj h
      change Utf8.decode? (stripEnd raw) = some text at hraw
      rw [answerLines, hraw]
      by_cases hblank : isBlank text = true <;> simp [hblank, ih hraws]

/-- A line of the grammar is answered with its value, from some fuel on, and every other line with
the error of an input that does not match. No answer is of the wrong shape, and wherever a value is
folded, at any time of a match, all its steps are taken. A session prints the answers to its lines,
less the blank ones. -/
theorem answer_iff_line (text : String) :
    (∃ enough, ∀ fuel > enough,
      (∀ n, evaluate fuel text = .ok n ↔ ∃ v, Line text.toList v ∧ n = v.toInt) ∧
      (∀ v, Line text.toList v → answer fuel text = toString v.toInt) ∧
      ((¬ ∃ v, Line text.toList v) → evaluate fuel text = .error (.error .noMatch) ∧
        answer fuel text = "error: input does not match the pattern")) ∧
    (∀ fuel expected found,
      evaluate fuel text ≠ .error (.error (.shapeMismatch expected found))) ∧
    (∀ k (m : Machine Whole) v f stack, Moves rules k (.start line (Whole.ofString text)) m →
      m.control = .matched v → m.stack = .map f :: stack →
      f = fold ∧ ∃ first, ∃ steps : List Step,
        v = .tuple [.int first, .list (steps.map Step.value)] ∧
          fold v = .int (evalSteps first steps)) ∧
    ∀ fuel (raws : List (List UInt8)) (texts : List String),
      raws.map (fun raw => Utf8.decode? (stripEnd raw)) = texts.map some →
      answerLines fuel raws =
        ⟨(texts.filter fun text => !isBlank text).map (answer fuel), false⟩ := by
  refine ⟨?_, fun fuel => evaluate_ne_shapeMismatch fuel text,
    fun k m v f stack => folded_steps, fun fuel raws texts => answerLines_eq fuel⟩
  rcases settles_line text.toList with ⟨v, hv, hm⟩ | ⟨hnone, hm⟩
  · obtain ⟨enough, hall⟩ := hm.answers collect_line
    refine ⟨enough, fun fuel hfuel => ?_⟩
    have heval : evaluate fuel text = .ok v.toInt := evaluate_of_ok (hall fuel hfuel).1
    have hunique : ∀ w, Line text.toList w → w = v := fun w hw => by
      cases (hw.matches.unique hm).1
      rfl
    refine ⟨fun n => ?_, fun w hw => ?_, fun hno => absurd ⟨v, hv⟩ hno⟩
    · rw [heval]
      constructor
      · intro h
        exact ⟨v, hv, (Except.ok.inj h).symm⟩
      · rintro ⟨w, hw, rfl⟩
        rw [hunique w hw]
    · rw [answer, heval, hunique w hw]
  · obtain ⟨enough, hall⟩ := hm.answers collect_line
    refine ⟨enough, fun fuel hfuel => ?_⟩
    have heval : evaluate fuel text = .error (.error .noMatch) :=
      evaluate_of_error (hall fuel hfuel).1
    refine ⟨fun n => ?_, fun w hw => absurd ⟨w, hw⟩ hnone, fun _ => ⟨heval, ?_⟩⟩
    · rw [heval]
      constructor
      · intro h
        cases h
      · rintro ⟨w, hw, -⟩
        exact absurd ⟨w, hw⟩ hnone
    · rw [answer, heval]
      rfl

/-- Spaces, parentheses, operators of both levels and a sign that is no operator. -/
theorem line_nested : Line "9 - (1+ 2)*-4 ".toList 21 := by
  have hnine : Operand .product ['9'] 9 := @Operand.literal 0 _ _ (.plain (by decide) rfl)
  have hone : Operand .product ['1'] 1 := @Operand.literal 0 _ _ (.plain (by decide) rfl)
  have htwo : Operand .product [' ', '2'] 2 := @Operand.literal 1 _ _ (.plain (by decide) rfl)
  have hfour : Operand .product ['-', '4'] (-4) := @Operand.literal 0 _ _ (.minus (by decide) rfl)
  have hsum : Chain .sum "1+ 2".toList 3 :=
    .intro (.product (.intro hone .nil))
      (@Steps.cons _ .plus 0 _ _ _ _ (by decide) (.product (.intro htwo .nil)) .nil)
  have hproduct : Chain .product " (1+ 2)*-4".toList (-12) :=
    .intro (@Operand.parentheses 1 0 _ _ hsum)
      (@Steps.cons _ .times 0 _ _ _ _ (by decide) hfour .nil)
  have hexpression : Chain .sum "9 - (1+ 2)*-4".toList 21 :=
    .intro (.product (.intro hnine .nil))
      (@Steps.cons _ .minus 1 _ _ _ _ (by decide) (.product hproduct) .nil)
  exact ⟨_, 1, by decide, hexpression⟩

theorem not_line_unopened : ¬ ∃ v, Line ")".toList v := by
  rintro ⟨v, hv⟩
  have hfactor : Matches rules (.rule factor) spaces [')'] .failed [] :=
    matches_factor rfl (.failed (literalChar_failed (by decide)))
  have hterm : Matches rules (.rule Level.product.ref) spaces [')'] .failed [] :=
    chain_failed hfactor
  have hexpression : Matches rules (.rule Level.sum.ref) spaces [')'] .failed [] :=
    chain_failed hterm
  cases (hv.matches.unique (line_failed (.failed hexpression))).1

/-- What is folded in the match of a quotient. -/
def quotient : Value := .tuple [.int 6, .list [.tuple [.char '/', .int 4]]]

theorem handed_quotient : ∃ k m stack, Moves rules k (.start line (Whole.ofString "6/4")) m ∧
    m.control = .matched quotient ∧ m.stack = .map fold :: stack := by
  obtain ⟨k, hk, -⟩ :=
    Machine.exists_moves_of_run rules 50 (Machine.start line (Whole.ofString "6/4"))
  exact ⟨k, _, _, hk, rfl, rfl⟩

theorem answer_iff_line_nested :
    (∃ enough, ∀ fuel > enough, answer fuel "9 - (1+ 2)*-4 " = "21" ∧
      answer fuel ")" = "error: input does not match the pattern" ∧
      answerLines fuel [[41, 13, 10], [32, 10]] = ⟨[answer fuel ")"], false⟩) ∧
    ∃ first, ∃ steps : List Step,
      quotient = .tuple [.int first, .list (steps.map Step.value)] ∧
        fold quotient = .int (evalSteps first steps) := by
  obtain ⟨⟨enough, hall⟩, -⟩ := answer_iff_line "9 - (1+ 2)*-4 "
  obtain ⟨⟨enough', hall'⟩, -, -, hlines⟩ := answer_iff_line ")"
  obtain ⟨-, -, hfolded, -⟩ := answer_iff_line "6/4"
  obtain ⟨k, m, stack, hm, hv, hf⟩ := handed_quotient
  refine ⟨⟨max enough enough', fun fuel hfuel => ⟨?_, ?_, ?_⟩⟩, ?_⟩
  · exact (hall fuel (lt_of_le_of_lt (le_max_left _ _) hfuel)).2.1 21 line_nested
  · exact ((hall' fuel (lt_of_le_of_lt (le_max_right _ _) hfuel)).2.2 not_line_unopened).2
  · have hprinted := hlines fuel [[41, 13, 10], [32, 10]] [")", " "] (by decide +kernel)
    have hblank : [")", " "].filter (fun text => !isBlank text) = [")"] := by decide +kernel
    rw [hblank] at hprinted
    exact hprinted
  · exact (hfolded k m quotient fold stack hm hv hf).2

end PegStream.Calculator
