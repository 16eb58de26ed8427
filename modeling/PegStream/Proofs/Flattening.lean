import PegStream.Proofs.Lists

/-!
# Flat forms

`a >> b` and `a <|> b` join operands that are sequences or alternatives themselves into one, where
`Pattern.sequence [a, b]` and `Pattern.alternative [a, b]` keep them as they are. The flat forms do
not depend on how an expression is put in parentheses, and they mean what the nested forms mean:

* `matches_orElse_iff`: a choice comes to the same;
* `matches_followedBy_iff`: a sequence comes to the same, but for the value, in which the tuple of
  an operand with several values is spliced in (`Pattern.splice`);
* `flattening_preserves_meaning`: so do matches from any place of a text and answers to whole texts.
-/

namespace PegStream

open Machine

variable {rules : RuleBook} {p p' a b : Pattern} {ps qs : List Pattern} {scope : Scope}
  {text rest : List Char} {v w : Value} {vs : List Value} {out : Outcome Value}
  {outs : Outcome (List Value)} {taps : List Tap}

theorem Outcome.map_id {α : Type} (out : Outcome α) : out.map id = out := by
  cases out <;> rfl

/-! ## Parts in a row -/

theorem matches_sequence_iff : Matches rules (.sequence ps) scope text out taps ↔
    ∃ outs, MatchesAll rules ps scope text outs taps ∧ out = outs.map .ofParts := by
  constructor
  · intro h
    cases h with
    | token _ hr => cases hr
    | sequence hs => exact ⟨_, hs, rfl⟩
  · rintro ⟨outs, hs, rfl⟩
    exact .sequence hs

theorem matchesAll_nil_iff :
    MatchesAll rules [] scope text outs taps ↔ outs = .matched [] text ∧ taps = [] := by
  constructor
  · intro h
    cases h
    exact ⟨rfl, rfl⟩
  · rintro ⟨rfl, rfl⟩
    exact .nil

theorem matchesAll_cons_iff : MatchesAll rules (p :: ps) scope text outs taps ↔
    Matches rules p scope text .failed taps ∧ outs = .failed ∨
    ∃ v text₁ outs' taps₁ taps₂, Matches rules p scope text (.matched v text₁) taps₁ ∧
      MatchesAll rules ps scope text₁ outs' taps₂ ∧ outs = outs'.map (p.keep v ++ ·) ∧
      taps = taps₁ ++ taps₂ := by
  constructor
  · intro h
    cases h with
    | failed hp => exact .inl ⟨hp, rfl⟩
    | cons hp hs => exact .inr ⟨_, _, _, _, _, hp, hs, rfl, rfl⟩
  · rintro (⟨hp, rfl⟩ | ⟨v, text₁, outs', taps₁, taps₂, hp, hs, rfl, rfl⟩)
    · exact .failed hp
    · exact .cons hp hs

theorem matchesAll_singleton_iff : MatchesAll rules [p] scope text outs taps ↔
    ∃ out, Matches rules p scope text out taps ∧ outs = out.map p.keep := by
  rw [matchesAll_cons_iff]
  constructor
  · rintro (⟨hp, rfl⟩ | ⟨v, text₁, outs', taps₁, taps₂, hp, hs, rfl, rfl⟩)
    · exact ⟨.failed, hp, rfl⟩
    · obtain ⟨rfl, rfl⟩ := matchesAll_nil_iff.1 hs
      refine ⟨.matched v text₁, by rwa [List.append_nil], ?_⟩
      simp only [Outcome.map_matched, List.append_nil]
  · rintro ⟨out, hp, rfl⟩
    cases out with
    | failed => exact .inl ⟨hp, rfl⟩
    | matched v rest =>
      refine .inr ⟨v, rest, .matched [] rest, taps, [], hp, .nil, ?_, (List.append_nil _).symm⟩
      simp only [Outcome.map_matched, List.append_nil]

/-- The parts of two sequences in a row match as those of the first and then those of the second. -/
theorem matchesAll_append_iff : MatchesAll rules (ps ++ qs) scope text outs taps ↔
    MatchesAll rules ps scope text .failed taps ∧ outs = .failed ∨
    ∃ vs text₁ outs' taps₁ taps₂, MatchesAll rules ps scope text (.matched vs text₁) taps₁ ∧
      MatchesAll rules qs scope text₁ outs' taps₂ ∧ outs = outs'.map (vs ++ ·) ∧
      taps = taps₁ ++ taps₂ := by
  constructor
  · intro h
    induction ps generalizing text outs taps with
    | nil => exact .inr ⟨[], text, outs, [], taps, .nil, h, by cases outs <;> rfl, rfl⟩
    | cons p ps ih =>
      rcases matchesAll_cons_iff.1 h with
        ⟨hp, rfl⟩ | ⟨v, text₁, outs', taps₁, taps₂, hp, hs, rfl, rfl⟩
      · exact .inl ⟨.failed hp, rfl⟩
      · rcases ih hs with ⟨hps, rfl⟩ | ⟨vs, text₂, outs'', taps₂, taps₃, hps, hqs, rfl, rfl⟩
        · exact .inl ⟨.cons hp hps, rfl⟩
        · refine .inr ⟨_, _, _, _, _, .cons hp hps, hqs, ?_, (List.append_assoc ..).symm⟩
          simp only [Outcome.map_map, List.append_assoc]
  · intro h
    induction ps generalizing text outs taps with
    | nil =>
      rcases h with ⟨hs, -⟩ | ⟨vs, text₁, outs', taps₁, taps₂, hs, hs', rfl, rfl⟩
      · cases (matchesAll_nil_iff.1 hs).1
      · obtain ⟨ho, rfl⟩ := matchesAll_nil_iff.1 hs
        cases ho
        cases outs' <;> exact hs'
    | cons p ps ih =>
      rcases h with ⟨hs, rfl⟩ | ⟨vs, text₂, outs', taps₂, taps₃, hs, hs', rfl, rfl⟩
      · rcases matchesAll_cons_iff.1 hs with
          ⟨hp, -⟩ | ⟨v, text₁, outs', taps₁, taps₂, hp, hs, ho, rfl⟩
        · exact .failed hp
        · cases outs' with
          | matched => cases ho
          | failed => exact .cons hp (ih (.inl ⟨hs, rfl⟩))
      · rcases matchesAll_cons_iff.1 hs with
          ⟨-, ho⟩ | ⟨v, text₁, outs'', taps₁, taps₂, hp, hs, ho, rfl⟩
        · cases ho
        · cases outs'' with
          | failed => cases ho
          | matched ws rest =>
            cases ho
            refine matchesAll_cons_iff.2 (.inr ⟨v, text₁, _, taps₁, _, hp,
              ih (.inr ⟨ws, text₂, outs', taps₂, taps₃, hs, hs', rfl, rfl⟩), ?_,
              List.append_assoc ..⟩)
            simp only [Outcome.map_map, List.append_assoc]

/-! ## Branches -/

theorem matchesFirst_singleton_iff :
    MatchesFirst rules [p] scope text out taps ↔ Matches rules p scope text out taps := by
  constructor
  · intro h
    cases h with
    | matched hp => exact hp
    | failed hp hs =>
      cases hs
      rwa [List.append_nil]
  · intro h
    cases out with
    | matched v rest => exact .matched h
    | failed =>
      rw [← List.append_nil taps]
      exact .failed h .nil

/-- The branches of two alternatives in a row: those of the second are tried where all of the first
fail. -/
theorem matchesFirst_append_iff : MatchesFirst rules (ps ++ qs) scope text out taps ↔
    (∃ v rest, MatchesFirst rules ps scope text (.matched v rest) taps ∧ out = .matched v rest) ∨
    ∃ taps₁ taps₂, MatchesFirst rules ps scope text .failed taps₁ ∧
      MatchesFirst rules qs scope text out taps₂ ∧ taps = taps₁ ++ taps₂ := by
  constructor
  · intro h
    induction ps generalizing taps with
    | nil => exact .inr ⟨[], taps, .nil, h, rfl⟩
    | cons p ps ih =>
      cases h with
      | matched hp => exact .inl ⟨_, _, .matched hp, rfl⟩
      | failed hp hs =>
        rcases ih hs with ⟨v, rest, hps, rfl⟩ | ⟨taps₁, taps₂, hps, hqs, rfl⟩
        · exact .inl ⟨v, rest, .failed hp hps, rfl⟩
        · exact .inr ⟨_, _, .failed hp hps, hqs, (List.append_assoc ..).symm⟩
  · intro h
    induction ps generalizing taps with
    | nil =>
      rcases h with ⟨v, rest, hs, -⟩ | ⟨taps₁, taps₂, hs, hs', rfl⟩
      · cases hs
      · cases hs
        exact hs'
    | cons p ps ih =>
      rcases h with ⟨v, rest, hs, rfl⟩ | ⟨taps₁, taps₂, hs, hs', rfl⟩
      · cases hs with
        | matched hp => exact .matched hp
        | failed hp hs => exact .failed hp (ih (.inl ⟨v, rest, hs, rfl⟩))
      · cases hs with
        | failed hp hs =>
          rw [List.append_assoc]
          exact .failed hp (ih (.inr ⟨_, taps₂, hs, hs', rfl⟩))

theorem matches_alternative_iff : Matches rules (.alternative ps) scope text out taps ↔
    MatchesFirst rules ps scope text out taps :=
  ⟨Matches.of_alternative, .alternative⟩

theorem matchesFirst_branches_iff :
    MatchesFirst rules p.branches scope text out taps ↔ Matches rules p scope text out taps := by
  cases p with
  | alternative ps => exact matches_alternative_iff.symm
  | _ => exact matchesFirst_singleton_iff

/-- The flat form of a choice matches as the nested one. -/
theorem matches_orElse_iff : Matches rules (a <|> b) scope text out taps ↔
    Matches rules (.alternative [a, b]) scope text out taps := by
  change Matches rules (.alternative (a.branches ++ b.branches)) scope text out taps ↔
    Matches rules (.alternative ([a] ++ [b])) scope text out taps
  simp only [matches_alternative_iff, matchesFirst_append_iff, matchesFirst_branches_iff,
    matchesFirst_singleton_iff]

/-! ## Values of operands -/

namespace Pattern

/-- Whether the pattern is a sequence of which several parts keep a value. -/
def isTuple : Pattern → Bool
  | .sequence ps => 2 ≤ ps.countP fun q => !q.isSilent
  | _ => false

/-- What an operand adds to the values of the flat form: the items of its tuple if it is a sequence
of several values, and otherwise the value that it keeps. -/
def spread (p : Pattern) (v : Value) : List Value :=
  if p.isTuple then v.items else p.keep v

/-- The value of `a >> b`, from that of the sequence of `a` and `b`. Where both operands keep a
value the sequence has a pair of them, and the tuples of operands are spliced into it. -/
def splice (a b : Pattern) (v : Value) : Value :=
  if a.isSilent || b.isSilent then v
  else match v with
    | .tuple [x, y] => .tuple (a.spread x ++ b.spread y)
    | v => v

theorem isSilent_sequence_iff :
    (sequence ps).isSilent = true ↔ ps.countP (fun q => !q.isSilent) = 0 := by
  rw [isSilent_iff, shape]
  induction ps with
  | nil => exact ⟨fun _ => rfl, fun _ => rfl⟩
  | cons p ps ih =>
    rw [sequenceShape, List.countP_cons, isSilent]
    cases p.shape with
    | silent => exact ih
    | text | other => cases sequenceShape ps <;> simp [Shape.beside]

theorem keep_of_silent (hp : p.isSilent = true) (v : Value) : p.keep v = [] := by
  rw [keep, if_pos hp]

/-- A pattern that keeps no value has none to spread. -/
theorem spread_of_silent (hp : p.isSilent = true) (v : Value) : p.spread v = [] := by
  have htuple : p.isTuple = false := by
    cases p with
    | sequence ps =>
      rw [isTuple, isSilent_sequence_iff.1 hp]
      rfl
    | _ => rfl
  rw [spread, htuple, keep_of_silent hp]
  rfl

end Pattern

open Pattern

/-- The values of the parts can be read off the value of a sequence. -/
theorem MatchesAll.spread_ofParts (h : MatchesAll rules ps scope text (.matched vs rest) taps) :
    (Pattern.sequence ps).spread (.ofParts vs) = vs := by
  have hlength := h.length_eq rfl
  rw [spread, isTuple, ← hlength]
  match vs with
  | [] => exact keep_of_silent (isSilent_sequence_iff.2 hlength.symm) _
  | [v] =>
    have hloud : (Pattern.sequence ps).isSilent = false := by
      rw [Bool.eq_false_iff, Ne, isSilent_sequence_iff, ← hlength]
      exact Nat.one_ne_zero
    exact keep_of_loud hloud v
  | x :: y :: vs => simp [Value.ofParts, Value.items]

/-- A pattern is a sequence, or the only part of itself. -/
theorem Pattern.sequence_or_parts (p : Pattern) :
    (∃ ps, p = .sequence ps) ∨ p.parts = [p] ∧ p.spread = p.keep := by
  cases p with
  | sequence ps => exact .inl ⟨ps, rfl⟩
  | _ => exact .inr ⟨rfl, rfl⟩

theorem matchesAll_parts_iff : MatchesAll rules p.parts scope text outs taps ↔
    ∃ out, Matches rules p scope text out taps ∧ outs = out.map p.spread := by
  rcases p.sequence_or_parts with ⟨ps, rfl⟩ | ⟨hparts, hspread⟩
  · have hmap {outs} (hs : MatchesAll rules ps scope text outs taps) :
        (outs.map .ofParts).map (Pattern.sequence ps).spread = outs := by
      cases outs with
      | failed => rfl
      | matched vs rest => rw [Outcome.map_matched, Outcome.map_matched, hs.spread_ofParts]
    constructor
    · intro hs
      exact ⟨_, .sequence hs, (hmap hs).symm⟩
    · rintro ⟨out, h, rfl⟩
      obtain ⟨outs, hs, rfl⟩ := matches_sequence_iff.1 h
      rwa [hmap hs]
  · rw [hparts, hspread]
    exact matchesAll_singleton_iff

theorem Matches.ofParts_spread (h : Matches rules p scope text (.matched v rest) taps) :
    .ofParts (p.spread v) = v := by
  rcases p.sequence_or_parts with ⟨ps, rfl⟩ | ⟨-, hspread⟩
  · obtain ⟨vs, hs, rfl⟩ := h.of_sequence
    rw [hs.spread_ofParts]
  · rw [hspread, Value.Fits.ofParts_keep h.fits]

theorem Matches.spread_eq_cons (h : Matches rules p scope text (.matched v rest) taps)
    (hp : p.isSilent = false) : ∃ x xs, p.spread v = x :: xs := by
  rcases p.sequence_or_parts with ⟨ps, rfl⟩ | ⟨-, hspread⟩
  · obtain ⟨vs, hs, rfl⟩ := h.of_sequence
    rw [hs.spread_ofParts]
    refine List.exists_cons_of_ne_nil fun hnil => ?_
    have hlength := hs.length_eq rfl
    rw [hnil] at hlength
    cases hp.symm.trans (isSilent_sequence_iff.2 hlength.symm)
  · exact ⟨v, [], by rw [hspread, keep_of_loud hp]⟩

/-- Splicing turns the value of the nested form into that of the flat form. -/
theorem splice_ofParts {text' rest' : List Char} {taps' : List Tap}
    (ha : Matches rules a scope text (.matched v rest) taps)
    (hb : Matches rules b scope text' (.matched w rest') taps') :
    a.splice b (.ofParts (a.keep v ++ b.keep w)) = .ofParts (a.spread v ++ b.spread w) := by
  unfold splice
  -- A silent operand adds nothing to either form, and both have the value of the other operand.
  cases hsa : a.isSilent with
  | true =>
    rw [keep_of_silent hsa, spread_of_silent hsa, List.nil_append, List.nil_append,
      Value.Fits.ofParts_keep hb.fits, hb.ofParts_spread]
    rfl
  | false =>
    cases hsb : b.isSilent with
    | true =>
      rw [keep_of_silent hsb, spread_of_silent hsb, List.append_nil, List.append_nil,
        Value.Fits.ofParts_keep ha.fits, ha.ofParts_spread]
      rfl
    | false =>
      obtain ⟨x, xs, hx⟩ := ha.spread_eq_cons hsa
      obtain ⟨y, ys, hy⟩ := hb.spread_eq_cons hsb
      rw [keep_of_loud hsa, keep_of_loud hsb, hx, hy]
      cases xs <;> simp [Value.ofParts, hx, hy]

/-- The flat form of a sequence matches as the nested one, with the tuples of operands spliced. -/
theorem matches_followedBy_iff : Matches rules (a >> b) scope text out taps ↔
    ∃ out', Matches rules (.sequence [a, b]) scope text out' taps ∧
      out = out'.map (a.splice b) := by
  change Matches rules (.sequence (a.parts ++ b.parts)) scope text out taps ↔ _
  constructor
  · intro h
    obtain ⟨outs, hs, rfl⟩ := matches_sequence_iff.1 h
    rcases matchesAll_append_iff.1 hs with
      ⟨has, rfl⟩ | ⟨vs, text₁, outs', taps₁, taps₂, has, hbs, rfl, rfl⟩
    · obtain ⟨out, ha, ho⟩ := matchesAll_parts_iff.1 has
      cases out with
      | matched => cases ho
      | failed => exact ⟨.failed, matches_pair_iff.2 (.inl ⟨ha, rfl⟩), rfl⟩
    · obtain ⟨out, ha, ho⟩ := matchesAll_parts_iff.1 has
      cases out with
      | failed => cases ho
      | matched v rest =>
        cases ho
        obtain ⟨out', hb, rfl⟩ := matchesAll_parts_iff.1 hbs
        refine ⟨_, matches_pair_iff.2 (.inr ⟨v, _, out', taps₁, taps₂, ha, hb, rfl, rfl⟩), ?_⟩
        cases out' with
        | failed => rfl
        | matched w rest' => simp only [Outcome.map_matched, splice_ofParts ha hb]
  · rintro ⟨out, h, rfl⟩
    refine matches_sequence_iff.2 ?_
    rcases matches_pair_iff.1 h with
      ⟨ha, rfl⟩ | ⟨v, text₁, out', taps₁, taps₂, ha, hb, rfl, rfl⟩
    · have has := matchesAll_parts_iff.2 ⟨_, ha, rfl⟩
      exact ⟨.failed, matchesAll_append_iff.2 (.inl ⟨has, rfl⟩), rfl⟩
    · have has := matchesAll_parts_iff.2 ⟨_, ha, rfl⟩
      have hbs := matchesAll_parts_iff.2 ⟨_, hb, rfl⟩
      refine ⟨_, matchesAll_append_iff.2 (.inr ⟨_, _, _, _, _, has, hbs, rfl, rfl⟩), ?_⟩
      cases out' with
      | failed => rfl
      | matched w rest' => simp only [Outcome.map_matched, splice_ofParts ha hb]

/-! ## Shapes -/

theorem Shape.orElse_silent (a : Shape) : a.orElse .silent = a := by
  cases a <;> rfl

namespace Pattern

theorem sequenceShape_parts (p : Pattern) : sequenceShape p.parts = p.shape := by
  cases p with
  | sequence ps => rfl
  | _ => exact Shape.beside_silent _

theorem alternativeShape_branches (p : Pattern) : alternativeShape p.branches = p.shape := by
  cases p with
  | alternative ps => rfl
  | _ => exact Shape.orElse_silent _

theorem shape_followedBy (a b : Pattern) : (a >> b).shape = (sequence [a, b]).shape := by
  change sequenceShape (a.parts ++ b.parts) = sequenceShape [a, b]
  rw [sequenceShape_append, sequenceShape_parts, sequenceShape_parts]
  simp only [sequenceShape, Shape.beside_silent]

theorem shape_orElse (a b : Pattern) : (a <|> b).shape = (alternative [a, b]).shape := by
  change alternativeShape (a.branches ++ b.branches) = alternativeShape [a, b]
  rw [alternativeShape_append, alternativeShape_branches, alternativeShape_branches]
  simp only [alternativeShape, Shape.orElse_silent]

end Pattern

/-! ## Rules -/

namespace RuleBook

theorem visit_sequence (book : RuleBook) (ps : List Pattern) (seen : List Nat) :
    book.visit [.sequence ps] seen = book.visit ps seen := by
  rw [visit_other (p := .sequence ps) book nofun, List.append_nil]
  rfl

theorem visit_alternative (book : RuleBook) (ps : List Pattern) (seen : List Nat) :
    book.visit [.alternative ps] seen = book.visit ps seen := by
  rw [visit_other (p := .alternative ps) book nofun, List.append_nil]
  rfl

theorem visit_parts (book : RuleBook) (p : Pattern) (seen : List Nat) :
    book.visit p.parts seen = book.visit [p] seen := by
  cases p with
  | sequence ps => exact (book.visit_sequence ps seen).symm
  | _ => rfl

theorem visit_branches (book : RuleBook) (p : Pattern) (seen : List Nat) :
    book.visit p.branches seen = book.visit [p] seen := by
  cases p with
  | alternative ps => exact (book.visit_alternative ps seen).symm
  | _ => rfl

/-- The flat form of a sequence mentions the same rules, in the same order. -/
theorem collect_followedBy (book : RuleBook) (a b : Pattern) :
    book.collect (a >> b) = book.collect (.sequence [a, b]) := by
  change book.visit [.sequence (a.parts ++ b.parts)] [] = book.visit [.sequence ([a] ++ [b])] []
  simp only [visit_sequence, visit_append, visit_parts]

theorem collect_orElse (book : RuleBook) (a b : Pattern) :
    book.collect (a <|> b) = book.collect (.alternative [a, b]) := by
  change book.visit [.alternative (a.branches ++ b.branches)] [] =
    book.visit [.alternative ([a] ++ [b])] []
  simp only [visit_alternative, visit_append, visit_branches]

end RuleBook

/-! ## Whole texts -/

/-- The pattern with the skipper in force around it. -/
def Scope.over : Scope → Pattern → Pattern
  | none, p => p
  | some k, p => .skipping p k

theorem matches_over_iff : Matches rules (scope.over p) none text out taps ↔
    Matches rules p scope text out taps := by
  cases scope with
  | none => exact Iff.rfl
  | some k => exact matches_skipping_iff

theorem collect_over (h : rules.collect p = rules.collect p') (scope : Scope) :
    rules.collect (scope.over p) = rules.collect (scope.over p') := by
  cases scope with
  | none => exact h
  | some k => rw [Scope.over, Scope.over, rules.collect_skipping, rules.collect_skipping, h]

/-- The pattern `p` comes to what `p'` comes to, but for a change of the value: from any place of a
text and under any skipper, and for a whole text. -/
structure Pattern.AgreesUpTo (f : Value → Value) (rules : RuleBook) (p p' : Pattern) : Prop where
  isSilent : p.isSilent = p'.isSilent
  isText : p.isText = p'.isText
  gives {scope : Scope} {s : Whole} {cps : List Checkpoint} {log : List Tap} {out : Outcome Value}
    {taps : List Tap} : s.Reachable cps → (Gives rules p scope s log out taps ↔
      ∃ out', Gives rules p' scope s log out' taps ∧ out = out'.map f)
  returns {scope : Scope} {input : String} {out : Outcome Value} {taps : List Tap} :
    Returns (parsePrefix rules · (scope.over p) input) ⟨out.answer, taps⟩ ↔
      ∃ out' : Outcome Value,
        Returns (parsePrefix rules · (scope.over p') input) ⟨out'.answer, taps⟩ ∧ out = out'.map f
  refused {scope : Scope} {input name : String} {fuel : Nat} :
    (parsePrefix rules fuel (scope.over p) input).outcome = .error (.error (.unboundRule name)) ↔
      (parsePrefix rules fuel (scope.over p') input).outcome = .error (.error (.unboundRule name))

theorem agreesUpTo_of_matches {f : Value → Value} (hshape : p.shape = p'.shape)
    (hcollect : rules.collect p = rules.collect p')
    (h : ∀ {scope text out taps}, Matches rules p scope text out taps ↔
      ∃ out', Matches rules p' scope text out' taps ∧ out = out'.map f) :
    p.AgreesUpTo f rules p' where
  isSilent := by rw [Pattern.isSilent, Pattern.isSilent, hshape]
  isText := by rw [Pattern.isText, Pattern.isText, hshape]
  gives hs := by
    obtain ⟨t, hR, -⟩ := hs.represents
    simp only [gives_iff hR]
    exact h
  returns {scope input out taps} := by
    simp only [returns_parsePrefix_iff, matches_over_iff, collect_over hcollect, h, and_assoc,
      exists_and_left]
  refused {scope input name fuel} := by
    rw [parsePrefix_eq_unbound_iff, parsePrefix_eq_unbound_iff, collect_over hcollect]

/-- Where no tuple stands beside another value there is nothing to splice. -/
theorem splice_eq_id (ha : a.isTuple = true → b.isSilent = true)
    (hb : b.isTuple = true → a.isSilent = true) : a.splice b = id := by
  funext v
  unfold splice
  split
  · rfl
  · rename_i hloud
    rw [Bool.or_eq_true, not_or, Bool.not_eq_true, Bool.not_eq_true] at hloud
    obtain ⟨hsa, hsb⟩ := hloud
    rw [hsb, Bool.false_eq_true, imp_false, Bool.not_eq_true] at ha
    rw [hsa, Bool.false_eq_true, imp_false, Bool.not_eq_true] at hb
    split
    · rw [spread, spread, ha, hb, keep_of_loud hsa, keep_of_loud hsb]
      rfl
    · rfl

/-- Flat forms do not depend on parentheses, and mean what the nested forms mean. A choice has the
same value; in the value of a sequence the tuples of operands are spliced, which changes nothing
unless an operand with several values stands beside another one with a value. -/
theorem flattening_preserves_meaning :
    (∀ a b c : Pattern,
      ((a >> b) >> c) = (a >> (b >> c)) ∧ ((a <|> b) <|> c) = (a <|> (b <|> c))) ∧
    ∀ (rules : RuleBook) (a b : Pattern),
      (a <|> b).AgreesUpTo id rules (.alternative [a, b]) ∧
      (a >> b).AgreesUpTo (a.splice b) rules (.sequence [a, b]) ∧
      ((a.isTuple = true → b.isSilent = true) → (b.isTuple = true → a.isSilent = true) →
        (a >> b).AgreesUpTo id rules (.sequence [a, b])) := by
  refine ⟨fun a b c => ⟨?_, ?_⟩, fun rules a b => ?_⟩
  · exact congrArg sequence (List.append_assoc a.parts b.parts c.parts)
  · exact congrArg alternative (List.append_assoc a.branches b.branches c.branches)
  · have hsequence : (a >> b).AgreesUpTo (a.splice b) rules (.sequence [a, b]) :=
      agreesUpTo_of_matches (shape_followedBy a b) (rules.collect_followedBy a b)
        matches_followedBy_iff
    refine ⟨agreesUpTo_of_matches (shape_orElse a b) (rules.collect_orElse a b) ?_, hsequence,
      fun ha hb => splice_eq_id ha hb ▸ hsequence⟩
    simp only [Outcome.map_id, exists_eq_right', matches_orElse_iff, implies_true]

namespace Spaced

/-- An `x` and a `y`. -/
def letters : Pattern := .exactly 'x' >> .exactly 'y'

/-- The nested form has a pair of the pair and the last letter. -/
theorem matches_nested_letters : Matches .empty (.sequence [letters, .exactly 'z'])
    (some (.literal " ")) ['x', ' ', 'y', 'z']
    (.matched (.tuple [.tuple [.char 'x', .char 'y'], .char 'z']) []) [] := by
  have hx : Skips .empty (some (.literal " ")) ['x', ' ', 'y', 'z'] ['x', ' ', 'y', 'z'] [] :=
    .failed (.token .none rfl)
  have hy : Skips .empty (some (.literal " ")) ['y', 'z'] ['y', 'z'] [] :=
    .failed (.token .none rfl)
  have hspace : Skips .empty (some (.literal " ")) [' ', 'y', 'z'] ['y', 'z'] [] :=
    .more (v := .nil) (.token .none rfl) (by decide) hy
  have hz : Skips .empty (some (.literal " ")) ['z'] ['z'] [] := .failed (.token .none rfl)
  have hletters : Matches .empty letters (some (.literal " ")) ['x', ' ', 'y', 'z']
      (.matched (.tuple [.char 'x', .char 'y']) ['z']) [] :=
    .sequence (.cons (.token hx rfl) (.cons (.token hspace rfl) .nil))
  exact .sequence (.cons hletters (.cons (.token hz rfl) .nil))

end Spaced

theorem flattening_preserves_meaning_letters :
    Gives .empty (Spaced.letters >> .exactly 'z') (some (.literal " ")) (.ofString "x yz") []
      (.matched (.tuple [.char 'x', .char 'y', .char 'z']) []) [] ∧
    Spaced.letters.AgreesUpTo id .empty (.sequence [.exactly 'x', .exactly 'y']) := by
  have hreachable : (Whole.ofString "x yz").Reachable [] := .fresh ⟨_, rfl⟩
  have hmeaning := flattening_preserves_meaning.2 .empty
  have hnested : Gives .empty (.sequence [Spaced.letters, .exactly 'z']) (some (.literal " "))
      (.ofString "x yz") [] (.matched (.tuple [.tuple [.char 'x', .char 'y'], .char 'z']) []) [] :=
    (gives_iff (Whole.represents_ofString "x yz")).2 Spaced.matches_nested_letters
  exact ⟨((hmeaning Spaced.letters (.exactly 'z')).2.1.gives hreachable).2 ⟨_, hnested, rfl⟩,
    (hmeaning (.exactly 'x') (.exactly 'y')).2.2 nofun nofun⟩

end PegStream
