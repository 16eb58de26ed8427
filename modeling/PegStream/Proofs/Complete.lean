import PegStream.Proofs.Outcomes
import PegStream.Proofs.Settling

/-!
# Matches of complete texts, from any place

A pattern may be entered anywhere in a complete text, with checkpoints open and values tapped
before. Runs from there and derivations of the text that is left come to the same:

* `Machine.comes_of_matches`: a derivation leads a run to its outcome;
* `Machine.matches_of_comes`: a run that is decided has a derivation;
* `Machine.matched_iff`, `Machine.failed_iff`: both, for the two kinds of outcome;
* `Machine.gives_iff`: both at once, by the value, the rest of the text and the taps;
* `returns_parsePrefix_iff`: the same for the answer to a complete text.
-/

namespace PegStream

theorem Whole.Represents.unique {s s' : Whole} {t : Tape} (h : s.Represents t)
    (h' : s'.Represents t) : s = s' := by
  obtain ⟨text, cursor, position, marks⟩ := s
  obtain ⟨text', cursor', position', marks'⟩ := s'
  obtain ⟨rfl, -, rfl, rfl, rfl, -⟩ := h
  obtain ⟨rfl, -, rfl, rfl, rfl, -⟩ := h'
  rfl

theorem Whole.Represents.shows {s : Whole} {t : Tape} (h : s.Represents t) : t.Shows t.rest :=
  ⟨rfl, h.valid.inside, h.final⟩

theorem Whole.Represents.remaining_before {s s' : Whole} {t : Tape} {rest : List Char}
    (h : s.Represents t) (hrest : rest <:+ t.rest) (h' : s'.Represents (t.before rest)) :
    s'.remaining.toList = rest := by
  rw [h'.remaining, (h.shows.move hrest).rest, String.toList_ofList]

namespace Machine

variable {rules : RuleBook} {p : Pattern} {scope : Scope} {s s' : Whole} {t : Tape}
  {log log' : List Tap} {m : Machine Whole} {v : Verdict} {w : Value} {out : Outcome Value}
  {taps : List Tap} {fuel : Nat}

/-- The pattern `p`, entered on `s`, comes to an end at `m`. -/
def Comes (rules : RuleBook) (p : Pattern) (scope : Scope) (s : Whole) (log : List Tap)
    (m : Machine Whole) (v : Verdict) : Prop :=
  Returns (fun fuel => run rules fuel ⟨.enter p scope, [], s, log⟩) (m, v)

theorem comes_of_run (h : run rules fuel ⟨.enter p scope, [], s, log⟩ = (m, v))
    (hd : v ≠ .outOfFuel) : Comes rules p scope s log m v := by
  refine ⟨fuel, fun fuel' hle => ?_⟩
  dsimp only
  rw [run_mono (Nat.le_of_lt hle) (by rw [h]; exact hd), h]

/-- A derivation of the text that is left leads to its outcome. -/
theorem comes_of_matches (hR : s.Represents t) (h : Matches rules p scope t.rest out taps)
    (log : List Tap) : ∃ k n s', Moves rules k ⟨.enter p scope, [], t, log⟩ n ∧
      Arrived out [] t (taps.reverse ++ log) n ∧ s'.Represents n.source ∧
      Comes rules p scope s log (n.on s') out.verdict := by
  have hyields := h.yields t [] log hR.shows
  obtain ⟨k, n, hk, ha⟩ : ∃ k n, Moves rules k ⟨.enter p scope, [], t, log⟩ n ∧
      Arrived out [] t (taps.reverse ++ log) n := by
    cases out with
    | matched v rest =>
      obtain ⟨k, hk⟩ := hyields
      exact ⟨k, _, hk, rfl⟩
    | failed =>
      obtain ⟨k, c, hk⟩ := hyields
      exact ⟨k, _, hk, c, rfl⟩
  obtain ⟨s', hk', hR'⟩ := Whole.follows.moves hR hk
  have hv : (n.on s').verdict? rules = some out.verdict :=
    Whole.follows.verdict hR' ha.verdict (fun _ => trivial) fun f hf => by cases out <;> cases hf
  exact ⟨k, n, s', hk, ha, hR', k, fun fuel hf => run_eq_of_moves hk' hv hf⟩

/-- A match that is decided has a derivation of the text that was left. -/
theorem matches_of_comes (hR : s.Represents t) (h : Comes rules p scope s log m v)
    (hd : v.Decided) : ∃ out taps n, Matches rules p scope t.rest out taps ∧ out.verdict = v ∧
      Arrived out [] t (taps.reverse ++ log) n ∧ m = n.on m.source ∧
      m.source.Represents n.source := by
  obtain ⟨fuel, hrun⟩ := h.exists
  obtain ⟨-, hsettled⟩ := (disciplined_enter hR.valid p scope log).run rules fuel
  obtain ⟨s', hrun', hR'⟩ := Whole.follows.run (n := ⟨.enter p scope, [], t, log⟩) hR rules fuel
    fun f hf => hsettled.fault hf
  obtain ⟨k, hk, hend⟩ := exists_moves_of_run rules fuel ⟨.enter p scope, [], t, log⟩
  cases hrun.symm.trans hrun'
  have hv := hend.resolve_right fun ⟨_, ho⟩ => by
    rw [ho] at hd
    exact hd
  obtain ⟨out, taps, hmatches, ho, ha⟩ := matches_of_moves hR.shows hk hv hd
  exact ⟨out, taps, _, hmatches, ho, ha, rfl, hR'⟩

theorem exists_matched {rest : List Char} (hR : s.Represents t)
    (h : Matches rules p scope t.rest (.matched w rest) taps) (log : List Tap) :
    ∃ s' : Whole, s'.Represents (t.before rest) ∧
      Comes rules p scope s log ⟨.matched w, [], s', taps.reverse ++ log⟩ (.matched w) := by
  obtain ⟨-, n, s', -, ha, hR', hcomes⟩ := comes_of_matches hR h log
  cases ha
  exact ⟨s', hR', hcomes⟩

theorem matched_iff (hR : s.Represents t) :
    Comes rules p scope s log ⟨.matched w, [], s', log'⟩ (.matched w) ↔
      ∃ rest taps, Matches rules p scope t.rest (.matched w rest) taps ∧
        s'.Represents (t.before rest) ∧ log' = taps.reverse ++ log := by
  constructor
  · intro h
    obtain ⟨out, taps, n, hmatches, ho, ha, hm, hR'⟩ := matches_of_comes hR h trivial
    cases out with
    | failed => cases ho
    | matched v rest =>
      cases ho
      cases ha
      cases hm
      exact ⟨rest, taps, hmatches, hR', rfl⟩
  · rintro ⟨rest, taps, hmatches, hR', rfl⟩
    obtain ⟨s₁, h₁, hcomes⟩ := exists_matched hR hmatches log
    obtain rfl := hR'.unique h₁
    exact hcomes

theorem failed_iff (hR : s.Represents t) :
    (∃ s', Comes rules p scope s log ⟨.failed, [], s', log'⟩ .failed) ↔
      ∃ taps, Matches rules p scope t.rest .failed taps ∧ log' = taps.reverse ++ log := by
  constructor
  · rintro ⟨s', h⟩
    obtain ⟨out, taps, n, hmatches, ho, ha, hm, -⟩ := matches_of_comes hR h trivial
    cases out with
    | matched v rest => cases ho
    | failed =>
      obtain ⟨c, rfl⟩ := ha
      cases hm
      exact ⟨taps, hmatches, rfl⟩
  · rintro ⟨taps, hmatches, rfl⟩
    obtain ⟨-, n, s₁, -, ⟨c, rfl⟩, -, hcomes⟩ := comes_of_matches hR hmatches log
    exact ⟨s₁, hcomes⟩

/-- The pattern `p`, entered on `s`, comes to the outcome: it matches with a value in front of a
rest of the text, or it fails. The values tapped on the way are added to the log. -/
def Gives (rules : RuleBook) (p : Pattern) (scope : Scope) (s : Whole) (log : List Tap)
    (out : Outcome Value) (taps : List Tap) : Prop :=
  ∃ m, Comes rules p scope s log m out.verdict ∧ m.log = taps.reverse ++ log ∧
    ∀ v rest, out = .matched v rest → m.source.remaining.toList = rest

/-- The outcomes of a pattern are those of its derivations. -/
theorem gives_iff (hR : s.Represents t) :
    Gives rules p scope s log out taps ↔ Matches rules p scope t.rest out taps := by
  constructor
  · rintro ⟨m, hcomes, hlog, hrest⟩
    have hdecided : out.verdict.Decided := by cases out <;> trivial
    obtain ⟨out', taps', n, h, hv, ha, hm, hR'⟩ := matches_of_comes hR hcomes hdecided
    cases out with
    | failed =>
      cases out' with
      | matched => cases hv
      | failed =>
        obtain ⟨c, rfl⟩ := ha
        rw [hm] at hlog
        obtain rfl := List.reverse_inj.1 (List.append_cancel_right hlog)
        exact h
    | matched v rest =>
      cases out' with
      | failed => cases hv
      | matched v' rest' =>
        cases hv
        cases ha
        rw [hm] at hlog
        obtain rfl := List.reverse_inj.1 (List.append_cancel_right hlog)
        rw [← hrest v rest rfl, hR.remaining_before h.within hR']
        exact h
  · intro h
    obtain ⟨k, n, s', -, ha, hR', hcomes⟩ := comes_of_matches hR h log
    refine ⟨_, hcomes, ?_, fun v rest ho => ?_⟩
    · cases out with
      | matched => cases ha; rfl
      | failed => obtain ⟨c, rfl⟩ := ha; rfl
    · subst ho
      cases ha
      exact hR.remaining_before h.within hR'

end Machine

open Machine

/-! ## From the beginning -/

theorem wholeOutcome_eq_answer {m : Machine Whole} {verdict : Verdict} {out : Outcome Value}
    (h : wholeOutcome m verdict = out.answer) : verdict = out.verdict ∧
      ∀ v rest, out = .matched v rest → m.source.remaining.toList = rest := by
  cases out with
  | matched v rest =>
    obtain ⟨hv, hrest⟩ := wholeOutcome_eq_ok h
    refine ⟨hv, fun v' rest' ho => ?_⟩
    cases ho
    rw [hrest, String.toList_ofList]
  | failed =>
    refine ⟨?_, fun v rest ho => nomatch ho⟩
    by_cases hm : m.source.marks = 0
    · cases verdict <;> simp [wholeOutcome, Outcome.answer, hm] at h
      rfl
    · cases verdict <;> simp [wholeOutcome, Outcome.answer, hm] at h

/-- The answers to a complete text are the outcomes of its derivations, if all rules within reach
have definitions. -/
theorem returns_parsePrefix_iff {rules : RuleBook} {p : Pattern} {input : String}
    {out : Outcome Value} {taps : List Tap} :
    Returns (parsePrefix rules · p input) ⟨out.answer, taps⟩ ↔
      (∃ held, rules.collect p = .ok held) ∧ Matches rules p none input.toList out taps := by
  constructor
  · intro h
    obtain ⟨fuel, h⟩ := h.exists
    unfold parsePrefix at h
    cases hc : rules.collect p with
    | error e =>
      obtain ⟨name, rfl⟩ := RuleBook.exists_name_of_visit hc
      rw [hc] at h
      cases out <;> cases h
    | ok held =>
      rw [hc] at h
      generalize hrun : (start p (Whole.ofString input)).run rules fuel = r at h
      obtain ⟨m, verdict⟩ := r
      simp only [Report.mk.injEq] at h
      obtain ⟨houtcome, rfl⟩ := h
      obtain ⟨rfl, hrest⟩ := wholeOutcome_eq_answer houtcome
      have hcomes := comes_of_run hrun (by cases out <;> exact nofun)
      have hlog : m.log = m.taps.reverse ++ [] := by
        rw [Machine.taps, List.reverse_reverse, List.append_nil]
      exact ⟨⟨held, rfl⟩,
        (gives_iff (Whole.represents_ofString input)).1 ⟨m, hcomes, hlog, hrest⟩⟩
  · rintro ⟨⟨held, hc⟩, h⟩
    obtain ⟨steps, hsteps⟩ := parsePrefix_of_matches h
    rw [hc] at hsteps
    exact ⟨steps, hsteps⟩

/-- A grammar is refused if and only if a rule within reach has no definition. -/
theorem parsePrefix_eq_unbound_iff {rules : RuleBook} {p : Pattern} {input name : String}
    {fuel : Nat} : (parsePrefix rules fuel p input).outcome = .error (.error (.unboundRule name)) ↔
      rules.collect p = .error (.unboundRule name) := by
  unfold parsePrefix
  cases rules.collect p with
  | error e => simp
  | ok held =>
    refine ⟨fun h => ?_, fun h => nomatch h⟩
    generalize (start p (Whole.ofString input)).run rules fuel = r at h
    obtain ⟨m, verdict⟩ := r
    by_cases hm : m.source.marks = 0
    · cases verdict <;> simp [wholeOutcome, hm] at h
    · cases verdict <;> simp [wholeOutcome, hm] at h

theorem refused_iff {rules : RuleBook} {p : Pattern} {input : String} :
    (∃ name, ∀ fuel, (parsePrefix rules fuel p input).outcome =
      .error (.error (.unboundRule name))) ↔ ¬ ∃ held, rules.collect p = .ok held := by
  simp only [parsePrefix_eq_unbound_iff, forall_const]
  constructor
  · rintro ⟨name, h⟩ ⟨held, h'⟩
    cases h.symm.trans h'
  · intro h
    cases hc : rules.collect p with
    | ok held => exact absurd ⟨held, hc⟩ h
    | error e =>
      obtain ⟨name, rfl⟩ := RuleBook.exists_name_of_visit hc
      exact ⟨name, rfl⟩

end PegStream
