import PegStream.Proofs.Composition
import PegStream.Proofs.Feeding
import PegStream.Proofs.Streaming

/-!
# Decided matches have derivations

A derivation leads to a run with its outcome (`Matches.yields`). The converse holds as well: a match
that is decided has come to its outcome by a derivation. A match that is not decided yet has none,
and it may never have one, so what is said of every match is that it comes to an outcome with a
derivation, or runs into a fault, or goes on for any number of steps (`Machine.treats_going`). A
match that has been decided after some number of steps does not go on for one more.

* `Machine.matches_of_moves`: a decided match of a complete text has a derivation;
* `matches_of_parsePrefix`, `Stream.matches_of_feedAll`, `Stream.matches_of_finish`: so has every
  answer with a value, to a complete text and to a stream.
-/

namespace PegStream

namespace Machine

variable {rules : RuleBook} {n k : Nat} {m m₁ e : Machine Tape} {Q Q' : Machine Tape → Prop}
  {p : Pattern} {scope : Scope} {text : List Char} {t : Tape} {log : List Tap}
  {out : Outcome Value} {v : Verdict}

/-- The match comes to one of the states `Q`, or goes on for `n` steps, or runs into a fault. -/
def Going (rules : RuleBook) (n : Nat) (m : Machine Tape) (Q : Machine Tape → Prop) : Prop :=
  ∃ k m', Moves rules k m m' ∧ (Q m' ∨ n ≤ k ∨ ∃ f, m'.verdict? rules = some (.fault f))

theorem Going.step (hs : m.step rules = .ok (.moved m₁)) (h : Going rules n m₁ Q) :
    Going rules (n + 1) m Q := by
  obtain ⟨k, m', hk, h⟩ := h
  refine ⟨k + 1, m', .cons hs hk, h.imp_right fun h => h.imp_left fun hn => ?_⟩
  omega

theorem Going.fewer (h : Going rules (n + 1) m Q) : Going rules n m Q := by
  obtain ⟨k, m', hk, h⟩ := h
  exact ⟨k, m', hk, h.imp_right fun h => h.imp_left Nat.le_of_succ_le⟩

theorem Going.bind (h : Going rules n m Q) (hQ : ∀ m', Q m' → Going rules n m' Q') :
    Going rules n m Q' := by
  obtain ⟨k, m', hk, hq | h⟩ := h
  · obtain ⟨j, m'', hj, h⟩ := hQ m' hq
    refine ⟨k + j, m'', hk.trans hj, h.imp_right fun h => h.imp_left fun hn => ?_⟩
    omega
  · exact ⟨k, m', hk, .inr h⟩

theorem composable_going (rules : RuleBook) (n : Nat) :
    Composable rules fun _ => Going rules n where
  here hq := ⟨0, _, .refl _, .inl hq⟩
  more _ h := h
  step hs h := (Going.step hs h).fewer
  bind := Going.bind

/-- A match that enters a pattern goes as the state goes that it enters, if there is one. -/
theorem Enters.going (h : Enters rules (fun _ => Going rules n) k p scope text) :
    Treats rules (fun _ => Going rules (n + 1)) 0 p scope text := by
  intro t stack log ht
  rcases exists_entered rules p scope stack t log with ⟨m₁, he, hs⟩ | ⟨ref, f, -, -, hf⟩
  · exact Going.step hs (h t stack log m₁ ht he)
  · exact ⟨0, _, .refl _, .inr (.inr ⟨f, hf⟩)⟩

/-- Whatever pattern is entered on a complete text, the match goes towards an outcome for which
there is a derivation. -/
theorem treats_going (rules : RuleBook) (n : Nat) (p : Pattern) (scope : Scope)
    (text : List Char) : Treats rules (fun _ => Going rules n) 0 p scope text := by
  -- The induction is on the steps, since a grammar that never reads has no other measure.
  induction n generalizing p scope text with
  | zero => exact fun t stack log _ => ⟨0, _, .refl _, .inr (.inl (Nat.le_refl 0))⟩
  | succ n ih =>
    have C := composable_going rules n
    by_cases hp : ∃ ref, p = .rule ref
    · obtain ⟨ref, rfl⟩ := hp
      exact (enters_rule C fun d _ => ih d scope text).going
    · obtain ⟨b, hb⟩ := enters_of_parts C (fun ref he => hp ⟨ref, he⟩)
        (fun q s _ text' _ => ih q s text') fun q s _ text' _ => ih q s text'
      exact (hb text rfl).going

/-- A decided match of a complete text has come to its outcome by a derivation. -/
theorem matches_of_moves (ht : t.Shows text)
    (hk : Moves rules k ⟨.enter p scope, [], t, log⟩ e) (hv : e.verdict? rules = some v)
    (hd : v.Decided) : ∃ out taps, Matches rules p scope text out taps ∧ out.verdict = v ∧
      Arrived out [] t (taps.reverse ++ log) e := by
  obtain ⟨j, m, hj, h⟩ := treats_going rules (k + 1) p scope text t [] log ht
  obtain ⟨i, hi, -⟩ := hk.cut hv hj
  rcases h with ⟨out, taps, hm, ha⟩ | hlong | ⟨f, hf⟩
  · obtain rfl := hk.settled_unique hv hj ha.verdict
    exact ⟨out, taps, hm, Option.some.inj (ha.verdict.symm.trans hv), ha⟩
  · omega
  · obtain rfl := hk.settled_unique hv hj hf
    cases Option.some.inj (hf.symm.trans hv)
    exact hd.elim

/-- The derivation behind a value. -/
theorem matches_of_matched {w : Value} (ht : t.Shows text)
    (hk : Moves rules k ⟨.enter p scope, [], t, log⟩ e)
    (hv : e.verdict? rules = some (.matched w)) :
    ∃ rest taps, Matches rules p scope text (.matched w rest) taps ∧
      e.source = t.before rest := by
  obtain ⟨out, taps, hm, ho, ha⟩ := matches_of_moves ht hk hv trivial
  cases out with
  | failed => cases ho
  | matched w' rest =>
    cases ho
    exact ⟨rest, taps, hm, congrArg Machine.source ha⟩

end Machine

open Machine

variable {rules : RuleBook} {fuel : Nat} {p : Pattern} {v : Value}

/-! ## Complete texts -/

theorem wholeOutcome_eq_ok {m : Machine Whole} {verdict : Verdict} {rest : String}
    (h : wholeOutcome m verdict = .ok (v, rest)) :
    verdict = .matched v ∧ m.source.remaining = rest := by
  by_cases hm : m.source.marks = 0
  · cases verdict with
    | matched w => simpa [wholeOutcome, hm] using h
    | failed | waiting => simp [wholeOutcome, hm] at h
    | fault | outOfFuel => cases h
  · cases verdict <;> simp [wholeOutcome, hm] at h

/-- A value and a rest that are the answer to a complete text come from a derivation. -/
theorem matches_of_parsePrefix {input rest : String}
    (h : (parsePrefix rules fuel p input).outcome = .ok (v, rest)) :
    ∃ taps, Matches rules p none input.toList (.matched v rest.toList) taps := by
  have hd := disciplined_begin p input.toList true
  obtain ⟨k, hk, hv⟩ := exists_moves_of_run rules fuel (begin p input.toList true)
  obtain ⟨s, hrun, hs⟩ := Whole.follows.run (n := begin p input.toList true)
    (Whole.represents_ofString input) rules fuel fun f hf => by
      have hsettled := (hd.run rules fuel).2
      rw [hf] at hsettled
      exact hsettled
  generalize (begin p input.toList true).run rules fuel = r at hk hv hrun hs
  obtain ⟨e, verdict⟩ := r
  have hstart : Machine.start p (Whole.ofString input) =
      (begin p input.toList true).on (Whole.ofString input) := rfl
  unfold parsePrefix at h
  rw [hstart, hrun] at h
  cases hc : rules.collect p with
  | error f =>
    rw [hc] at h
    cases h
  | ok held =>
    rw [hc] at h
    have hanswer : verdict = .matched v ∧ s.remaining = rest := wholeOutcome_eq_ok h
    obtain ⟨rfl, hrest⟩ := hanswer
    have hv' := hv.resolve_right fun ⟨_, ho⟩ => nomatch ho
    obtain ⟨text', taps, hm, hsource⟩ := matches_of_matched (shows_start input.toList) hk hv'
    have htext : rest.toList = text' := by
      rw [← hrest, hs.remaining, hsource, ((shows_start input.toList).move hm.within).rest,
        String.toList_ofList]
    rw [htext]
    exact ⟨taps, hm⟩

/-! ## Streams -/

namespace Stream

variable {text : List Char} {st first : Stream} {n : Machine Tape} {chunks : List String}

/-- The derivation behind the value of a match that a stream has got to. -/
theorem matches_of_begin {final : Bool} {k : Nat} (hk : Moves rules k (begin p text final) n)
    (hv : n.verdict? rules = some (.matched v)) :
    ∃ rest taps, Matches rules p none text (.matched v rest) taps := by
  cases final with
  | true =>
    obtain ⟨rest, taps, hm, -⟩ := matches_of_matched (shows_start text) hk hv
    exact ⟨rest, taps, hm⟩
  | false =>
    have hk' := moves_of_grows hk [] true
    have hv' := verdict_of_grows hk hv (fun hw => nomatch hw) [] true
    rw [List.append_nil] at hk' hv'
    obtain ⟨rest, taps, hm, -⟩ := matches_of_matched (shows_start text) hk' hv'
    exact ⟨rest, taps, hm⟩

theorem Stands.matches (h : Stands rules p text st n) (hs : st.status = .matched v) :
    ∃ rest taps, Matches rules p none text (.matched v rest) taps := by
  obtain ⟨k, hk⟩ := h.moves
  have hv := h.decided (by rw [hs]; exact fun hu => nomatch hu)
  rw [hs] at hv
  exact matches_of_begin hk hv

theorem Stands.matches_of_conclude (h : Stands rules p text st n)
    (hc : (st.conclude rules fuel).2 = .matched v) :
    ∃ rest taps, Matches rules p none text (.matched v rest) taps := by
  cases hs : st.status with
  | matched w =>
    rw [Stream.conclude, hs] at hc
    cases hc
    exact h.matches hs
  | failed =>
    rw [Stream.conclude, hs] at hc
    cases hc
  | undecided =>
    obtain ⟨k, hrep, hmachine, hk⟩ := h.finish hs
    obtain ⟨s', n', v', k', hrun, -, hk', hv⟩ := run_represented hk hrep fuel
    rw [Stream.conclude, hs] at hc
    dsimp only at hc
    rw [hmachine, hrun] at hc
    dsimp only at hc
    subst hc
    rcases hv with hv | ⟨-, ho⟩
    · exact matches_of_begin hk' hv
    · cases ho

theorem exists_stands (hs : Stream.start rules p = .ok first)
    (hf : feedAll rules fuel chunks first = .ok st) :
    ∃ n, Stands rules p (String.join chunks).toList st n := by
  cases hc : rules.collect p with
  | error e =>
    rw [Stream.start, hc] at hs
    cases hs
  | ok held =>
    obtain ⟨hstart, h₀⟩ := stands_start hc
    rw [hs] at hstart
    cases hstart
    obtain ⟨n, h, -⟩ := h₀.feedAll hf
    exact ⟨n, h⟩

theorem concluded_eq_ok {verdict : Verdict} (h : concluded verdict = .ok v) :
    verdict = .matched v := by
  cases verdict <;> cases h
  rfl

/-- A stream that has matched has its value from a derivation on the text fed so far. -/
theorem matches_of_feedAll (hs : Stream.start rules p = .ok first)
    (hf : feedAll rules fuel chunks first = .ok st) (hv : st.status = .matched v) :
    ∃ rest taps, Matches rules p none (String.join chunks).toList (.matched v rest) taps := by
  obtain ⟨n, h⟩ := exists_stands hs hf
  exact h.matches hv

/-- A value that is the answer to a stream comes from a derivation on all the text. -/
theorem matches_of_finish (hs : Stream.start rules p = .ok first)
    (hf : feedAll rules fuel chunks first = .ok st)
    (hv : (st.finish rules fuel).outcome = .ok v) :
    ∃ rest taps, Matches rules p none (String.join chunks).toList (.matched v rest) taps := by
  obtain ⟨n, h⟩ := exists_stands hs hf
  change concluded (st.conclude rules fuel).2 = .ok v at hv
  exact h.matches_of_conclude (concluded_eq_ok hv)

end Stream

end PegStream
