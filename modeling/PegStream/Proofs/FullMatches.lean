import PegStream.Proofs.Flattening

/-!
# Full matches

A pattern matches at the beginning of a text and may leave a rest. Followed by the end of the input
it matches the whole text or not at all, and nothing else about it changes:

* `matches_full_iff`: what it comes to is what the pattern comes to, less the matches that leave a
  rest (`Outcome.atEnd`);
* `Stream.Stands.not_matched`: a text that is still arriving is never known to be over;
* `full_match_iff`: both for the answers to complete texts and to texts that are fed in chunks.
-/

namespace PegStream

open Machine

variable {rules : RuleBook} {p : Pattern} {text rest : List Char} {input : String} {v : Value}
  {out out' : Outcome Value} {taps : List Tap} {fuel fuel' : Nat} {held : List Nat}

/-! ## Outcomes without a rest -/

/-- What an outcome comes to if no text may be left. -/
def Outcome.atEnd : Outcome Value → Outcome Value
  | .matched v [] => .matched v []
  | .matched _ (_ :: _) | .failed => .failed

theorem Outcome.atEnd_eq_matched_iff :
    out.atEnd = .matched v rest ↔ out = .matched v [] ∧ rest = [] := by
  match out with
  | .failed | .matched w (_ :: _) => simp [atEnd]
  | .matched w [] => simp [atEnd, eq_comm]

theorem Outcome.atEnd_eq_failed_iff :
    out.atEnd = .failed ↔ out = .failed ∨ ∃ v rest, rest ≠ [] ∧ out = .matched v rest := by
  match out with
  | .failed | .matched w [] | .matched w (_ :: _) => simp [atEnd]

theorem matches_endOfInput_iff :
    Matches rules .endOfInput none text out taps ↔ out = readEnd text ∧ taps = [] := by
  constructor
  · intro h
    cases h with
    | token hskips hread =>
      cases hskips
      cases hread
      exact ⟨rfl, rfl⟩
  · rintro ⟨rfl, rfl⟩
    exact .token .none rfl

/-- The end of the input adds nothing to the value in front of it. -/
theorem Matches.map_readEnd (h : Matches rules p none text (.matched v rest) taps) :
    (readEnd rest).map (fun w => .ofParts (p.keep v ++ Pattern.endOfInput.keep w)) =
      (Outcome.matched v rest).atEnd := by
  cases rest with
  | nil =>
    rw [readEnd, Outcome.map_matched, Pattern.keep_of_silent (p := .endOfInput) rfl,
      List.append_nil, Value.Fits.ofParts_keep h.fits]
    rfl
  | cons => rfl

/-- The end of the input demands that nothing is left, of every match and of nothing else. -/
theorem matches_full_iff : Matches rules (p >> .endOfInput) none text out taps ↔
    ∃ out', Matches rules p none text out' taps ∧ out = out'.atEnd := by
  have hsplice : p.splice .endOfInput = id := splice_eq_id (fun _ => rfl) nofun
  rw [matches_followedBy_iff, hsplice]
  simp only [Outcome.map_id, exists_eq_right', matches_pair_iff, matches_endOfInput_iff]
  constructor
  · rintro (⟨hp, rfl⟩ | ⟨v, text₁, -, taps₁, -, hp, ⟨rfl, rfl⟩, rfl, rfl⟩)
    · exact ⟨.failed, hp, rfl⟩
    · rw [List.append_nil]
      exact ⟨.matched v text₁, hp, hp.map_readEnd⟩
  · rintro ⟨out', hp, rfl⟩
    cases out' with
    | failed => exact .inl ⟨hp, rfl⟩
    | matched v text₁ =>
      exact .inr ⟨v, text₁, _, taps, _, hp, ⟨rfl, rfl⟩, hp.map_readEnd.symm,
        (List.append_nil taps).symm⟩

/-! ## Complete texts -/

theorem RuleBook.collect_full (book : RuleBook) (p : Pattern) :
    book.collect (p >> .endOfInput) = book.collect p := by
  have hend (seen : List Nat) : book.visit [.endOfInput] seen = .ok seen := by
    rw [visit_other (p := .endOfInput) book nofun]
    exact visit_nil book seen
  rw [collect_followedBy, collect, visit_sequence, collect, ← List.singleton_append, visit_append]
  cases book.visit [p] [] with
  | error e => rfl
  | ok seen => exact hend seen

theorem returns_full_iff (out : Outcome Value) :
    Returns (parsePrefix rules · (p >> .endOfInput) input) ⟨out.answer, taps⟩ ↔
      ∃ out' : Outcome Value, Returns (parsePrefix rules · p input) ⟨out'.answer, taps⟩ ∧
        out = out'.atEnd := by
  simp only [returns_parsePrefix_iff, rules.collect_full, matches_full_iff, and_assoc,
    exists_and_left]

/-- An answer to a complete text stands with more fuel. -/
theorem parsePrefix_mono (hle : fuel ≤ fuel')
    (h : (parsePrefix rules fuel p input).outcome ≠ .error .outOfFuel) :
    parsePrefix rules fuel' p input = parsePrefix rules fuel p input := by
  unfold parsePrefix at h ⊢
  cases hc : rules.collect p with
  | error e => rfl
  | ok held =>
    rw [hc] at h
    dsimp only at h ⊢
    rw [run_mono hle]
    intro ho
    rw [ho] at h
    exact h rfl

/-- The value of a text is given with some rest. -/
theorem returns_parse_ok_iff : Returns (parse rules · p input) ⟨.ok v, taps⟩ ↔
    ∃ rest, Returns (parsePrefix rules · p input) ⟨.ok (v, rest), taps⟩ := by
  constructor
  · intro h
    obtain ⟨fuel, h⟩ := h.exists
    dsimp only [parse, Report.andThen] at h
    generalize hanswer : parsePrefix rules fuel p input = r at h
    obtain ⟨answer, taps'⟩ := r
    cases answer with
    | error e => cases h
    | ok answer =>
      obtain ⟨v', rest⟩ := answer
      cases h
      refine ⟨rest, fuel, fun fuel' hfuel => ?_⟩
      dsimp only
      rw [parsePrefix_mono (Nat.le_of_lt hfuel) (by rw [hanswer]; exact nofun), hanswer]
  · rintro ⟨rest, steps, h⟩
    refine ⟨steps, fun fuel hfuel => ?_⟩
    dsimp only [parse] at h ⊢
    rw [h fuel hfuel]
    rfl

theorem returns_parse_error_iff {e : Failure} : Returns (parse rules · p input) ⟨.error e, taps⟩ ↔
    Returns (parsePrefix rules · p input) ⟨.error e, taps⟩ := by
  have hsame (fuel : Nat) : parse rules fuel p input = ⟨.error e, taps⟩ ↔
      parsePrefix rules fuel p input = ⟨.error e, taps⟩ := by
    unfold parse
    obtain ⟨answer, taps'⟩ := parsePrefix rules fuel p input
    cases answer <;> simp [Report.andThen, bind, Except.bind]
  simp only [Returns, hsame]

/-! ## Texts that are still arriving -/

/-- A stream never finds that it has the whole text: a character more would be left over. -/
theorem Stream.Stands.not_matched {st : Stream} {n : Machine Tape}
    (h : Stands rules (p >> .endOfInput) text st n) : st.status ≠ .matched v := by
  intro hs
  obtain ⟨k, hk⟩ := h.moves
  have hv := h.decided (by rw [hs]; exact nofun)
  rw [hs] at hv
  have hk' := moves_of_grows hk ['.'] true
  have hv' := verdict_of_grows hk hv nofun ['.'] true
  obtain ⟨rest, taps, hm, hsource⟩ := matches_of_matched (shows_start _) hk' hv'
  obtain ⟨out, -, hend⟩ := matches_full_iff.1 hm
  obtain ⟨-, rfl⟩ := Outcome.atEnd_eq_matched_iff.1 hend.symm
  have hcursor : n.source.cursor = (text ++ ['.']).length := congrArg Tape.cursor hsource
  have hinside := (grows_withText hk ['.'] true).2.inside
  have htext : n.source.text = text := ((disciplined_begin _ text false).moves hk).text
  rw [htext, hcursor, List.length_append, List.length_singleton] at hinside
  omega

theorem Status.isSuccess_eq_false_iff {status : Status} :
    status.isSuccess = false ↔ ∀ v, status ≠ .matched v := by
  cases status <;> simp [isSuccess]

/-! ## Answers -/

/-- The end of the input behind a pattern demands a full match and nothing else. A text has the
value `v` if and only if the pattern alone has it with no rest, and no match if and only if the
pattern alone has none or leaves a rest, each with the same taps. A text that is fed in chunks never
matches before it is declared complete; the feeding goes through wherever the pattern alone comes to
an outcome, and then the answer is that of the complete text. -/
theorem full_match_iff (hc : rules.collect p = .ok held) :
    (∀ input v taps, Returns (parse rules · (p >> .endOfInput) input) ⟨.ok v, taps⟩ ↔
      Returns (parsePrefix rules · p input) ⟨.ok (v, ""), taps⟩) ∧
    (∀ input taps,
      Returns (parse rules · (p >> .endOfInput) input) ⟨.error (.error .noMatch), taps⟩ ↔
        Returns (parsePrefix rules · p input) ⟨.error (.error .noMatch), taps⟩ ∨
        ∃ v rest, rest ≠ "" ∧ Returns (parsePrefix rules · p input) ⟨.ok (v, rest), taps⟩) ∧
    ∃ first, Stream.start rules (p >> .endOfInput) = .ok first ∧
      (∀ chunks fuel st, Stream.feedAll rules fuel chunks first = .ok st →
        st.status.isSuccess = false) ∧
      ∀ input (out : Outcome Value) taps,
        Returns (parsePrefix rules · p input) ⟨out.answer, taps⟩ →
        ∃ steps, ∀ fuel > steps, ∀ chunks, String.join chunks = input →
          ∃ last, Stream.feedAll rules fuel chunks first = .ok last ∧
            (last.finish rules fuel).outcome = out.atEnd.result := by
  have hcollect : rules.collect (p >> .endOfInput) = .ok held := by rw [rules.collect_full, hc]
  refine ⟨fun input v taps => ?_, fun input taps => ?_, ?_⟩
  · rw [returns_parse_ok_iff]
    constructor
    · rintro ⟨rest, h⟩
      rw [← rest.ofList_toList] at h
      obtain ⟨out, hout, hend⟩ := (returns_full_iff (.matched v rest.toList)).1 h
      obtain ⟨rfl, -⟩ := Outcome.atEnd_eq_matched_iff.1 hend.symm
      exact hout
    · intro h
      exact ⟨"", (returns_full_iff (.matched v [])).2 ⟨.matched v [], h, rfl⟩⟩
  · rw [returns_parse_error_iff]
    constructor
    · intro h
      obtain ⟨out, hout, hend⟩ := (returns_full_iff .failed).1 h
      rcases Outcome.atEnd_eq_failed_iff.1 hend.symm with rfl | ⟨v, rest, hrest, rfl⟩
      · exact .inl hout
      · refine .inr ⟨v, .ofList rest, ?_, hout⟩
        rwa [Ne, ← String.toList_inj, String.toList_ofList]
    · rintro (h | ⟨v, rest, hrest, h⟩)
      · exact (returns_full_iff .failed).2 ⟨.failed, h, rfl⟩
      · rw [← rest.ofList_toList] at h
        refine (returns_full_iff .failed).2 ⟨.matched v rest.toList, h, ?_⟩
        refine (Outcome.atEnd_eq_failed_iff.2 (.inr ⟨v, _, ?_, rfl⟩)).symm
        rwa [Ne, ← String.toList_inj] at hrest
  · obtain ⟨hstart, -⟩ := Stream.stands_start hcollect
    refine ⟨_, hstart, fun chunks fuel st hfed => ?_, fun input out taps h => ?_⟩
    · obtain ⟨n, hstands⟩ := Stream.exists_stands hstart hfed
      exact Status.isSuccess_eq_false_iff.2 fun v => hstands.not_matched
    · have hm := (returns_parsePrefix_iff.1 h).2
      obtain ⟨steps, hsteps⟩ := (matches_full_iff.2 ⟨out, hm, rfl⟩).answers hcollect
      refine ⟨steps, fun fuel hfuel chunks hjoin => ?_⟩
      obtain ⟨first, last, hfirst, hfed, hanswer, -⟩ := (hsteps fuel hfuel).2 chunks hjoin
      cases hstart.symm.trans hfirst
      exact ⟨last, hfed, hanswer⟩

namespace Spaced

theorem collect_letters : RuleBook.empty.collect letters = .ok [] := by
  rw [letters, RuleBook.collect_followedBy]
  simp [RuleBook.collect, RuleBook.visit_other, RuleBook.visit_nil, Pattern.children,
    Pattern.exactly]

theorem returns_letters (rest : List Char) :
    Returns (parsePrefix .empty · letters (.ofList ('x' :: 'y' :: rest)))
      ⟨.ok (.tuple [.char 'x', .char 'y'], .ofList rest), []⟩ := by
  have hletters : Matches .empty letters none ('x' :: 'y' :: rest)
      (.matched (.tuple [.char 'x', .char 'y']) rest) [] :=
    .sequence (.cons (.token .none rfl) (.cons (.token .none rfl) .nil))
  rw [← String.toList_ofList (l := 'x' :: 'y' :: rest)] at hletters
  exact returns_parsePrefix_iff.2 ⟨⟨[], collect_letters⟩, hletters⟩

end Spaced

/-- The pair of two letters is still a pair in front of the end of the input, one letter more is too
many, and the two letters alone leave a stream waiting. -/
theorem full_match_iff_letters :
    Returns (parse .empty · (Spaced.letters >> .endOfInput) "xy")
      ⟨.ok (.tuple [.char 'x', .char 'y']), []⟩ ∧
    Returns (parse .empty · (Spaced.letters >> .endOfInput) "xyz")
      ⟨.error (.error .noMatch), []⟩ ∧
    ∃ first fuel last, Stream.start .empty (Spaced.letters >> .endOfInput) = .ok first ∧
      Stream.feedAll .empty fuel ["x", "y"] first = .ok last ∧ last.status.isSuccess = false := by
  obtain ⟨hok, hnoMatch, first, hstart, hsuccess, hfeed⟩ := full_match_iff Spaced.collect_letters
  refine ⟨(hok _ _ _).2 (Spaced.returns_letters []),
    (hnoMatch _ _).2 (.inr ⟨_, "z", by decide, Spaced.returns_letters ['z']⟩), ?_⟩
  obtain ⟨steps, hsteps⟩ := hfeed "xy" (.matched (.tuple [.char 'x', .char 'y']) []) []
    (Spaced.returns_letters [])
  obtain ⟨last, hfed, -⟩ := hsteps (steps + 1) (Nat.lt_succ_self _) ["x", "y"] (by decide)
  exact ⟨first, steps + 1, last, hstart, hfed, hsuccess _ _ _ hfed⟩

end PegStream
