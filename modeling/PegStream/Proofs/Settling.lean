import PegStream.Proofs.Adequacy
import PegStream.Proofs.Confinement

/-!
# What a text comes to

The match of a text, complete or not, takes steps until it settles: it is decided, or it waits for
more text. The text alone determines whether and how it settles (`SettlesIn`), and every way to run
the match tells so once there is fuel for the steps: a stream that is fed, a stream that is
finished, and a match of the complete text. With all rules defined there is nothing else that a run
can come to but to run out of fuel (`Machine.not_fault`).
-/

namespace PegStream

open Machine

/-- With enough fuel, the computation gives `r`. -/
def Returns {α : Type} (f : Nat → α) (r : α) : Prop := ∃ steps, ∀ fuel > steps, f fuel = r

theorem Returns.unique {α : Type} {f : Nat → α} {r r' : α} (h : Returns f r) (h' : Returns f r') :
    r = r' := by
  obtain ⟨steps, h⟩ := h
  obtain ⟨steps', h'⟩ := h'
  rw [← h (steps + steps' + 1) (by omega), h' (steps + steps' + 1) (by omega)]

theorem Returns.exists {α : Type} {f : Nat → α} {r : α} (h : Returns f r) : ∃ fuel, f fuel = r := by
  obtain ⟨steps, h⟩ := h
  exact ⟨steps + 1, h _ (Nat.lt_succ_self _)⟩

/-- After `k` steps the match of the text is decided, or waits for more text. -/
def SettlesIn (rules : RuleBook) (p : Pattern) (text : List Char) (final : Bool) (k : Nat)
    (status : Status) : Prop :=
  ∃ n, Moves rules k (begin p text final) n ∧ n.verdict? rules = some status.verdict

/-- The answer of a decided match. -/
def Status.answer (status : Status) : Except Failure Value := Stream.concluded status.verdict

variable {rules : RuleBook} {p : Pattern} {text more : List Char} {final : Bool} {k k' fuel : Nat}
  {status status' : Status} {held : List Nat}

theorem Status.exists_outcome (h : status ≠ .undecided) :
    ∃ out : Outcome Value, out.verdict = status.verdict := by
  cases status with
  | undecided => exact absurd rfl h
  | matched v => exact ⟨.matched v [], rfl⟩
  | failed => exact ⟨.failed, rfl⟩

/-! ## Texts that settle -/

theorem SettlesIn.unique (h : SettlesIn rules p text final k status)
    (h' : SettlesIn rules p text final k' status') : status = status' := by
  obtain ⟨n, hk, hv⟩ := h
  obtain ⟨n', hk', hv'⟩ := h'
  obtain rfl := hk.settled_unique hv hk' hv'
  exact Status.verdict_inj (Option.some.inj (hv.symm.trans hv'))

/-- A decision stands whatever text is still to come. -/
theorem SettlesIn.append (h : SettlesIn rules p text false k status) (hs : status ≠ .undecided)
    (more : List Char) (final : Bool) : SettlesIn rules p (text ++ more) final k status := by
  obtain ⟨n, hk, hv⟩ := h
  exact ⟨_, moves_of_grows hk more final,
    verdict_of_grows hk hv (Status.verdict_ne_waiting hs) more final⟩

/-- A match of a complete text does not wait. -/
theorem SettlesIn.ne_undecided (h : SettlesIn rules p text true k status) :
    status ≠ .undecided := by
  rintro rfl
  obtain ⟨n, hk, hv⟩ := h
  have hd := (disciplined_begin p text true).moves hk
  have hwaits : n.source.final = false := hd.settled hv
  have hfinal : n.source.final = true := hd.final
  exact Bool.false_ne_true (hwaits.symm.trans hfinal)

/-! ## Runs without faults -/

namespace Machine

theorem plain_tape : Plain Tape where
  peek t := ofInput_ok _
  advance t := by
    change OfInput (if _ then _ else _)
    split
    · exact ofInput_ok _
    · exact ofInput_error rfl
  commit cp t := by
    change OfInput (t.commit cp)
    unfold Tape.commit
    split
    · exact ofInput_error rfl
    · split
      · exact ofInput_ok _
      · exact ofInput_error rfl
  rollback cp t := by
    change OfInput (t.rollback cp)
    unfold Tape.rollback
    split
    · exact ofInput_error rfl
    · split
      · exact ofInput_ok _
      · exact ofInput_error rfl

/-- With all rules defined, a match comes to no fault: not to one of its input, to one of a rule or
to one of a value that should be text. -/
theorem not_fault (hc : rules.collect p = .ok held) {n : Machine Tape} {f : Fault}
    (hk : Moves rules k (begin p text final) n) : n.verdict? rules ≠ some (.fault f) := by
  intro hv
  have hrun := run_eq_of_moves hk hv (Nat.lt_succ_self k)
  have hgrammar : f.ofGrammar = true := ((disciplined_begin p text final).moves hk).settled hv
  have hshaped : ((begin p text final).run rules (k + 1)).2.Suits p.shape :=
    ((shaped_enter p none _ []).run plain_tape rules (k + 1)).2
  have hclosed := (RuleBook.gathered_of_collect hc).closed
  have hconfined : Confined (rules.Reaches p) (begin p text final) :=
    ⟨⟨.root, fun q hq => nomatch hq⟩, fun frame hf => nomatch hf⟩
  have hrules := (hconfined.run plain_tape hclosed (k + 1)).2 f (by rw [hrun])
  rw [hrun] at hshaped
  cases f with
  | notText kind => exact hshaped kind rfl
  | droppedRule | undefinedRule => cases hrules
  | _ => cases hgrammar

end Machine

/-! ## More fuel -/

/-- A run that has ended takes no more fuel. -/
theorem Machine.run_mono {σ : Type} [Source σ] {m : Machine σ} {fuel' : Nat} (hle : fuel ≤ fuel')
    (h : (m.run rules fuel).2 ≠ .outOfFuel) : m.run rules fuel' = m.run rules fuel := by
  induction fuel generalizing m fuel' with
  | zero => exact absurd rfl h
  | succ fuel ih =>
    obtain ⟨fuel', rfl⟩ : ∃ n, fuel' = n + 1 := ⟨fuel' - 1, by omega⟩
    rw [run, run]
    rw [run] at h
    split
    · rfl
    · rename_i hs
      rw [hs] at h
      exact ih (by omega) h
    all_goals rfl

namespace Stream

theorem feed_mono {st : Stream} {chunk : String} {fuel' : Nat} (hle : fuel ≤ fuel')
    (h : st.feed rules fuel chunk ≠ .error .outOfFuel) :
    st.feed rules fuel' chunk = st.feed rules fuel chunk := by
  by_cases hu : st.status = .undecided
  · cases hp : st.machine.source.push chunk with
    | error f => rw [Stream.feed, Stream.feed, hu, hp]; rfl
    | ok s =>
      rw [feed_undecided hu hp rfl] at h
      rw [feed_undecided hu hp rfl, feed_undecided hu hp rfl, run_mono hle]
      intro ho
      rw [ho] at h
      exact h rfl
  · rw [feed_decided hu, feed_decided hu]

theorem finish_mono {st : Stream} {fuel' : Nat} (hle : fuel ≤ fuel')
    (h : (st.finish rules fuel).outcome ≠ .error .outOfFuel) :
    st.finish rules fuel' = st.finish rules fuel := by
  unfold Stream.finish Stream.conclude at h ⊢
  cases hs : st.status with
  | undecided =>
    rw [hs] at h
    dsimp only at h ⊢
    rw [run_mono hle]
    intro ho
    rw [ho] at h
    exact h rfl
  | matched | failed => rfl

end Stream

/-! ## Complete texts -/

/-- A complete text that settles is answered so. -/
theorem returns_parse {s : String} (hc : rules.collect p = .ok held)
    (h : SettlesIn rules p s.toList true k status) :
    Returns (fun fuel => (parse rules fuel p s).outcome) status.answer := by
  have hs := h.ne_undecided
  obtain ⟨n, hk, hv⟩ := h
  have hdecided : status.verdict.Decided := by
    cases status with
    | undecided => exact absurd rfl hs
    | matched | failed => trivial
  obtain ⟨out, taps, hm, hout, -⟩ := matches_of_moves (shows_start s.toList) hk hv hdecided
  obtain ⟨K, e, hK, he⟩ := ends_of_matches hm
  refine ⟨K, fun fuel hfuel => ?_⟩
  have hanswer := parsePrefix_of_ends hK he hm.within hfuel
  rw [hc] at hanswer
  dsimp only
  rw [parse, hanswer, Status.answer, ← hout]
  cases out <;> rfl

theorem verdict_of_wholeOutcome {m : Machine Whole} {v : Verdict} (hs : status ≠ .undecided)
    (h : (wholeOutcome m v >>= fun (w, _) => .ok w) = status.answer) : v = status.verdict := by
  cases status with
  | undecided => exact absurd rfl hs
  | matched w =>
    have hok : (wholeOutcome m v >>= fun (w, _) => .ok w) = .ok w := h
    cases ho : wholeOutcome m v with
    | error e =>
      rw [ho] at hok
      cases hok
    | ok answer =>
      rw [ho] at hok
      cases hok
      exact (wholeOutcome_eq_ok ho).1
  | failed =>
    have herr : (wholeOutcome m v >>= fun (w, _) => .ok w) = .error (.error .noMatch) := h
    by_cases hm : m.source.marks = 0
    · cases v <;> simp [wholeOutcome, hm, bind, Except.bind] at herr
      rfl
    · cases v <;> simp [wholeOutcome, hm, bind, Except.bind] at herr

/-- A value or the lack of a match is the answer to a complete text that settles so. -/
theorem settlesIn_of_parse {s : String} (hc : rules.collect p = .ok held)
    (hs : status ≠ .undecided) (h : (parse rules fuel p s).outcome = status.answer) :
    ∃ k, SettlesIn rules p s.toList true k status := by
  obtain ⟨k, hk, hv⟩ := exists_moves_of_run rules fuel (begin p s.toList true)
  obtain ⟨t, hrun, -⟩ := Whole.follows.run (n := begin p s.toList true)
    (Whole.represents_ofString s) rules fuel fun f hf => by
      have hsettled := ((disciplined_begin p s.toList true).run rules fuel).2
      rw [hf] at hsettled
      exact hsettled
  have hstart : (Machine.start p (Whole.ofString s)).run rules fuel =
      (((begin p s.toList true).run rules fuel).1.on t,
        ((begin p s.toList true).run rules fuel).2) := hrun
  unfold parse parsePrefix at h
  rw [hc, hstart] at h
  have hverdict := verdict_of_wholeOutcome hs h
  rcases hv with hv | ⟨-, hv⟩
  · exact ⟨k, _, hk, hverdict ▸ hv⟩
  · rw [hv] at hverdict
    cases status <;> cases hverdict

/-! ## Streams -/

namespace Stream

variable {st st' : Stream} {n : Machine Tape} {chunk : String}

/-- A decided stream is finished with its decision. -/
theorem finish_decided (h : st.status ≠ .undecided) (rules : RuleBook) (fuel : Nat) :
    (st.finish rules fuel).outcome = st.status.answer := by
  unfold Stream.finish Stream.conclude
  cases hs : st.status with
  | undecided => exact absurd hs h
  | matched | failed => rfl

/-- A stream that has been fed tells what the text so far comes to. -/
theorem Stands.settlesIn_feed (h : Stands rules p text st n)
    (hf : st.feed rules fuel chunk = .ok st') :
    ∃ k, SettlesIn rules p (text ++ chunk.toList) false k st'.status := by
  obtain ⟨n', h', hv⟩ := h.feed hf
  obtain ⟨k, hk⟩ := h'.moves
  exact ⟨k, n', hk, hv⟩

theorem Stands.settlesIn (h : Stands rules p text st n) (hs : st.status ≠ .undecided) :
    ∃ k, SettlesIn rules p text false k st.status := by
  obtain ⟨k, hk⟩ := h.moves
  exact ⟨k, n, hk, h.decided hs⟩

/-- A stream that cannot be fed has run out of fuel. -/
theorem Stands.feed_error (hc : rules.collect p = .ok held) (h : Stands rules p text st n)
    {e : Failure} (hf : st.feed rules fuel chunk = .error e) : e = .outOfFuel := by
  by_cases hu : st.status = .undecided
  · obtain ⟨s, k, hpush, hs, hm, hk⟩ := h.push hu chunk
    obtain ⟨s', n', v, k', hrun, -, hk', hv⟩ := run_represented hk hs fuel
    rw [feed_undecided hu hpush (hm ▸ hrun)] at hf
    cases v with
    | fault f =>
      rcases hv with hv | ⟨-, hv⟩
      · exact absurd hv (not_fault hc hk')
      · cases hv
    | outOfFuel =>
      cases hf
      rfl
    | matched | failed | waiting => cases hf
  · rw [feed_decided hu] at hf
    cases hf

/-- A stream is finished with what the complete text comes to, unless it runs out of fuel. -/
theorem Stands.finish_cases (hc : rules.collect p = .ok held) (h : Stands rules p text st n)
    (fuel : Nat) : (st.finish rules fuel).outcome = .error .outOfFuel ∨
      ∃ k status, SettlesIn rules p text true k status ∧
        (st.finish rules fuel).outcome = status.answer := by
  by_cases hu : st.status = .undecided
  · obtain ⟨k, hs, hm, hk⟩ := h.finish hu
    obtain ⟨s', n', v, k', hrun, -, hk', hv⟩ := run_represented hk hs fuel
    have hfinish : (st.finish rules fuel).outcome = concluded v := by
      unfold Stream.finish Stream.conclude
      rw [hu]
      dsimp only
      rw [hm, hrun]
    rw [hfinish]
    rcases hv with hv | ⟨-, rfl⟩
    · cases v with
      | matched w => exact .inr ⟨k', .matched w, ⟨n', hk', hv⟩, rfl⟩
      | failed => exact .inr ⟨k', .failed, ⟨n', hk', hv⟩, rfl⟩
      | waiting => exact absurd rfl (SettlesIn.ne_undecided ⟨n', hk', hv⟩)
      | fault f => exact absurd hv (not_fault hc hk')
      | outOfFuel => exact .inl rfl
    · exact .inl rfl
  · obtain ⟨k, hk⟩ := h.settlesIn hu
    have hall := hk.append hu [] true
    rw [List.append_nil] at hall
    exact .inr ⟨k, st.status, hall, finish_decided hu rules fuel⟩

/-- A stream is finished with what the complete text comes to, if there is fuel for it. -/
theorem Stands.finish_eq (h : Stands rules p text st n) (hs : SettlesIn rules p text true k status)
    (hfuel : k < fuel) : (st.finish rules fuel).outcome = status.answer := by
  obtain ⟨out, hout⟩ := Status.exists_outcome hs.ne_undecided
  obtain ⟨e, hk, hv⟩ := hs
  rw [← hout] at hv
  obtain ⟨s, t, hend, -, -⟩ := h.conclude hk hv hfuel
  rw [Stream.finish, hend, Status.answer, ← hout]

/-- A stream can be fed if the text, or a longer one, settles and there is fuel for it. -/
theorem Stands.feed_ok (h : Stands rules p text st n)
    (hs : SettlesIn rules p (text ++ chunk.toList ++ more) final k status) (hfuel : k < fuel) :
    ∃ st', st.feed rules fuel chunk = .ok st' := by
  obtain ⟨e, hk, hv⟩ := hs
  exact h.exists_feed hk hv hfuel

theorem stands_of_start {first : Stream} (h : Stream.start rules p = .ok first) :
    Stands rules p [] first (begin p [] false) := by
  cases hc : rules.collect p with
  | error e =>
    rw [Stream.start, hc] at h
    cases h
  | ok held =>
    obtain ⟨h', hst⟩ := stands_start hc
    cases h.symm.trans h'
    exact hst

/-- A stream that is fed a text at once tells what the text comes to. -/
theorem settlesIn_of_feed {first : Stream} (h : Stream.start rules p = .ok first)
    (hf : first.feed rules fuel chunk = .ok st) :
    ∃ k, SettlesIn rules p chunk.toList false k st.status :=
  (stands_of_start h).settlesIn_feed hf

theorem feed_of_settlesIn {first : Stream} (h : Stream.start rules p = .ok first)
    (hs : SettlesIn rules p chunk.toList false k status) (hfuel : k < fuel) :
    ∃ st, first.feed rules fuel chunk = .ok st ∧ st.status = status := by
  have hst := stands_of_start h
  rw [← List.append_nil chunk.toList] at hs
  obtain ⟨st, hf⟩ := hst.feed_ok hs hfuel
  rw [List.append_nil] at hs
  obtain ⟨k', hs'⟩ := hst.settlesIn_feed hf
  exact ⟨st, hf, hs'.unique hs⟩

end Stream

/-- Without left recursion, every text settles. -/
theorem exists_settlesIn (hc : rules.collect p = .ok held) (hl : NotLeftRecursive rules p)
    (text : List Char) (final : Bool) : ∃ k status, SettlesIn rules p text final k status := by
  obtain ⟨out, taps, hm⟩ := exists_matches hc hl text
  obtain ⟨k, e, hk, he⟩ := ends_of_matches hm
  obtain ⟨status, hstatus⟩ := out.exists_status
  have hs : SettlesIn rules p text true k status := ⟨e, hk, hstatus ▸ he.verdict⟩
  cases final with
  | true => exact ⟨k, status, hs⟩
  | false =>
    obtain ⟨hstart, hst⟩ := Stream.stands_start hc
    have hall : SettlesIn rules p ([] ++ (String.ofList text).toList ++ []) true k status := by
      rwa [List.nil_append, List.append_nil, String.toList_ofList]
    obtain ⟨st, hf⟩ := hst.feed_ok hall (Nat.lt_succ_self k)
    obtain ⟨k', hs'⟩ := Stream.settlesIn_of_feed hstart hf
    rw [String.toList_ofList] at hs'
    exact ⟨k', st.status, hs'⟩

end PegStream
