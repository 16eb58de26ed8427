import PegStream.Proofs.Execution
import PegStream.Proofs.Growth
import PegStream.Proofs.Termination
import PegStream.Stream

/-!
# Streams and complete texts

A stream that is fed a text in chunks stands, after every chunk, where a match of all the text so
far stands when it has to wait or is decided (`Stream.Stands`). There is one such place for each
text, so nothing that can be seen of a stream depends on where the text was cut
(`Stream.feedAll_cut_irrelevant`), and when the text is complete the answer is that of the complete
text (`Stream.finish_eq_parse`).
-/

namespace PegStream

open Machine

/-- How the last run of a stream ended. -/
def Status.verdict : Status → Verdict
  | .undecided => .waiting
  | .matched v => .matched v
  | .failed => .failed

theorem Status.ofVerdict_eq_ok {v : Verdict} {status : Status}
    (h : Status.ofVerdict v = .ok status) : v = status.verdict := by
  cases v <;> cases h <;> rfl

@[simp] theorem Status.ofVerdict_verdict (status : Status) :
    Status.ofVerdict status.verdict = .ok status := by
  cases status <;> rfl

theorem Status.verdict_inj {a b : Status} (h : a.verdict = b.verdict) : a = b := by
  cases a <;> cases b <;> cases h <;> rfl

theorem Status.verdict_ne_waiting {a : Status} (h : a ≠ .undecided) : a.verdict ≠ .waiting := by
  cases a with
  | undecided => exact absurd rfl h
  | matched | failed => exact fun h => nomatch h

theorem Outcome.exists_status (out : Outcome Value) :
    ∃ status : Status, out.verdict = status.verdict := by
  cases out with
  | matched v rest => exact ⟨.matched v, rfl⟩
  | failed => exact ⟨.failed, rfl⟩

namespace Stream

variable {rules : RuleBook} {p : Pattern} {text more : List Char} {fuel : Nat} {chunk : String}
  {st st' : Stream} {n : Machine Tape}

/-- Feeds some chunks in order. -/
def feedAll (rules : RuleBook) (fuel : Nat) : List String → Stream → Except Failure Stream
  | [], st => .ok st
  | chunk :: chunks, st => do feedAll rules fuel chunks (← st.feed rules fuel chunk)

/-- The stream, after all of `text` has been fed to it, stands where the match of `text` on a tape
stands in the state `n`. A stream that was decided early has not kept the text that came later. -/
structure Stands (rules : RuleBook) (p : Pattern) (text : List Char) (st : Stream)
    (n : Machine Tape) : Prop where
  moves : ∃ k, Moves rules k (begin p text false) n
  machine : st.machine = n.on st.machine.source
  source : ∃ t, st.machine.source.Represents t ∧ t.Grows n.source ∧
    (st.status = .undecided → t = n.source)
  decided : st.status ≠ .undecided → n.verdict? rules = some st.status.verdict

theorem stands_start {held : List Nat} (hc : rules.collect p = .ok held) :
    Stream.start rules p = .ok ⟨.start p .empty, .undecided, held⟩ ∧
      Stands rules p [] ⟨.start p .empty, .undecided, held⟩ (begin p [] false) := by
  refine ⟨by rw [Stream.start, hc]; rfl, ⟨0, .refl _⟩, rfl, ?_, fun h => absurd rfl h⟩
  exact ⟨_, Chunked.represents_empty, .refl _, fun _ => rfl⟩

/-! ## Runs -/

/-- A run on an input received in chunks goes on along the match of the text on a tape. -/
theorem run_represented {final : Bool} {k : Nat} {s : Chunked}
    (hk : Moves rules k (begin p text final) n) (hs : s.Represents n.source) (fuel : Nat) :
    ∃ (s' : Chunked) (n' : Machine Tape) (v : Verdict) (k' : Nat),
      (n.on s).run rules fuel = (n'.on s', v) ∧ s'.Represents n'.source ∧
      Moves rules k' (begin p text final) n' ∧
      (n'.verdict? rules = some v ∨ fuel ≤ k' ∧ v = .outOfFuel) := by
  have hd := (disciplined_begin p text final).moves hk
  obtain ⟨j, hj, hv⟩ := exists_moves_of_run rules fuel n
  obtain ⟨s', hrun, hs'⟩ := Chunked.follows.run hs rules fuel fun f hf => by
    have hsettled := (hd.run rules fuel).2
    rw [hf] at hsettled
    exact hsettled
  refine ⟨s', _, _, k + j, hrun, hs', hk.trans hj, hv.imp_right fun ⟨he, ho⟩ => ⟨?_, ho⟩⟩
  omega

/-- The state of a stream, fed with more text. -/
theorem Stands.push (h : Stands rules p text st n) (hu : st.status = .undecided) (chunk : String) :
    ∃ s k, st.machine.source.push chunk = .ok s ∧
      s.Represents (n.withText (text ++ chunk.toList) false).source ∧
      st.machine.on s = (n.withText (text ++ chunk.toList) false).on s ∧
      Moves rules k (begin p (text ++ chunk.toList) false)
        (n.withText (text ++ chunk.toList) false) := by
  obtain ⟨k, hk⟩ := h.moves
  obtain ⟨t, ht, -, heq⟩ := h.source
  rw [heq hu] at ht
  have hd := (disciplined_begin p text false).moves hk
  obtain ⟨s, hpush, hs⟩ := ht.push hd.final chunk
  refine ⟨s, k, hpush, ?_, ?_, moves_of_grows hk chunk.toList false⟩
  · rw [hd.text] at hs
    have hf : n.source.final = false := hd.final
    rw [withText, on_source, ← hf]
    exact hs
  · rw [h.machine]
    rfl

/-! ## Feeding -/

theorem feed_decided (hd : st.status ≠ .undecided) (rules : RuleBook) (fuel : Nat)
    (chunk : String) : st.feed rules fuel chunk = .ok st := by
  unfold Stream.feed
  cases hs : st.status with
  | undecided => exact absurd hs hd
  | matched v => rfl
  | failed => rfl

theorem feed_undecided (hu : st.status = .undecided) {s : Chunked}
    (hs : st.machine.source.push chunk = .ok s) {m : Machine Chunked} {v : Verdict}
    (hr : (st.machine.on s).run rules fuel = (m, v)) :
    st.feed rules fuel chunk =
      (fun status => { st with machine := m, status }) <$> Status.ofVerdict v := by
  unfold Stream.feed
  rw [hu, hs]
  change (Status.ofVerdict ((st.machine.on s).run rules fuel).2 >>= fun status =>
    .ok { st with machine := ((st.machine.on s).run rules fuel).1, status }) = _
  rw [hr]
  cases Status.ofVerdict v <;> rfl

/-- A chunk brings a stream to where the match of the longer text waits or is decided. -/
theorem Stands.feed (h : Stands rules p text st n) (hf : st.feed rules fuel chunk = .ok st') :
    ∃ n', Stands rules p (text ++ chunk.toList) st' n' ∧
      n'.verdict? rules = some st'.status.verdict := by
  by_cases hu : st.status = .undecided
  · obtain ⟨s, k, hpush, hs, hm, hk⟩ := h.push hu chunk
    obtain ⟨s', n', v, k', hrun, hs', hk', hv⟩ := run_represented hk hs fuel
    rw [feed_undecided hu hpush (hm ▸ hrun)] at hf
    cases hv' : Status.ofVerdict v with
    | error e =>
      rw [hv'] at hf
      cases hf
    | ok status =>
      rw [hv'] at hf
      cases hf
      have hstatus := Status.ofVerdict_eq_ok hv'
      have hverdict : n'.verdict? rules = some status.verdict := by
        rcases hv with hv | ⟨-, ho⟩
        · rw [hv, hstatus]
        · rw [ho] at hv'
          cases hv'
      exact ⟨n', ⟨⟨k', hk'⟩, rfl, ⟨_, hs', .refl _, fun _ => rfl⟩, fun _ => hverdict⟩, hverdict⟩
  · rw [feed_decided hu] at hf
    cases hf
    obtain ⟨k, hk⟩ := h.moves
    obtain ⟨t, ht, hg, -⟩ := h.source
    have hverdict := verdict_of_grows hk (h.decided hu) (Status.verdict_ne_waiting hu) chunk.toList
      false
    refine ⟨n.withText (text ++ chunk.toList) false, ⟨⟨k, moves_of_grows hk chunk.toList false⟩,
      h.machine, ⟨t, ht, hg.trans (grows_withText hk chunk.toList false).1, fun h => absurd h hu⟩,
      fun _ => hverdict⟩, hverdict⟩

/-- Feeding goes through if the match of some longer text waits or is decided in the end and there
is fuel for its steps. -/
theorem Stands.exists_feed (h : Stands rules p text st n) {K : Nat} {e : Machine Tape}
    {final : Bool} {status : Status}
    (hm : Moves rules K (begin p (text ++ chunk.toList ++ more) final) e)
    (he : e.verdict? rules = some status.verdict) (hfuel : K < fuel) :
    ∃ st', st.feed rules fuel chunk = .ok st' := by
  by_cases hu : st.status = .undecided
  · obtain ⟨s, k, hpush, hs, hmachine, hk⟩ := h.push hu chunk
    obtain ⟨s', n', v, k', hrun, -, hk', hv⟩ := run_represented hk hs fuel
    rw [feed_undecided hu hpush (hmachine ▸ hrun)]
    have hle := moves_le hm he hk'
    rcases hv with hv | ⟨hge, -⟩
    · by_cases hw : v = .waiting
      · rw [hw]
        exact ⟨_, rfl⟩
      · rw [(decided_early hm he hk' hv hw).2, Status.ofVerdict_verdict]
        exact ⟨_, rfl⟩
    · omega
  · exact ⟨st, feed_decided hu rules fuel chunk⟩

/-- Feeding some chunks brings a stream to where the match of the longer text stands, and that match
waits or is decided there as soon as there has been a chunk. -/
theorem Stands.feedAll {chunks : List String} (h : Stands rules p text st n)
    (hf : feedAll rules fuel chunks st = .ok st') :
    ∃ n', Stands rules p (text ++ (String.join chunks).toList) st' n' ∧
      (chunks ≠ [] ∨ n.verdict? rules = some st.status.verdict →
        n'.verdict? rules = some st'.status.verdict) := by
  induction chunks generalizing text st n with
  | nil =>
    cases hf
    rw [String.join_nil, String.toList_empty, List.append_nil]
    exact ⟨n, h, fun hv => hv.resolve_left fun hne => hne rfl⟩
  | cons chunk chunks ih =>
    rw [Stream.feedAll] at hf
    cases hf₁ : st.feed rules fuel chunk with
    | error e =>
      rw [hf₁] at hf
      cases hf
    | ok st₁ =>
      rw [hf₁] at hf
      obtain ⟨n₁, h₁, hv₁⟩ := h.feed hf₁
      obtain ⟨n', h', hv'⟩ := ih h₁ hf
      rw [String.join_cons, String.toList_append, ← List.append_assoc]
      exact ⟨n', h', fun _ => hv' (.inr hv₁)⟩

theorem Stands.exists_feedAll {chunks : List String} (h : Stands rules p text st n) {K : Nat}
    {e : Machine Tape} {final : Bool} {status : Status}
    (hm : Moves rules K (begin p (text ++ (String.join chunks).toList) final) e)
    (he : e.verdict? rules = some status.verdict) (hfuel : K < fuel) :
    ∃ st', Stream.feedAll rules fuel chunks st = .ok st' := by
  induction chunks generalizing text st n with
  | nil => exact ⟨st, rfl⟩
  | cons chunk chunks ih =>
    rw [String.join_cons, String.toList_append, ← List.append_assoc] at hm
    obtain ⟨st₁, hf₁⟩ := h.exists_feed hm he hfuel
    obtain ⟨n₁, h₁, -⟩ := h.feed hf₁
    obtain ⟨st', hf'⟩ := ih h₁ hm
    refine ⟨st', ?_⟩
    rw [Stream.feedAll, hf₁]
    exact hf'

/-! ## What can be seen of a stream -/

theorem Stands.position_eq (h : Stands rules p text st n) :
    st.position = Tape.positionAt n.source.text n.source.cursor := by
  obtain ⟨t, ht, hg, -⟩ := h.source
  rw [Stream.position, ht.position, Tape.positionAt, Tape.positionAt, hg.cursor,
    hg.take ht.valid (Nat.le_refl _)]

theorem Stands.marks_eq (h : Stands rules p text st n) :
    st.machine.source.marks = n.source.records := by
  obtain ⟨t, ht, hg, -⟩ := h.source
  rw [ht.marks, hg.records ht.valid]

theorem Stands.taps_eq (h : Stands rules p text st n) : st.taps = n.taps := by
  rw [Stream.taps, h.machine]
  rfl

/-- Feeding nothing to a stream that waits changes nothing. -/
theorem Stands.feed_empty (h : Stands rules p text st n) (hu : st.status = .undecided)
    (hv : n.verdict? rules = some .waiting) (fuel : Nat) :
    st.feed rules (fuel + 1) "" = .ok st := by
  obtain ⟨k, hk⟩ := h.moves
  obtain ⟨t, ht, -, heq⟩ := h.source
  rw [heq hu] at ht
  have hd := (disciplined_begin p text false).moves hk
  have hpush : st.machine.source.push "" = .ok st.machine.source := by
    rw [Chunked.push, if_neg (by rw [ht.finished, hd.final]; exact Bool.false_ne_true)]
    rfl
  have hwait : st.machine.verdict? rules = some .waiting := by
    rw [h.machine]
    exact Chunked.follows.verdict ht hv (fun _ => trivial) fun f hf => Verdict.noConfusion hf
  rw [feed_undecided hu hpush (run_of_verdict hwait fuel)]
  obtain ⟨m, status, held⟩ := st
  cases hu
  rfl

/-- Two streams stand alike after the same text if both wait or are decided. -/
theorem Stands.seen_alike {n' : Machine Tape} (h : Stands rules p text st n)
    (hv : n.verdict? rules = some st.status.verdict) (h' : Stands rules p text st' n')
    (hv' : n'.verdict? rules = some st'.status.verdict) :
    st.status = st'.status ∧ st.position = st'.position ∧
      st.machine.source.marks = st'.machine.source.marks ∧ st.taps = st'.taps := by
  obtain ⟨k, hk⟩ := h.moves
  obtain ⟨k', hk'⟩ := h'.moves
  have hn : n = n' := hk.settled_unique hv hk' hv'
  subst hn
  have hstatus : some st.status.verdict = some st'.status.verdict := by rw [← hv, hv']
  exact ⟨Status.verdict_inj (Option.some.inj hstatus), by rw [h.position_eq, h'.position_eq],
    by rw [h.marks_eq, h'.marks_eq], by rw [h.taps_eq, h'.taps_eq]⟩

/-- What can be seen of a stream does not depend on where the text was cut: once there has been a
chunk, the status, the position, the open checkpoints and the taps are the same for all cuts of the
same text, and when one cut can be fed then so can all the others. Feeding nothing to a stream that
waits does not change it at all. And without left recursion, feeding always goes through. -/
theorem feedAll_cut_irrelevant {rules : RuleBook} {p : Pattern} {held : List Nat}
    (hc : rules.collect p = .ok held) : ∃ first, Stream.start rules p = .ok first ∧
      (∀ cs fuel st, cs ≠ [] → feedAll rules fuel cs first = .ok st →
        (∀ ds fuel' st', ds ≠ [] → String.join ds = String.join cs →
          feedAll rules fuel' ds first = .ok st' →
          st.status = st'.status ∧ st.position = st'.position ∧
            st.machine.source.marks = st'.machine.source.marks ∧ st.taps = st'.taps) ∧
        (∃ steps, ∀ fuel' > steps, ∀ ds, String.join ds = String.join cs →
          ∃ st', feedAll rules fuel' ds first = .ok st') ∧
        (st.status = .undecided → ∀ fuel', st.feed rules (fuel' + 1) "" = .ok st)) ∧
      (NotLeftRecursive rules p → ∀ text, ∃ steps, ∀ fuel > steps, ∀ cs, String.join cs = text →
        ∃ st, feedAll rules fuel cs first = .ok st) := by
  obtain ⟨hstart, h₀⟩ := stands_start hc
  refine ⟨_, hstart, fun cs fuel st hcs hf => ?_, fun hl text => ?_⟩
  · obtain ⟨n, h, hv⟩ := h₀.feedAll hf
    replace hv := hv (.inl hcs)
    refine ⟨fun ds fuel' st' hds hjoin hf' => ?_, ?_, fun hu fuel' => ?_⟩
    · obtain ⟨n', h', hv'⟩ := h₀.feedAll hf'
      rw [hjoin] at h'
      exact h.seen_alike hv h' (hv' (.inl hds))
    · obtain ⟨k, hk⟩ := h.moves
      refine ⟨k, fun fuel' hfuel ds hjoin => ?_⟩
      exact h₀.exists_feedAll (by rw [hjoin]; exact hk) hv hfuel
    · exact h.feed_empty hu (by rw [hv, hu]; rfl) fuel'
  · obtain ⟨out, taps, hm⟩ := exists_matches hc hl text.toList
    obtain ⟨K, e, hK, he⟩ := ends_of_matches hm
    obtain ⟨status, hstatus⟩ := out.exists_status
    refine ⟨K, fun fuel hfuel cs hcs => ?_⟩
    exact h₀.exists_feedAll (by rw [hcs]; exact hK) (hstatus ▸ he.verdict) hfuel

/-- Two ways to cut a text, one of them in front of an empty chunk. -/
theorem feedAll_cut_irrelevant_nested : ∃ first fuel st st',
    Stream.start Nested.rules (.rule Nested.ref) = .ok first ∧
      feedAll Nested.rules fuel ["(x", ")"] first = .ok st ∧
      feedAll Nested.rules fuel ["(", "x)", ""] first = .ok st' ∧ st.status = st'.status ∧
      st.position = st'.position ∧ st.taps = st'.taps := by
  obtain ⟨first, hstart, hsame, hfeed⟩ := feedAll_cut_irrelevant Nested.collect_eq
  obtain ⟨steps, hsteps⟩ := hfeed Nested.notLeftRecursive "(x)"
  obtain ⟨st, hst⟩ := hsteps (steps + 1) (Nat.lt_succ_self _) ["(x", ")"] (by decide)
  obtain ⟨st', hst'⟩ := hsteps (steps + 1) (Nat.lt_succ_self _) ["(", "x)", ""] (by decide)
  obtain ⟨hstatus, hpos, -, htaps⟩ := (hsame _ _ st (by simp) hst).1 _ _ st' (by simp) (by decide)
    hst'
  exact ⟨first, _, st, st', hstart, hst, hst', hstatus, hpos, htaps⟩

/-! ## Answers -/

/-- The state of a stream whose text is declared complete. -/
theorem Stands.finish (h : Stands rules p text st n) (hu : st.status = .undecided) :
    ∃ k, st.machine.source.finish.Represents (n.withText text true).source ∧
      { st.machine with source := st.machine.source.finish } =
        (n.withText text true).on st.machine.source.finish ∧
      Moves rules k (begin p text true) (n.withText text true) := by
  obtain ⟨k, hk⟩ := h.moves
  obtain ⟨t, ht, -, heq⟩ := h.source
  rw [heq hu] at ht
  have hgrows := moves_of_grows hk [] true
  rw [List.append_nil] at hgrows
  refine ⟨k, ?_, ?_, hgrows⟩
  · have hd := (disciplined_begin p text false).moves hk
    have htext : n.source.text = text := hd.text
    rw [withText, on_source, ← htext]
    exact ht.finish
  · rw [h.machine]
    rfl

/-- When the text is complete, the match ends where the match of the complete text ends. -/
theorem Stands.conclude (h : Stands rules p text st n) {K : Nat} {e : Machine Tape}
    {out : Outcome Value} (hm : Moves rules K (begin p text true) e)
    (he : e.verdict? rules = some out.verdict) (hfuel : K < fuel) :
    ∃ (s : Chunked) (t : Tape), st.conclude rules fuel = (e.on s, out.verdict) ∧
      s.Represents t ∧ t.Grows e.source := by
  by_cases hu : st.status = .undecided
  · obtain ⟨k, hs, hmachine, hk⟩ := h.finish hu
    obtain ⟨s', n', v, k', hrun, hs', hk', hv⟩ := run_represented hk hs fuel
    obtain ⟨i, hi, -⟩ := hm.cut he hk'
    have hv' : n'.verdict? rules = some v := hv.resolve_right fun ⟨hge, _⟩ => by omega
    have hn : n' = e := hk'.settled_unique hv' hm he
    subst hn
    have hvv : v = out.verdict := Option.some.inj (hv'.symm.trans he)
    refine ⟨s', n'.source, ?_, hs', .refl _⟩
    rw [Stream.conclude, hu, ← hvv]
    dsimp only
    rw [hmachine]
    exact hrun
  · obtain ⟨k, hk⟩ := h.moves
    obtain ⟨t, ht, hg, -⟩ := h.source
    rw [← List.append_nil text] at hm
    obtain ⟨hn, hv⟩ := decided_early hm he hk (h.decided hu) (Status.verdict_ne_waiting hu)
    refine ⟨st.machine.source, t, ?_, ht, hn ▸ hg.trans (grows_withText hk [] true).1⟩
    have hmachine : st.machine = e.on st.machine.source := by
      rw [← hn]
      exact h.machine
    rw [← hv, Stream.conclude]
    cases hs : st.status with
    | undecided => exact absurd hs hu
    | matched | failed => rw [← hmachine]; rfl

/-- The cursor of a match that has ended stands in front of the rest. -/
theorem cursor_of_ends {e : Machine Tape} {s : Chunked} {t : Tape} {v : Value} {rest : List Char}
    {log : List Tap} (he : Ends rules e (.matched v rest) { text, final := true } log)
    (hs : s.Represents t) (hg : t.Grows e.source) (hr : rest <:+ text) :
    s.cursor + Text.byteCount rest = Text.byteCount text := by
  have hoff : s.cursor = Text.byteCount (text.take (text.length - rest.length)) := by
    rw [hs.cursor, Tape.offsetAt, ← hg.take hs.valid (Nat.le_refl _), ← hg.cursor,
      he.rest v rest rfl, he.text]
  have hsplit := List.take_append_drop (text.length - rest.length) text
  rw [← List.suffix_iff_eq_drop.1 hr] at hsplit
  rw [hoff, ← Text.byteCount_append, hsplit]

/-- A text fed in chunks and then declared complete gets the answer of the complete text, with the
same taps: a value, or that there is no match. With a value, the cursor stands where the rest of the
text begins. Chunks that come after the decision are ignored. -/
theorem finish_eq_parse {rules : RuleBook} {p : Pattern} {held : List Nat}
    (hc : rules.collect p = .ok held) (hl : NotLeftRecursive rules p) (text : String) :
    ∃ steps, ∀ fuel > steps,
      (∀ chunks, String.join chunks = text → ∃ first last, Stream.start rules p = .ok first ∧
        feedAll rules fuel chunks first = .ok last ∧
        last.finish rules fuel = parse rules fuel p text ∧
        ((∃ v, (last.finish rules fuel).outcome = .ok v) ∨
          (last.finish rules fuel).outcome = .error (.error .noMatch)) ∧
        ∀ v rest, (parsePrefix rules fuel p text).outcome = .ok (v, rest) →
          (last.conclude rules fuel).1.source.cursor + rest.utf8ByteSize = text.utf8ByteSize) ∧
      ∀ (st : Stream) (chunk : String), st.status.isDone = true →
        st.feed rules fuel chunk = .ok st := by
  obtain ⟨out, taps, hm⟩ := exists_matches hc hl text.toList
  obtain ⟨K, e, hK, he⟩ := ends_of_matches hm
  refine ⟨K, fun fuel hfuel => ⟨fun chunks hjoin => ?_, fun st chunk hd => ?_⟩⟩
  · have hanswer := parsePrefix_of_ends hK he hm.within hfuel
    rw [hc] at hanswer
    obtain ⟨hstart, h₀⟩ := stands_start hc
    have hKjoin : Moves rules K (begin p ([] ++ (String.join chunks).toList) true) e := by
      rw [hjoin]
      exact hK
    obtain ⟨status, hstatus⟩ := out.exists_status
    obtain ⟨last, hlast⟩ := h₀.exists_feedAll hKjoin (hstatus ▸ he.verdict) hfuel
    obtain ⟨n, h, -⟩ := h₀.feedAll hlast
    rw [hjoin, List.nil_append] at h
    obtain ⟨s, t, hend, hs, hg⟩ := h.conclude hK he.verdict hfuel
    have htaps : (e.on s).taps = taps := by
      rw [Machine.taps, on_log, he.log, List.reverse_reverse]
    have hfinish : last.finish rules fuel = ⟨concluded out.verdict, taps⟩ := by
      rw [Stream.finish, hend]
      exact congrArg (Report.mk _) htaps
    refine ⟨_, last, hstart, hlast, ?_, ?_, ?_⟩
    · rw [hfinish, parse, hanswer]
      cases out <;> rfl
    · rw [hfinish]
      cases out with
      | matched v rest => exact .inl ⟨v, rfl⟩
      | failed => exact .inr rfl
    · rw [hanswer, hend]
      intro v rest hv
      cases out with
      | failed => cases hv
      | matched v rest =>
        cases hv
        rw [Text.utf8ByteSize_ofList, Text.utf8ByteSize_eq]
        exact cursor_of_ends he hs hg hm.within
  · refine feed_decided (fun hu => ?_) rules fuel chunk
    rw [hu] at hd
    cases hd

theorem finish_eq_parse_nested : ∃ fuel first last,
    Stream.start Nested.rules (.rule Nested.ref) = .ok first ∧
      feedAll Nested.rules fuel ["(", "", "x)", "y"] first = .ok last ∧
      last.finish Nested.rules fuel = parse Nested.rules fuel (.rule Nested.ref) "(x)y" := by
  obtain ⟨steps, h⟩ := finish_eq_parse Nested.collect_eq Nested.notLeftRecursive "(x)y"
  obtain ⟨first, last, hstart, hlast, hfinish, -, -⟩ := (h (steps + 1) (Nat.lt_succ_self _)).1
    ["(", "", "x)", "y"] (by decide)
  exact ⟨_, first, last, hstart, hlast, hfinish⟩

end Stream

end PegStream
