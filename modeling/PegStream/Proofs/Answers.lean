import PegStream.Proofs.Delivery

/-!
# The answers of pipelines

What a pipeline answers is said by the bytes that its reader delivers. If they are the encoding of
a text, it is the answer of the complete text (`Pipeline.reader_agrees_with_parse`). If they are
not, the pipeline finds the byte at which the text ends, or else gives the answer that the text
before it decides (`Pipeline.answers_on_invalid`). Which of the two it is can depend on how the
bytes are cut, and nothing else can (`Pipeline.answers_of_deliveries`).
-/

namespace PegStream

open Machine

namespace Pipeline

/-! ## Agreement with complete texts -/

section

variable {p : Pipeline} {rules : RuleBook} {fuel : Nat} {script : Script} {bytes : List UInt8}
  {held : List Nat} {q : Pattern}

theorem mapError_answer_inj {status status' : Status}
    (h : (status.answer.mapError Failure.parse) = status'.answer.mapError Failure.parse) :
    status = status' := by
  cases status <;> cases status' <;> cases h <;> rfl

theorem mapError_answer_ne (status : Status) :
    status.answer.mapError Failure.parse ≠ .error (.parse .outOfFuel) := by
  cases status <;> exact fun h => nomatch h

/-- The computation gives the answer of the complete text: the same value, or that there is no
match. It does give an answer if there is no left recursion. -/
structure Agrees (rules : RuleBook) (q : Pattern) (s : String)
    (f : Nat → Except Failure Value) : Prop where
  value : ∀ v, Returns f (.ok v) ↔ Returns (fun fuel => (parse rules fuel q s).outcome) (.ok v)
  noMatch : Returns f (.error (.parse (.error .noMatch))) ↔
    Returns (fun fuel => (parse rules fuel q s).outcome) (.error (.error .noMatch))
  total : NotLeftRecursive rules q →
    (∃ v, Returns f (.ok v)) ∨ Returns f (.error (.parse (.error .noMatch)))

variable {s : String} {f : Nat → Except Failure Value} {status : Status}

theorem returns_of_answered (h : ∀ fuel, Answered rules q s.toList fuel (f fuel)) {k : Nat}
    (hs : SettlesIn rules q s.toList true k status) :
    Returns f (status.answer.mapError .parse) := by
  refine ⟨k, fun fuel hfuel => ?_⟩
  rcases h fuel with ⟨k', status', hs', ho⟩ | ⟨-, hspent⟩
  · rw [ho, hs.unique hs']
  · have := hspent k status hs
    omega

theorem returns_iff (hc : rules.collect q = .ok held)
    (h : ∀ fuel, Answered rules q s.toList fuel (f fuel)) (hne : status ≠ .undecided) :
    Returns f (status.answer.mapError .parse) ↔
      Returns (fun fuel => (parse rules fuel q s).outcome) status.answer := by
  constructor
  · intro hf
    obtain ⟨fuel, hf⟩ := hf.exists
    rcases h fuel with ⟨k, status', hs, ho⟩ | ⟨ho, -⟩
    · obtain rfl := mapError_answer_inj (hf.symm.trans ho)
      exact returns_parse hc hs
    · exact absurd (hf.symm.trans ho) (mapError_answer_ne status)
  · intro hparse
    obtain ⟨fuel, hparse⟩ := hparse.exists
    obtain ⟨k, hs⟩ := settlesIn_of_parse hc hne hparse
    exact returns_of_answered h hs

theorem agrees_of_answered (hc : rules.collect q = .ok held)
    (h : ∀ fuel, Answered rules q s.toList fuel (f fuel)) : Agrees rules q s f where
  value v := returns_iff hc h (Status.noConfusion : Status.matched v ≠ .undecided)
  noMatch := returns_iff hc h (Status.noConfusion : Status.failed ≠ .undecided)
  total hl := by
    obtain ⟨k, status, hs⟩ := exists_settlesIn hc hl s.toList true
    have hf := returns_of_answered h hs
    have hne := hs.ne_undecided
    cases status with
    | undecided => exact absurd rfl hne
    | matched v => exact .inl ⟨v, hf⟩
    | failed => exact .inr hf

/-- Over bytes that are the encoding of a text, a pipeline comes to what the text comes to. -/
theorem answered_runReader (hc : rules.collect p.pattern = .ok held)
    (hp : p.capacity ≤ maxCapacity) {s : String} (h : script.Delivers (Utf8.encode s))
    (fuel : Nat) :
    Answered rules p.pattern s.toList fuel (p.runReader rules fuel script).outcome := by
  have ha := (fate_runReader hc hp h fuel).answered (by rw [Utf8.decode_encode])
  rwa [Utf8.text_encode] at ha

theorem answered_runChunks (hc : rules.collect p.pattern = .ok held) (fuel : Nat)
    (chunks : List String) :
    Answered rules p.pattern (String.join chunks).toList fuel
      (p.runChunks rules fuel chunks).outcome := by
  obtain ⟨hstart, hst⟩ := Stream.stands_start hc
  rw [runChunks, hstart]
  exact answered_feedChunks hc hst chunks

/-- A run that is over while the bytes are text has decided the match. -/
theorem Halts.settled {outcome : Except Failure Value} (h : Halts rules q fuel bytes outcome)
    (hvalid : (Utf8.decode bytes).valid = true) {k : Nat} {status : Status}
    (hs : SettlesIn rules q (Utf8.text bytes).toList false k status) (hfuel : k < fuel) :
    status ≠ .undecided ∧ outcome = status.answer.mapError .parse := by
  cases h with
  | decided hs' hne =>
    obtain rfl := hs.unique hs'
    exact ⟨hne, rfl⟩
  | invalid hv => exact absurd (hvalid.symm.trans hv) (by simp)
  | spent hspent =>
    have := hspent [] false k status (by rwa [List.append_nil])
    omega

/-- A pipeline stops reading as soon as the match is decided: the run does not depend on what the
reader would do next, and has not asked it. -/
theorem stops_when_decided (hc : rules.collect p.pattern = .ok held)
    (hp : p.capacity ≤ maxCapacity) (hbefore : script.Delivers bytes) (hne : bytes ≠ [])
    (hvalid : (Utf8.decode bytes).valid = true) {k : Nat} {status : Status}
    (hs : SettlesIn rules p.pattern (Utf8.text bytes).toList false k status)
    (hstatus : status ≠ .undecided) (hfuel : k < fuel) :
    ∃ r : Run, r.outcome = status.answer.mapError .parse ∧
      (script.Fits p.capacity → r.pulls ≤ script.length) ∧
      ∀ after, p.runReader rules fuel (script ++ after) = r := by
  obtain ⟨-, hpending⟩ := pending_start hc
  simp only [runReader_eq hc hp]
  rcases hpending.drain hc hbefore p fuel 0 0 with
    ⟨-, r, hr, hpulls, hrun⟩ | ⟨d', st', pulls', count', h', -⟩
  · rw [List.nil_append] at hr
    exact ⟨r, (hr.settled hvalid hs hfuel).2, fun hf => Nat.zero_add script.length ▸ hpulls hf,
      hrun⟩
  · obtain ⟨k', hs'⟩ := h'.waits hne
    exact absurd (hs.unique hs') hstatus

/-- A reader that fails while the match waits ends the run. -/
theorem outcome_of_failed (hc : rules.collect p.pattern = .ok held)
    (hp : p.capacity ≤ maxCapacity) (hbefore : script.Delivers bytes)
    (hvalid : (Utf8.decode bytes).valid = true)
    (hs : bytes = [] ∨
      ∃ k < fuel, SettlesIn rules p.pattern (Utf8.text bytes).toList false k .undecided)
    (message : String) (after : Script) :
    (p.runReader rules fuel (script ++ .failed message :: after)).outcome =
      .error (.read message) := by
  obtain ⟨-, hpending⟩ := pending_start hc
  rw [runReader_eq hc hp]
  rcases hpending.drain hc hbefore p fuel 0 0 with
    ⟨hne, r, hr, -, -⟩ | ⟨d', st', pulls', count', -, hrun⟩
  · obtain ⟨k, hfuel, hs⟩ := hs.resolve_left hne
    exact absurd rfl (hr.settled hvalid hs hfuel).1
  · rw [hrun, pump_failed rfl]
    rfl

/-- A pipeline whose buffer no memory can hold does not read. -/
theorem runReader_oversized (hc : rules.collect p.pattern = .ok held)
    (hp : maxCapacity < p.capacity) (fuel : Nat) (script : Script) :
    (p.runReader rules fuel script).outcome = .error (.parse (.fault .bufferTooLarge)) := by
  rw [runReader, (Stream.stands_start hc).1]
  exact congrArg Run.outcome (if_pos hp)

end

/-- Over a reader that delivers a text, and over the text in chunks, a pipeline gives the answer of
the complete text, wherever the bytes or the chunks are cut. When the bytes delivered so far hold a
text that decides the match, the run is over, and does not depend on what the reader would do next:
nothing more is read. A reader that fails while the match waits ends the run with its failure. -/
theorem reader_agrees_with_parse {p : Pipeline} {rules : RuleBook} {held : List Nat}
    (hc : rules.collect p.pattern = .ok held) (s : String) :
    (∀ chunks, String.join chunks = s →
      Agrees rules p.pattern s fun fuel => (p.runChunks rules fuel chunks).outcome) ∧
    (p.capacity ≤ maxCapacity →
      (∀ script : Script, script.Delivers (Utf8.encode s) →
        Agrees rules p.pattern s fun fuel => (p.runReader rules fuel script).outcome) ∧
      ∀ (before : Script) bytes v first, before.Delivers bytes → bytes <+: Utf8.encode s →
        Utf8.LongestText bytes v → Stream.start rules p.pattern = .ok first →
        (∀ fuel st, bytes ≠ [] → first.feed rules fuel v = .ok st → st.status ≠ .undecided →
          ∃ steps, ∀ fuel > steps, ∃ run : Run,
            run.outcome = (st.finish rules fuel).outcome.mapError .parse ∧
            (before.Fits p.capacity → run.pulls ≤ before.length) ∧
            ∀ after, p.runReader rules fuel (before ++ after) = run) ∧
        (bytes = [] ∨ (∃ fuel st, first.feed rules fuel v = .ok st ∧ st.status = .undecided) →
          ∀ message after, Returns (fun fuel => (p.runReader rules fuel
            (before ++ .failed message :: after)).outcome) (.error (.read message)))) := by
  refine ⟨fun chunks hjoin => agrees_of_answered hc fun fuel => ?_, fun hp =>
    ⟨fun script h => agrees_of_answered hc (answered_runReader hc hp h), ?_⟩⟩
  · rw [← hjoin]
    exact answered_runChunks hc fuel chunks
  intro before bytes v first hbefore hbytes hv hstart
  have hvalid := Utf8.valid_of_begins hbytes
  obtain rfl := Utf8.longestText_iff.1 hv
  refine ⟨fun fuel₀ st hne hf hst => ?_, fun hs message after => ?_⟩
  · obtain ⟨k, hs⟩ := Stream.settlesIn_of_feed hstart hf
    refine ⟨k, fun fuel hfuel => ?_⟩
    rw [Stream.finish_decided hst]
    exact stops_when_decided hc hp hbefore hne hvalid hs hst hfuel
  · rcases hs with hnil | ⟨fuel₀, st, hf, hst⟩
    · exact ⟨0, fun fuel _ => outcome_of_failed hc hp hbefore hvalid (.inl hnil) message after⟩
    · obtain ⟨k, hs⟩ := Stream.settlesIn_of_feed hstart hf
      rw [hst] at hs
      exact ⟨k, fun fuel hfuel =>
        outcome_of_failed hc hp hbefore hvalid (.inr ⟨k, hfuel, hs⟩) message after⟩

/-! ### A single character -/

theorem collect_exactly (c : Char) : RuleBook.empty.collect (.exactly c) = .ok [] := by
  simp [RuleBook.collect, RuleBook.visit_other, RuleBook.visit_nil, Pattern.children,
    Pattern.exactly]

/-- A pattern for one character is decided as soon as the character is there. -/
theorem settlesIn_exactly (c : Char) (rest : List Char) (final : Bool) :
    SettlesIn .empty (.exactly c) (c :: rest) final 2 (.matched (.char c)) := by
  let t : Tape := { text := c :: rest, final }
  have hc : (CharClass.single c).contains c = true := beq_self_eq_true c
  have hscan : Machine.step .empty ⟨.scan (.char (.single c)), [], t, []⟩ =
      .ok (.moved ⟨.matched (.char c), [], { t with cursor := 1 }, []⟩) := by
    change (if (CharClass.single c).contains c then _ else _) = _
    rw [if_pos hc]
    rfl
  exact ⟨_, .cons rfl (.cons hscan (.refl _)), rfl⟩

theorem settlesIn_exactly_nil (c : Char) :
    SettlesIn .empty (.exactly c) [] false 1 .undecided :=
  ⟨_, .cons rfl (.refl _), rfl⟩

/-- A pipeline that reads a letter of two bytes, one at a time. -/
def acute : Pipeline := .ofChunkSize (.exactly 'é') 1

theorem encode_acute : Utf8.encode "é" = [0xC3, 0xA9] := by decide

theorem delivers_acute :
    Script.Delivers [.data [0xC3], .interrupted, .data [0xA9]] (Utf8.encode "é") := by
  rw [encode_acute]
  exact .data (by simp) (.interrupted (.data (by simp) .nil))

/-- The first of the two bytes alone. -/
theorem decode_cut : Utf8.decode [0xC3] = ⟨[], [0xC3], true⟩ := Utf8.decode_of_incomplete rfl

theorem longestText_cut : Utf8.LongestText [0xC3] "" := by
  rw [Utf8.longestText_iff, Utf8.text, decode_cut]

theorem delivers_cut : Script.Delivers [.data [0xC3]] [0xC3] := .data (by simp) .nil

/-- The letter arrives in two reads with an interruption between them; a failure after the second
read is not noticed, and one after the first read is the answer. -/
theorem reader_agrees_with_parse_acute :
    Agrees .empty (.exactly 'é') "é" (fun fuel => (acute.runReader .empty fuel
      [.data [0xC3], .interrupted, .data [0xA9]]).outcome) ∧
    Returns (fun fuel => (acute.runReader .empty fuel
      [.data [0xC3], .interrupted, .data [0xA9], .failed "gone"]).outcome) (.ok (.char 'é')) ∧
    Returns (fun fuel => (acute.runReader .empty fuel
      [.data [0xC3], .failed "gone"]).outcome) (.error (.read "gone")) := by
  have hp : acute.capacity ≤ maxCapacity := by decide
  obtain ⟨-, hreader⟩ := reader_agrees_with_parse (p := acute) (collect_exactly 'é') "é"
  obtain ⟨hagrees, hpartial⟩ := hreader hp
  obtain ⟨hstart, -⟩ := Stream.stands_start (collect_exactly 'é')
  refine ⟨hagrees _ delivers_acute, ?_, ?_⟩
  · have hs : SettlesIn .empty (.exactly 'é') "é".toList false 2 (.matched (.char 'é')) :=
      settlesIn_exactly 'é' [] false
    obtain ⟨st, hf, hst⟩ := Stream.feed_of_settlesIn hstart hs (Nat.lt_succ_self 2)
    have hne : st.status ≠ .undecided := by
      rw [hst]
      exact fun h => nomatch h
    have hlongest : Utf8.LongestText (Utf8.encode "é") "é" :=
      Utf8.longestText_iff.2 (Utf8.text_encode "é").symm
    obtain ⟨steps, hsteps⟩ := (hpartial _ _ _ _ delivers_acute List.prefix_rfl hlongest
      hstart).1 _ st (by rw [encode_acute]; simp) hf hne
    refine ⟨steps, fun fuel hfuel => ?_⟩
    obtain ⟨run, hrun, -, hafter⟩ := hsteps fuel hfuel
    have hscript := hafter [.failed "gone"]
    rw [Stream.finish_decided hne, hst] at hrun
    exact (congrArg Run.outcome hscript).trans hrun
  · have hs : SettlesIn .empty (.exactly 'é') "".toList false 1 .undecided :=
      settlesIn_exactly_nil 'é'
    obtain ⟨st, hf, hst⟩ := Stream.feed_of_settlesIn hstart hs (Nat.lt_succ_self 1)
    have hbegins : [0xC3] <+: Utf8.encode "é" := by
      rw [encode_acute]
      exact ⟨[0xA9], rfl⟩
    exact (hpartial _ _ _ _ delivers_cut hbegins longestText_cut hstart).2 (.inr ⟨_, st, hf, hst⟩)
      "gone" []

/-- No buffer holds as many bytes as half the addresses there are, so a pipeline that asks for as
many does not get to read a letter. -/
theorem reader_agrees_with_parse_oversized :
    Script.Delivers [.data [0x61]] (Utf8.encode "a") ∧
    Returns (fun fuel => (parse .empty fuel (.exactly 'a') "a").outcome) (.ok (.char 'a')) ∧
    ∀ fuel, ((ofChunkSize (.exactly 'a') 0x8000000000000000).runReader .empty fuel
      [.data [0x61]]).outcome = .error (.parse (.fault .bufferTooLarge)) := by
  have hencode : Utf8.encode "a" = [0x61] := by decide
  refine ⟨?_, ?_, fun fuel => ?_⟩
  · rw [hencode]
    exact .data (by simp) .nil
  · have hs : SettlesIn .empty (.exactly 'a') "a".toList true 2 (.matched (.char 'a')) :=
      settlesIn_exactly 'a' [] true
    exact returns_parse (collect_exactly 'a') hs
  · exact runReader_oversized (collect_exactly 'a') (by decide) fuel _

/-! ## Bytes that are no text -/

section

variable {p : Pipeline} {rules : RuleBook} {fuel : Nat} {script : Script} {bytes : List UInt8}
  {held : List Nat}

/-- Where the text before the first byte that is none settles, there is an answer. -/
theorem outcome_of_settlesIn (hc : rules.collect p.pattern = .ok held)
    (hp : p.capacity ≤ maxCapacity) (h : script.Delivers bytes)
    (hrest : (Utf8.decode bytes).rest ≠ []) {k : Nat} {status : Status}
    (hs : SettlesIn rules p.pattern (Utf8.text bytes).toList false k status) (hfuel : k < fuel) :
    (p.runReader rules fuel script).outcome =
        .error (.invalidUtf8 (Utf8.text bytes).utf8ByteSize) ∨
      status ≠ .undecided ∧
        (p.runReader rules fuel script).outcome = status.answer.mapError .parse := by
  rcases (fate_runReader hc hp h fuel).cases hrest with
    ⟨-, hspent⟩ | ⟨ho, -⟩ | ⟨k', status', hs', hne, ho⟩
  · have := hspent k status hs
    omega
  · exact .inl ho
  · obtain rfl := hs.unique hs'
    exact .inr ⟨hne, ho⟩

theorem exists_returns (hc : rules.collect p.pattern = .ok held) (hp : p.capacity ≤ maxCapacity)
    (h : script.Delivers bytes) (hrest : (Utf8.decode bytes).rest ≠ []) {k : Nat}
    {status : Status}
    (hs : SettlesIn rules p.pattern (Utf8.text bytes).toList false k status) :
    ∃ r, r ≠ .error (.parse .outOfFuel) ∧
      Returns (fun fuel => (p.runReader rules fuel script).outcome) r := by
  have hne : (p.runReader rules (k + 1) script).outcome ≠ .error (.parse .outOfFuel) := by
    rcases outcome_of_settlesIn hc hp h hrest hs (Nat.lt_succ_self k) with ho | ⟨-, ho⟩
    · rw [ho]
      exact fun hf => nomatch hf
    · rw [ho]
      exact mapError_answer_ne status
  exact ⟨_, hne, returns_runReader rfl hne⟩

end

theorem decode_letter : Utf8.decode [0x61, 0xFF] = ⟨['a'], [0xFF], false⟩ := by
  have hhead : Utf8.head [0x61, 0xFF] = .char 'a' [0xFF] := rfl
  rw [Utf8.decode_of_char hhead, Utf8.decode_of_invalid rfl]

namespace Loop

/-- A rule that stands for itself. -/
def ref : RuleRef := ⟨0, "loop"⟩

def rules : RuleBook := { cells := [⟨0, "loop", some (.rule ref)⟩], next := 1 }

theorem collect_eq : rules.collect (.rule ref) = .ok [0] := by
  have hfind : rules.find? 0 = some ⟨0, "loop", some (.rule ref)⟩ := rfl
  simp [RuleBook.collect, RuleBook.visit_rule, RuleBook.visit_nil, ref, hfind]

end Loop

section

variable {p : Pipeline} {rules : RuleBook} {fuel : Nat} {script : Script} {bytes : List UInt8}
  {held : List Nat} {q : Pattern}

/-- Where no bytes that are no text follow a text that decides the match, the bytes determine the
answer. -/
theorem Fate.determined {r : Except Failure Value} (h : Fate rules q fuel bytes r)
    (hr : r ≠ .error (.parse .outOfFuel)) (hbytes : (Utf8.decode bytes).valid = true ∨
      ∃ k, SettlesIn rules q (Utf8.text bytes).toList false k .undecided) :
    ∃ steps, ∀ fuel > steps, ∀ r', Fate rules q fuel bytes r' → r' = r := by
  by_cases hrest : (Utf8.decode bytes).rest = []
  · obtain ⟨k, status, hs, rfl⟩ := (h.answered hrest).resolve_right fun ho => hr ho.1
    refine ⟨k, fun fuel hfuel r' h' => ?_⟩
    rcases h'.answered hrest with ⟨k', status', hs', rfl⟩ | ⟨-, hspent⟩
    · rw [hs.unique hs']
    · have := hspent k status hs
      omega
  · -- A byte that is no text is found where the match waits only.
    have hwaits (hcause : (Utf8.decode bytes).valid = false ∨
        ∃ k, SettlesIn rules q (Utf8.text bytes).toList false k .undecided) :
        ∃ k, SettlesIn rules q (Utf8.text bytes).toList false k .undecided := by
      rcases hcause with hv | hcause
      · exact hbytes.resolve_left fun hv' => by simp [hv] at hv'
      · exact hcause
    rcases h.cases hrest with ⟨ho, -⟩ | ⟨rfl, hcause⟩ | ⟨k, status, hs, hne, rfl⟩
    · exact absurd ho hr
    · obtain ⟨k, hs⟩ := hwaits hcause
      refine ⟨k, fun fuel hfuel r' h' => ?_⟩
      rcases h'.cases hrest with ⟨-, hspent⟩ | ⟨rfl, -⟩ | ⟨k', status', hs', hne', -⟩
      · have := hspent k _ hs
        omega
      · rfl
      · exact absurd (hs'.unique hs) hne'
    · refine ⟨k, fun fuel hfuel r' h' => ?_⟩
      rcases h'.cases hrest with ⟨-, hspent⟩ | ⟨-, hcause⟩ | ⟨k', status', hs', -, rfl⟩
      · have := hspent k status hs
        omega
      · obtain ⟨k', hs'⟩ := hwaits hcause
        exact absurd (hs.unique hs') hne
      · rw [hs.unique hs']

/-- Whatever bytes follow it, a text that decides the match leaves two answers at most. -/
theorem Fate.compare {fuel' : Nat} {r r' : Except Failure Value} (h : Fate rules q fuel bytes r)
    (h' : Fate rules q fuel' bytes r') (hr : r ≠ .error (.parse .outOfFuel))
    (hr' : r' ≠ .error (.parse .outOfFuel)) :
    r = r' ∨ ∃ k status, SettlesIn rules q (Utf8.text bytes).toList false k status ∧
      status ≠ .undecided ∧
      (r = .error (.invalidUtf8 (Utf8.text bytes).utf8ByteSize) ∧
          r' = status.answer.mapError .parse ∨
        r = status.answer.mapError .parse ∧
          r' = .error (.invalidUtf8 (Utf8.text bytes).utf8ByteSize)) := by
  by_cases hrest : (Utf8.decode bytes).rest = []
  · obtain ⟨k, status, hs, rfl⟩ := (h.answered hrest).resolve_right fun ho => hr ho.1
    obtain ⟨k', status', hs', rfl⟩ := (h'.answered hrest).resolve_right fun ho => hr' ho.1
    exact .inl (by rw [hs.unique hs'])
  · rcases (h.cases hrest).resolve_left fun ho => hr ho.1 with
      ⟨rfl, -⟩ | ⟨k, status, hs, hne, rfl⟩
    · rcases (h'.cases hrest).resolve_left fun ho => hr' ho.1 with
        ⟨rfl, -⟩ | ⟨k', status', hs', hne', rfl⟩
      · exact .inl rfl
      · exact .inr ⟨k', status', hs', hne', .inl ⟨rfl, rfl⟩⟩
    · rcases (h'.cases hrest).resolve_left fun ho => hr' ho.1 with
        ⟨rfl, -⟩ | ⟨k', status', hs', -, rfl⟩
      · exact .inr ⟨k, status, hs, hne, .inr ⟨rfl, rfl⟩⟩
      · exact .inl (by rw [hs.unique hs'])

/-- Without left recursion, there is an answer to all bytes. -/
theorem exists_answer (hc : rules.collect p.pattern = .ok held) (hp : p.capacity ≤ maxCapacity)
    (h : script.Delivers bytes) (hl : NotLeftRecursive rules p.pattern) :
    ∃ r, r ≠ .error (.parse .outOfFuel) ∧
      Returns (fun fuel => (p.runReader rules fuel script).outcome) r := by
  by_cases hrest : (Utf8.decode bytes).rest = []
  · obtain ⟨k, status, hs⟩ := exists_settlesIn hc hl (Utf8.text bytes).toList true
    exact ⟨_, mapError_answer_ne status,
      returns_of_answered (fun fuel => (fate_runReader hc hp h fuel).answered hrest) hs⟩
  · obtain ⟨k, status, hs⟩ := exists_settlesIn hc hl (Utf8.text bytes).toList false
    exact exists_returns hc hp h hrest hs

end

/-- Two pipelines of the same pattern over readers that deliver the same bytes give the same answer
if the bytes are a text, also one cut short in a character, or if the longest text at their
beginning leaves the match undecided. If bytes that are no text follow a text that decides the
match, each gives the decision or finds the first of these bytes, as its reader cuts them. Without
left recursion both give an answer. -/
theorem answers_of_deliveries {p p' : Pipeline} {rules : RuleBook} {held : List Nat}
    (hc : rules.collect p.pattern = .ok held) (hpattern : p'.pattern = p.pattern)
    (hp : p.capacity ≤ maxCapacity) (hp' : p'.capacity ≤ maxCapacity) {script script' : Script}
    {bytes : List UInt8} (h : script.Delivers bytes) (h' : script'.Delivers bytes) {v : String}
    (hv : Utf8.LongestText bytes v) :
    ∃ first, Stream.start rules p.pattern = .ok first ∧
      ((∃ s, bytes <+: Utf8.encode s) ∨
          (∃ fuel st, first.feed rules fuel v = .ok st ∧ st.status = .undecided) →
        ∀ r, r ≠ .error (.parse .outOfFuel) →
          (Returns (fun fuel => (p.runReader rules fuel script).outcome) r ↔
            Returns (fun fuel => (p'.runReader rules fuel script').outcome) r)) ∧
      (∀ r r', r ≠ .error (.parse .outOfFuel) → r' ≠ .error (.parse .outOfFuel) →
        Returns (fun fuel => (p.runReader rules fuel script).outcome) r →
        Returns (fun fuel => (p'.runReader rules fuel script').outcome) r' →
        r = r' ∨ ∃ fuel st, first.feed rules fuel v = .ok st ∧ st.status ≠ .undecided ∧
          (r = .error (.invalidUtf8 v.utf8ByteSize) ∧
              r' = (st.finish rules fuel).outcome.mapError .parse ∨
            r = (st.finish rules fuel).outcome.mapError .parse ∧
              r' = .error (.invalidUtf8 v.utf8ByteSize))) ∧
      (NotLeftRecursive rules p.pattern → ∃ r r', r ≠ .error (.parse .outOfFuel) ∧
        r' ≠ .error (.parse .outOfFuel) ∧
        Returns (fun fuel => (p.runReader rules fuel script).outcome) r ∧
        Returns (fun fuel => (p'.runReader rules fuel script').outcome) r') := by
  obtain ⟨hstart, -⟩ := Stream.stands_start hc
  obtain rfl := Utf8.longestText_iff.1 hv
  have hfate := fate_runReader hc hp h
  have hfate' := fate_runReader (hpattern ▸ hc) hp' h'
  rw [hpattern] at hfate'
  refine ⟨_, hstart, fun hbytes r hr => ?_, fun r r' hr hr' hreturns hreturns' => ?_, fun hl => ?_⟩
  · have hclear : (Utf8.decode bytes).valid = true ∨
        ∃ k, SettlesIn rules p.pattern (Utf8.text bytes).toList false k .undecided := by
      rcases hbytes with ⟨s, hs⟩ | ⟨fuel, st, hf, hu⟩
      · exact .inl (Utf8.valid_of_begins hs)
      · obtain ⟨k, hs⟩ := Stream.settlesIn_of_feed hstart hf
        exact .inr ⟨k, hu ▸ hs⟩
    constructor
    · intro hreturns
      obtain ⟨fuel, rfl⟩ := hreturns.exists
      obtain ⟨steps, hsteps⟩ := (hfate fuel).determined hr hclear
      exact ⟨steps, fun fuel' hfuel => hsteps fuel' hfuel _ (hfate' fuel')⟩
    · intro hreturns
      obtain ⟨fuel, rfl⟩ := hreturns.exists
      obtain ⟨steps, hsteps⟩ := (hfate' fuel).determined hr hclear
      exact ⟨steps, fun fuel' hfuel => hsteps fuel' hfuel _ (hfate fuel')⟩
  · obtain ⟨fuel, rfl⟩ := hreturns.exists
    obtain ⟨fuel', rfl⟩ := hreturns'.exists
    refine ((hfate fuel).compare (hfate' fuel') hr hr').imp_right ?_
    rintro ⟨k, status, hs, hne, hanswers⟩
    obtain ⟨st, hf, rfl⟩ := Stream.feed_of_settlesIn hstart hs (Nat.lt_succ_self k)
    refine ⟨k + 1, st, hf, hne, ?_⟩
    rwa [Stream.finish_decided hne]
  · obtain ⟨r, hr, hreturns⟩ := exists_answer hc hp h hl
    obtain ⟨r', hr', hreturns'⟩ := exists_answer (hpattern ▸ hc) hp' h' (hpattern ▸ hl)
    exact ⟨r, r', hr, hr', hreturns, hreturns'⟩

/-- A letter of two bytes, one at a time and at once. -/
theorem answers_of_deliveries_acute :
    Returns (fun fuel => (acute.runReader .empty fuel
      [.data [0xC3], .interrupted, .data [0xA9]]).outcome) (.ok (.char 'é')) ∧
    Returns (fun fuel => ((ofChunkSize (.exactly 'é') 8).runReader .empty fuel
      [.data [0xC3, 0xA9]]).outcome) (.ok (.char 'é')) := by
  have hs : SettlesIn .empty (.exactly 'é') "é".toList true 2 (.matched (.char 'é')) :=
    settlesIn_exactly 'é' [] true
  have hpieces : Returns (fun fuel => (acute.runReader .empty fuel
      [.data [0xC3], .interrupted, .data [0xA9]]).outcome) (.ok (.char 'é')) :=
    returns_of_answered
      (answered_runReader (p := acute) (collect_exactly 'é') (by decide) delivers_acute) hs
  have hatOnce : Script.Delivers [.data [0xC3, 0xA9]] (Utf8.encode "é") := by
    rw [encode_acute]
    exact .data (by simp) .nil
  have hlongest : Utf8.LongestText (Utf8.encode "é") "é" :=
    Utf8.longestText_iff.2 (Utf8.text_encode "é").symm
  have hpattern : (ofChunkSize (.exactly 'é') 8).pattern = acute.pattern := rfl
  obtain ⟨first, -, hsame, -⟩ :=
    answers_of_deliveries (p := acute) (collect_exactly 'é') hpattern (by decide) (by decide)
      delivers_acute hatOnce hlongest
  have hiff := hsame (.inl ⟨"é", List.prefix_rfl⟩) (.ok (.char 'é')) (fun h => nomatch h)
  exact ⟨hpieces, hiff.1 hpieces⟩

/-- A letter and a byte that is none, one at a time. -/
theorem returns_letter_apart :
    Returns (fun fuel => ((ofChunkSize (.exactly 'a') 1).runReader .empty fuel
      [.data [0x61], .data [0xFF]]).outcome) (.ok (.char 'a')) := by
  refine ⟨2, fun fuel hfuel => ?_⟩
  have hencode : Utf8.encode "a" = [0x61] := by decide
  have htext : Utf8.text [0x61] = "a" := by rw [← hencode, Utf8.text_encode]
  have hs : SettlesIn .empty (.exactly 'a') (Utf8.text [0x61]).toList false 2
      (.matched (.char 'a')) := by
    rw [htext]
    exact settlesIn_exactly 'a' [] false
  have hbefore : Script.Delivers [.data [0x61]] [0x61] := .data (by simp) .nil
  obtain ⟨run, hrun, -, hafter⟩ :=
    stops_when_decided (p := ofChunkSize (.exactly 'a') 1) (collect_exactly 'a') (by decide)
      hbefore (by simp) (Utf8.valid_of_begins (s := "a") (by decide)) hs (fun h => nomatch h)
      hfuel
  exact (congrArg Run.outcome (hafter [.data [0xFF]])).trans hrun

/-- A letter and a byte that is none, at once: the letter does not reach the match. -/
theorem returns_letter_atOnce :
    Returns (fun fuel => ((ofChunkSize (.exactly 'a') 2).runReader .empty fuel
      [.data [0x61, 0xFF]]).outcome) (.error (.invalidUtf8 1)) := by
  refine ⟨0, fun fuel _ => ?_⟩
  have hread : Script.read (ofChunkSize (.exactly 'a') 2).capacity [.data [0x61, 0xFF]] =
      (.bytes [0x61, 0xFF], []) := rfl
  dsimp only
  rw [runReader_eq (p := ofChunkSize (.exactly 'a') 2) (collect_exactly 'a') (by decide),
    pump_block hread (by simp)]
  rcases Utf8.carries_empty.push [0x61, 0xFF] with ⟨piece, d, -, hd, -⟩ | ⟨-, hpush⟩
  · have hvalid := hd.valid
    rw [List.nil_append, decode_letter] at hvalid
    cases hvalid
  · have hsize : (Utf8.text [0x61, 0xFF]).utf8ByteSize = 1 := by
      rw [Utf8.text, decode_letter]
      rfl
    rw [hpush, List.nil_append, hsize]
    rfl

/-- A letter and a byte that is none, one at a time and at once: the answers differ. -/
theorem answers_of_deliveries_letter :
    Script.Delivers [.data [0x61], .data [0xFF]] [0x61, 0xFF] ∧
    Script.Delivers [.data [0x61, 0xFF]] [0x61, 0xFF] ∧
    Returns (fun fuel => ((ofChunkSize (.exactly 'a') 1).runReader .empty fuel
      [.data [0x61], .data [0xFF]]).outcome) (.ok (.char 'a')) ∧
    ¬ Returns (fun fuel => ((ofChunkSize (.exactly 'a') 2).runReader .empty fuel
      [.data [0x61, 0xFF]]).outcome) (.ok (.char 'a')) ∧
    Returns (fun fuel => ((ofChunkSize (.exactly 'a') 2).runReader .empty fuel
      [.data [0x61, 0xFF]]).outcome) (.error (.invalidUtf8 1)) :=
  ⟨.data (by simp) (.data (by simp) .nil), .data (by simp) .nil, returns_letter_apart,
    fun h => (nomatch h.unique returns_letter_atOnce), returns_letter_atOnce⟩

end Pipeline

end PegStream
