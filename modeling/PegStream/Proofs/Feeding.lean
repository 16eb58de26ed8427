import PegStream.Parse
import PegStream.Proofs.Checkpoints

/-!
# Feeding a match

A match on an input received in chunks is fed again and again until it is decided, and the input may
grow in any way while the match waits. However that is done, the match uses its input within the
contract, and when it is decided the input's checkpoints are those from before its first feed
(`Machine.feed_keeps_checkpoints`).
-/

namespace PegStream.Machine

/-- What feeding a match comes to: its state and verdict after the latest of one or more feeds. Each
feed has some fuel and some rules to go by, and the input may have grown before a feed that follows
one after which the match waited. -/
inductive Fed (first : Machine Chunked) : Machine Chunked → Verdict → Prop
  | once {m : Machine Chunked} {v : Verdict} (rules : RuleBook) (fuel : Nat) :
    first.run rules fuel = (m, v) → Fed first m v
  | again {m m' : Machine Chunked} {v : Verdict} {s : Chunked} (rules : RuleBook) (fuel : Nat) :
    Fed first m .waiting → m.source.Grows s → (m.on s).run rules fuel = (m', v) →
    Fed first m' v

variable {σ : Type} [Source σ] {R : σ → Tape → Prop} {s : σ} {n : Machine Tape} {start : Tape}

/-- A run on an input that stands for a tape is the disciplined run on the tape. -/
theorem Disciplined.run_on (F : Follows True R) (h : R s n.source) (hd : Disciplined start n)
    {rules : RuleBook} {fuel : Nat} {m : Machine σ} {v : Verdict}
    (hm : (n.on s).run rules fuel = (m, v)) : ∃ n' : Machine Tape,
      m = n'.on m.source ∧ R m.source n'.source ∧ Disciplined start n' ∧ Settled start n' v := by
  obtain ⟨hd', hs'⟩ := hd.run rules fuel
  have hf : ∀ f, (n.run rules fuel).2 = .fault f → f.ofGrammar = true := fun f hf => by
    rw [hf] at hs'
    exact hs'
  obtain ⟨s', hr, h'⟩ := F.run h rules fuel hf
  rw [hm] at hr
  cases hr
  exact ⟨_, rfl, h', hd', hs'⟩

theorem disciplined_enter {t : Tape} (h : t.Valid) (p : Pattern) (scope : Scope)
    (log : List Tap) : Disciplined t ⟨.enter p scope, [], t, log⟩ :=
  Tape.Holds.refl h

/-- Feeding keeps the discipline, with all the text ever received as if it had been there at the
start. -/
theorem Fed.disciplined {s : Chunked} {t : Tape} {p : Pattern} {scope : Scope} {log : List Tap}
    {m : Machine Chunked} {v : Verdict} (h : s.Represents t)
    (hm : Fed ⟨.enter p scope, [], s, log⟩ m v) : ∃ (start : Tape) (n : Machine Tape),
      t.Grows start ∧ m = n.on m.source ∧ m.source.Represents n.source ∧ Disciplined start n ∧
      Settled start n v := by
  induction hm with
  | once rules fuel hrun =>
    obtain ⟨n, hn, hR, hd, hs⟩ := (disciplined_enter h.valid p scope log).run_on
      Chunked.follows h hrun
    exact ⟨t, n, .refl t, hn, hR, hd, hs⟩
  | again rules fuel _ hg hrun ih =>
    obtain ⟨start, n, hstart, hn, hR, hd, -⟩ := ih
    obtain ⟨t', hR', hg'⟩ := hR.grows hg
    obtain ⟨hstart', hd'⟩ := Tape.Holds.grows hd hg'
    rw [hn] at hrun
    obtain ⟨n', hn', hR'', hd'', hs''⟩ := Disciplined.run_on (n := n.on t') Chunked.follows hR' hd'
      hrun
    exact ⟨_, n', hstart.trans hstart', hn', hR'', hd'', hs''⟩

theorem offset_le {t t' start : Tape} {marks : List Checkpoint} (hg : t.Grows start)
    (hv : t.Valid) (h : start.Holds t' marks) :
    Tape.offsetAt t.text t.cursor ≤ Tape.offsetAt t'.text t'.cursor := by
  have ht : Tape.offsetAt t.text t.cursor = Tape.offsetAt t'.text t.cursor := by
    rw [Tape.offsetAt, ← hg.take hv (Nat.le_refl _), ← h.text]
    rfl
  rw [ht]
  exact Text.byteCount_take_le _ (hg.cursor ▸ h.reached)

/-- The match is decided. -/
def Verdict.Decided : Verdict → Prop
  | .matched _ | .failed => True
  | _ => False

theorem Settled.fault {n : Machine Tape} {v : Verdict} (h : Settled start n v) {f : Fault}
    (hv : v = .fault f) : f.ofGrammar = true := by
  rw [hv] at h
  exact h

theorem Settled.holds {n : Machine Tape} {v : Verdict} (h : Settled start n v) (hv : v.Decided) :
    start.Holds n.source [] := by
  cases v with
  | matched | failed => exact h
  | waiting | fault | outOfFuel => exact hv.elim

/-- What holds of the checkpoints of an input received in chunks after each feed. -/
theorem Fed.marks {s : Chunked} {t : Tape} {p : Pattern} {scope : Scope} {log : List Tap}
    {m : Machine Chunked} {v : Verdict} (h : s.Represents t)
    (hm : Fed ⟨.enter p scope, [], s, log⟩ m v) :
    (∀ f, v = .fault f → f.ofGrammar = true) ∧ (v.Decided → m.source.marks = s.marks) ∧
      (∃ own, m.source.marks = own ++ s.marks) ∧ s.cursor ≤ m.source.cursor := by
  obtain ⟨start, n, hg, -, hR, hd, hs⟩ := hm.disciplined h
  have hbase : start.records = s.marks := (hg.records h.valid).trans h.marks.symm
  have hown : m.source.marks = (n.control.marks ++ stackMarks n.stack) ++ s.marks := by
    rw [hR.marks, hd.records_eq, hbase]
  refine ⟨fun f hf => hs.fault hf, fun hv => ?_, ⟨_, hown⟩, ?_⟩
  · rw [hR.marks, (hs.holds hv).records_eq, hbase, List.nil_append]
  · rw [h.cursor, hR.cursor]
    exact offset_le hg h.valid hd

/-- What holds of the checkpoints of a complete text after a feed, which never has to wait. -/
theorem run_marks {s : Whole} {t : Tape} {p : Pattern} {scope : Scope} {log : List Tap}
    {m : Machine Whole} {v : Verdict} {rules : RuleBook} {fuel : Nat} (h : s.Represents t)
    (hm : run rules fuel ⟨.enter p scope, [], s, log⟩ = (m, v)) :
    (∀ f, v = .fault f → f.ofGrammar = true) ∧ v ≠ .waiting ∧
      (v.Decided → m.source.marks = s.marks) ∧ s.marks ≤ m.source.marks ∧
      s.cursor ≤ m.source.cursor := by
  obtain ⟨n, -, hR, hd, hs⟩ := (disciplined_enter h.valid p scope log).run_on Whole.follows h hm
  have hlen : ∀ {marks}, t.Holds n.source marks → m.source.marks = marks.length + s.marks := by
    intro marks hh
    have := congrArg List.length hh.records_eq
    rw [Tape.records, Tape.length_recordsAbove, List.length_append, Tape.records,
      Tape.length_recordsAbove, ← h.marks] at this
    rw [hR.marks, this]
  refine ⟨fun f hf => hs.fault hf, fun hw => ?_, fun hv => ?_, ?_, ?_⟩
  · rw [hw] at hs
    exact Bool.false_ne_true (hs.symm.trans hR.final)
  · rw [hlen (hs.holds hv), List.length_nil, Nat.zero_add]
  · rw [hlen hd]
    exact Nat.le_add_left _ _
  · rw [h.cursor, hR.cursor]
    exact offset_le (.refl t) h.valid hd

/-- A match of a complete text leaves no checkpoint open. -/
theorem parsePrefix_ne_openCheckpoint (rules : RuleBook) (fuel : Nat) (p : Pattern)
    (input : String) :
    (parsePrefix rules fuel p input).outcome ≠ .error (.fault .openCheckpoint) := by
  unfold parsePrefix
  cases rules.collect p with
  | error e => exact fun h => nomatch h
  | ok held =>
    rcases hr : (Machine.start p (Whole.ofString input)).run rules fuel with ⟨m, v⟩
    obtain ⟨hf, hw, hd, -, -⟩ := run_marks (Whole.represents_ofString input) hr
    change wholeOutcome m v ≠ _
    cases v with
    | fault f =>
      intro h
      cases h
      cases hf _ rfl
    | outOfFuel => exact fun h => nomatch h
    | waiting => exact absurd rfl hw
    | matched w =>
      have hm : m.source.marks = 0 := hd trivial
      simp [wholeOutcome, hm]
    | failed =>
      have hm : m.source.marks = 0 := hd trivial
      simp [wholeOutcome, hm]

/-- However often a match is fed and whatever its input stood at before, none of its feeds breaks
the contract of the input; the checkpoints that were open before the first feed stay below its own,
and nothing else is left open once the match is decided; and the cursor is never left before the
place where the match started. So a match of a complete text ends with no checkpoint open. -/
theorem feed_keeps_checkpoints :
    (∀ (s : Chunked) (cps : List Checkpoint) (p : Pattern) (scope : Scope) (log : List Tap)
      (m : Machine Chunked) (v : Verdict), s.Reachable cps → Fed ⟨.enter p scope, [], s, log⟩ m v →
      (∀ f, v = .fault f → f.ofGrammar = true) ∧ (v.Decided → m.source.marks = s.marks) ∧
        (∃ own, m.source.marks = own ++ s.marks) ∧ s.cursor ≤ m.source.cursor) ∧
    (∀ (s : Whole) (cps : List Checkpoint) (rules : RuleBook) (fuel : Nat) (p : Pattern)
      (scope : Scope) (log : List Tap) (m : Machine Whole) (v : Verdict), s.Reachable cps →
      run rules fuel ⟨.enter p scope, [], s, log⟩ = (m, v) →
      (∀ f, v = .fault f → f.ofGrammar = true) ∧ v ≠ .waiting ∧
        (v.Decided → m.source.marks = s.marks) ∧ s.marks ≤ m.source.marks ∧
        s.cursor ≤ m.source.cursor) ∧
    ∀ (rules : RuleBook) (fuel : Nat) (p : Pattern) (input : String),
      (parsePrefix rules fuel p input).outcome ≠ .error (.fault .openCheckpoint) := by
  refine ⟨?_, ?_, parsePrefix_ne_openCheckpoint⟩
  · intro s cps p scope log m v hs hm
    obtain ⟨t, ht, -⟩ := hs.represents
    exact hm.marks ht
  · intro s cps rules fuel p scope log m v hs hm
    obtain ⟨t, ht, -⟩ := hs.represents
    exact run_marks ht hm

/-- The text `ab`, after its first character and with a checkpoint open in front of it. -/
def halfRead : Chunked where
  chunks := [⟨"ab", 0⟩]
  cursor := 1
  position := ⟨1, 2, 1⟩
  received := 2
  marks := [⟨0, .start, 0⟩]

theorem halfRead_reachable : halfRead.Reachable [⟨0, .start, 0⟩] := by
  have hempty : Chunked.Reachable .empty [] := .fresh rfl
  have hpush : Chunked.Grows .empty { chunks := [⟨"ab", 0⟩], received := 2 } :=
    .push (.refl _) (rfl : Chunked.push "ab" _ = _)
  exact (hempty.grow hpush).mark.advance (rfl : _ = Except.ok (some 'a')) rfl

/-- A match that waits inside a literal, under a checkpoint of its own, and fails there after the
next chunk. -/
theorem feed_keeps_checkpoints_resumed : ∃ m : Machine Chunked,
    Fed ⟨.enter (.optional (.literal "bc")) none, [], halfRead, []⟩ m (.matched .nil) ∧
      m.source.marks = [⟨0, .start, 0⟩] ∧ 1 ≤ m.source.cursor := by
  have hwait : Fed ⟨.enter (.optional (.literal "bc")) none, [], halfRead, []⟩ _ .waiting :=
    .once .empty 9 (by rfl)
  have hpush {s : Chunked} (h : s.finished = false) : s.Grows
      { s with chunks := s.chunks ++ [⟨"d", s.received⟩], received := s.received + 1 } :=
    .push (.refl s) (show s.push "d" = _ by rw [Chunked.push, h]; rfl)
  have hfed := hwait.again .empty 9 (hpush rfl) (v := .matched .nil) (by rfl)
  obtain ⟨-, hmarks, -, hcursor⟩ := feed_keeps_checkpoints.1 _ _ _ _ _ _ _ halfRead_reachable hfed
  exact ⟨_, hfed, hmarks trivial, hcursor⟩

end PegStream.Machine
