import PegStream.Proofs.Inputs

/-!
# Checkpoints belong to frames

Every open checkpoint that a match has opened belongs to exactly one waiting frame, or to the token
in progress, and the checkpoints are open in the order of their owners. So whoever closes a
checkpoint closes the innermost one, and no input ever has reason to complain. Nothing is opened
below the checkpoints that were open when the match began, and the match never goes back beyond the
place where it began.

* `Machine.Disciplined`: the invariant, for a match that began on a given tape;
* `Machine.safe_step`: a step keeps it and breaks no contract of the input;
* `Machine.Disciplined.run`: so does a run.
-/

namespace PegStream

/-! ## What is owned -/

namespace Machine

/-- The checkpoint of a token being read. -/
def Scan.marks : Scan → List Checkpoint
  | .symbol _ _ (some (_, cp)) => [cp]
  | _ => []

def Token.marks : Token → List Checkpoint
  | .scan s => s.marks
  | .lexeme _ => []

def Control.marks : Control → List Checkpoint
  | .skip _ next => next.marks
  | .scan s => s.marks
  | _ => []

/-- The checkpoints of a waiting pattern, the innermost first. -/
def Frame.marks : Frame → List Checkpoint
  | .noise _ next cp => cp :: next.marks
  | .repetition _ _ _ entry cp _ _ => cp :: entry.toList
  | .alternative _ _ _ cp | .listElement _ _ _ cp _ _ | .listSeparator _ _ _ cp _ | .optional _ cp
  | .except _ _ cp | .not cp => [cp]
  | .sequence _ _ _ _ | .discard | .map _ | .tap _ => []

/-- The checkpoints of all waiting patterns, the innermost first. -/
def stackMarks (stack : List Frame) : List Checkpoint := stack.flatMap Frame.marks

@[simp] theorem marks_control (next : Token) : next.control.marks = next.marks := by
  cases next <;> rfl

theorem marks_ofToken (scope : Scope) (token : Token) :
    (Control.ofToken scope token).marks = token.marks := by
  cases scope with
  | none => exact marks_control token
  | some skipper => rfl

end Machine

/-! ## What an input holds -/

namespace Tape

/-- A tape some time after `start`, where the checkpoints opened since and still open are `marks`,
the innermost first. -/
structure Holds (start t : Tape) (marks : List Checkpoint) : Prop where
  text : t.text = start.text
  final : t.final = start.final
  valid : t.Valid
  reached : start.cursor ≤ t.cursor
  own : ∃ own, t.saved = own ++ start.saved ∧
    recordsAbove t.text start.saved.length own = marks ∧ ∀ k ∈ own, start.cursor ≤ k

namespace Holds

variable {start t : Tape} {cp : Checkpoint} {marks : List Checkpoint}

theorem refl (h : t.Valid) : Holds t t [] :=
  ⟨rfl, rfl, h, Nat.le_refl _, [], rfl, rfl, fun _ hk => nomatch hk⟩

/-- The open checkpoints are the ones held, above those open at the start. -/
theorem records_eq (h : Holds start t marks) : t.records = marks ++ start.records := by
  obtain ⟨ht, -, -, -, own, hs, rfl, -⟩ := h
  rw [records, hs, recordsAbove_append, Nat.zero_add, records, ht]

theorem mark (h : Holds start t marks) : Holds start t.mark.2 (t.mark.1 :: marks) := by
  obtain ⟨ht, hf, hv, hr, own, hs, hm, hk⟩ := h
  refine ⟨ht, hf, hv.mark, hr, t.cursor :: own, ?_, ?_, ?_⟩
  · exact congrArg (t.cursor :: ·) hs
  · change record t.text t.cursor (start.saved.length + own.length) ::
      recordsAbove t.text start.saved.length own = t.mark.1 :: marks
    rw [hm, Tape.mark, hs, List.length_append, Nat.add_comm]
  · intro k hk'
    rcases List.mem_cons.1 hk' with rfl | hk'
    · exact hr
    · exact hk k hk'

/-- The innermost checkpoint held is the innermost one of the tape. -/
theorem saved_eq (h : Holds start t (cp :: marks)) : ∃ k ks, t.saved = k :: ks ∧
    cp = record t.text k ks.length ∧ start.cursor ≤ k ∧ ∃ own, ks = own ++ start.saved ∧
      recordsAbove t.text start.saved.length own = marks ∧ ∀ k ∈ own, start.cursor ≤ k := by
  obtain ⟨-, -, -, -, own, hs, hm, hk⟩ := h
  cases own with
  | nil => cases hm
  | cons k own =>
    obtain ⟨hcp, hm⟩ := List.cons.inj hm
    refine ⟨k, own ++ start.saved, hs, ?_, hk k (by simp), own, rfl, hm,
      fun l hl => hk l (List.mem_cons_of_mem _ hl)⟩
    rw [← hcp, List.length_append, Nat.add_comm]

theorem commit (h : Holds start t (cp :: marks)) :
    ∃ t', t.commit cp = .ok t' ∧ Holds start t' marks := by
  obtain ⟨k, ks, hs, rfl, -, own, rfl, hm, hk⟩ := h.saved_eq
  have hc := commit_cons hs
  exact ⟨_, hc, h.text, h.final, h.valid.commit hc, h.reached, own, rfl, hm, hk⟩

theorem rollback (h : Holds start t (cp :: marks)) :
    ∃ t', t.rollback cp = .ok t' ∧ Holds start t' marks := by
  obtain ⟨k, ks, hs, rfl, hle, own, rfl, hm, hk⟩ := h.saved_eq
  have hc := rollback_cons hs
  exact ⟨_, hc, h.text, h.final, h.valid.rollback hc, hle, own, rfl, hm, hk⟩

theorem advance {c : Char} (h : Holds start t marks) (hc : t.rest.head? = some c) :
    ∃ t', t.advance = .ok t' ∧ Holds start t' marks := by
  have ha := advance_eq hc
  obtain ⟨ht, hf, hv, hr, own⟩ := h
  exact ⟨_, ha, ht, hf, hv.advance ha, Nat.le_succ_of_le hr, own⟩

/-- Text that is added later might have been there at the start. -/
theorem grows {t' : Tape} (h : Holds start t marks) (hg : t.Grows t') :
    start.Grows { start with text := t'.text, final := t'.final } ∧
      Holds { start with text := t'.text, final := t'.final } t' marks := by
  refine ⟨⟨by rw [← h.text, ← h.final]; exact hg.text, rfl, rfl, by rw [← h.final]; exact hg.final⟩,
    ?_⟩
  obtain ⟨-, -, hv, hr, own, hs, rfl, hk⟩ := h
  have htake : ∀ k ∈ own, t'.text.take k = t.text.take k := fun k hk =>
    hg.take hv (hv.saved_le (by rw [hs]; exact List.mem_append_left _ hk))
  exact ⟨rfl, rfl, hg.valid hv, by rw [hg.cursor]; exact hr, own, by rw [hg.saved, hs],
    recordsAbove_congr htake _, hk⟩

end Holds

end Tape

/-! ## Steps -/

namespace Machine

/-- The open checkpoints are those of the frames and of the token in progress. -/
def Disciplined (start : Tape) (m : Machine Tape) : Prop :=
  start.Holds m.source (m.control.marks ++ stackMarks m.stack)

/-- The state is disciplined, or the fault lies in the grammar. -/
def Safe (start : Tape) : Except Fault (Machine Tape) → Prop
  | .ok m => Disciplined start m
  | .error f => f.ofGrammar = true

/-- A step from `m` is disciplined; if it waits there may be more text, and if it decides the match
no checkpoint is held. -/
def SafeStep (start : Tape) (m : Machine Tape) : Except Fault (Step Tape) → Prop
  | .ok (.moved m') => Disciplined start m'
  | .ok .waiting => m.source.final = false
  | .ok (.halted _) => start.Holds m.source []
  | .error f => f.ofGrammar = true

theorem Safe.moved {start : Tape} {x : Except Fault (Machine Tape)} (h : Safe start x)
    (m : Machine Tape) : SafeStep start m (.moved <$> x) := by
  cases x with
  | ok m => exact h
  | error f => exact h

section Steps

variable {start : Tape} {m : Machine Tape} {cp : Checkpoint} {marks : List Checkpoint}

theorem commit_held (h : start.Holds m.source (cp :: marks)) :
    ∃ t, m.commit cp = .ok { m with source := t } ∧ start.Holds t marks := by
  obtain ⟨t, hc, ht⟩ := h.commit
  refine ⟨t, ?_, ht⟩
  change (fun source => { m with source }) <$> m.source.commit cp = _
  rw [hc]
  rfl

theorem rollback_held (h : start.Holds m.source (cp :: marks)) :
    ∃ t, m.rollback cp = .ok { m with source := t } ∧ start.Holds t marks := by
  obtain ⟨t, hc, ht⟩ := h.rollback
  refine ⟨t, ?_, ht⟩
  change (fun source => { m with source }) <$> m.source.rollback cp = _
  rw [hc]
  rfl

theorem advance_held {c : Char} (h : start.Holds m.source marks)
    (hc : m.source.rest.head? = some c) :
    ∃ t, m.advance = .ok { m with source := t } ∧ start.Holds t marks := by
  obtain ⟨t, ha, ht⟩ := h.advance hc
  refine ⟨t, ?_, ht⟩
  change (fun source => { m with source }) <$> m.source.advance = _
  rw [ha]
  rfl

theorem disciplined_nextPart (h : start.Holds m.source (stackMarks m.stack)) (scope : Scope)
    (values : List Value) (rest : List Pattern) :
    Disciplined start (m.nextPart scope values rest) := by
  cases rest <;> exact h

theorem disciplined_nextBranch (h : start.Holds m.source (stackMarks m.stack)) (scope : Scope)
    (rest : List Pattern) : Disciplined start (m.nextBranch scope rest) := by
  cases rest with
  | nil => exact h
  | cons p rest => exact h.mark

theorem safe_endRounds {entry : Option Checkpoint}
    (h : start.Holds m.source (entry.toList ++ stackMarks m.stack)) (collected : Collected) :
    Safe start (m.endRounds entry collected) := by
  cases entry with
  | none => exact h
  | some cp =>
    obtain ⟨t, hc, ht⟩ := commit_held h
    rw [endRounds, hc]
    exact ht

theorem safe_nextRound (entry : Option Checkpoint)
    (h : start.Holds m.source (entry.toList ++ stackMarks m.stack)) (operand : Pattern)
    (bounds : Bounds) (scope : Scope) (count : Nat) (collected : Collected) :
    Safe start (m.nextRound operand bounds scope entry count collected) := by
  unfold nextRound
  split
  · exact safe_endRounds h collected
  · exact h.mark

theorem safe_startRounds (h : start.Holds m.source (stackMarks m.stack)) (operand : Pattern)
    (bounds : Bounds) (scope : Scope) : Safe start (m.startRounds operand bounds scope) := by
  unfold startRounds
  split
  · exact safe_nextRound none h ..
  · exact safe_nextRound (m := m.mark.2) (some m.mark.1) h.mark ..

theorem safe_enter (h : start.Holds m.source (stackMarks m.stack)) (rules : RuleBook) (p : Pattern)
    (scope : Scope) : Safe start (m.enter rules p scope) := by
  cases p with
  | char | literal | endOfInput | int | symbol | lexeme =>
    change start.Holds m.source ((Control.ofToken scope _).marks ++ _)
    rw [marks_ofToken]
    exact h
  | pass | fail | discard | map | tap | skipping => exact h
  | sequence parts => exact disciplined_nextPart h scope [] parts
  | alternative branches => exact disciplined_nextBranch h scope branches
  | repetition operand bounds => exact safe_startRounds h operand bounds scope
  | optional | list | except | not => exact h.mark
  | rule ref =>
    change Safe start (rules.resolve ref >>= fun d => .ok (m.goto (.enter d scope)))
    unfold RuleBook.resolve
    split
    · rfl
    · split
      · rfl
      · exact h

theorem safe_push {v : Value} {collected : Collected}
    {g : Collected → Except Fault (Machine Tape)} (hg : ∀ c, Safe start (g c)) :
    Safe start (collected.push v >>= g) := by
  cases collected with
  | silent => exact hg .silent
  | items values => exact hg (.items (v :: values))
  | text pieces =>
    rw [Collected.push]
    split
    · exact hg _
    · rfl

theorem safe_resume {frame : Frame}
    (h : start.Holds m.source (frame.marks ++ stackMarks m.stack)) (v : Value) :
    Safe start (resume frame v m) := by
  cases frame with
  | noise skipper next cp =>
    obtain ⟨t, hc, ht⟩ := commit_held h
    simp only [resume, hc]
    change start.Holds t ((if _ then _ else _ : Control).marks ++ _)
    split
    · exact ht
    · rw [marks_control]
      exact ht
  | sequence keep rest scope values => exact disciplined_nextPart h ..
  | alternative _ _ _ cp | optional _ cp =>
    obtain ⟨t, hc, ht⟩ := commit_held h
    rw [resume, hc]
    exact ht
  | repetition operand bounds scope entry cp count collected =>
    obtain ⟨t, hc, ht⟩ := commit_held h
    simp only [resume, hc]
    refine safe_push fun collected => ?_
    change Safe start (if _ then _ else _)
    split
    · exact safe_nextRound (m := { m with source := t }) _ ht ..
    · exact safe_endRounds (m := { m with source := t }) ht _
  | listElement operand separator scope cp first collected =>
    obtain ⟨t, hc, ht⟩ := commit_held h
    simp only [resume, hc]
    refine safe_push fun collected => ?_
    change Safe start (if _ then _ else _)
    split
    · exact ht.mark
    · exact ht
  | listSeparator operand separator scope cp collected => exact h
  | except _ _ cp | not cp =>
    obtain ⟨t, hc, ht⟩ := rollback_held h
    rw [resume, hc]
    exact ht
  | discard | map | tap => exact h

theorem safe_recover {frame : Frame}
    (h : start.Holds m.source (frame.marks ++ stackMarks m.stack)) :
    Safe start (recover frame m) := by
  cases frame with
  | noise _ next cp =>
    obtain ⟨t, hc, ht⟩ := rollback_held h
    rw [recover, hc]
    change start.Holds t (next.control.marks ++ _)
    rw [marks_control]
    exact ht
  | listElement _ _ _ cp | listSeparator _ _ _ cp | optional _ cp | except _ _ cp | not cp =>
    obtain ⟨t, hc, ht⟩ := rollback_held h
    rw [recover, hc]
    exact ht
  | alternative _ rest scope cp =>
    obtain ⟨t, hc, ht⟩ := rollback_held h
    rw [recover, hc]
    exact disciplined_nextBranch (m := { m with source := t }) ht scope rest
  | repetition _ bounds _ entry cp count collected =>
    obtain ⟨t, hc, ht⟩ := rollback_held h
    rw [recover, hc]
    change Safe start (if _ then _ else _)
    split
    · exact safe_endRounds (m := { m with source := t }) ht collected
    · cases entry with
      | none => exact ht
      | some cp =>
        obtain ⟨t', hc', ht'⟩ := rollback_held (m := { m with source := t }) ht
        simp only [hc']
        exact ht'
  | sequence | discard | map | tap => exact h

/-- Reading at the cursor: what a token does with a character, at the end and without an answer. -/
theorem safe_ahead {g : Ahead → Except Fault (Step Tape)}
    (hc : ∀ c, m.source.rest.head? = some c → SafeStep start m (g (.char c)))
    (he : SafeStep start m (g .ended))
    (hu : m.source.final = false → SafeStep start m (g .unknown)) :
    SafeStep start m (m.ahead >>= g) := by
  unfold ahead
  rw [Tape.peek_eq, Tape.isFinal_eq]
  cases h : m.source.rest.head? with
  | some c => exact hc c h
  | none =>
    cases hf : m.source.final with
    | true => exact he
    | false => exact hu hf

theorem safe_settle {next : Control}
    (h : start.Holds m.source (next.marks ++ stackMarks m.stack)) :
    SafeStep start m (m.settle next) := h

theorem safe_take {next : Control} {c : Char}
    (h : start.Holds m.source (next.marks ++ stackMarks m.stack))
    (hc : m.source.rest.head? = some c) : SafeStep start m (m.take next) := by
  obtain ⟨t, ha, ht⟩ := advance_held h hc
  rw [take, ha]
  exact ht

theorem marks_intOutcome (format : IntFormat) (n : Numeral) : (intOutcome format n).marks = [] := by
  unfold intOutcome
  split <;> rfl

theorem safe_scanInt (h : start.Holds m.source (stackMarks m.stack)) (format : IntFormat)
    (n : Numeral) : SafeStep start m (m.scanInt format n) := by
  have hout : SafeStep start m (m.settle (intOutcome format n)) :=
    safe_settle (by rw [marks_intOutcome]; exact h)
  unfold scanInt
  split
  · exact hout
  · refine safe_ahead (fun c hc => ?_) hout fun hf => hf
    dsimp only
    split
    · exact safe_take h hc
    · split
      · exact hout
      · split
        · exact safe_settle h
        · exact safe_take h hc

theorem safe_resolveSymbol {best : Option (Value × Checkpoint)}
    (h : start.Holds m.source ((best.map (·.2)).toList ++ stackMarks m.stack)) :
    SafeStep start m (m.resolveSymbol best) := by
  cases best with
  | none => exact safe_settle h
  | some best =>
    obtain ⟨t, hc, ht⟩ := rollback_held h
    rw [resolveSymbol, hc]
    exact ht

theorem marks_symbol (table : SymbolTable) (node : Nat) (best : Option (Value × Checkpoint)) :
    (Scan.symbol table node best).marks = (best.map (·.2)).toList := by
  cases best <;> rfl

theorem safe_descendSymbol {best : Option (Value × Checkpoint)} {c : Char}
    (h : start.Holds m.source ((best.map (·.2)).toList ++ stackMarks m.stack))
    (hc : m.source.rest.head? = some c) (table : SymbolTable) (node : Nat) :
    SafeStep start m (m.descendSymbol table node best) := by
  obtain ⟨t, ha, ht⟩ := advance_held h hc
  rw [descendSymbol, ha]
  cases hv : table.value? node with
  | none =>
    change start.Holds t ((Scan.symbol table node best).marks ++ stackMarks m.stack)
    rw [marks_symbol]
    exact ht
  | some v =>
    obtain ⟨t', hb, ht'⟩ : ∃ t', commitBest best { m with source := t } =
        .ok { m with source := t' } ∧ start.Holds t' (stackMarks m.stack) := by
      cases best with
      | none => exact ⟨t, rfl, ht⟩
      | some best => exact commit_held (m := { m with source := t }) ht
    change SafeStep start m (commitBest best { m with source := t } >>= _)
    rw [hb]
    change SafeStep start m (if _ then _ else _)
    split
    · exact ht'
    · exact ht'.mark

theorem safe_scan {token : Scan} (h : start.Holds m.source (token.marks ++ stackMarks m.stack)) :
    SafeStep start m (m.scan token) := by
  cases token with
  | char accepted =>
    refine safe_ahead (fun c hc => ?_) h fun hf => hf
    dsimp only
    split
    · exact safe_take h hc
    · exact safe_settle h
  | literal expected =>
    cases expected with
    | nil => exact safe_settle h
    | cons e rest =>
      refine safe_ahead (fun c hc => ?_) h fun hf => hf
      dsimp only
      split
      · exact safe_take h hc
      · exact safe_settle h
  | endOfInput => exact safe_ahead (fun _ _ => h) h fun hf => hf
  | int format n => exact safe_scanInt h format n
  | symbol table node best =>
    rw [marks_symbol] at h
    refine safe_ahead (fun c hc => ?_) (safe_resolveSymbol h) fun hf => hf
    dsimp only
    split
    · exact safe_descendSymbol h hc table _
    · exact safe_resolveSymbol h

/-- A step keeps the discipline and breaks no contract of the input. -/
theorem safe_step (h : Disciplined start m) (rules : RuleBook) :
    SafeStep start m (m.step rules) := by
  obtain ⟨control, stack, t, log⟩ := m
  cases control with
  | enter p scope => exact (safe_enter h rules p scope).moved _
  | skip skipper next => exact Tape.Holds.mark h
  | scan token => exact safe_scan h
  | matched v =>
    cases stack with
    | nil => exact h
    | cons frame stack =>
      exact (safe_resume (m := ⟨.matched v, stack, t, log⟩) h v).moved _
  | failed =>
    cases stack with
    | nil => exact h
    | cons frame stack => exact (safe_recover (m := ⟨.failed, stack, t, log⟩) h).moved _

end Steps

/-! ## Runs -/

/-- What a verdict tells of the state: no contract of the input is broken, a match that waits may
still receive text, and a match that is decided holds no checkpoint. -/
def Settled (start : Tape) (m : Machine Tape) : Verdict → Prop
  | .matched _ | .failed => start.Holds m.source []
  | .waiting => m.source.final = false
  | .fault f => f.ofGrammar = true
  | .outOfFuel => True

namespace Disciplined

variable {start : Tape} {m m' : Machine Tape} {rules : RuleBook} {k : Nat}

theorem moves (h : Disciplined start m) (hm : Moves rules k m m') : Disciplined start m' := by
  induction hm with
  | refl => exact h
  | cons hs _ ih =>
    have hstep := safe_step h rules
    rw [hs] at hstep
    exact ih hstep

theorem settled {v : Verdict} (h : Disciplined start m) (hv : m.verdict? rules = some v) :
    Settled start m v := by
  have hstep := safe_step h rules
  unfold verdict? at hv
  split at hv <;> rename_i hs <;> rw [hs] at hstep <;> cases hv <;> exact hstep

/-- A run keeps the discipline. -/
theorem run (h : Disciplined start m) (rules : RuleBook) (fuel : Nat) :
    Disciplined start (m.run rules fuel).1 ∧
      Settled start (m.run rules fuel).1 (m.run rules fuel).2 := by
  obtain ⟨k, hk, hv⟩ := exists_moves_of_run rules fuel m
  refine ⟨h.moves hk, ?_⟩
  rcases hv with hv | ⟨-, hv⟩
  · exact (h.moves hk).settled hv
  · rw [hv]
    trivial

end Disciplined

end Machine

end PegStream
