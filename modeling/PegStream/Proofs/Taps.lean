import PegStream.Machine.Step

/-!
# What a match notes

Of all that a step can do, only one thing is written down for good: a value that is handed to a tap
(`Machine.step_log`). Whatever else happens, taps that have been noted stay noted.
-/

namespace PegStream.Machine

variable {σ : Type} {rules : RuleBook} {m m' : Machine σ} {log : List Tap}

/-- The property `Q` holds of the result, if there is one. -/
def Ensures {α : Type} (Q : α → Prop) (x : Except Fault α) : Prop := ∀ y, x = .ok y → Q y

theorem Ensures.ok {α : Type} {Q : α → Prop} {y : α} (h : Q y) : Ensures Q (.ok y) := by
  rintro _ ⟨⟩
  exact h

theorem Ensures.bind {α β : Type} {P : α → Prop} {Q : β → Prop} {x : Except Fault α}
    {g : α → Except Fault β} (h : Ensures P x) (hg : ∀ y, P y → Ensures Q (g y)) :
    Ensures Q (x >>= g) := by
  cases x with
  | error f => exact fun _ h => nomatch h
  | ok y => exact hg y (h y rfl)

theorem Ensures.after {α β : Type} {Q : β → Prop} {x : Except Fault α} {g : α → Except Fault β}
    (hg : ∀ y, Ensures Q (g y)) : Ensures Q (x >>= g) :=
  Ensures.bind (P := fun _ => True) (fun _ _ => trivial) fun y _ => hg y

/-- The taps noted after a step. -/
def Step.Logs (log : List Tap) : Step σ → Prop
  | .moved m => m.log = log
  | .waiting | .halted _ => True

/-- The result, if there is one, has the given taps noted. -/
abbrev Logs (log : List Tap) : Except Fault (Machine σ) → Prop := Ensures (·.log = log)

theorem Ensures.moved {x : Except Fault (Machine σ)} (h : Logs log x) :
    Ensures (Step.Logs log) (.moved <$> x) := by
  cases x with
  | error f => exact fun _ h => nomatch h
  | ok n => exact .ok (h n rfl)

theorem logs_source {x : Except Fault σ} (h : m.log = log) :
    Logs log ((fun source => { m with source }) <$> x) := by
  cases x with
  | error f => exact fun _ h => nomatch h
  | ok s => exact .ok h

theorem logs_nextPart (scope : Scope) (values : List Value) (rest : List Pattern)
    (h : m.log = log) : Logs log (.ok (m.nextPart scope values rest)) := by
  cases rest <;> exact .ok h

theorem logs_settle (next : Control) (h : m.log = log) :
    Ensures (Step.Logs log) (m.settle next) := .ok h

variable [Source σ]

theorem logs_commit (cp : Checkpoint) (h : m.log = log) : Logs log (m.commit cp) := logs_source h

theorem logs_rollback (cp : Checkpoint) (h : m.log = log) : Logs log (m.rollback cp) :=
  logs_source h

theorem logs_nextBranch (scope : Scope) (rest : List Pattern) (h : m.log = log) :
    Logs log (.ok (m.nextBranch scope rest)) := by
  cases rest <;> exact .ok h

theorem logs_endRounds (entry : Option Checkpoint) (collected : Collected) (h : m.log = log) :
    Logs log (m.endRounds entry collected) := by
  cases entry with
  | none => exact .ok h
  | some cp => exact (logs_commit cp h).bind fun n hn => .ok hn

theorem logs_nextRound (operand : Pattern) (bounds : Bounds) (scope : Scope)
    (entry : Option Checkpoint) (count : Nat) (collected : Collected) (h : m.log = log) :
    Logs log (m.nextRound operand bounds scope entry count collected) := by
  unfold nextRound
  split
  · exact logs_endRounds entry collected h
  · exact .ok h

/-! ## Entering a pattern and handing over its outcome -/

theorem logs_enter (p : Pattern) (scope : Scope) (h : m.log = log) :
    Logs log (m.enter rules p scope) := by
  cases p with
  | sequence parts => exact logs_nextPart scope [] parts h
  | alternative branches => exact logs_nextBranch scope branches h
  | repetition operand bounds =>
    change Logs log (if bounds.min = 0 then _ else _)
    split
    · exact logs_nextRound operand bounds scope none 0 _ h
    · exact logs_nextRound (m := m.mark.2) operand bounds scope _ 0 _ h
  | rule ref => exact .after fun d => .ok h
  | _ => exact .ok h

theorem logs_recover (frame : Frame) (h : m.log = log) : Logs log (recover frame m) := by
  cases frame with
  | noise | listElement | listSeparator | optional | not | except =>
    exact (logs_rollback _ h).bind fun n hn => .ok hn
  | alternative keep rest scope cp =>
    exact (logs_rollback cp h).bind fun n hn => logs_nextBranch scope rest hn
  | repetition operand bounds scope entry cp count collected =>
    refine (logs_rollback cp h).bind fun n hn => ?_
    split
    · exact logs_endRounds entry collected hn
    · cases entry with
      | none => exact .ok hn
      | some cp => exact (logs_rollback cp hn).bind fun n' hn' => .ok hn'
  | sequence | discard | map | tap => exact .ok h

theorem logs_resume {frame : Frame} (hf : ∀ label, frame ≠ .tap label) (v : Value)
    (h : m.log = log) : Logs log (resume frame v m) := by
  cases frame with
  | noise | alternative | optional => exact (logs_commit _ h).bind fun n hn => .ok hn
  | sequence keep rest scope values => exact logs_nextPart scope _ rest h
  | repetition operand bounds scope entry cp count collected =>
    refine .after fun collected => (logs_commit cp h).bind fun n hn => ?_
    split
    · exact logs_nextRound operand bounds scope entry (count + 1) collected hn
    · exact logs_endRounds entry collected hn
  | listElement operand separator scope cp first collected =>
    refine .after fun collected => (logs_commit cp h).bind fun n hn => ?_
    split <;> exact .ok hn
  | except | not => exact (logs_rollback _ h).bind fun n hn => .ok hn
  | listSeparator | discard | map => exact .ok h
  | tap label => exact absurd rfl (hf label)

/-! ## Reading -/

theorem logs_take (next : Control) (h : m.log = log) : Ensures (Step.Logs log) (m.take next) :=
  Ensures.bind (logs_source h) fun _ hn => .ok hn

theorem logs_scanInt (format : IntFormat) (n : Numeral) (h : m.log = log) :
    Ensures (Step.Logs log) (m.scanInt format n) := by
  unfold scanInt
  split
  · exact logs_settle _ h
  · refine .after fun seen => ?_
    repeat' split
    all_goals first | exact logs_settle _ h | exact logs_take _ h | exact .ok trivial

theorem logs_resolveSymbol (best : Option (Value × Checkpoint)) (h : m.log = log) :
    Ensures (Step.Logs log) (m.resolveSymbol best) := by
  cases best with
  | none => exact logs_settle _ h
  | some best => exact (logs_rollback _ h).bind fun n hn => .ok hn

theorem logs_descendSymbol (table : SymbolTable) (node : Nat) (best : Option (Value × Checkpoint))
    (h : m.log = log) : Ensures (Step.Logs log) (m.descendSymbol table node best) := by
  refine Ensures.bind (logs_source h) fun n hn => ?_
  cases table.value? node with
  | none => exact .ok hn
  | some v =>
    have hbest : Logs log (n.commitBest best) := by
      cases best with
      | none => exact .ok hn
      | some best => exact logs_commit best.2 hn
    refine hbest.bind fun n' hn' => ?_
    dsimp only
    split <;> exact .ok hn'

theorem logs_scan (token : Scan) (h : m.log = log) :
    Ensures (Step.Logs log) (m.scan token) := by
  cases token with
  | char | endOfInput =>
    refine .after fun seen => ?_
    repeat' split
    all_goals first | exact logs_settle _ h | exact logs_take _ h | exact .ok trivial
  | literal expected =>
    cases expected with
    | nil => exact logs_settle _ h
    | cons c rest =>
      refine .after fun seen => ?_
      repeat' split
      all_goals first | exact logs_settle _ h | exact logs_take _ h | exact .ok trivial
  | int format n => exact logs_scanInt format n h
  | symbol table node best =>
    refine .after fun seen => ?_
    cases seen with
    | unknown => exact .ok trivial
    | ended => exact logs_resolveSymbol best h
    | char c =>
      dsimp only
      split
      · exact logs_descendSymbol table _ best h
      · exact logs_resolveSymbol best h

/-! ## Steps -/

/-- Only a tap that waits notes the value that it is handed. -/
theorem step_log (hs : m.step rules = .ok (.moved m')) : m'.log = m.log ∨
    ∃ v label stack, m.control = .matched v ∧ m.stack = .tap label :: stack ∧
      m'.log = ⟨label, v⟩ :: m.log := by
  obtain ⟨control, stack, s, log⟩ := m
  cases control with
  | enter p scope => exact .inl ((logs_enter p scope rfl).moved _ hs)
  | skip skipper next =>
    cases hs
    exact .inl rfl
  | scan token => exact .inl (logs_scan token rfl _ hs)
  | matched v =>
    cases stack with
    | nil => cases hs
    | cons frame stack =>
      by_cases hf : ∃ label, frame = .tap label
      · obtain ⟨label, rfl⟩ := hf
        cases hs
        exact .inr ⟨v, label, stack, rfl, rfl, rfl⟩
      · exact .inl ((logs_resume (fun label he => hf ⟨label, he⟩) v rfl).moved _ hs)
  | failed =>
    cases stack with
    | nil => cases hs
    | cons frame stack => exact .inl ((logs_recover frame rfl).moved _ hs)

end PegStream.Machine
