import PegStream.Proofs.Moves
import PegStream.Proofs.Tape

/-!
# Matches that follow a match on a tape

An input follows a tape if it answers every question that the tape can answer in the same way, and
goes on following it. A match on such an input then does, step by step, what the same match does on
the tape: it reads the same characters, opens and closes the same checkpoints and notes the same
taps. What a tape cannot answer, because its text may still grow, is left open unless the relation
is exact; so a tape is also followed, though not exactly, by every tape that has more text.

* `Follows`: what is asked of the relation between an input and a tape;
* `Machine.tracks_step`: one step;
* `Follows.moves`: any number of steps;
* `Follows.run`: a whole run, if the relation is exact.
-/

namespace PegStream

/-- The faults that lie in the grammar: a rule that is missing, or a value that is no text. All
others come from an input, or from the callers of a match. -/
def Fault.ofGrammar : Fault → Bool
  | notText _ | droppedRule _ | undefinedRule _ => true
  | _ => false

/-- The input `s` answers as the tape `t` does wherever the tape has an answer, for all `s` and `t`
in the relation `R`. If the relation is `exact`, the input also waits where the tape does. -/
structure Follows {σ : Type} [Source σ] (exact : Prop) (R : σ → Tape → Prop) : Prop where
  peek {s : σ} {t : Tape} {c : Char} : R s t → t.rest.head? = some c →
    Source.peek s = .ok (some c)
  ended {s : σ} {t : Tape} : R s t → t.rest.head? = none → t.final = true →
    Source.peek s = .ok none ∧ Source.isFinal s = true
  waits {s : σ} {t : Tape} : exact → R s t → t.rest.head? = none → t.final = false →
    Source.peek s = .ok none ∧ Source.isFinal s = false
  offset {s : σ} {t : Tape} : R s t → Source.offset s = Tape.offsetAt t.text t.cursor
  advance {s : σ} {t t' : Tape} : R s t → t.advance = .ok t' →
    ∃ s', Source.advance s = .ok s' ∧ R s' t'
  mark {s : σ} {t : Tape} : R s t → ∃ s', Source.mark s = (t.mark.1, s') ∧ R s' t.mark.2
  commit {s : σ} {t t' : Tape} {cp : Checkpoint} : R s t → t.commit cp = .ok t' →
    ∃ s', Source.commit cp s = .ok s' ∧ R s' t'
  rollback {s : σ} {t t' : Tape} {cp : Checkpoint} : R s t → t.rollback cp = .ok t' →
    ∃ s', Source.rollback cp s = .ok s' ∧ R s' t'

namespace Machine

variable {σ τ : Type}

/-- The same state of a match on another input. -/
def on (m : Machine τ) (s : σ) : Machine σ :=
  { control := m.control, stack := m.stack, source := s, log := m.log }

@[simp] theorem on_source (m : Machine τ) (s : σ) : (m.on s).source = s := rfl
@[simp] theorem on_log (m : Machine τ) (s : σ) : (m.on s).log = m.log := rfl

variable {exact : Prop} {R : σ → Tape → Prop} {s : σ} {n : Machine Tape}

/-! ## Results that follow -/

/-- The first result follows the second: it is the same state, or the same fault. -/
def Tracks (R : σ → Tape → Prop) (x : Except Fault (Machine σ)) (y : Except Fault (Machine Tape)) :
    Prop :=
  match y with
  | .ok n => ∃ s, x = .ok (n.on s) ∧ R s n.source
  | .error f => f.ofGrammar = false ∨ x = .error f

theorem Tracks.ok (h : R s n.source) : Tracks R (.ok (n.on s)) (.ok n) := ⟨s, rfl, h⟩

theorem Tracks.error (f : Fault) : Tracks R (.error f) (.error f) := .inr rfl

theorem Tracks.bind {x : Except Fault (Machine σ)} {y : Except Fault (Machine Tape)}
    {g : Machine σ → Except Fault (Machine σ)} {g' : Machine Tape → Except Fault (Machine Tape)}
    (h : Tracks R x y) (hg : ∀ s n, R s n.source → Tracks R (g (n.on s)) (g' n)) :
    Tracks R (x >>= g) (y >>= g') := by
  cases y with
  | ok n =>
    obtain ⟨s, rfl, hs⟩ := h
    exact hg s n hs
  | error f =>
    rcases h with h | rfl
    · exact .inl h
    · exact .inr rfl

/-- The first step follows the second, where the second does not wait or the relation is exact. -/
def StepTracks (exact : Prop) (R : σ → Tape → Prop) (x : Except Fault (Step σ))
    (y : Except Fault (Step Tape)) : Prop :=
  match y with
  | .ok (.moved n) => ∃ s, x = .ok (.moved (n.on s)) ∧ R s n.source
  | .ok .waiting => exact → x = .ok .waiting
  | .ok (.halted r) => x = .ok (.halted r)
  | .error f => f.ofGrammar = false ∨ x = .error f

theorem Tracks.moved {x : Except Fault (Machine σ)} {y : Except Fault (Machine Tape)}
    (h : Tracks R x y) : StepTracks exact R (.moved <$> x) (.moved <$> y) := by
  cases y with
  | ok n =>
    obtain ⟨s, rfl, hs⟩ := h
    exact ⟨s, rfl, hs⟩
  | error f =>
    rcases h with h | rfl
    · exact .inl h
    · exact .inr rfl

theorem Tracks.bindStep {x : Except Fault (Machine σ)} {y : Except Fault (Machine Tape)}
    {g : Machine σ → Except Fault (Step σ)} {g' : Machine Tape → Except Fault (Step Tape)}
    (h : Tracks R x y) (hg : ∀ s n, R s n.source → StepTracks exact R (g (n.on s)) (g' n)) :
    StepTracks exact R (x >>= g) (y >>= g') := by
  cases y with
  | ok n =>
    obtain ⟨s, rfl, hs⟩ := h
    exact hg s n hs
  | error f =>
    rcases h with h | rfl
    · exact .inl h
    · exact .inr rfl

theorem StepTracks.settle (h : R s n.source) (next : Control) :
    StepTracks exact R ((n.on s).settle next) (n.settle next) := ⟨s, rfl, h⟩

theorem tracks_nextPart (h : R s n.source) (scope : Scope) (values : List Value)
    (rest : List Pattern) :
    Tracks R (.ok ((n.on s).nextPart scope values rest)) (.ok (n.nextPart scope values rest)) := by
  cases rest with
  | nil => exact .ok (n := n.goto _) h
  | cons p rest => exact .ok (n := n.call _ p scope) h

/-! ## The operations of the input -/

section Operations

variable [Source σ] (F : Follows exact R)
include F

theorem tracks_commit (h : R s n.source) (cp : Checkpoint) :
    Tracks R ((n.on s).commit cp) (n.commit cp) := by
  change Tracks R ((fun source => { n.on s with source }) <$> Source.commit cp s)
    ((fun source => { n with source }) <$> n.source.commit cp)
  cases ht : n.source.commit cp with
  | ok t' =>
    obtain ⟨s', hs', h'⟩ := F.commit h ht
    rw [hs']
    exact ⟨s', rfl, h'⟩
  | error f =>
    refine .inl ?_
    unfold Tape.commit at ht
    split at ht
    · cases ht; rfl
    · split at ht <;> cases ht
      rfl

theorem tracks_rollback (h : R s n.source) (cp : Checkpoint) :
    Tracks R ((n.on s).rollback cp) (n.rollback cp) := by
  change Tracks R ((fun source => { n.on s with source }) <$> Source.rollback cp s)
    ((fun source => { n with source }) <$> n.source.rollback cp)
  cases ht : n.source.rollback cp with
  | ok t' =>
    obtain ⟨s', hs', h'⟩ := F.rollback h ht
    rw [hs']
    exact ⟨s', rfl, h'⟩
  | error f =>
    refine .inl ?_
    unfold Tape.rollback at ht
    split at ht
    · cases ht; rfl
    · split at ht <;> cases ht
      rfl

theorem tracks_advance (h : R s n.source) : Tracks R (n.on s).advance n.advance := by
  change Tracks R ((fun source => { n.on s with source }) <$> Source.advance s)
    ((fun source => { n with source }) <$> n.source.advance)
  cases ht : n.source.advance with
  | ok t' =>
    obtain ⟨s', hs', h'⟩ := F.advance h ht
    rw [hs']
    exact ⟨s', rfl, h'⟩
  | error f =>
    refine .inl ?_
    unfold Tape.advance at ht
    split at ht <;> cases ht
    rfl

/-- Opening a checkpoint gives the same checkpoint and goes on following. -/
theorem mark_on (h : R s n.source) :
    ∃ s', (n.on s).mark = (n.mark.1, n.mark.2.on s') ∧ R s' n.mark.2.source := by
  obtain ⟨s', hs', h'⟩ := F.mark h
  refine ⟨s', ?_, h'⟩
  change ((Source.mark s).1, { n.on s with source := (Source.mark s).2 }) = _
  rw [hs']
  rfl

theorem hasPassed_on (h : R s n.source) (cp : Checkpoint) :
    (n.on s).hasPassed cp = n.hasPassed cp := by
  change decide (cp.index < Source.offset s) = decide (cp.index < Source.offset n.source)
  rw [F.offset h, Tape.offset_eq]

/-- What is read at the cursor of the tape is read at that of the input. -/
theorem tracks_ahead (h : R s n.source) {g : Ahead → Except Fault (Step σ)}
    {g' : Ahead → Except Fault (Step Tape)}
    (hg : ∀ a, a ≠ .unknown → StepTracks exact R (g a) (g' a)) (hw : g .unknown = .ok .waiting)
    (hw' : g' .unknown = .ok .waiting) :
    StepTracks exact R ((n.on s).ahead >>= g) (n.ahead >>= g') := by
  unfold ahead
  rw [Tape.peek_eq, Tape.isFinal_eq, on_source]
  cases hc : n.source.rest.head? with
  | some c =>
    rw [F.peek h hc]
    exact hg (.char c) (by simp)
  | none =>
    cases hf : n.source.final with
    | true =>
      obtain ⟨hp, hi⟩ := F.ended h hc hf
      rw [hp]
      change StepTracks exact R (g (if Source.isFinal s = true then .ended else .unknown))
        (g' .ended)
      rw [hi]
      exact hg .ended (by simp)
    | false =>
      change StepTracks exact R _ (g' .unknown)
      rw [hw']
      intro he
      obtain ⟨hp, hi⟩ := F.waits he h hc hf
      rw [hp]
      change g (if Source.isFinal s = true then .ended else .unknown) = _
      rw [hi]
      exact hw

/-! ## Parts of a step -/

theorem tracks_nextBranch (h : R s n.source) (scope : Scope) (rest : List Pattern) :
    Tracks R (.ok ((n.on s).nextBranch scope rest)) (.ok (n.nextBranch scope rest)) := by
  cases rest with
  | nil => exact .ok (n := n.goto _) h
  | cons p rest =>
    obtain ⟨s', hm, h'⟩ := mark_on F h
    simp only [nextBranch, hm]
    exact .ok (n := n.mark.2.call _ p scope) h'

theorem tracks_endRounds (h : R s n.source) (entry : Option Checkpoint) (collected : Collected) :
    Tracks R ((n.on s).endRounds entry collected) (n.endRounds entry collected) := by
  cases entry with
  | none => exact .ok (n := n.goto _) h
  | some cp => exact (tracks_commit F h cp).bind fun s n h => .ok (n := n.goto _) h

theorem tracks_nextRound (h : R s n.source) (operand : Pattern) (bounds : Bounds) (scope : Scope)
    (entry : Option Checkpoint) (count : Nat) (collected : Collected) :
    Tracks R ((n.on s).nextRound operand bounds scope entry count collected)
      (n.nextRound operand bounds scope entry count collected) := by
  unfold nextRound
  split
  · exact tracks_endRounds F h entry collected
  · obtain ⟨s', hm, h'⟩ := mark_on F h
    simp only [hm]
    exact .ok (n := n.mark.2.call _ operand scope) h'

theorem tracks_startRounds (h : R s n.source) (operand : Pattern) (bounds : Bounds)
    (scope : Scope) :
    Tracks R ((n.on s).startRounds operand bounds scope) (n.startRounds operand bounds scope) := by
  unfold startRounds
  split
  · exact tracks_nextRound F h ..
  · obtain ⟨s', hm, h'⟩ := mark_on F h
    simp only [hm]
    exact tracks_nextRound F h' ..

/-- A frame that opens a checkpoint in front of a part. -/
theorem tracks_call (h : R s n.source) (frame : Checkpoint → Frame) (p : Pattern) (scope : Scope) :
    Tracks R (.ok ((n.on s).mark.2.call (frame (n.on s).mark.1) p scope))
      (.ok (n.mark.2.call (frame n.mark.1) p scope)) := by
  obtain ⟨s', hm, h'⟩ := mark_on F h
  rw [hm]
  exact .ok (n := n.mark.2.call (frame n.mark.1) p scope) h'

theorem tracks_enter (h : R s n.source) (rules : RuleBook) (p : Pattern) (scope : Scope) :
    Tracks R ((n.on s).enter rules p scope) (n.enter rules p scope) := by
  cases p with
  | char | literal | endOfInput | pass | fail | int | symbol | lexeme | skipping =>
    exact .ok (n := n.goto _) h
  | sequence parts => exact tracks_nextPart h scope [] parts
  | alternative branches => exact tracks_nextBranch F h scope branches
  | repetition operand bounds => exact tracks_startRounds F h operand bounds scope
  | optional operand => exact tracks_call F h (.optional (!operand.isSilent)) operand scope
  | list operand separator =>
    exact tracks_call F h (fun cp => .listElement operand separator scope cp true _) operand scope
  | except operand excluded => exact tracks_call F h (.except operand scope) excluded scope
  | not operand => exact tracks_call F h .not operand scope
  | discard operand | map operand | tap operand => exact .ok (n := n.call _ operand scope) h
  | rule ref =>
    change Tracks R (rules.resolve ref >>= fun d => .ok ((n.on s).goto (.enter d scope)))
      (rules.resolve ref >>= fun d => .ok (n.goto (.enter d scope)))
    cases rules.resolve ref with
    | ok d => exact .ok (n := n.goto _) h
    | error f => exact .error f

theorem tracks_resume (h : R s n.source) (frame : Frame) (v : Value) :
    Tracks R (resume frame v (n.on s)) (resume frame v n) := by
  cases frame with
  | noise skipper next cp =>
    simp only [resume, hasPassed_on F h]
    exact (tracks_commit F h cp).bind fun s n h => .ok (n := n.goto _) h
  | sequence keep rest scope values => exact tracks_nextPart h ..
  | alternative _ _ _ cp | optional _ cp =>
    exact (tracks_commit F h cp).bind fun s n h => .ok (n := n.goto _) h
  | repetition operand bounds scope entry cp count collected =>
    simp only [resume, hasPassed_on F h]
    cases collected.push v with
    | error f => exact .error f
    | ok collected =>
      refine (tracks_commit F h cp).bind fun s n h => ?_
      split
      · exact tracks_nextRound F h ..
      · exact tracks_endRounds F h ..
  | listElement operand separator scope cp first collected =>
    simp only [resume, hasPassed_on F h]
    cases collected.push v with
    | error f => exact .error f
    | ok collected =>
      refine (tracks_commit F h cp).bind fun s n h => ?_
      split
      · exact tracks_call F h (fun cp => .listSeparator operand separator scope cp collected) ..
      · exact .ok (n := n.goto _) h
  | listSeparator operand separator scope cp collected =>
    exact .ok (n := n.call _ operand scope) h
  | except _ _ cp | not cp =>
    exact (tracks_rollback F h cp).bind fun s n h => .ok (n := n.goto _) h
  | discard | map => exact .ok (n := n.goto _) h
  | tap label =>
    exact .ok (n := { n with control := .matched .nil, log := ⟨label, v⟩ :: n.log }) h

theorem tracks_recover (h : R s n.source) (frame : Frame) :
    Tracks R (recover frame (n.on s)) (recover frame n) := by
  cases frame with
  | noise _ _ cp | listElement _ _ _ cp | listSeparator _ _ _ cp | optional _ cp | except _ _ cp
  | not cp => exact (tracks_rollback F h cp).bind fun s n h => .ok (n := n.goto _) h
  | alternative _ rest scope cp =>
    exact (tracks_rollback F h cp).bind fun s n h => tracks_nextBranch F h scope rest
  | repetition _ bounds _ entry cp count collected =>
    refine (tracks_rollback F h cp).bind fun s n h => ?_
    split
    · exact tracks_endRounds F h ..
    · cases entry with
      | none => exact .ok (n := n.goto _) h
      | some cp => exact (tracks_rollback F h cp).bind fun s n h => .ok (n := n.goto _) h
  | sequence | discard | map | tap => exact .ok (n := n.goto _) h

/-! ## Steps -/

theorem tracks_take (h : R s n.source) (next : Control) :
    StepTracks exact R ((n.on s).take next) (n.take next) :=
  (tracks_advance F h).bindStep fun _ _ h => .settle h next

theorem tracks_scanInt (h : R s n.source) (format : IntFormat) (numeral : Numeral) :
    StepTracks exact R ((n.on s).scanInt format numeral) (n.scanInt format numeral) := by
  unfold scanInt
  split
  · exact .settle h _
  · refine tracks_ahead F h (fun a ha => ?_) rfl rfl
    cases a with
    | unknown => exact absurd rfl ha
    | ended => exact .settle h _
    | char c =>
      dsimp only
      split
      · exact tracks_take F h _
      · split
        · exact .settle h _
        · split
          · exact .settle h _
          · exact tracks_take F h _

theorem tracks_resolveSymbol (h : R s n.source) (best : Option (Value × Checkpoint)) :
    StepTracks exact R ((n.on s).resolveSymbol best) (n.resolveSymbol best) := by
  cases best with
  | none => exact .settle h _
  | some best => exact (tracks_rollback F h best.2).bindStep fun _ _ h => .settle h _

theorem tracks_descendSymbol (h : R s n.source) (table : SymbolTable) (node : Nat)
    (best : Option (Value × Checkpoint)) :
    StepTracks exact R ((n.on s).descendSymbol table node best)
      (n.descendSymbol table node best) := by
  refine (tracks_advance F h).bindStep fun s n h => ?_
  cases table.value? node with
  | none => exact .settle h _
  | some v =>
    have hb : Tracks R ((n.on s).commitBest best) (n.commitBest best) := by
      cases best with
      | none => exact .ok h
      | some best => exact tracks_commit F h best.2
    refine hb.bindStep fun s n h => ?_
    dsimp only
    split
    · exact .settle h _
    · obtain ⟨s', hm, h'⟩ := mark_on F h
      rw [hm]
      exact .settle h' _

theorem tracks_scanSymbol (h : R s n.source) (table : SymbolTable) (node : Nat)
    (best : Option (Value × Checkpoint)) :
    StepTracks exact R ((n.on s).scanSymbol table node best) (n.scanSymbol table node best) := by
  refine tracks_ahead F h (fun a ha => ?_) rfl rfl
  cases a with
  | unknown => exact absurd rfl ha
  | ended => exact tracks_resolveSymbol F h best
  | char c =>
    dsimp only
    split
    · exact tracks_descendSymbol F h ..
    · exact tracks_resolveSymbol F h best

theorem tracks_scan (h : R s n.source) (token : Scan) :
    StepTracks exact R ((n.on s).scan token) (n.scan token) := by
  cases token with
  | char accepted =>
    refine tracks_ahead F h (fun a ha => ?_) rfl rfl
    cases a with
    | unknown => exact absurd rfl ha
    | ended => exact .settle h _
    | char c =>
      dsimp only
      split
      · exact tracks_take F h _
      · exact .settle h _
  | literal expected =>
    cases expected with
    | nil => exact .settle h _
    | cons e rest =>
      refine tracks_ahead F h (fun a ha => ?_) rfl rfl
      cases a with
      | unknown => exact absurd rfl ha
      | ended => exact .settle h _
      | char c =>
        dsimp only
        split
        · exact tracks_take F h _
        · exact .settle h _
  | endOfInput =>
    refine tracks_ahead F h (fun a ha => ?_) rfl rfl
    cases a with
    | unknown => exact absurd rfl ha
    | ended | char => exact .settle h _
  | int format numeral => exact tracks_scanInt F h format numeral
  | symbol table node best => exact tracks_scanSymbol F h table node best

/-- A step of a match follows the step of the same match on the tape. -/
theorem tracks_step (h : R s n.source) (rules : RuleBook) :
    StepTracks exact R ((n.on s).step rules) (n.step rules) := by
  obtain ⟨control, stack, t, log⟩ := n
  cases control with
  | enter p scope => exact (tracks_enter F h rules p scope).moved
  | skip skipper next => exact (tracks_call F h (.noise skipper next) skipper none).moved
  | scan token => exact tracks_scan F h token
  | matched v =>
    cases stack with
    | nil => exact rfl
    | cons frame stack =>
      exact (tracks_resume F (n := ⟨.matched v, stack, t, log⟩) h frame v).moved
  | failed =>
    cases stack with
    | nil => exact rfl
    | cons frame stack => exact (tracks_recover F (n := ⟨.failed, stack, t, log⟩) h frame).moved

end Operations

end Machine

/-! ## Runs -/

namespace Follows

open Machine

variable {σ : Type} [Source σ] {exact : Prop} {R : σ → Tape → Prop} {s : σ} {n n' : Machine Tape}
  {rules : RuleBook} {k : Nat}

/-- A state that the match on the tape comes to is one that the match on the input comes to. -/
theorem moves (F : Follows exact R) (h : R s n.source) (hm : Moves rules k n n') :
    ∃ s', Moves rules k (n.on s) (n'.on s') ∧ R s' n'.source := by
  induction hm generalizing s with
  | refl n => exact ⟨s, .refl _, h⟩
  | cons hs _ ih =>
    have hstep := tracks_step F h rules
    rw [hs] at hstep
    obtain ⟨s₁, hs₁, h₁⟩ := hstep
    obtain ⟨s', hm', h'⟩ := ih h₁
    exact ⟨s', .cons hs₁ hm', h'⟩

/-- A run that ends on the tape, other than by a broken contract of the input or for lack of text,
ends in the same way on the input. -/
theorem verdict (F : Follows exact R) (h : R s n.source) {v : Verdict}
    (hv : n.verdict? rules = some v) (hw : v = .waiting → exact)
    (hf : ∀ f, v = .fault f → f.ofGrammar = true) : (n.on s).verdict? rules = some v := by
  have hstep := tracks_step F h rules
  unfold verdict? at hv ⊢
  split at hv <;> rename_i hs <;> rw [hs] at hstep <;> cases hv
  · rename_i f
    rcases hstep with hi | he
    · rw [hf f rfl] at hi
      cases hi
    · rw [he]
  · rw [hstep (hw rfl)]
  · rw [hstep]
  · rw [hstep]

/-- A run on an input that follows a tape exactly gives what the run on the tape gives. -/
theorem run (F : Follows True R) (h : R s n.source) (rules : RuleBook) (fuel : Nat)
    (hf : ∀ f, (n.run rules fuel).2 = .fault f → f.ofGrammar = true) :
    ∃ s', (n.on s).run rules fuel = ((n.run rules fuel).1.on s', (n.run rules fuel).2) ∧
      R s' (n.run rules fuel).1.source := by
  induction fuel generalizing s n with
  | zero => exact ⟨s, rfl, h⟩
  | succ fuel ih =>
    cases hv : n.verdict? rules with
    | some v =>
      rw [run_of_verdict hv] at hf ⊢
      rw [run_of_verdict (F.verdict h hv (fun _ => trivial) hf)]
      exact ⟨s, rfl, h⟩
    | none =>
      obtain ⟨n₁, hs⟩ := exists_moved hv
      have hstep := tracks_step F h rules
      rw [hs] at hstep
      obtain ⟨s₁, hs₁, h₁⟩ := hstep
      rw [run_of_moved hs] at hf ⊢
      rw [run_of_moved hs₁]
      exact ih h₁ hf

end Follows

end PegStream
