import PegStream.Proofs.Nesting

/-!
# Operations of a match

Every pattern that is entered in a match is an operation of its own. It begins where the pattern is
entered, it goes on above the frames that wait for it, also across pauses in which the input grows,
and it ends where it hands its outcome to them.

* `Machine.Works`: what an operation comes to;
* `Machine.Works.lower`: an operation does not depend on the frames that wait for it;
* `Machine.Works.on_tape`: nor on the input beyond the tape that the input stands for;
* `Machine.Works.passes`: an operation that has ended has left the open checkpoints alone;
* `Machine.Works.stage`, `Machine.Stage.done`: an operation that makes one attempt after another
  ends as its attempts let it end.
-/

namespace PegStream

/-! ## Tapes that are read on -/

namespace Tape

variable {t t₁ t₂ t' : Tape} {cp : Checkpoint}

/-- A tape that has been read on, with the same checkpoints open. With its cursor moved back it is
the tape from before, apart from text that has been added. -/
structure Passes (t t' : Tape) : Prop where
  valid : t'.Valid
  reached : t.cursor ≤ t'.cursor
  back : t.Grows { t' with cursor := t.cursor }

namespace Passes

theorem of_grows (h : t.Grows t') (hv : t'.Valid) : t.Passes t' := by
  refine ⟨hv, Nat.le_of_eq h.cursor.symm, ?_⟩
  rw [← h.cursor]
  exact h

theorem trans (h : t.Passes t₁) (h' : t₁.Passes t₂) : t.Passes t₂ := by
  refine ⟨h'.valid, Nat.le_trans h.reached h'.reached, ?_⟩
  obtain ⟨htext, -, hsaved, hfinal⟩ := h.back
  obtain ⟨htext', -, hsaved', hfinal'⟩ := h'.back
  obtain ⟨more, hm, hn⟩ := htext
  obtain ⟨more', hm', hn'⟩ := htext'
  refine ⟨⟨more ++ more', ?_, fun hf => ?_⟩, rfl, hsaved'.trans hsaved,
    fun hf => hfinal' (hfinal hf)⟩
  · change t₂.text = _
    rw [show t₂.text = t₁.text ++ more' from hm', show t₁.text = t.text ++ more from hm,
      List.append_assoc]
  · rw [hn hf, hn' (hfinal hf)]
    rfl

end Passes

/-- The checkpoint `cp` was opened on the tape `t`, possibly grown, and that gave the tape `t₁`. -/
def Opens (t : Tape) (cp : Checkpoint) (t₁ : Tape) : Prop :=
  ∃ grown : Tape, t.Grows grown ∧ grown.Valid ∧ cp = grown.mark.1 ∧ t₁ = grown.mark.2

namespace Opens

theorem mark (h : t.Grows t') (hv : t'.Valid) : t.Opens t'.mark.1 t'.mark.2 :=
  ⟨t', h, hv, rfl, rfl⟩

theorem valid (h : t.Opens cp t₁) : t₁.Valid := by
  obtain ⟨grown, -, hv, -, rfl⟩ := h
  exact hv.mark

theorem saved_eq (h : t.Opens cp t₁) (hp : t₁.Passes t₂) :
    ∃ grown : Tape, t.Grows grown ∧ grown.Valid ∧ t₂.saved = grown.cursor :: grown.saved ∧
      cp = record t₂.text grown.cursor grown.saved.length ∧
      grown.Grows { t₂ with cursor := grown.cursor, saved := grown.saved } ∧
      grown.cursor ≤ t₂.cursor := by
  obtain ⟨grown, hg, hv, rfl, rfl⟩ := h
  obtain ⟨htext, -, hsaved, hfinal⟩ := hp.back
  have hback : grown.Grows { t₂ with cursor := grown.cursor, saved := grown.saved } :=
    ⟨htext, rfl, rfl, hfinal⟩
  refine ⟨grown, hg, hv, hsaved, ?_, hback, hp.reached⟩
  exact (record_congr (hback.take hv (Nat.le_refl _)) _).symm

/-- A rollback to a checkpoint gives back the tape that it was opened on. -/
theorem rollback (h : t.Opens cp t₁) (hp : t₁.Passes t₂) :
    ∃ t₃, Source.rollback cp t₂ = .ok t₃ ∧ t.Grows t₃ ∧ t₃.Valid := by
  obtain ⟨grown, hg, -, hsaved, rfl, hback, -⟩ := h.saved_eq hp
  have hr := rollback_cons hsaved
  exact ⟨_, hr, hg.trans hback, hp.valid.rollback hr⟩

/-- A commit keeps what has been read since the checkpoint was opened. -/
theorem commit (h : t.Opens cp t₁) (hp : t₁.Passes t₂) :
    ∃ t₃, Source.commit cp t₂ = .ok t₃ ∧ t.Passes t₃ := by
  obtain ⟨grown, hg, hv, hsaved, rfl, hback, hle⟩ := h.saved_eq hp
  have hc := commit_cons hsaved
  have hpast : grown.Passes { t₂ with saved := grown.saved } :=
    ⟨hp.valid.commit hc, hle, hback⟩
  exact ⟨_, hc, (Passes.of_grows hg hv).trans hpast⟩

end Opens

end Tape

namespace Machine

variable {σ : Type}

/-! ## Runs above frames that wait -/

/-- What was entered above the frames `base` has come to its outcome. -/
def Reports (base : List Frame) (m : Machine σ) : Prop := m.stack = base ∧ m.control.Decided

/-- What the match comes to from `m` on, up to the outcome that the frames `base` wait for. Every
step has some rules to go by, and the input may grow at any time. -/
inductive Works [Source σ] (grows : σ → σ → Prop) (base : List Frame) (m : Machine σ) :
    Machine σ → Prop
  | refl : Works grows base m m
  | step {m₁ m₂ : Machine σ} (rules : RuleBook) : Works grows base m m₁ → ¬ m₁.Reports base →
    m₁.step rules = .ok (.moved m₂) → Works grows base m m₂
  | grow {m₁ : Machine σ} {s : σ} : Works grows base m m₁ → grows m₁.source s →
    Works grows base m (m₁.on s)

section

variable [Source σ] {grows : σ → σ → Prop} {rules : RuleBook} {m m' : Machine σ}
  {above base : List Frame}

/-- A step above some frames is the same step without them. -/
theorem step_above (hs : m.step rules = .ok (.moved m')) (hm : m.stack = above ++ base)
    (hr : ¬ m.Reports base) : ∃ above', m'.stack = above' ++ base ∧
      step rules { m with stack := above } = .ok (.moved { m' with stack := above' }) := by
  rcases step_atop hs with
    ⟨q, f, scope, hcontrol, rfl⟩ | ⟨popped, rest, n, hpop, hone, -, rfl, hall⟩
  · refine ⟨.map f :: above, ?_, ?_⟩
    · change Frame.map f :: m.stack = _
      rw [hm, List.cons_append]
    · simp only [step, hcontrol]
      rfl
  rw [hm] at hpop
  rcases hone with rfl | ⟨hd, frame, rfl⟩
  · cases hpop
    exact ⟨n.stack ++ above, (List.append_assoc ..).symm, hall above⟩
  · cases above with
    | nil => exact absurd ⟨hm, hd⟩ hr
    | cons frame' upper =>
      cases hpop
      exact ⟨n.stack ++ upper, (List.append_assoc ..).symm, hall upper⟩

/-- An operation above some frames is the same operation without them. -/
theorem Works.lower (h : Works grows base m m') (hm : m.stack = above ++ base) :
    ∃ above', m'.stack = above' ++ base ∧
      Works grows [] { m with stack := above } { m' with stack := above' } := by
  induction h with
  | refl => exact ⟨above, hm, .refl⟩
  | step rules _ hr hs ih =>
    obtain ⟨above₁, hstack, hw⟩ := ih
    obtain ⟨above₂, hstack', hs'⟩ := step_above hs hstack hr
    refine ⟨above₂, hstack', hw.step rules (fun hr' => hr ⟨?_, hr'.2⟩) hs'⟩
    rw [hstack, show above₁ = [] from hr'.1, List.nil_append]
  | grow _ hg ih =>
    obtain ⟨above₁, hstack, hw⟩ := ih
    exact ⟨above₁, hstack, hw.grow hg⟩

/-- Steps of a match that is not decided on the way are what it comes to. -/
theorem Works.of_moves {k : Nat} {m₁ : Machine σ} (h : Works grows [] m m₁)
    (hm : Moves rules k m₁ m') : Works grows [] m m' := by
  induction hm with
  | refl => exact h
  | @cons _ m₁ _ _ hs _ ih =>
    refine ih (h.step rules (fun hr => ?_) hs)
    obtain ⟨control, stack, s, log⟩ := m₁
    obtain ⟨rfl, hd⟩ := hr
    cases control with
    | matched | failed => cases hs
    | enter | skip | scan => exact hd

end

/-! ## On tapes -/

section

variable {p : Pattern} {scope : Scope} {log : List Tap} {t : Tape} {n : Machine Tape}

/-- The open checkpoints of an operation belong to it and to its parts. -/
theorem Works.disciplined (hv : t.Valid)
    (h : Works Tape.Grows [] ⟨.enter p scope, [], t, log⟩ n) :
    ∃ start, t.Grows start ∧ Disciplined start n := by
  induction h with
  | refl => exact ⟨t, .refl t, disciplined_enter hv p scope log⟩
  | step rules _ _ hs ih =>
    obtain ⟨start, hg, hd⟩ := ih
    exact ⟨start, hg, hd.moves (.one hs)⟩
  | grow _ hg ih =>
    obtain ⟨start, hgs, hd⟩ := ih
    obtain ⟨hstart, hd'⟩ := Tape.Holds.grows hd hg
    exact ⟨_, hgs.trans hstart, hd'⟩

/-- An operation on an input that stands for a tape is the same operation on the tape. -/
theorem Works.on_tape [Source σ] {grows : σ → σ → Prop} {R : σ → Tape → Prop} (F : Follows True R)
    (hgrows : ∀ {s s' t}, R s t → grows s s' → ∃ t', R s' t' ∧ t.Grows t') {s : σ} {m : Machine σ}
    (hR : R s t) (hv : t.Valid) (h : Works grows [] ⟨.enter p scope, [], s, log⟩ m) :
    ∃ n : Machine Tape, m = n.on m.source ∧ R m.source n.source ∧
      Works Tape.Grows [] ⟨.enter p scope, [], t, log⟩ n := by
  induction h with
  | refl => exact ⟨_, rfl, hR, .refl⟩
  | step rules _ hr hs ih =>
    obtain ⟨n, hm, hRn, hw⟩ := ih
    obtain ⟨start, -, hd⟩ := hw.disciplined hv
    rw [hm] at hs
    obtain ⟨n', hs', hm', hR'⟩ := exists_step_of_follows F hRn hd hs
    refine ⟨n', hm', hR', hw.step rules (fun hr' => hr ?_) hs'⟩
    rw [hm]
    exact hr'
  | grow _ hg ih =>
    obtain ⟨n, hm, hRn, hw⟩ := ih
    obtain ⟨t', hR', hg'⟩ := hgrows hRn hg
    exact ⟨n.on t', by rw [hm]; rfl, hR', hw.grow hg'⟩

/-- An operation that has ended has closed the checkpoints that it opened, and no others. -/
theorem Works.passes {base : List Frame} (hv : t.Valid)
    (h : Works Tape.Grows base ⟨.enter p scope, base, t, log⟩ n) (hr : n.Reports base) :
    t.Passes n.source := by
  obtain ⟨above, hstack, hlow⟩ := h.lower (List.nil_append _).symm
  obtain ⟨start, hg, hd⟩ := hlow.disciplined hv
  obtain ⟨control, stack, t', log'⟩ := n
  obtain ⟨rfl, hdecided⟩ := hr
  obtain rfl : above = [] := List.append_cancel_right hstack.symm
  have hheld : start.Holds t' [] := by
    cases control with
    | matched | failed => exact hd
    | enter | skip | scan => exact hdecided.elim
  obtain ⟨htext, hfinal, hv', hreached, own, hsaved, hown, -⟩ := hheld
  cases own with
  | cons => cases hown
  | nil =>
    refine ⟨hv', hg.cursor ▸ hreached, ?_, rfl, ?_, ?_⟩
    · change ∃ more, t'.text = _ ∧ _
      rw [htext]
      exact hg.text
    · exact hsaved.trans hg.saved
    · intro hf
      exact hfinal.trans (hg.final hf)

/-! ## One attempt after another -/

/-- An operation begins an attempt, the outcome of which a frame waits for, or it is over. -/
inductive Attempts (Waits : Frame → Tape → Prop) (Done : Control → Tape → Prop) :
    Machine Tape → Prop
  | begun {p : Pattern} {scope : Scope} {frame : Frame} {t : Tape} {log : List Tap} :
    Waits frame t → t.Valid → Attempts Waits Done ⟨.enter p scope, [frame], t, log⟩
  | ended {control : Control} {t : Tape} {log : List Tap} :
    control.Decided → Done control t → Attempts Waits Done ⟨control, [], t, log⟩

/-- Where an operation stands that begins at `m`: before its first attempt, within one, or at its
end. -/
inductive Stage (m : Machine Tape) (Waits : Frame → Tape → Prop) (Done : Control → Tape → Prop) :
    Machine Tape → Prop
  | before {t : Tape} : m.source.Grows t → Stage m Waits Done (m.on t)
  | within {p : Pattern} {scope : Scope} {frame : Frame} {t : Tape} {log : List Tap}
    {n : Machine Tape} : Waits frame t → t.Valid →
    Works Tape.Grows [frame] ⟨.enter p scope, [frame], t, log⟩ n → Stage m Waits Done n
  | after {n : Machine Tape} : n.Reports [] → Done n.control n.source → Stage m Waits Done n

section

variable (Waits : Frame → Tape → Prop) (Done : Control → Tape → Prop)
  (hopen : ∀ {rules t' n}, t.Grows t' → t'.Valid →
    Machine.step rules ⟨.enter p scope, [], t', log⟩ = .ok (.moved n) → Attempts Waits Done n)
  (hclose : ∀ {rules frame t₁ t₂ control log' n}, Waits frame t₁ → t₁.Passes t₂ →
    Control.Decided control → Machine.step rules ⟨control, [frame], t₂, log'⟩ = .ok (.moved n) →
    Attempts Waits Done n)
  (hdone : ∀ {control t₁ t₂}, Done control t₁ → t₁.Grows t₂ → Done control t₂)

variable {Waits Done} in
theorem Attempts.stage {m : Machine Tape} (h : Attempts Waits Done n) : Stage m Waits Done n := by
  cases h with
  | begun hw hv => exact .within hw hv .refl
  | ended hd hend => exact .after ⟨rfl, hd⟩ hend

include hopen hclose hdone in
/-- An operation stands before, within or after its attempts, if it begins an attempt or is over as
soon as it is entered, and again whenever an attempt is over. -/
theorem Works.stage (hv : t.Valid) (h : Works Tape.Grows [] ⟨.enter p scope, [], t, log⟩ n) :
    Stage ⟨.enter p scope, [], t, log⟩ Waits Done n := by
  induction h with
  | refl => exact .before (.refl t)
  | @step m₁ m₂ rules _ hr hs ih =>
    cases ih with
    | before hg => exact (hopen hg (hg.valid hv) hs).stage
    | @within p' scope' frame t₁ log₁ _ hw hv₁ hworks =>
      -- Only the step that hands the outcome to the frame leaves the attempt.
      by_cases hend : m₁.Reports [frame]
      · have hpast := hworks.passes hv₁ hend
        obtain ⟨control, stack, t₂, log₂⟩ := m₁
        obtain ⟨rfl, hd⟩ := hend
        exact (hclose hw hpast hd hs).stage
      · exact .within hw hv₁ (hworks.step rules hend hs)
    | after hr' => exact absurd hr' hr
  | grow _ hg ih =>
    cases ih with
    | before hg' => exact .before (hg'.trans hg)
    | within hw hv₁ hworks => exact .within hw hv₁ (hworks.grow hg)
    | after hr' hend => exact .after hr' (hdone hend hg)

end

/-- At its end, an operation is over. -/
theorem Stage.done {Waits : Frame → Tape → Prop} {Done : Control → Tape → Prop}
    (h : Stage ⟨.enter p scope, [], t, log⟩ Waits Done n) (hr : n.Reports []) :
    Done n.control n.source := by
  cases h with
  | before => exact hr.2.elim
  | within _ _ hworks =>
    -- The frame still waits.
    obtain ⟨above, hstack, -⟩ := hworks.lower (List.nil_append _).symm
    rw [hr.1] at hstack
    cases above <;> cases hstack
  | after _ hend => exact hend

/-- A frame that is handed an outcome has waited for it, while the tape was read on. -/
theorem Stage.handed {Waits : Frame → Tape → Prop} {Done : Control → Tape → Prop} {frame : Frame}
    (h : Stage ⟨.enter p scope, [], t, log⟩ Waits Done n) (hr : n.Reports [frame]) :
    ∃ t₁, Waits frame t₁ ∧ t₁.Passes n.source := by
  cases h with
  | before => exact hr.2.elim
  | within hw hv hworks =>
    obtain ⟨above, hstack, -⟩ := hworks.lower (List.nil_append _).symm
    rw [hr.1] at hstack
    cases above with
    | nil =>
      cases hstack
      exact ⟨_, hw, hworks.passes hv hr⟩
    | cons frame above =>
      rw [List.cons_append] at hstack
      cases above <;> cases hstack
  | after hr' => cases hr.1.symm.trans hr'.1

end

end Machine

end PegStream
