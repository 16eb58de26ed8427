import PegStream.Proofs.Operations
import PegStream.Proofs.Taps

/-!
# Attempts that are given back

A sequence, or a token, that fails in the middle leaves the cursor where it failed. Whoever can go
on from a failure has opened a checkpoint in front of the attempt, and goes back to it. Since an
attempt closes all checkpoints that it opens, and no others, that checkpoint is the innermost one
when the attempt is over, whatever it was made of and however often it had to wait for text.

* `Machine.givesBack_of_recover`: an attempt under a checkpoint is given back if it fails;
* `Machine.Works.unmoved`: alternatives, repetitions and negations that fail leave a tape as it was;
* `Machine.failures_are_undone`: so it is on every input, and for lists and skipping as well.
-/

namespace PegStream.Machine

open Tape (Opens Passes)

variable {σ ν : Type}

/-! ## Outcomes of operations -/

/-- The operation that begins at `m` comes to its end at `m'` and hands the outcome over. -/
structure Hands [Source σ] (grows : σ → σ → Prop) (m : Machine σ) (outcome : Control)
    (m' : Machine σ) : Prop where
  works : Works grows m.stack m m'
  stack : m'.stack = m.stack
  control : m'.control = outcome

/-- If the attempt that begins at `m` fails, then the match goes on with `next` in the next step,
and on an input that looks as `s` does. Of the attempt there is left what it has noted, on top of
what was noted before. -/
def GivesBack [Source σ] (grows : σ → σ → Prop) (view : σ → ν) (m : Machine σ) (next : Control)
    (base : List Frame) (s : σ) : Prop :=
  ∀ m', Hands grows m .failed m' → m.log <:+ m'.log ∧ ∃ s', view s' = view s ∧
    ∀ rules, m'.step rules = .ok (.moved ⟨next, base, s', m'.log⟩)

/-- An input in use stands for a tape, and two inputs look the same if their tapes are the same
apart from text that has been added. -/
structure Standing [Source σ] (R : σ → Tape → Prop) (grows : σ → σ → Prop) (view : σ → ν) :
    Prop where
  follows : Follows True R
  valid {s : σ} {t : Tape} : R s t → t.Valid
  grows {s s' : σ} {t : Tape} : R s t → grows s s' → ∃ t', R s' t' ∧ t.Grows t'
  view {s s' : σ} {t t' : Tape} : R s t → R s' t' → t.Grows t' → view s' = view s

section

variable [Source σ] {grows : σ → σ → Prop} {view : σ → ν} {R : σ → Tape → Prop} {m m' : Machine σ}
  {p : Pattern} {scope : Scope} {base : List Frame} {s s₀ : σ} {log : List Tap} {cp : Checkpoint}
  {outcome next : Control} {t t₀ t₁ : Tape}

omit [Source σ] in
theorem eq_of_moved {x : Except Fault (Machine σ)} (h : Step.moved <$> x = .ok (.moved m)) :
    x = .ok m := by
  cases x with
  | error f => cases h
  | ok n =>
    cases h
    rfl

theorem commit_eq (h : Source.commit cp s = .ok s₀) (control : Control) (stack : List Frame)
    (log : List Tap) : commit cp ⟨control, stack, s, log⟩ = .ok ⟨control, stack, s₀, log⟩ := by
  rw [commit, h]
  rfl

theorem rollback_eq (h : Source.rollback cp s = .ok s₀) (control : Control) (stack : List Frame)
    (log : List Tap) : rollback cp ⟨control, stack, s, log⟩ = .ok ⟨control, stack, s₀, log⟩ := by
  rw [rollback, h]
  rfl

/-- After an element of a list that has matched comes the separator of the next one, or the end. -/
theorem of_resume_element {q : Pattern} {first : Bool} {collected : Collected} {v : Value}
    {control : Control} (hc : Source.commit cp s = .ok s₀)
    (hm : resume (.listElement p q scope cp first collected) v ⟨control, base, s, log⟩ = .ok m) :
    ∃ collected', collected.push v = .ok collected' ∧
      (m = ⟨.enter q scope, .listSeparator p q scope (Source.mark s₀).1 collected' :: base,
        (Source.mark s₀).2, log⟩ ∨ m = ⟨.matched collected'.finish, base, s₀, log⟩) := by
  simp only [resume, commit_eq hc] at hm
  cases hpush : collected.push v with
  | error f =>
    rw [hpush] at hm
    cases hm
  | ok collected' =>
    rw [hpush] at hm
    change (if _ then _ else _) = _ at hm
    split at hm
    · cases hm
      exact ⟨collected', rfl, .inl rfl⟩
    · cases hm
      exact ⟨collected', rfl, .inr rfl⟩

theorem Works.log_suffix (h : Works grows base m m') : m.log <:+ m'.log := by
  induction h with
  | refl => exact List.suffix_refl _
  | step _ _ _ hs ih =>
    rcases step_log hs with hl | ⟨v, label, stack, -, -, hl⟩
    · rw [hl]
      exact ih
    · rw [hl]
      exact ih.trans (List.suffix_cons _ _)
  | grow _ _ ih => exact ih

theorem Hands.on_tape (S : Standing R grows view) (hR : R s t)
    (h : Hands grows ⟨.enter p scope, base, s, log⟩ outcome m') :
    ∃ t', R m'.source t' ∧
      Works Tape.Grows [] ⟨.enter p scope, [], t, log⟩ ⟨outcome, [], t', m'.log⟩ := by
  obtain ⟨hworks, hstack, rfl⟩ := h
  obtain ⟨above, habove, hlow⟩ := hworks.lower (List.nil_append _).symm
  rw [hstack] at habove
  obtain rfl : above = [] := List.append_cancel_right habove.symm
  obtain ⟨⟨control, stack, t', log'⟩, hn, hR', hw⟩ := hlow.on_tape S.follows S.grows hR (S.valid hR)
  cases hn
  exact ⟨t', hR', hw⟩

theorem givesBack_of_recover (S : Standing R grows view) {frame : Frame}
    (hframe : ∀ m : Machine σ, recover frame m = (·.goto next) <$> m.rollback cp)
    (h₀ : R s₀ t₀) (hopen : t₀.Opens cp t₁) (hpast : t₁.Passes t) (hR : R s t) :
    GivesBack grows view ⟨.enter p scope, frame :: base, s, log⟩ next base s₀ := by
  intro m' h
  refine ⟨h.works.log_suffix, ?_⟩
  obtain ⟨t', hR', hw⟩ := h.on_tape S hR
  obtain ⟨t₃, hback, hgrows, -⟩ :=
    hopen.rollback (hpast.trans (hw.passes (S.valid hR) ⟨rfl, trivial⟩))
  obtain ⟨s', hs', h'⟩ := S.follows.rollback hR' hback
  refine ⟨s', S.view h₀ h' hgrows, fun rules => ?_⟩
  obtain ⟨control, stack, s₁, log₁⟩ := m'
  obtain ⟨-, rfl, rfl⟩ := h
  change Step.moved <$> recover frame ⟨.failed, base, s₁, log₁⟩ = _
  rw [hframe, rollback_eq hs']
  rfl

end

/-! ## Operations that fail -/

section

variable {p q : Pattern} {bounds : Bounds} {scope : Scope} {log : List Tap} {t t' : Tape}
  {n : Machine Tape} {control : Control} {entry : Option Checkpoint}

/-- A failure leaves the tape `t` as it was. -/
def Unmoved (t : Tape) (outcome : Control) (t' : Tape) : Prop := outcome = .failed → t.Grows t'

theorem Unmoved.grows {outcome : Control} {t t₁ t₂ : Tape} (h : Unmoved t outcome t₁)
    (hg : t₁.Grows t₂) : Unmoved t outcome t₂ := fun ho => (h ho).trans hg

theorem unmoved_of_matched {v : Value} : Unmoved t (.matched v) t' := nofun

/-- The frame waits for a branch of an alternative that was entered on the tape `t`. -/
def BranchWaits (t : Tape) (frame : Frame) (t₁ : Tape) : Prop :=
  ∃ keep rest scope cp, frame = .alternative keep rest scope cp ∧ t.Opens cp t₁

theorem attempts_nextBranch (hg : t.Grows t') (hv : t'.Valid) (scope : Scope)
    (rest : List Pattern) :
    Attempts (BranchWaits t) (Unmoved t) (nextBranch scope rest ⟨control, [], t', log⟩) := by
  cases rest with
  | nil => exact .ended trivial fun _ => hg
  | cons q rest => exact .begun ⟨_, _, _, _, rfl, .mark hg hv⟩ hv.mark

theorem Works.alternative {branches : List Pattern} (hv : t.Valid)
    (h : Works Tape.Grows [] ⟨.enter (.alternative branches) scope, [], t, log⟩ n) :
    Stage ⟨.enter (.alternative branches) scope, [], t, log⟩ (BranchWaits t) (Unmoved t) n := by
  refine h.stage _ _ (fun hg hv' hs => ?_) (fun hw hpast hd hs => ?_) Unmoved.grows hv
  · cases hs
    exact attempts_nextBranch hg hv' scope branches
  · rename_i control _ _
    obtain ⟨keep, rest, scope', cp, rfl, hopen⟩ := hw
    cases control with
    | matched v =>
      obtain ⟨t₃, hc, -⟩ := hopen.commit hpast
      simp only [Machine.step, resume, commit_eq hc] at hs
      cases hs
      exact .ended trivial unmoved_of_matched
    | failed =>
      obtain ⟨t₃, hb, hg, hv'⟩ := hopen.rollback hpast
      simp only [Machine.step, recover, rollback_eq hb] at hs
      cases hs
      exact attempts_nextBranch hg hv' scope' rest
    | enter | skip | scan => exact hd.elim

/-- A repetition that was entered on the tape `t` has come to `t'`. If it needs a round it holds a
checkpoint from its entry on. -/
def Entered (bounds : Bounds) (t : Tape) (entry : Option Checkpoint) (t' : Tape) : Prop :=
  match entry with
  | none => bounds.min = 0 ∧ t.Passes t'
  | some cp => bounds.min ≠ 0 ∧ ∃ t₀, t.Opens cp t₀ ∧ t₀.Passes t'

theorem Entered.passes {t₁ : Tape} (h : Entered bounds t entry t') (hp : t'.Passes t₁) :
    Entered bounds t entry t₁ := by
  cases entry with
  | none => exact ⟨h.1, h.2.trans hp⟩
  | some cp =>
    obtain ⟨hmin, t₀, hopen, hpast⟩ := h
    exact ⟨hmin, t₀, hopen, hpast.trans hp⟩

theorem Entered.valid (h : Entered bounds t entry t') : t'.Valid := by
  cases entry with
  | none => exact h.2.valid
  | some cp =>
    obtain ⟨-, t₀, -, hpast⟩ := h
    exact hpast.valid

/-- The frame waits for a round of a repetition that was entered on the tape `t`. -/
def RoundWaits (p : Pattern) (bounds : Bounds) (scope : Scope) (t : Tape) (frame : Frame)
    (t₁ : Tape) : Prop :=
  ∃ entry cp count collected t', frame = .repetition p bounds scope entry cp count collected ∧
    Entered bounds t entry t' ∧ t'.Opens cp t₁

theorem attempts_endRounds (h : Entered bounds t entry t') {collected : Collected}
    (hn : endRounds entry collected ⟨control, [], t', log⟩ = .ok n) :
    Attempts (RoundWaits p bounds scope t) (Unmoved t) n := by
  cases entry with
  | none =>
    cases hn
    exact .ended trivial unmoved_of_matched
  | some cp =>
    obtain ⟨-, t₀, hopen, hpast⟩ := h
    obtain ⟨t₁, hc, -⟩ := hopen.commit hpast
    simp only [endRounds, commit_eq hc] at hn
    cases hn
    exact .ended trivial unmoved_of_matched

theorem attempts_nextRound (h : Entered bounds t entry t') {count : Nat} {collected : Collected}
    (hn : nextRound p bounds scope entry count collected ⟨control, [], t', log⟩ = .ok n) :
    Attempts (RoundWaits p bounds scope t) (Unmoved t) n := by
  unfold nextRound at hn
  split at hn
  · exact attempts_endRounds h hn
  · cases hn
    have hopen := Opens.mark (.refl t') h.valid
    exact .begun ⟨entry, _, count, collected, t', rfl, h, hopen⟩ h.valid.mark

theorem attempts_startRounds (hg : t.Grows t') (hv : t'.Valid)
    (hn : startRounds p bounds scope ⟨control, [], t', log⟩ = .ok n) :
    Attempts (RoundWaits p bounds scope t) (Unmoved t) n := by
  unfold startRounds at hn
  split at hn
  · rename_i hmin
    have hentered : Entered bounds t none t' := ⟨hmin, .of_grows hg hv⟩
    exact attempts_nextRound hentered hn
  · rename_i hmin
    have hentered : Entered bounds t (some t'.mark.1) t'.mark.2 :=
      ⟨hmin, _, .mark hg hv, .of_grows (.refl _) hv.mark⟩
    exact attempts_nextRound hentered hn

/-- What follows a round that has matched. -/
theorem attempts_resume {cp : Checkpoint} {count : Nat} {collected : Collected} {v : Value}
    {t₁ t₂ : Tape} (h : Entered bounds t entry t') (hopen : t'.Opens cp t₁)
    (hpast : t₁.Passes t₂)
    (hn : resume (.repetition p bounds scope entry cp count collected) v ⟨control, [], t₂, log⟩ =
      .ok n) : Attempts (RoundWaits p bounds scope t) (Unmoved t) n := by
  obtain ⟨t₃, hc, hcommitted⟩ := hopen.commit hpast
  simp only [resume, commit_eq hc] at hn
  cases hpush : collected.push v with
  | error f =>
    rw [hpush] at hn
    cases hn
  | ok collected' =>
    rw [hpush] at hn
    change (if _ then _ else _) = _ at hn
    split at hn
    · exact attempts_nextRound (h.passes hcommitted) hn
    · exact attempts_endRounds (h.passes hcommitted) hn

/-- What follows a round that has failed. -/
theorem attempts_recover {cp : Checkpoint} {count : Nat} {collected : Collected} {t₁ t₂ : Tape}
    (h : Entered bounds t entry t') (hopen : t'.Opens cp t₁) (hpast : t₁.Passes t₂)
    (hn : recover (.repetition p bounds scope entry cp count collected) ⟨control, [], t₂, log⟩ =
      .ok n) : Attempts (RoundWaits p bounds scope t) (Unmoved t) n := by
  obtain ⟨t₃, hb, hg, hv⟩ := hopen.rollback hpast
  have hentered := h.passes (.of_grows hg hv)
  simp only [recover, rollback_eq hb] at hn
  change (if _ then _ else _) = _ at hn
  split at hn
  · exact attempts_endRounds hentered hn
  · rename_i hfew
    cases entry with
    | none =>
      -- Without a checkpoint at the entry no round is needed, and none can be missing.
      rw [h.1] at hfew
      exact absurd (Nat.zero_le _) hfew
    | some e =>
      obtain ⟨-, t₀, hopen', hpast'⟩ := hentered
      obtain ⟨t₄, hb', hg', -⟩ := hopen'.rollback hpast'
      simp only [rollback_eq hb'] at hn
      cases hn
      exact .ended trivial fun _ => hg'

theorem Works.repetition (hv : t.Valid)
    (h : Works Tape.Grows [] ⟨.enter (.repetition p bounds) scope, [], t, log⟩ n) :
    Stage ⟨.enter (.repetition p bounds) scope, [], t, log⟩ (RoundWaits p bounds scope t)
      (Unmoved t) n := by
  refine h.stage _ _ (fun hg hv' hs => ?_) (fun hw hpast hd hs => ?_) Unmoved.grows hv
  · exact attempts_startRounds hg hv' (eq_of_moved hs)
  · rename_i control _ _
    obtain ⟨entry, cp, count, collected, t', rfl, hentered, hopen⟩ := hw
    cases control with
    | matched v => exact attempts_resume hentered hopen hpast (eq_of_moved hs)
    | failed => exact attempts_recover hentered hopen hpast (eq_of_moved hs)
    | enter | skip | scan => exact hd.elim

/-- A look ahead leaves the tape as it was, whatever it sees. -/
theorem Works.not (hv : t.Valid)
    (h : Works Tape.Grows [] ⟨.enter (.not p) scope, [], t, log⟩ n) :
    Stage ⟨.enter (.not p) scope, [], t, log⟩
      (fun frame t₁ => ∃ cp, frame = .not cp ∧ t.Opens cp t₁) (fun _ t' => t.Grows t') n := by
  refine h.stage _ _ (fun hg hv' hs => ?_) (fun hw hpast hd hs => ?_) Tape.Grows.trans hv
  · cases hs
    exact .begun ⟨_, rfl, .mark hg hv'⟩ hv'.mark
  · rename_i control _ _
    obtain ⟨cp, rfl, hopen⟩ := hw
    obtain ⟨t₃, hb, hg, -⟩ := hopen.rollback hpast
    cases control with
    | matched v =>
      simp only [Machine.step, resume, rollback_eq hb] at hs
      cases hs
      exact .ended trivial hg
    | failed =>
      simp only [Machine.step, recover, rollback_eq hb] at hs
      cases hs
      exact .ended trivial hg
    | enter | skip | scan => exact hd.elim

/-- Alternatives, repetitions and negations go back to where they were entered if they fail. -/
def Backtracks : Pattern → Prop
  | .alternative _ | .repetition _ _ | .not _ => True
  | _ => False

theorem Works.unmoved {log' : List Tap} (hp : Backtracks p) (hv : t.Valid)
    (h : Works Tape.Grows [] ⟨.enter p scope, [], t, log⟩ ⟨.failed, [], t', log'⟩) :
    t.Grows t' := by
  cases p with
  | alternative branches => exact (h.alternative hv).done ⟨rfl, trivial⟩ rfl
  | repetition operand bounds => exact (h.repetition hv).done ⟨rfl, trivial⟩ rfl
  | not operand => exact (h.not hv).done ⟨rfl, trivial⟩
  | _ => exact hp.elim

/-! ## Operations that never fail -/

theorem matched_ne_failed {v : Value} : Control.matched v ≠ .failed := nofun

theorem Works.optional (hv : t.Valid)
    (h : Works Tape.Grows [] ⟨.enter (.optional p) scope, [], t, log⟩ n) :
    Stage ⟨.enter (.optional p) scope, [], t, log⟩
      (fun frame t₁ => ∃ keep cp, frame = .optional keep cp ∧ t.Opens cp t₁)
      (fun outcome _ => outcome ≠ .failed) n := by
  refine h.stage _ _ (fun hg hv' hs => ?_) (fun hw hpast hd hs => ?_) (fun ho _ => ho) hv
  · cases hs
    exact .begun ⟨_, _, rfl, .mark hg hv'⟩ hv'.mark
  · rename_i control _ _
    obtain ⟨keep, cp, rfl, hopen⟩ := hw
    cases control with
    | matched v =>
      obtain ⟨t₃, hc, -⟩ := hopen.commit hpast
      simp only [Machine.step, resume, commit_eq hc] at hs
      cases hs
      exact .ended trivial matched_ne_failed
    | failed =>
      obtain ⟨t₃, hb, -⟩ := hopen.rollback hpast
      simp only [Machine.step, recover, rollback_eq hb] at hs
      cases hs
      exact .ended trivial matched_ne_failed
    | enter | skip | scan => exact hd.elim

/-- The frame waits for an element or a separator of a list. -/
def ItemWaits (p q : Pattern) (scope : Scope) (frame : Frame) (t₁ : Tape) : Prop :=
  ∃ cp collected t t₀, Tape.Opens t cp t₀ ∧ t₀.Passes t₁ ∧
    (frame = .listSeparator p q scope cp collected ∨
      ∃ first, frame = .listElement p q scope cp first collected)

theorem Works.list (hv : t.Valid)
    (h : Works Tape.Grows [] ⟨.enter (.list p q) scope, [], t, log⟩ n) :
    Stage ⟨.enter (.list p q) scope, [], t, log⟩ (ItemWaits p q scope)
      (fun outcome _ => outcome ≠ .failed) n := by
  refine h.stage _ _ (fun hg hv' hs => ?_) (fun hw hpast hd hs => ?_) (fun ho _ => ho) hv
  · cases hs
    exact .begun ⟨_, _, _, _, .mark hg hv', .of_grows (.refl _) hv'.mark, .inr ⟨_, rfl⟩⟩ hv'.mark
  · rename_i control _ _
    obtain ⟨cp, collected, t', t₀, hopen, hpast₀, hframe⟩ := hw
    have hpast' := hpast₀.trans hpast
    cases control with
    | matched v =>
      rcases hframe with rfl | ⟨first, rfl⟩
      · cases hs
        exact .begun ⟨cp, collected, t', t₀, hopen, hpast', .inr ⟨_, rfl⟩⟩ hpast.valid
      · obtain ⟨t₃, hc, hcommitted⟩ := hopen.commit hpast'
        obtain ⟨collected', -, rfl | rfl⟩ := of_resume_element hc (eq_of_moved hs)
        · have hv₃ := hcommitted.valid
          exact .begun ⟨_, collected', t₃, _, .mark (.refl _) hv₃, .of_grows (.refl _) hv₃.mark,
            .inl rfl⟩ hv₃.mark
        · exact .ended trivial matched_ne_failed
    | failed =>
      obtain ⟨t₃, hb, -⟩ := hopen.rollback hpast'
      rcases hframe with rfl | ⟨first, rfl⟩ <;>
      · simp only [Machine.step, recover, rollback_eq hb] at hs
        cases hs
        exact .ended trivial matched_ne_failed
    | enter | skip | scan => exact hd.elim

end

/-! ## Every source -/

/-- The next step enters `p` for an attempt which, if it fails, is given back: the match then goes
on with `next`, and on an input that looks as `s` does. -/
def Tries [Source σ] (grows : σ → σ → Prop) (view : σ → ν) (m : Machine σ) (p : Pattern)
    (scope : Scope) (next : Control) (base : List Frame) (s : σ) : Prop :=
  ∃ m₁, (∀ rules, m.step rules = .ok (.moved m₁)) ∧ m₁.control = .enter p scope ∧
    GivesBack grows view m₁ next base s

/-- Whatever fails is undone, apart from what it has noted. In any state of an input in use,
whatever frames wait, whatever the input grows by on the way, and whatever rules each step goes by:

* an alternative, a repetition or a negation that fails leaves the input as it was, and so does a
  negation that matches;
* an optional pattern and a list do not fail, and if the operand of an optional pattern, or the
  first element of a list, fails, then they go on as if it had not been tried;
* where a list goes on after an element, with a separator and an element, and either fails, the list
  ends right after the element before;
* where the skipping in front of a token fails, the token is read from where the skipping began. -/
structure Undoes [Source σ] (reachable : σ → List Checkpoint → Prop) (grows : σ → σ → Prop)
    (view : σ → ν) : Prop where
  failed {p scope base s cps log m} : Backtracks p → reachable s cps →
    Hands grows ⟨.enter p scope, base, s, log⟩ .failed m → view m.source = view s ∧ log <:+ m.log
  not_matched {p scope base s cps log v m} : reachable s cps →
    Hands grows ⟨.enter (.not p) scope, base, s, log⟩ (.matched v) m →
    view m.source = view s ∧ log <:+ m.log
  optional_matches {p scope base s cps log m} : reachable s cps →
    ¬ Hands grows ⟨.enter (.optional p) scope, base, s, log⟩ .failed m
  list_matches {p q scope base s cps log m} : reachable s cps →
    ¬ Hands grows ⟨.enter (.list p q) scope, base, s, log⟩ .failed m
  optional {p scope base s cps log} : reachable s cps →
    Tries grows view ⟨.enter (.optional p) scope, base, s, log⟩ p scope (.matched .nil) base s
  list_first {p q scope base s cps log} : reachable s cps →
    Tries grows view ⟨.enter (.list p q) scope, base, s, log⟩ p scope
      (.matched (p.shape.gather [])) base s
  list_next {p q scope base s cps log m cp first collected v rules m₁} : reachable s cps →
    Works grows base ⟨.enter (.list p q) scope, base, s, log⟩ m →
    m.stack = .listElement p q scope cp first collected :: base → m.control = .matched v →
    m.step rules = .ok (.moved m₁) → m₁.control = .enter q scope →
    ∃ s₁ collected', Source.commit cp m.source = .ok s₁ ∧ collected.push v = .ok collected' ∧
      GivesBack grows view m₁ (.matched collected'.finish) base s₁ ∧
      ∀ w m₂, Hands grows m₁ (.matched w) m₂ →
        Tries grows view m₂ p scope (.matched collected'.finish) base s₁
  skip {k next base s cps log} : reachable s cps →
    Tries grows view ⟨.skip k next, base, s, log⟩ k none next.control base s

section

variable [Source σ] {grows : σ → σ → Prop} {view : σ → ν} {R : σ → Tape → Prop}
  {p q : Pattern} {scope : Scope} {base : List Frame} {s s₁ : σ} {log : List Tap} {cp : Checkpoint}
  {next : Control} {t : Tape} {m : Machine σ}

/-- An attempt that opens a checkpoint. -/
theorem tries_of_call (S : Standing R grows view) (hR : R s t) {m : Machine σ}
    (frame : Checkpoint → Frame) (hstep : ∀ rules, m.step rules =
      .ok (.moved ⟨.enter p scope, frame (Source.mark s).1 :: base, (Source.mark s).2, log⟩))
    (hframe : ∀ cp (m : Machine σ), recover (frame cp) m = (·.goto next) <$> m.rollback cp) :
    Tries grows view m p scope next base s := by
  refine ⟨_, hstep, rfl, ?_⟩
  obtain ⟨s₁, hs₁, h₁⟩ := S.follows.mark hR
  rw [hs₁]
  exact givesBack_of_recover S (hframe _) hR (.mark (.refl t) (S.valid hR))
    (.of_grows (.refl _) (S.valid h₁)) h₁

/-- An element of a list that has matched can be committed. -/
theorem element_opens (S : Standing R grows view) (hR : R s t) {first : Bool}
    {collected : Collected} {v : Value} {s' : σ} {log' : List Tap}
    (h : Works grows base ⟨.enter (.list p q) scope, base, s, log⟩
      ⟨.matched v, .listElement p q scope cp first collected :: base, s', log'⟩) :
    ∃ t', R s' t' ∧ ∃ t₁, Source.commit cp t' = .ok t₁ ∧ t₁.Valid := by
  obtain ⟨above, habove, hlow⟩ := h.lower (List.nil_append _).symm
  obtain rfl : above = [.listElement p q scope cp first collected] :=
    List.append_cancel_right habove.symm
  obtain ⟨⟨control, stack, t', log₁⟩, hn, hR', hw⟩ :=
    hlow.on_tape S.follows S.grows hR (S.valid hR)
  cases hn
  obtain ⟨t₁, ⟨cp', collected', t₂, t₃, hopen, hpast, hframe⟩, hpast'⟩ :=
    (hw.list (S.valid hR)).handed ⟨rfl, trivial⟩
  rcases hframe with hframe | ⟨first', hframe⟩
  · cases hframe
  · cases hframe
    obtain ⟨t₄, hc, hcommitted⟩ := hopen.commit (hpast.trans hpast')
    exact ⟨t', hR', t₄, hc, hcommitted.valid⟩

/-- A list that goes on after an element. -/
theorem list_next_of_standing (S : Standing R grows view) (hR : R s t)
    {m m₁ : Machine σ} {first : Bool} {collected : Collected} {v : Value} {rules : RuleBook}
    (h : Works grows base ⟨.enter (.list p q) scope, base, s, log⟩ m)
    (hstack : m.stack = .listElement p q scope cp first collected :: base)
    (hcontrol : m.control = .matched v) (hs : m.step rules = .ok (.moved m₁))
    (hgo : m₁.control = .enter q scope) :
    ∃ s₁ collected', Source.commit cp m.source = .ok s₁ ∧ collected.push v = .ok collected' ∧
      GivesBack grows view m₁ (.matched collected'.finish) base s₁ ∧
      ∀ w m₂, Hands grows m₁ (.matched w) m₂ →
        Tries grows view m₂ p scope (.matched collected'.finish) base s₁ := by
  obtain ⟨control, stack, s', log'⟩ := m
  cases hstack
  cases hcontrol
  obtain ⟨t', hR', t₁, hc, hcommitted⟩ := element_opens S hR h
  obtain ⟨s₁, hs₁, h₁⟩ := S.follows.commit hR' hc
  obtain ⟨collected', hpush, rfl | rfl⟩ := of_resume_element hs₁ (eq_of_moved hs)
  · obtain ⟨s₂, hs₂, h₂⟩ := S.follows.mark h₁
    have hsep : t₁.Opens t₁.mark.1 t₁.mark.2 := .mark (.refl t₁) hcommitted
    rw [hs₂]
    refine ⟨s₁, collected', hs₁, hpush, ?_, fun w m₂ hmatched => ?_⟩
    · exact givesBack_of_recover S (fun _ => rfl) h₁ hsep (.of_grows (.refl _) hsep.valid) h₂
    · -- The separator is given back together with the element.
      obtain ⟨t₂, hR₂, hw⟩ := hmatched.on_tape S h₂
      have hpast := hw.passes hsep.valid ⟨rfl, trivial⟩
      obtain ⟨control, stack, s₃, log₃⟩ := m₂
      obtain ⟨-, rfl, rfl⟩ := hmatched
      exact ⟨_, fun _ => rfl, rfl, givesBack_of_recover S (fun _ => rfl) h₁ hsep hpast hR₂⟩
  · cases hgo

theorem undoes_of_standing (S : Standing R grows view) {reachable : σ → List Checkpoint → Prop}
    (hreachable : ∀ {s cps}, reachable s cps → ∃ t, R s t) : Undoes reachable grows view where
  failed hp hs h := by
    obtain ⟨t, hR⟩ := hreachable hs
    obtain ⟨t', hR', hw⟩ := h.on_tape S hR
    exact ⟨S.view hR hR' (hw.unmoved hp (S.valid hR)), h.works.log_suffix⟩
  not_matched hs h := by
    obtain ⟨t, hR⟩ := hreachable hs
    obtain ⟨t', hR', hw⟩ := h.on_tape S hR
    have hg := (hw.not (S.valid hR)).done ⟨rfl, trivial⟩
    exact ⟨S.view hR hR' hg, h.works.log_suffix⟩
  optional_matches hs h := by
    obtain ⟨t, hR⟩ := hreachable hs
    obtain ⟨t', -, hw⟩ := h.on_tape S hR
    exact (hw.optional (S.valid hR)).done ⟨rfl, trivial⟩ rfl
  list_matches hs h := by
    obtain ⟨t, hR⟩ := hreachable hs
    obtain ⟨t', -, hw⟩ := h.on_tape S hR
    exact (hw.list (S.valid hR)).done ⟨rfl, trivial⟩ rfl
  optional {p _ _ _ _ _} hs := by
    obtain ⟨t, hR⟩ := hreachable hs
    exact tries_of_call S hR (.optional (!p.isSilent)) (fun _ => rfl) fun _ _ => rfl
  list_first hs := by
    obtain ⟨t, hR⟩ := hreachable hs
    rw [← Collected.finish_ofValues, ← Collected.ofShape_eq]
    exact tries_of_call S hR (fun cp => .listElement _ _ _ cp true _) (fun _ => rfl) fun _ _ => rfl
  list_next hs := by
    obtain ⟨t, hR⟩ := hreachable hs
    exact list_next_of_standing S hR
  skip hs := by
    obtain ⟨t, hR⟩ := hreachable hs
    exact tries_of_call S hR (.noise _ _) (fun _ => rfl) fun _ _ => rfl

end

/-- What is seen of an input from outside: where its cursor stands, in bytes and as a line and a
column, and which checkpoints are open. -/
def wholeView (s : Whole) : Nat × Position × Nat := (s.cursor, s.position, s.marks)

def chunkedView (s : Chunked) : Nat × Position × List Checkpoint := (s.cursor, s.position, s.marks)

theorem standing_whole : Standing Whole.Represents (fun _ _ => False) wholeView where
  follows := Whole.follows
  valid h := h.valid
  grows _ hg := hg.elim
  view h h' hg := by
    have htake := hg.take h.valid (Nat.le_refl _)
    rw [wholeView, h'.cursor, h'.position, h'.marks, hg.cursor, hg.saved, Tape.offsetAt,
      Tape.positionAt, htake, wholeView, h.cursor, h.position, h.marks]
    rfl

theorem standing_chunked : Standing Chunked.Represents Chunked.Grows chunkedView where
  follows := Chunked.follows
  valid h := h.valid
  grows h hg := h.grows hg
  view h h' hg := by
    have htake := hg.take h.valid (Nat.le_refl _)
    rw [chunkedView, h'.cursor, h'.position, h'.marks, hg.records h.valid, hg.cursor,
      Tape.offsetAt, Tape.positionAt, htake, chunkedView, h.cursor, h.position, h.marks]
    rfl

/-- Whatever fails is undone, on a complete text as on one that is still arriving. -/
theorem failures_are_undone : Undoes Whole.Reachable (fun _ _ => False) wholeView ∧
    Undoes Chunked.Reachable Chunked.Grows chunkedView := by
  constructor
  · exact undoes_of_standing standing_whole fun h => h.represents.imp fun _ ht => ht.1
  · exact undoes_of_standing standing_chunked fun h => h.represents.imp fun _ ht => ht.1

/-- The text `a,`, of which more may follow. -/
def dangling : Chunked := { chunks := [⟨"a,", 0⟩], received := 2 }

theorem dangling_reachable : dangling.Reachable [] := by
  have hempty : Chunked.Reachable .empty [] := .fresh rfl
  exact hempty.grow (.push (.refl _) (rfl : Chunked.push "a," _ = _))

/-- A list that has read a separator, waits for the element after it, and finds another letter: it
ends in front of the separator. -/
theorem failures_are_undone_dangling : ∃ m : Machine Chunked,
    m.control = .failed ∧ m.source.cursor = 2 ∧ m.source.received = 3 ∧
      ∃ s', chunkedView s' = (1, ⟨1, 2, 1⟩, []) ∧
        ∀ rules, m.step rules = .ok (.moved ⟨.matched (.str "a"), [], s', []⟩) := by
  have hlist : Works Chunked.Grows []
      ⟨.enter (.list (.exactly 'a') (.exactly ',')) none, [], dangling, []⟩ _ :=
    .step .empty (.step .empty (.step .empty .refl (by rintro ⟨-, ⟨⟩⟩) rfl) (by rintro ⟨-, ⟨⟩⟩) rfl)
      (by rintro ⟨-, ⟨⟩⟩) rfl
  obtain ⟨s₁, collected, hc, hp, -, hnext⟩ := failures_are_undone.2.list_next
    dangling_reachable hlist rfl rfl (rfl : Machine.step .empty _ = _) rfl
  cases hc
  cases hp
  obtain ⟨m₁, hm₁, -, hback⟩ := hnext (.char ',') _
    ⟨.step .empty (.step .empty .refl (by rintro ⟨-, ⟨⟩⟩) rfl) (by rintro ⟨-, ⟨⟩⟩) rfl, rfl, rfl⟩
  cases hm₁ .empty
  have hmore {s : Chunked} (h : s.finished = false) : s.Grows
      { s with chunks := s.chunks ++ [⟨"b", s.received⟩], received := s.received + 1 } :=
    .push (.refl s) (show s.push "b" = _ by rw [Chunked.push, h]; rfl)
  obtain ⟨-, s', hview, hstep⟩ := hback _
    ⟨.step .empty (.grow (.step .empty .refl (by rintro ⟨-, ⟨⟩⟩) rfl) (hmore rfl))
      (by rintro ⟨-, ⟨⟩⟩) rfl, rfl, rfl⟩
  exact ⟨_, rfl, rfl, rfl, s', hview, hstep⟩

end PegStream.Machine
