import PegStream.Machine.Run

/-!
# Runs as steps in a row

A run of a match is a number of steps and then a verdict. `Moves` counts the steps, and
`Machine.verdict?` is the verdict of a state that has no further step. Steps are determined by the
state, so whatever a match comes to on the way to a settled state is on that one way:

* `Moves.cut`: a state on the way is reached first, and the rest of the way leads on from it;
* `Moves.settled_unique`: there is one settled state;
* `run_eq_of_moves`, `exists_moves_of_run`: what a run with enough fuel gives, and what every run
  has done.
-/

namespace PegStream.Machine

variable {σ : Type} [Source σ] {rules : RuleBook} {m m' m₁ m₂ : Machine σ} {j k : Nat}

/-- The match `m` comes to `m'` in `k` steps. -/
inductive Moves (rules : RuleBook) : Nat → Machine σ → Machine σ → Prop
  | refl (m : Machine σ) : Moves rules 0 m m
  | cons {k : Nat} {m m₁ m' : Machine σ} : m.step rules = .ok (.moved m₁) →
    Moves rules k m₁ m' → Moves rules (k + 1) m m'

/-- How a run ends in a state, unless it goes on from there. -/
def verdict? (rules : RuleBook) (m : Machine σ) : Option Verdict :=
  match m.step rules with
  | .error f => some (.fault f)
  | .ok (.moved _) => none
  | .ok .waiting => some .waiting
  | .ok (.halted (some v)) => some (.matched v)
  | .ok (.halted none) => some .failed

theorem verdict?_of_moved (h : m.step rules = .ok (.moved m')) : m.verdict? rules = none := by
  rw [verdict?, h]

theorem exists_moved (h : m.verdict? rules = none) : ∃ m', m.step rules = .ok (.moved m') := by
  cases hs : m.step rules with
  | error f => simp [verdict?, hs] at h
  | ok st =>
    cases st with
    | moved m' => exact ⟨m', rfl⟩
    | waiting => simp [verdict?, hs] at h
    | halted r => cases r <;> simp [verdict?, hs] at h

theorem run_of_moved (h : m.step rules = .ok (.moved m')) (fuel : Nat) :
    m.run rules (fuel + 1) = m'.run rules fuel := by
  rw [run, h]

theorem run_of_verdict {v : Verdict} (h : m.verdict? rules = some v) (fuel : Nat) :
    m.run rules (fuel + 1) = (m, v) := by
  unfold verdict? at h
  split at h <;> rename_i hs <;> cases h <;> simp only [run, hs]

namespace Moves

theorem one (h : m.step rules = .ok (.moved m')) : Moves rules 1 m m' := cons h (refl m')

theorem trans (h : Moves rules j m m₁) (h' : Moves rules k m₁ m') :
    Moves rules (j + k) m m' := by
  induction h with
  | refl m => rw [Nat.zero_add]; exact h'
  | cons hs _ ih => rw [Nat.add_right_comm]; exact cons hs (ih h')

theorem tail (h : Moves rules k m m₁) (hs : m₁.step rules = .ok (.moved m')) :
    Moves rules (k + 1) m m' :=
  h.trans (one hs)

/-- On the way to a state where a run ends, a state that is reached leads on to it. -/
theorem cut {v : Verdict} (h : Moves rules j m m₁) (hv : m₁.verdict? rules = some v)
    (h' : Moves rules k m m') : ∃ i, i + k = j ∧ Moves rules i m' m₁ := by
  induction h' generalizing j with
  | refl m => exact ⟨j, rfl, h⟩
  | cons hs _ ih =>
    cases h with
    | refl => rw [verdict?_of_moved hs] at hv; cases hv
    | cons hs' h =>
      rw [hs'] at hs
      cases hs
      obtain ⟨i, rfl, hi⟩ := ih h
      exact ⟨i, Nat.add_assoc .. |>.symm, hi⟩

/-- A run ends in one state only. -/
theorem settled_unique {v v' : Verdict} (h : Moves rules j m m₁)
    (hv : m₁.verdict? rules = some v) (h' : Moves rules k m m₂)
    (hv' : m₂.verdict? rules = some v') : m₁ = m₂ := by
  obtain ⟨i, rfl, hi⟩ := h.cut hv h'
  cases hi with
  | refl => rfl
  | cons hs => rw [verdict?_of_moved hs] at hv'; cases hv'

end Moves

theorem run_of_moves (h : Moves rules k m m') (fuel : Nat) :
    m.run rules (k + fuel) = m'.run rules fuel := by
  induction h with
  | refl m => rw [Nat.zero_add]
  | cons hs _ ih => rw [Nat.add_right_comm, run_of_moved hs, ih]

/-- A run with more fuel than steps to take ends where the steps lead. -/
theorem run_eq_of_moves {v : Verdict} {fuel : Nat} (h : Moves rules k m m')
    (hv : m'.verdict? rules = some v) (hf : k < fuel) : m.run rules fuel = (m', v) := by
  obtain ⟨d, rfl⟩ := Nat.exists_eq_add_of_lt hf
  rw [Nat.add_assoc, run_of_moves h, run_of_verdict hv]

/-- Every run has taken steps, and ends in a verdict on the state they lead to unless it has taken
as many as its fuel allows. -/
theorem exists_moves_of_run (rules : RuleBook) (fuel : Nat) (m : Machine σ) :
    ∃ k, Moves rules k m (m.run rules fuel).1 ∧
      ((m.run rules fuel).1.verdict? rules = some (m.run rules fuel).2 ∨
        k = fuel ∧ (m.run rules fuel).2 = .outOfFuel) := by
  induction fuel generalizing m with
  | zero => exact ⟨0, .refl m, .inr ⟨rfl, rfl⟩⟩
  | succ fuel ih =>
    cases hv : m.verdict? rules with
    | some v =>
      rw [run_of_verdict hv]
      exact ⟨0, .refl m, .inl hv⟩
    | none =>
      obtain ⟨m₁, hs⟩ := exists_moved hv
      rw [run_of_moved hs]
      obtain ⟨k, hk, hr⟩ := ih m₁
      refine ⟨k + 1, .cons hs hk, hr.imp_right fun ⟨he, ho⟩ => ⟨by rw [he], ho⟩⟩

end PegStream.Machine
