import PegStream.Proofs.Settling

/-!
# Matches within matches

A step takes at most the innermost frame off the stack and puts frames on it, and it does not look
at the frames below. So while a frame waits, the match of the part that it waits for is a match of
its own, the same as if nothing waited for it (`Machine.step_atop`).

For a mapping this says what it is applied to. A value that is handed to a mapping, at any time in a
match of a complete text, is the value of its operand by a derivation (`Machine.matches_of_handed`).
-/

namespace PegStream.Machine

variable {σ : Type} {rules : RuleBook} {m m' n : Machine σ} {scope : Scope} {base : List Frame}
  {x y : Except Fault (Machine σ)}

/-- The match with more frames waiting below. -/
def atop (base : List Frame) (m : Machine σ) : Machine σ := { m with stack := m.stack ++ base }

/-- No mapping waits. -/
def Mapless (m : Machine σ) : Prop := ∀ f, .map f ∉ m.stack

/-- The first result is the second one atop `base`, and no mapping waits there above `base`. -/
def Rests (base : List Frame) (x y : Except Fault (Machine σ)) : Prop :=
  match y with
  | .ok n => n.Mapless ∧ x = .ok (n.atop base)
  | .error f => x = .error f

/-- The same for the results of steps. -/
def StepRests (base : List Frame) (x y : Except Fault (Step σ)) : Prop :=
  match y with
  | .ok (.moved n) => n.Mapless ∧ x = .ok (.moved (n.atop base))
  | .ok other => x = .ok other
  | .error f => x = .error f

theorem Mapless.call (h : m.Mapless) {frame : Frame} (hframe : ∀ f, frame ≠ .map f)
    (p : Pattern) (scope : Scope) : (m.call frame p scope).Mapless := by
  intro f hf
  rcases List.mem_cons.1 hf with hf | hf
  · exact hframe f hf.symm
  · exact h f hf

theorem Rests.bind {g g' : Machine σ → Except Fault (Machine σ)} (h : Rests base x y)
    (hg : ∀ n : Machine σ, n.Mapless → Rests base (g (n.atop base)) (g' n)) :
    Rests base (x >>= g) (y >>= g') := by
  cases y with
  | error f =>
    cases h
    rfl
  | ok n =>
    obtain ⟨hn, rfl⟩ := h
    exact hg n hn

/-- Where the first part does not concern the match. -/
theorem Rests.after {α : Type} (a : Except Fault α) {g g' : α → Except Fault (Machine σ)}
    (hg : ∀ v, Rests base (g v) (g' v)) : Rests base (a >>= g) (a >>= g') := by
  cases a with
  | error f => rfl
  | ok v => exact hg v

theorem Rests.moved (h : Rests base x y) : StepRests base (.moved <$> x) (.moved <$> y) := by
  cases y with
  | error f =>
    cases h
    rfl
  | ok n =>
    obtain ⟨hn, rfl⟩ := h
    exact ⟨hn, rfl⟩

theorem Rests.bindStep {g g' : Machine σ → Except Fault (Step σ)} (h : Rests base x y)
    (hg : ∀ n : Machine σ, n.Mapless → StepRests base (g (n.atop base)) (g' n)) :
    StepRests base (x >>= g) (y >>= g') := by
  cases y with
  | error f =>
    cases h
    rfl
  | ok n =>
    obtain ⟨hn, rfl⟩ := h
    exact hg n hn

/-- What a step comes to atop one stack, it comes to atop every stack. -/
theorem exists_of_stepRests {F : List Frame → Except Fault (Step σ)} {y : Except Fault (Step σ)}
    {rest : List Frame} (h : ∀ base, StepRests base (F base) y)
    (hs : F rest = .ok (.moved m')) :
    ∃ n : Machine σ, n.Mapless ∧ m' = n.atop rest ∧
      ∀ base, F base = .ok (.moved (n.atop base)) := by
  cases y with
  | error f => cases hs.symm.trans (h rest)
  | ok y =>
    cases y with
    | moved n =>
      cases hs.symm.trans (h rest).2
      exact ⟨n, (h rest).1, rfl, fun base => (h base).2⟩
    | waiting | halted => cases hs.symm.trans (h rest)

/-! ## Starting parts -/

theorem rests_goto (h : m.Mapless) (control : Control) :
    Rests base (.ok ((m.atop base).goto control)) (.ok (m.goto control)) := ⟨h, rfl⟩

theorem stepRests_settle (h : m.Mapless) (next : Control) :
    StepRests base ((m.atop base).settle next) (m.settle next) := ⟨h, rfl⟩

theorem rests_call (h : m.Mapless) {frame : Frame} (hframe : ∀ f, frame ≠ .map f) (p : Pattern)
    (scope : Scope) :
    Rests base (.ok ((m.atop base).call frame p scope)) (.ok (m.call frame p scope)) :=
  ⟨h.call hframe p scope, rfl⟩

theorem rests_nextPart (h : m.Mapless) (scope : Scope) (values : List Value)
    (rest : List Pattern) : Rests base (.ok ((m.atop base).nextPart scope values rest))
      (.ok (m.nextPart scope values rest)) := by
  cases rest with
  | nil => exact rests_goto h _
  | cons p rest => exact rests_call h (by simp) p scope

variable [Source σ]

theorem rests_commit (h : m.Mapless) (cp : Checkpoint) :
    Rests base ((m.atop base).commit cp) (m.commit cp) := by
  show Rests base (_ <$> Source.commit cp m.source) (_ <$> Source.commit cp m.source)
  cases Source.commit cp m.source with
  | error f => rfl
  | ok s => exact ⟨h, rfl⟩

theorem rests_rollback (h : m.Mapless) (cp : Checkpoint) :
    Rests base ((m.atop base).rollback cp) (m.rollback cp) := by
  show Rests base (_ <$> Source.rollback cp m.source) (_ <$> Source.rollback cp m.source)
  cases Source.rollback cp m.source with
  | error f => rfl
  | ok s => exact ⟨h, rfl⟩

theorem rests_advance (h : m.Mapless) : Rests base (m.atop base).advance m.advance := by
  show Rests base (_ <$> Source.advance m.source) (_ <$> Source.advance m.source)
  cases Source.advance m.source with
  | error f => rfl
  | ok s => exact ⟨h, rfl⟩

theorem rests_nextBranch (h : m.Mapless) (scope : Scope) (rest : List Pattern) :
    Rests base (.ok ((m.atop base).nextBranch scope rest)) (.ok (m.nextBranch scope rest)) := by
  cases rest with
  | nil => exact rests_goto h _
  | cons p rest => exact rests_call (m := m.mark.2) h (by simp) p scope

theorem rests_endRounds (h : m.Mapless) (entry : Option Checkpoint) (collected : Collected) :
    Rests base ((m.atop base).endRounds entry collected) (m.endRounds entry collected) := by
  cases entry with
  | none => exact rests_goto h _
  | some cp => exact (rests_commit h cp).bind fun n hn => rests_goto hn _

theorem rests_nextRound (h : m.Mapless) (operand : Pattern) (bounds : Bounds) (scope : Scope)
    (entry : Option Checkpoint) (count : Nat) (collected : Collected) :
    Rests base ((m.atop base).nextRound operand bounds scope entry count collected)
      (m.nextRound operand bounds scope entry count collected) := by
  unfold nextRound
  split
  · exact rests_endRounds h entry collected
  · exact rests_call (m := m.mark.2) h (by simp) operand scope

/-! ## Entering a pattern -/

/-- Entering a pattern that is no mapping does not depend on the frames that wait. -/
theorem rests_enter (h : m.Mapless) {p : Pattern} (hp : ∀ q f, p ≠ .map q f) (scope : Scope) :
    Rests base ((m.atop base).enter rules p scope) (m.enter rules p scope) := by
  cases p with
  | char | literal | endOfInput | pass | fail | int | symbol | lexeme | skipping =>
    exact rests_goto h _
  | sequence parts => exact rests_nextPart h scope [] parts
  | alternative branches => exact rests_nextBranch h scope branches
  | repetition operand bounds =>
    change Rests base (if bounds.min = 0 then _ else _) (if bounds.min = 0 then _ else _)
    split
    · exact rests_nextRound h operand bounds scope none 0 _
    · exact rests_nextRound (m := m.mark.2) h operand bounds scope _ 0 _
  | optional operand | list operand | not operand =>
    exact rests_call (m := m.mark.2) h (by simp) operand scope
  | except operand excluded => exact rests_call (m := m.mark.2) h (by simp) excluded scope
  | discard operand | tap operand => exact rests_call h (by simp) operand scope
  | map q f => exact absurd rfl (hp q f)
  | rule ref => exact Rests.after _ fun d => rests_goto h _

/-! ## Outcomes of parts -/

theorem rests_resume (h : m.Mapless) (frame : Frame) (v : Value) :
    Rests base (resume frame v (m.atop base)) (resume frame v m) := by
  cases frame with
  | noise | alternative | optional => exact (rests_commit h _).bind fun n hn => rests_goto hn _
  | sequence keep rest scope values => exact rests_nextPart h scope _ rest
  | repetition operand bounds scope entry cp count collected =>
    refine Rests.after _ fun collected => (rests_commit h cp).bind fun n hn => ?_
    change Rests base (if m.hasPassed cp then _ else _) (if m.hasPassed cp then _ else _)
    split
    · exact rests_nextRound hn operand bounds scope entry (count + 1) collected
    · exact rests_endRounds hn entry collected
  | listElement operand separator scope cp first collected =>
    refine Rests.after _ fun collected => (rests_commit h cp).bind fun n hn => ?_
    change Rests base (if (first || m.hasPassed cp) then _ else _)
      (if (first || m.hasPassed cp) then _ else _)
    split
    · exact rests_call (m := n.mark.2) hn (by simp) separator scope
    · exact rests_goto hn _
  | listSeparator operand separator scope cp collected =>
    exact rests_call h (by simp) operand scope
  | except | not => exact (rests_rollback h _).bind fun n hn => rests_goto hn _
  | discard | map => exact rests_goto h _
  | tap label => exact ⟨h, rfl⟩

theorem rests_recover (h : m.Mapless) (frame : Frame) :
    Rests base (recover frame (m.atop base)) (recover frame m) := by
  cases frame with
  | noise | listElement | listSeparator | optional | not | except =>
    exact (rests_rollback h _).bind fun n hn => rests_goto hn _
  | alternative keep rest scope cp =>
    exact (rests_rollback h cp).bind fun n hn => rests_nextBranch hn scope rest
  | repetition operand bounds scope entry cp count collected =>
    refine (rests_rollback h cp).bind fun n hn => ?_
    split
    · exact rests_endRounds hn entry collected
    · cases entry with
      | none => exact rests_goto hn _
      | some cp => exact (rests_rollback hn cp).bind fun n' hn' => rests_goto hn' _
  | sequence | discard | map | tap => exact rests_goto h _

/-! ## Reading -/

/-- What follows a look at the next character. -/
theorem stepRests_ahead {g g' : Ahead → Except Fault (Step σ)}
    (hg : ∀ seen, StepRests base (g seen) (g' seen)) :
    StepRests base ((m.atop base).ahead >>= g) (m.ahead >>= g') := by
  change StepRests base (m.ahead >>= g) (m.ahead >>= g')
  cases m.ahead with
  | error f => rfl
  | ok seen => exact hg seen

theorem stepRests_take (h : m.Mapless) (next : Control) :
    StepRests base ((m.atop base).take next) (m.take next) :=
  (rests_advance h).bindStep fun _ hn => ⟨hn, rfl⟩

theorem stepRests_scanInt (h : m.Mapless) (format : IntFormat) (n : Numeral) :
    StepRests base ((m.atop base).scanInt format n) (m.scanInt format n) := by
  unfold scanInt
  split
  · exact stepRests_settle h _
  · refine stepRests_ahead fun seen => ?_
    cases seen with
    | unknown => rfl
    | ended => exact stepRests_settle h _
    | char c =>
      dsimp only
      split
      · exact stepRests_take h _
      · split
        · exact stepRests_settle h _
        · split
          · exact stepRests_settle h _
          · exact stepRests_take h _

theorem stepRests_resolveSymbol (h : m.Mapless) (best : Option (Value × Checkpoint)) :
    StepRests base ((m.atop base).resolveSymbol best) (m.resolveSymbol best) := by
  cases best with
  | none => exact stepRests_settle h _
  | some best => exact (rests_rollback h best.2).bindStep fun _ hn => ⟨hn, rfl⟩

theorem rests_commitBest (h : m.Mapless) (best : Option (Value × Checkpoint)) :
    Rests base ((m.atop base).commitBest best) (m.commitBest best) := by
  cases best with
  | none => exact ⟨h, rfl⟩
  | some best => exact rests_commit h best.2

theorem stepRests_descendSymbol (h : m.Mapless) (table : SymbolTable) (node : Nat)
    (best : Option (Value × Checkpoint)) :
    StepRests base ((m.atop base).descendSymbol table node best)
      (m.descendSymbol table node best) := by
  refine (rests_advance h).bindStep fun n hn => ?_
  cases table.value? node with
  | none => exact stepRests_settle hn _
  | some v =>
    refine (rests_commitBest hn best).bindStep fun n' hn' => ?_
    split
    · exact stepRests_settle hn' _
    · exact stepRests_settle (m := n'.mark.2) hn' _

theorem stepRests_scan (h : m.Mapless) (token : Scan) :
    StepRests base ((m.atop base).scan token) (m.scan token) := by
  cases token with
  | char accepted =>
    refine stepRests_ahead fun seen => ?_
    cases seen with
    | unknown => rfl
    | ended => exact stepRests_settle h _
    | char c =>
      dsimp only
      split
      · exact stepRests_take h _
      · exact stepRests_settle h _
  | literal expected =>
    cases expected with
    | nil => exact stepRests_settle h _
    | cons expected rest =>
      refine stepRests_ahead fun seen => ?_
      cases seen with
      | unknown => rfl
      | ended => exact stepRests_settle h _
      | char c =>
        dsimp only
        split
        · exact stepRests_take h _
        · exact stepRests_settle h _
  | endOfInput =>
    refine stepRests_ahead fun seen => ?_
    cases seen with
    | unknown => rfl
    | ended | char => exact stepRests_settle h _
  | int format n => exact stepRests_scanInt h format n
  | symbol table node best =>
    refine stepRests_ahead fun seen => ?_
    cases seen with
    | unknown => rfl
    | ended => exact stepRests_resolveSymbol h best
    | char c =>
      dsimp only
      split
      · exact stepRests_descendSymbol h table _ best
      · exact stepRests_resolveSymbol h best

/-! ## Steps -/

/-- The control hands an outcome to the innermost waiting pattern. -/
def Control.Decided : Control → Prop
  | .matched _ | .failed => True
  | _ => False

/-- What a step does to the stack. It enters a mapping, which waits from then on; or it takes a
frame off, if that frame is handed an outcome, and puts others on, no mapping among them, whatever
waits below. -/
theorem step_atop (hs : m.step rules = .ok (.moved m')) :
    (∃ q f scope, m.control = .enter (.map q f) scope ∧ m' = m.call (.map f) q scope) ∨
    ∃ (popped rest : List Frame) (n : Machine σ), m.stack = popped ++ rest ∧
      (popped = [] ∨ m.control.Decided ∧ ∃ frame, popped = [frame]) ∧ n.Mapless ∧
      m' = n.atop rest ∧
      ∀ base, step rules { m with stack := popped ++ base } = .ok (.moved (n.atop base)) := by
  obtain ⟨control, stack, s, log⟩ := m
  have hnone : Mapless ⟨control, [], s, log⟩ := fun _ hf => nomatch hf
  cases control with
  | enter p scope =>
    by_cases hp : ∃ q f, p = .map q f
    · obtain ⟨q, f, rfl⟩ := hp
      cases hs
      exact .inl ⟨q, f, scope, rfl, rfl⟩
    · have hrests : ∀ base, StepRests base (step rules ⟨.enter p scope, base, s, log⟩)
          (step rules ⟨.enter p scope, [], s, log⟩) := fun base =>
        (rests_enter hnone (fun q f he => hp ⟨q, f, he⟩) scope).moved
      exact .inr ⟨[], stack, (exists_of_stepRests hrests hs).imp fun n h => ⟨rfl, .inl rfl, h⟩⟩
  | skip skipper next =>
    have hrests : ∀ base, StepRests base (step rules ⟨.skip skipper next, base, s, log⟩)
        (step rules ⟨.skip skipper next, [], s, log⟩) := fun base =>
      Rests.moved
        (rests_call (m := (mark ⟨.skip skipper next, [], s, log⟩).2) hnone (by simp) skipper none)
    exact .inr ⟨[], stack, (exists_of_stepRests hrests hs).imp fun n h => ⟨rfl, .inl rfl, h⟩⟩
  | scan token =>
    have hrests : ∀ base, StepRests base (step rules ⟨.scan token, base, s, log⟩)
        (step rules ⟨.scan token, [], s, log⟩) := fun base => stepRests_scan hnone token
    exact .inr ⟨[], stack, (exists_of_stepRests hrests hs).imp fun n h => ⟨rfl, .inl rfl, h⟩⟩
  | matched v =>
    cases stack with
    | nil => cases hs
    | cons frame stack =>
      have hrests : ∀ base, StepRests base (step rules ⟨.matched v, frame :: base, s, log⟩)
          (step rules ⟨.matched v, [frame], s, log⟩) := fun base =>
        (rests_resume hnone frame v).moved
      exact .inr ⟨[frame], stack, (exists_of_stepRests hrests hs).imp fun n h =>
        ⟨rfl, .inr ⟨trivial, frame, rfl⟩, h⟩⟩
  | failed =>
    cases stack with
    | nil => cases hs
    | cons frame stack =>
      have hrests : ∀ base, StepRests base (step rules ⟨.failed, frame :: base, s, log⟩)
          (step rules ⟨.failed, [frame], s, log⟩) := fun base => (rests_recover hnone frame).moved
      exact .inr ⟨[frame], stack, (exists_of_stepRests hrests hs).imp fun n h =>
        ⟨rfl, .inr ⟨trivial, frame, rfl⟩, h⟩⟩

/-! ## Mappings that wait -/

/-- Every mapping that waits is one of `S` and was entered on an input of which `P` holds. Since
then its operand has come to what stands above the mapping, as a match of its own. -/
def Hosts (rules : RuleBook) (S : Pattern → Prop) (P : σ → Prop) (m : Machine σ) : Prop :=
  ∀ above f below, m.stack = above ++ .map f :: below → ∃ q scope s log k, S (.map q f) ∧ P s ∧
    Moves rules k ⟨.enter q scope, [], s, log⟩ ⟨m.control, above, m.source, m.log⟩

/-- A mapping in a stack whose upper part has none is in the lower part. -/
theorem mem_lower {pushed rest above below : List Frame} {f : Value → Value}
    (hpushed : .map f ∉ pushed) (h : pushed ++ rest = above ++ .map f :: below) :
    ∃ upper, above = pushed ++ upper ∧ rest = upper ++ .map f :: below := by
  rcases List.append_eq_append_iff.1 h with ⟨upper, habove, hrest⟩ | ⟨lower, hpush, hlower⟩
  · exact ⟨upper, habove, hrest⟩
  · cases lower with
    | nil => exact ⟨[], by simpa using hpush.symm, by simpa using hlower.symm⟩
    | cons frame lower =>
      obtain ⟨rfl, -⟩ := List.cons.inj hlower
      rw [hpush] at hpushed
      exact absurd (by simp) hpushed

variable {S : Pattern → Prop} {P : σ → Prop} {k : Nat}

theorem Hosts.step (h : Hosts rules S P m) (hc : Confined S m) (hP : P m.source)
    (hs : m.step rules = .ok (.moved m')) : Hosts rules S P m' := by
  intro above f below hstack
  rcases step_atop hs with ⟨q, g, scope, hcontrol, rfl⟩ | ⟨popped, rest, n, hm, -, hn, rfl, hall⟩
  · have henter : ∀ base, Machine.step rules { m with stack := base } =
        .ok (.moved (call (.map g) q scope { m with stack := base })) := fun base => by
      simp only [Machine.step, hcontrol]
      rfl
    -- the mapping is the one that is entered now, or it waited before
    cases above with
    | nil =>
      obtain ⟨hg, -⟩ := List.cons.inj hstack
      cases hg
      have hS : S (.map q f) := by
        have hcon := hc.control
        rw [hcontrol] at hcon
        exact hcon.1
      exact ⟨q, scope, m.source, m.log, 0, hS, hP, .refl _⟩
    | cons frame above =>
      obtain ⟨rfl, hbelow⟩ := List.cons.inj hstack
      obtain ⟨q', scope', s, log, k, hS, hs', hk⟩ := h above f below hbelow
      exact ⟨q', scope', s, log, k + 1, hS, hs', hk.tail (henter above)⟩
  -- the step left the mapping in place, so it is a step of the match above the mapping as well
  · obtain ⟨upper, rfl, hrest⟩ := mem_lower (hn f) hstack
    have hold : m.stack = (popped ++ upper) ++ .map f :: below := by
      rw [hm, hrest, List.append_assoc]
    obtain ⟨q, scope, s, log, k, hS, hs', hk⟩ := h _ f below hold
    exact ⟨q, scope, s, log, k + 1, hS, hs', hk.tail (hall upper)⟩

/-- Along a match of a complete text. -/
theorem hosts_of_moves {t : Tape} {x y : Machine Tape} (hS : rules.Closed S)
    (hfinal : t.final = true) (hd : Disciplined t x) (hc : Confined S x)
    (h : Hosts rules S (fun s => s.Shows s.rest) x) (hk : Moves rules k x y) :
    Hosts rules S (fun s => s.Shows s.rest) y := by
  induction hk with
  | refl => exact h
  | @cons k x x₁ y hs _ ih =>
    have hshows : x.source.Shows x.source.rest :=
      ⟨rfl, (Tape.Holds.valid hd).inside, (Tape.Holds.final hd).trans hfinal⟩
    have hconfined : Confined S x₁ := by
      have hstep := leads_step plain_tape hS hc
      rw [hs] at hstep
      exact hstep
    exact ih (hd.moves (.one hs)) hconfined (h.step hc hshows hs)

/-- A value that is handed to a mapping, at any time in a match of a complete text, is the value of
the mapping's operand by a derivation. -/
theorem matches_of_handed {p : Pattern} {text : String} {m : Machine Whole} {v : Value}
    {f : Value → Value} {stack : List Frame} (hS : rules.Closed S) (hp : S p)
    (hm : Moves rules k (start p (Whole.ofString text)) m) (hv : m.control = .matched v)
    (hf : m.stack = .map f :: stack) : ∃ q scope text' rest taps, S (.map q f) ∧
      Matches rules q scope text' (.matched v rest) taps := by
  have hd := disciplined_begin p text.toList true
  obtain ⟨x, hx, hxm, -⟩ := exists_moves_of_follows (x := begin p text.toList true) Whole.follows
    (Whole.represents_ofString text) hd hm
  have hconfined : Confined S (begin p text.toList true) :=
    ⟨⟨hp, fun q hq => nomatch hq⟩, fun frame hframe => nomatch hframe⟩
  have hnone : Hosts rules S (fun s => s.Shows s.rest) (begin p text.toList true) :=
    fun above f below h => by cases above <;> cases h
  have hhosts := hosts_of_moves hS rfl hd hconfined hnone hx
  have hcontrol : x.control = .matched v := (congrArg control hxm).symm.trans hv
  have hstack : x.stack = [] ++ .map f :: stack := (congrArg Machine.stack hxm).symm.trans hf
  obtain ⟨q, scope, t, log, j, hq, ht, hj⟩ := hhosts [] f stack hstack
  have hverdict : verdict? rules ⟨x.control, [], x.source, x.log⟩ = some (.matched v) := by
    rw [hcontrol]
    rfl
  obtain ⟨rest, taps, hmatches, -⟩ := matches_of_matched ht hj hverdict
  exact ⟨q, scope, t.rest, rest, taps, hq, hmatches⟩

end PegStream.Machine
