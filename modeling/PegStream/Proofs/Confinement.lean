import PegStream.Proofs.Reachability
import PegStream.Proofs.Shapes

/-!
# The patterns that a match can enter

All that a match can ever enter is made of the patterns that it holds, in its control and in the
frames that wait, and of the definitions of the rules in them. A set of patterns that is closed
under parts and definitions therefore confines a match for good, and the match depends on a rule
book only by the definitions of the rules in that set.

* `Machine.Confined`: the match holds patterns of the set only;
* `Machine.leads_step`: a step keeps it so, and does not miss a rule;
* `Machine.Confined.run`: so does a run;
* `Machine.run_congr`: rule books that agree on the set lead to the same run.
-/

namespace PegStream

/-- The faults of a reference to a rule that is gone or has no definition. -/
def Fault.ofRules : Fault → Bool
  | droppedRule _ | undefinedRule _ => true
  | _ => false

theorem Fault.ofRules_of_input {f : Fault} (h : f.ofGrammar = false) : f.ofRules = false := by
  cases f <;> first | rfl | cases h

namespace Machine

section

variable (S : Pattern → Prop)

def Token.Confined : Token → Prop
  | .scan _ => True
  | .lexeme operand => S operand

def Control.Confined : Control → Prop
  | .enter p scope => S p ∧ ∀ q ∈ scope, S q
  | .skip skipper next => S skipper ∧ next.Confined S
  | .scan _ | .matched _ | .failed => True

def Frame.Confined : Frame → Prop
  | .noise skipper next _ => S skipper ∧ next.Confined S
  | .sequence _ rest scope _ | .alternative _ rest scope _ =>
    (∀ q ∈ rest, S q) ∧ ∀ q ∈ scope, S q
  | .repetition operand _ scope _ _ _ _ | .except operand scope _ =>
    S operand ∧ ∀ q ∈ scope, S q
  | .listElement operand separator scope _ _ _ | .listSeparator operand separator scope _ _ =>
    S operand ∧ S separator ∧ ∀ q ∈ scope, S q
  | .optional _ _ | .not _ | .discard | .map _ | .tap _ => True

/-- The match holds patterns of the set `S` only. -/
structure Confined {σ : Type} (m : Machine σ) : Prop where
  control : m.control.Confined S
  stack : ∀ frame ∈ m.stack, frame.Confined S

def Step.Confined {σ : Type} : Step σ → Prop
  | .moved m => Machine.Confined S m
  | .waiting | .halted _ => True

end

variable {σ : Type} {S : Pattern → Prop} {rules rules' : RuleBook} {m m' : Machine σ}
  {scope : Scope}

/-- The computation gives a result of which `Q` holds, or a fault that is not one of a rule. -/
def Leads {α : Type} (Q : α → Prop) : Except Fault α → Prop
  | .ok x => Q x
  | .error f => f.ofRules = false

theorem Leads.bind {α β : Type} {Q : α → Prop} {R : β → Prop} {x : Except Fault α}
    {g : α → Except Fault β} (h : Leads Q x) (hg : ∀ y, Q y → Leads R (g y)) :
    Leads R (x >>= g) := by
  cases x with
  | ok y => exact hg y h
  | error f => exact h

theorem Leads.moved {x : Except Fault (Machine σ)} (h : Leads (Confined S) x) :
    Leads (Step.Confined S) (.moved <$> x) := by
  cases x with
  | ok m => exact h
  | error f => exact h

/-! ## Starting parts -/

theorem confined_control {next : Token} (h : next.Confined S) : next.control.Confined S := by
  cases next with
  | scan s => exact trivial
  | lexeme p => exact ⟨h, fun q hq => nomatch hq⟩

theorem confined_ofToken {next : Token} (hs : ∀ q ∈ scope, S q) (h : next.Confined S) :
    (Control.ofToken scope next).Confined S := by
  cases scope with
  | none => exact confined_control h
  | some skipper => exact ⟨hs skipper rfl, h⟩

theorem confined_goto {control : Control} (hc : control.Confined S)
    (hs : ∀ frame ∈ m.stack, frame.Confined S) : Confined S (m.goto control) := ⟨hc, hs⟩

theorem confined_call {frame : Frame} {p : Pattern} (hf : frame.Confined S) (hp : S p)
    (hscope : ∀ q ∈ scope, S q) (hs : ∀ frame ∈ m.stack, frame.Confined S) :
    Confined S (m.call frame p scope) := by
  refine ⟨⟨hp, hscope⟩, fun frame' h => ?_⟩
  rcases List.mem_cons.1 h with rfl | h
  · exact hf
  · exact hs frame' h

theorem confined_nextPart {rest : List Pattern} (hr : ∀ q ∈ rest, S q)
    (hscope : ∀ q ∈ scope, S q) (hs : ∀ frame ∈ m.stack, frame.Confined S)
    (values : List Value) : Confined S (m.nextPart scope values rest) := by
  cases rest with
  | nil => exact confined_goto trivial hs
  | cons p rest =>
    obtain ⟨hp, hr⟩ := List.forall_mem_cons.1 hr
    exact confined_call ⟨hr, hscope⟩ hp hscope hs

theorem leads_settle {next : Control} (hc : next.Confined S)
    (hs : ∀ frame ∈ m.stack, frame.Confined S) : Leads (Step.Confined S) (m.settle next) :=
  confined_goto hc hs

variable [Source σ]

theorem confined_nextBranch {rest : List Pattern} (hr : ∀ q ∈ rest, S q)
    (hscope : ∀ q ∈ scope, S q) (hs : ∀ frame ∈ m.stack, frame.Confined S) :
    Confined S (m.nextBranch scope rest) := by
  cases rest with
  | nil => exact confined_goto trivial hs
  | cons p rest =>
    obtain ⟨hp, hr⟩ := List.forall_mem_cons.1 hr
    exact confined_call (m := m.mark.2) ⟨hr, hscope⟩ hp hscope hs

theorem leads_commit (P : Plain σ) (cp : Checkpoint) (m : Machine σ) :
    Leads (fun m' => m'.stack = m.stack) (m.commit cp) := by
  unfold commit
  cases hc : Source.commit cp m.source with
  | ok s => rfl
  | error f => exact Fault.ofRules_of_input (P.commit cp _ f hc)

theorem leads_rollback (P : Plain σ) (cp : Checkpoint) (m : Machine σ) :
    Leads (fun m' => m'.stack = m.stack) (m.rollback cp) := by
  unfold rollback
  cases hc : Source.rollback cp m.source with
  | ok s => rfl
  | error f => exact Fault.ofRules_of_input (P.rollback cp _ f hc)

theorem leads_endRounds (P : Plain σ) {entry : Option Checkpoint} {collected : Collected}
    (hs : ∀ frame ∈ m.stack, frame.Confined S) :
    Leads (Confined S) (m.endRounds entry collected) := by
  cases entry with
  | none => exact confined_goto trivial hs
  | some cp =>
    refine (leads_commit P cp m).bind fun m' hm' => ?_
    exact confined_goto trivial (hm' ▸ hs)

theorem leads_nextRound (P : Plain σ) {operand : Pattern} {bounds : Bounds}
    {entry : Option Checkpoint} {count : Nat} {collected : Collected} (hp : S operand)
    (hscope : ∀ q ∈ scope, S q) (hs : ∀ frame ∈ m.stack, frame.Confined S) :
    Leads (Confined S) (m.nextRound operand bounds scope entry count collected) := by
  unfold nextRound
  split
  · exact leads_endRounds P hs
  · exact confined_call (m := m.mark.2) ⟨hp, hscope⟩ hp hscope hs

/-! ## Steps -/

theorem leads_enter (P : Plain σ) (hS : rules.Closed S) {p : Pattern} (hp : S p)
    (hscope : ∀ q ∈ scope, S q) (hs : ∀ frame ∈ m.stack, frame.Confined S) :
    Leads (Confined S) (m.enter rules p scope) := by
  have hchild : ∀ q ∈ p.children, S q := fun q hq => hS.child hp hq
  cases p with
  | char | literal | endOfInput | int | symbol =>
    exact confined_goto (confined_ofToken hscope trivial) hs
  | pass | fail => exact confined_goto trivial hs
  | sequence parts => exact confined_nextPart hchild hscope hs []
  | alternative branches => exact confined_nextBranch hchild hscope hs
  | repetition operand bounds =>
    have hoperand : S operand := hchild operand List.mem_cons_self
    change Leads _ (if bounds.min = 0 then _ else _)
    split
    · exact leads_nextRound P hoperand hscope hs
    · exact leads_nextRound (m := m.mark.2) P hoperand hscope hs
  | optional operand | not operand =>
    exact confined_call (m := m.mark.2) trivial (hchild operand List.mem_cons_self) hscope hs
  | list operand separator =>
    have hoperand : S operand := hchild operand List.mem_cons_self
    have hseparator : S separator := hchild separator (by simp [Pattern.children])
    exact confined_call (m := m.mark.2) ⟨hoperand, hseparator, hscope⟩ hoperand hscope hs
  | except operand excluded =>
    have hoperand : S operand := hchild operand List.mem_cons_self
    have hexcluded : S excluded := hchild excluded (by simp [Pattern.children])
    exact confined_call (m := m.mark.2) ⟨hoperand, hscope⟩ hexcluded hscope hs
  | discard operand | map operand | tap operand =>
    exact confined_call trivial (hchild operand List.mem_cons_self) hscope hs
  | lexeme operand =>
    exact confined_goto (confined_ofToken hscope (hchild operand List.mem_cons_self)) hs
  | skipping operand skipper =>
    have hoperand : S operand := hchild operand List.mem_cons_self
    have hskipper : S skipper := hchild skipper (by simp [Pattern.children])
    refine confined_goto ⟨hoperand, fun q hq => ?_⟩ hs
    cases hq
    exact hskipper
  | rule ref =>
    obtain ⟨d, hd, hSd⟩ := hS.definition hp
    change Leads _ (rules.resolve ref >>= fun d => .ok (m.goto (.enter d scope)))
    rw [hd]
    exact confined_goto ⟨hSd, hscope⟩ hs

theorem leads_push {collected : Collected} {v : Value} :
    Leads (fun _ => True) (collected.push v) := by
  unfold Collected.push
  split
  · trivial
  · split
    · trivial
    · rfl
  · trivial

theorem leads_resume (P : Plain σ) {frame : Frame} {v : Value} (hf : frame.Confined S)
    (hs : ∀ frame ∈ m.stack, frame.Confined S) : Leads (Confined S) (resume frame v m) := by
  cases frame with
  | noise skipper next cp =>
    refine (leads_commit P cp m).bind fun m' hm' => confined_goto ?_ (hm' ▸ hs)
    split
    · exact hf
    · exact confined_control hf.2
  | sequence keep rest scope values => exact confined_nextPart hf.1 hf.2 hs _
  | alternative keep rest scope cp =>
    exact (leads_commit P cp m).bind fun m' hm' => confined_goto trivial (hm' ▸ hs)
  | repetition operand bounds scope entry cp count collected =>
    refine leads_push.bind fun collected _ => (leads_commit P cp m).bind fun m' hm' => ?_
    split
    · exact leads_nextRound P hf.1 hf.2 (hm' ▸ hs)
    · exact leads_endRounds P (hm' ▸ hs)
  | listElement operand separator scope cp first collected =>
    refine leads_push.bind fun collected _ => (leads_commit P cp m).bind fun m' hm' => ?_
    split
    · exact confined_call (m := m'.mark.2) hf hf.2.1 hf.2.2 (hm' ▸ hs)
    · exact confined_goto trivial (hm' ▸ hs)
  | listSeparator operand separator scope cp collected =>
    exact confined_call hf hf.1 hf.2.2 hs
  | optional keep cp =>
    exact (leads_commit P cp m).bind fun m' hm' => confined_goto trivial (hm' ▸ hs)
  | except | not =>
    exact (leads_rollback P _ m).bind fun m' hm' => confined_goto trivial (hm' ▸ hs)
  | discard | map => exact confined_goto trivial hs
  | tap label => exact ⟨trivial, hs⟩

theorem leads_recover (P : Plain σ) {frame : Frame} (hf : frame.Confined S)
    (hs : ∀ frame ∈ m.stack, frame.Confined S) : Leads (Confined S) (recover frame m) := by
  cases frame with
  | noise skipper next cp =>
    exact (leads_rollback P cp m).bind fun m' hm' =>
      confined_goto (confined_control hf.2) (hm' ▸ hs)
  | alternative keep rest scope cp =>
    exact (leads_rollback P cp m).bind fun m' hm' =>
      confined_nextBranch hf.1 hf.2 (hm' ▸ hs)
  | repetition operand bounds scope entry cp count collected =>
    refine (leads_rollback P cp m).bind fun m' hm' => ?_
    split
    · exact leads_endRounds P (hm' ▸ hs)
    · cases entry with
      | none => exact confined_goto trivial (hm' ▸ hs)
      | some cp =>
        refine (leads_rollback P cp m').bind fun m'' hm'' => confined_goto trivial ?_
        rw [hm'', hm']
        exact hs
  | listElement | listSeparator | optional | not =>
    exact (leads_rollback P _ m).bind fun m' hm' => confined_goto trivial (hm' ▸ hs)
  | except operand scope cp =>
    exact (leads_rollback P cp m).bind fun m' hm' => confined_goto hf (hm' ▸ hs)
  | sequence | discard | map | tap => exact confined_goto trivial hs

/-! ## Reading -/

/-- What follows a look at the next character is confined if it is whatever is seen. -/
theorem leads_ahead (P : Plain σ) {g : Ahead → Except Fault (Step σ)}
    (hchar : ∀ c, Leads (Step.Confined S) (g (.char c)))
    (hended : Leads (Step.Confined S) (g .ended))
    (hunknown : Leads (Step.Confined S) (g .unknown)) :
    Leads (Step.Confined S) (m.ahead >>= g) := by
  unfold ahead
  cases hp : Source.peek m.source with
  | error f => exact Fault.ofRules_of_input (P.peek _ f hp)
  | ok c =>
    cases c with
    | some c => exact hchar c
    | none =>
      change Leads _ (g (if Source.isFinal m.source then _ else _))
      split
      · exact hended
      · exact hunknown

theorem leads_advance (P : Plain σ) (m : Machine σ) :
    Leads (fun m' => m'.stack = m.stack) m.advance := by
  unfold advance
  cases hc : Source.advance m.source with
  | ok s => rfl
  | error f => exact Fault.ofRules_of_input (P.advance _ f hc)

theorem leads_take (P : Plain σ) {next : Control} (hc : next.Confined S)
    (hs : ∀ frame ∈ m.stack, frame.Confined S) : Leads (Step.Confined S) (m.take next) :=
  (leads_advance P m).bind fun _ hm' => confined_goto hc (hm' ▸ hs)

theorem confined_intOutcome (format : IntFormat) (n : Numeral) :
    (intOutcome format n).Confined S := by
  unfold intOutcome
  split
  · trivial
  · trivial

theorem leads_scanInt (P : Plain σ) (hs : ∀ frame ∈ m.stack, frame.Confined S)
    (format : IntFormat) (n : Numeral) : Leads (Step.Confined S) (m.scanInt format n) := by
  have houtcome := leads_settle (confined_intOutcome format n) hs
  unfold scanInt
  split
  · exact houtcome
  · refine leads_ahead P (fun c => ?_) houtcome trivial
    dsimp only
    split
    · exact leads_take P trivial hs
    · split
      · exact houtcome
      · split
        · exact leads_settle trivial hs
        · exact leads_take P trivial hs

theorem leads_resolveSymbol (P : Plain σ) (hs : ∀ frame ∈ m.stack, frame.Confined S)
    (best : Option (Value × Checkpoint)) : Leads (Step.Confined S) (m.resolveSymbol best) := by
  cases best with
  | none => exact leads_settle trivial hs
  | some best =>
    exact (leads_rollback P _ m).bind fun m' hm' => confined_goto trivial (hm' ▸ hs)

theorem leads_commitBest (P : Plain σ) (best : Option (Value × Checkpoint)) (m : Machine σ) :
    Leads (fun m' => m'.stack = m.stack) (m.commitBest best) := by
  cases best with
  | none => rfl
  | some best => exact leads_commit P best.2 m

theorem leads_descendSymbol (P : Plain σ) (hs : ∀ frame ∈ m.stack, frame.Confined S)
    (table : SymbolTable) (node : Nat) (best : Option (Value × Checkpoint)) :
    Leads (Step.Confined S) (m.descendSymbol table node best) := by
  refine (leads_advance P m).bind fun m₁ hm₁ => ?_
  cases table.value? node with
  | none => exact leads_settle trivial (hm₁ ▸ hs)
  | some v =>
    refine (leads_commitBest P best m₁).bind fun m₂ hm₂ => ?_
    have hs₂ : ∀ frame ∈ m₂.stack, frame.Confined S := by
      rw [hm₂, hm₁]
      exact hs
    split
    · exact leads_settle trivial hs₂
    · exact leads_settle (m := m₂.mark.2) trivial hs₂

theorem leads_scan (P : Plain σ) (hs : ∀ frame ∈ m.stack, frame.Confined S) (token : Scan) :
    Leads (Step.Confined S) (m.scan token) := by
  have hfailed : Leads (Step.Confined S) (m.settle .failed) := leads_settle trivial hs
  cases token with
  | char accepted =>
    refine leads_ahead P (fun c => ?_) hfailed trivial
    dsimp only
    split
    · exact leads_take P trivial hs
    · exact hfailed
  | literal expected =>
    cases expected with
    | nil => exact leads_settle trivial hs
    | cons e rest =>
      refine leads_ahead P (fun c => ?_) hfailed trivial
      dsimp only
      split
      · exact leads_take P trivial hs
      · exact hfailed
  | endOfInput => exact leads_ahead P (fun _ => hfailed) (leads_settle trivial hs) trivial
  | int format n => exact leads_scanInt P hs format n
  | symbol table node best =>
    refine leads_ahead P (fun c => ?_) (leads_resolveSymbol P hs best) trivial
    dsimp only
    split
    · exact leads_descendSymbol P hs table _ best
    · exact leads_resolveSymbol P hs best

/-- A step keeps a match within a closed set, and finds the definition of every rule it enters. -/
theorem leads_step (P : Plain σ) (hS : rules.Closed S) (h : Confined S m) :
    Leads (Step.Confined S) (m.step rules) := by
  obtain ⟨control, stack, t, log⟩ := m
  obtain ⟨hc, hs⟩ := h
  cases control with
  | enter p scope => exact (leads_enter P hS hc.1 hc.2 hs).moved
  | skip skipper next =>
    exact confined_call (m := (mark ⟨.skip skipper next, stack, t, log⟩).2) hc hc.1
      (fun q hq => nomatch hq) hs
  | scan token => exact leads_scan P hs token
  | matched v =>
    cases stack with
    | nil => trivial
    | cons frame stack =>
      obtain ⟨hf, hs⟩ := List.forall_mem_cons.1 hs
      exact (leads_resume (m := ⟨.matched v, stack, t, log⟩) P hf hs).moved
  | failed =>
    cases stack with
    | nil => trivial
    | cons frame stack =>
      obtain ⟨hf, hs⟩ := List.forall_mem_cons.1 hs
      exact (leads_recover (m := ⟨.failed, stack, t, log⟩) P hf hs).moved

/-- A step depends on a rule book only if it enters a rule, and then on the definition of that
rule. -/
theorem step_congr (h : Confined S m)
    (hagree : ∀ ref, S (.rule ref) → rules'.resolve ref = rules.resolve ref) :
    m.step rules' = m.step rules := by
  obtain ⟨control, stack, t, log⟩ := m
  cases control with
  | enter p scope =>
    cases p with
    | rule ref =>
      simp only [step, enter]
      rw [hagree ref h.control.1]
    | _ => rfl
  | skip | scan => rfl
  | matched | failed => cases stack <;> rfl

/-! ## Runs -/

/-- A run keeps a match within a closed set, and finds the definition of every rule it enters. -/
theorem Confined.run (P : Plain σ) (hS : rules.Closed S) (h : Confined S m) (fuel : Nat) :
    Confined S (m.run rules fuel).1 ∧
      ∀ f, (m.run rules fuel).2 = .fault f → f.ofRules = false := by
  induction fuel generalizing m with
  | zero => exact ⟨h, fun f hf => by cases hf⟩
  | succ fuel ih =>
    have hstep := leads_step P hS h
    rw [Machine.run]
    split <;> rename_i hs <;> rw [hs] at hstep
    · refine ⟨h, fun f hf => ?_⟩
      cases hf
      exact hstep
    · exact ih hstep
    · exact ⟨h, fun f hf => by cases hf⟩
    · exact ⟨h, fun f hf => by cases hf⟩
    · exact ⟨h, fun f hf => by cases hf⟩

/-- Rule books that agree on a closed set that confines a match lead to the same run of it. -/
theorem run_congr (P : Plain σ) (hS : rules.Closed S)
    (hagree : ∀ ref, S (.rule ref) → rules'.resolve ref = rules.resolve ref) (h : Confined S m)
    (fuel : Nat) : m.run rules' fuel = m.run rules fuel := by
  induction fuel generalizing m with
  | zero => rfl
  | succ fuel ih =>
    have hstep := leads_step P hS h
    rw [Machine.run, Machine.run, step_congr h hagree]
    cases hs : m.step rules with
    | error f => rfl
    | ok x =>
      rw [hs] at hstep
      cases x with
      | moved m' => exact ih hstep
      | waiting => rfl
      | halted result => cases result <;> rfl

end Machine

end PegStream
