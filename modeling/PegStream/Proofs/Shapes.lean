import PegStream.Proofs.Adequacy

/-!
# Shapes of values

The shape of a pattern, known before any match, foretells the value of every match: none for a
silent pattern, text for a text pattern, and for sequences, repetitions and lists how the values of
their parts are put together (`Foretold`). For the text that a match has read this follows from its
derivation.

The machine relies on the shapes while it runs: what a repetition collects is laid out by the shape
of its operand, so a round that hands it a value of another kind is a fault. That this never happens
is an invariant of the machine alone, whatever its input answers and whatever rules it goes by: the
control comes to values of some shape, and every frame on the stack makes of values of one shape
values of another (`Machine.Shaped`).

* `Machine.shaped_step`, `Machine.Shaped.run`, `Machine.Fed.shaped`: a step, a run and any number of
  feeds keep the invariant;
* `value_foretold`: so every value is what the shapes foretell.
-/

namespace PegStream

/-! ## Shapes of the parts of a state -/

/-- Every value that fits `a` fits `b`. -/
def Shape.Under (a b : Shape) : Prop := ∀ v : Value, v.Fits a → v.Fits b

namespace Shape

theorem under_refl (a : Shape) : a.Under a := fun _ h => h

theorem Under.trans {a b c : Shape} (h : a.Under b) (h' : b.Under c) : a.Under c :=
  fun v hv => h' v (h v hv)

theorem under_orElse_left (a b : Shape) : a.Under (a.orElse b) := fun _ h => h.orElse_left b

theorem under_orElse_right (a b : Shape) : b.Under (a.orElse b) := fun _ h => h.orElse_right a

theorem beside_silent (a : Shape) : a.beside .silent = a := by
  cases a <;> rfl

end Shape

namespace Machine

/-- The shape of the value of a token. -/
def Scan.shape : Scan → Shape
  | .char _ => .text
  | .literal _ | .endOfInput => .silent
  | .int _ _ | .symbol _ _ _ => .other

def Token.shape : Token → Shape
  | .scan s => s.shape
  | .lexeme p => p.shape

/-- The values that the control comes to fit the shape. -/
def Control.Gives (a : Shape) : Control → Prop
  | .enter p _ => p.shape.Under a
  | .skip _ next => next.shape.Under a
  | .scan s => s.shape.Under a
  | .matched v => v.Fits a
  | .failed => True

/-- What has been collected so far is laid out by the shape. -/
def Gathers (a : Shape) (collected : Collected) : Prop :=
  ∃ values, collected = .ofValues values a

/-- A frame that is handed values that fit `a` hands on values that fit `b`. -/
def Frame.Turns (a b : Shape) : Frame → Prop
  | .noise _ next _ => next.shape.Under b
  | .sequence keep rest _ values => keep = (a != .silent) ∧
    ∃ c : Shape, c.Allows values.reverse ∧
      (c.beside (a.beside (Pattern.sequenceShape rest))).Under b
  | .alternative _ rest _ _ => a.Under b ∧ (Pattern.alternativeShape rest).Under b
  | .repetition operand _ _ _ _ _ collected | .listElement operand _ _ _ _ collected =>
    a = operand.shape ∧ Gathers operand.shape collected ∧ operand.shape.Under b
  | .listSeparator operand _ _ _ collected =>
    Gathers operand.shape collected ∧ operand.shape.Under b
  | .optional _ _ => a.Under b
  | .except operand _ _ => operand.shape.Under b
  | .not _ | .discard | .tap _ => True
  | .map _ => Shape.other.Under b

/-- The frames hand values that fit `a` on until they fit `root`. -/
inductive Awaits (root : Shape) : Shape → List Frame → Prop
  | nil : Awaits root root []
  | cons {a b : Shape} {frame : Frame} {stack : List Frame} :
    frame.Turns a b → Awaits root b stack → Awaits root a (frame :: stack)

/-- The match comes to values that fit `root`, if it comes to any. -/
def Shaped {σ : Type} (root : Shape) (m : Machine σ) : Prop :=
  ∃ a, m.control.Gives a ∧ Awaits root a m.stack

/-- The fault is not that of a value that should have been text. -/
def SparesValues (f : Fault) : Prop := ∀ kind, f ≠ .notText kind

/-- The faults of the computation are none of the grammar. -/
def OfInput {α : Type} (x : Except Fault α) : Prop := ∀ f, x = .error f → f.ofGrammar = false

/-- The input raises its own faults only. -/
structure Plain (σ : Type) [Source σ] : Prop where
  peek (s : σ) : OfInput (Source.peek s)
  advance (s : σ) : OfInput (Source.advance s)
  commit (cp : Checkpoint) (s : σ) : OfInput (Source.commit cp s)
  rollback (cp : Checkpoint) (s : σ) : OfInput (Source.rollback cp s)

theorem sparesValues_of_input {f : Fault} (h : f.ofGrammar = false) : SparesValues f := by
  rintro kind rfl
  cases h

variable {σ : Type} {root a b c : Shape} {m : Machine σ} {scope : Scope}

/-- The computation gives a result of which `Q` holds, or another fault. -/
def Spares {α : Type} (Q : α → Prop) : Except Fault α → Prop
  | .ok x => Q x
  | .error f => SparesValues f

/-- A step leads to states that come to values that fit `root`, and decides the match with no
others. -/
def Step.Shaped (root : Shape) : Step σ → Prop
  | .moved m => Machine.Shaped root m
  | .waiting => True
  | .halted result => ∀ v ∈ result, v.Fits root

theorem Spares.moved {x : Except Fault (Machine σ)} (h : Spares (Shaped root) x) :
    Spares (Step.Shaped root) (.moved <$> x) := by
  cases x with
  | ok m => exact h
  | error f => exact h

/-! ## Steps -/

theorem gives_control {next : Token} (h : next.shape.Under a) : next.control.Gives a := by
  cases next with
  | scan => exact h
  | lexeme => exact h

theorem gives_ofToken {next : Token} (h : next.shape.Under a) :
    (Control.ofToken scope next).Gives a := by
  cases scope with
  | none => exact gives_control h
  | some skipper => exact h

theorem shaped_enter (p : Pattern) (scope : Scope) (s : σ) (log : List Tap) :
    Shaped p.shape ⟨.enter p scope, [], s, log⟩ :=
  ⟨p.shape, Shape.under_refl _, .nil⟩

theorem shaped_goto {control : Control} (hc : control.Gives b) (hs : Awaits root b m.stack) :
    Shaped root (m.goto control) := ⟨b, hc, hs⟩

theorem shaped_call {frame : Frame} {p : Pattern} (hf : frame.Turns p.shape b)
    (hs : Awaits root b m.stack) : Shaped root (m.call frame p scope) :=
  ⟨p.shape, Shape.under_refl _, .cons hf hs⟩

theorem shaped_nextPart {values : List Value} {rest : List Pattern}
    (hc : c.Allows values.reverse) (hu : (c.beside (Pattern.sequenceShape rest)).Under b)
    (hs : Awaits root b m.stack) : Shaped root (m.nextPart scope values rest) := by
  cases rest with
  | nil =>
    rw [Pattern.sequenceShape, Shape.beside_silent] at hu
    exact shaped_goto (hu _ hc.ofParts) hs
  | cons p rest => exact shaped_call ⟨rfl, c, hc, hu⟩ hs

theorem gathers_ofShape (a : Shape) : Gathers a (.ofShape a) := ⟨[], Collected.ofShape_eq a⟩

theorem Gathers.finish {collected : Collected} (h : Gathers a collected) :
    collected.finish.Fits a := by
  obtain ⟨values, rfl⟩ := h
  rw [Collected.finish_ofValues]
  exact Value.gather_fits values a

/-- A value that fits what is collected is added to it. -/
theorem spares_push {α : Type} {Q : α → Prop} {v : Value} {collected : Collected} (hv : v.Fits a)
    (h : Gathers a collected) {g : Collected → Except Fault α}
    (hg : ∀ c, Gathers a c → Spares Q (g c)) : Spares Q (collected.push v >>= g) := by
  obtain ⟨values, rfl⟩ := h
  rw [Collected.push_ofValues hv]
  exact hg _ ⟨_, rfl⟩

theorem spares_settle {next : Control} (hc : next.Gives b) (hs : Awaits root b m.stack) :
    Spares (Step.Shaped root) (m.settle next) := shaped_goto hc hs

variable [Source σ]

section

variable {α : Type} {Q : α → Prop} {g : Machine σ → Except Fault α} {cp : Checkpoint}

theorem spares_commit (P : Plain σ) (hg : ∀ s, Spares Q (g { m with source := s })) :
    Spares Q (m.commit cp >>= g) := by
  unfold commit
  cases hc : Source.commit cp m.source with
  | ok s => exact hg s
  | error f => exact sparesValues_of_input (P.commit _ _ f hc)

theorem spares_rollback (P : Plain σ) (hg : ∀ s, Spares Q (g { m with source := s })) :
    Spares Q (m.rollback cp >>= g) := by
  unfold rollback
  cases hc : Source.rollback cp m.source with
  | ok s => exact hg s
  | error f => exact sparesValues_of_input (P.rollback _ _ f hc)

theorem spares_advance (P : Plain σ) (hg : ∀ s, Spares Q (g { m with source := s })) :
    Spares Q (m.advance >>= g) := by
  unfold advance
  cases hc : Source.advance m.source with
  | ok s => exact hg s
  | error f => exact sparesValues_of_input (P.advance _ f hc)

theorem spares_ahead (P : Plain σ) {g : Ahead → Except Fault α} (hg : ∀ x, Spares Q (g x)) :
    Spares Q (m.ahead >>= g) := by
  unfold ahead
  cases hp : Source.peek m.source with
  | error f => exact sparesValues_of_input (P.peek _ f hp)
  | ok c =>
    cases c with
    | some c => exact hg (.char c)
    | none => exact hg _

end

theorem shaped_nextBranch {rest : List Pattern} (hu : (Pattern.alternativeShape rest).Under b)
    (hs : Awaits root b m.stack) : Shaped root (m.nextBranch scope rest) := by
  cases rest with
  | nil => exact shaped_goto (b := b) trivial hs
  | cons p rest =>
    have hp := (Shape.under_orElse_left p.shape _).trans hu
    have hrest := (Shape.under_orElse_right p.shape _).trans hu
    exact shaped_call (m := m.mark.2) ⟨hp, hrest⟩ hs

theorem spares_endRounds (P : Plain σ) {collected : Collected} (hg : Gathers a collected)
    (hu : a.Under b) (hs : Awaits root b m.stack) {entry : Option Checkpoint} :
    Spares (Shaped root) (m.endRounds entry collected) := by
  cases entry with
  | none => exact shaped_goto (hu _ hg.finish) hs
  | some cp => exact spares_commit P fun s => shaped_goto (hu _ hg.finish) hs

theorem spares_nextRound (P : Plain σ) {operand : Pattern} {collected : Collected}
    (hg : Gathers operand.shape collected) (hu : operand.shape.Under b)
    (hs : Awaits root b m.stack) {bounds : Bounds} {entry : Option Checkpoint} {count : Nat} :
    Spares (Shaped root) (m.nextRound operand bounds scope entry count collected) := by
  unfold nextRound
  split
  · exact spares_endRounds P hg hu hs
  · exact shaped_call (m := m.mark.2) ⟨rfl, hg, hu⟩ hs

theorem spares_startRounds (P : Plain σ) {operand : Pattern} (hu : operand.shape.Under b)
    (hs : Awaits root b m.stack) {bounds : Bounds} :
    Spares (Shaped root) (m.startRounds operand bounds scope) := by
  have hg := gathers_ofShape operand.shape
  unfold startRounds
  split
  · exact spares_nextRound P hg hu hs
  · exact spares_nextRound (m := m.mark.2) P hg hu hs

theorem spares_enter (P : Plain σ) {p : Pattern} (hu : p.shape.Under b)
    (hs : Awaits root b m.stack) (rules : RuleBook) :
    Spares (Shaped root) (m.enter rules p scope) := by
  cases p with
  | char | literal | endOfInput | int | symbol | lexeme =>
    exact shaped_goto (gives_ofToken hu) hs
  | pass => exact shaped_goto (Value.nil_fits b) hs
  | fail => exact shaped_goto (b := b) trivial hs
  | sequence parts => exact shaped_nextPart (c := .silent) rfl hu hs
  | alternative branches => exact shaped_nextBranch hu hs
  | repetition operand bounds =>
    have hu : operand.shape.Under b := hu
    exact spares_startRounds P hu hs
  | optional operand => exact shaped_call (m := m.mark.2) hu hs
  | list operand separator =>
    exact shaped_call (m := m.mark.2) ⟨rfl, gathers_ofShape _, hu⟩ hs
  | except operand excluded => exact shaped_call (m := m.mark.2) hu hs
  | not operand => exact shaped_call (m := m.mark.2) (b := b) trivial hs
  | discard operand | tap operand => exact shaped_call (b := b) trivial hs
  | map operand f => exact shaped_call hu hs
  | skipping operand skipper => exact shaped_goto hu hs
  | rule ref =>
    change Spares (Shaped root) (rules.resolve ref >>= fun d => .ok (m.goto (.enter d scope)))
    unfold RuleBook.resolve
    split
    · intro kind h
      cases h
    · split
      · intro kind h
        cases h
      · -- A rule foretells nothing, so the definition may give any value.
        exact shaped_goto (fun v _ => hu v trivial) hs

theorem spares_resume (P : Plain σ) {frame : Frame} {v : Value} (hv : v.Fits a)
    (hf : frame.Turns a b) (hs : Awaits root b m.stack) :
    Spares (Shaped root) (resume frame v m) := by
  cases frame with
  | noise skipper next cp =>
    refine spares_commit P fun s => shaped_goto (b := b) ?_ hs
    split
    · exact hf
    · exact gives_control hf
  | sequence keep rest scope values =>
    obtain ⟨rfl, c, hc, hu⟩ := hf
    rw [← Shape.beside_assoc] at hu
    refine shaped_nextPart (c := c.beside a) ?_ hu hs
    cases a with
    | silent =>
      rw [Shape.beside_silent]
      exact hc
    | text =>
      change Shape.Allows (v :: values).reverse _
      rw [List.reverse_cons]
      exact hc.beside ⟨v, rfl, hv⟩
    | other =>
      change Shape.Allows (v :: values).reverse _
      rw [List.reverse_cons]
      exact Shape.Allows.beside (b := .other) hc trivial
  | alternative keep rest scope cp =>
    refine spares_commit P fun s => shaped_goto (b := b) ?_ hs
    cases keep with
    | true => exact hf.1 v hv
    | false => exact Value.nil_fits b
  | optional keep cp =>
    refine spares_commit P fun s => shaped_goto (b := b) ?_ hs
    cases keep with
    | true => exact hf v hv
    | false => exact Value.nil_fits b
  | repetition operand bounds scope entry cp count collected =>
    obtain ⟨rfl, hg, hu⟩ := hf
    refine spares_push hv hg fun collected hg => ?_
    refine spares_commit P fun s => ?_
    split
    · exact spares_nextRound (m := { m with source := s }) P hg hu hs
    · exact spares_endRounds (m := { m with source := s }) P hg hu hs
  | listElement operand separator scope cp first collected =>
    obtain ⟨rfl, hg, hu⟩ := hf
    refine spares_push hv hg fun collected hg => ?_
    refine spares_commit P fun s => ?_
    split
    · exact shaped_call (b := b) ⟨hg, hu⟩ hs
    · exact shaped_goto (hu _ hg.finish) hs
  | listSeparator operand separator scope cp collected =>
    exact shaped_call (b := b) ⟨rfl, hf.1, hf.2⟩ hs
  | except _ _ cp | not cp => exact spares_rollback P fun s => shaped_goto (b := b) trivial hs
  | discard => exact shaped_goto (Value.nil_fits b) hs
  | map f => exact shaped_goto (hf (f v) trivial) hs
  | tap label => exact shaped_goto (Value.nil_fits b) hs

theorem spares_recover (P : Plain σ) {frame : Frame} (hf : frame.Turns a b)
    (hs : Awaits root b m.stack) : Spares (Shaped root) (recover frame m) := by
  cases frame with
  | noise _ next cp => exact spares_rollback P fun s => shaped_goto (gives_control hf) hs
  | alternative _ rest scope cp =>
    exact spares_rollback P fun s => shaped_nextBranch hf.2 hs
  | repetition operand bounds scope entry cp count collected =>
    refine spares_rollback P fun s => ?_
    split
    · exact spares_endRounds (m := { m with source := s }) P hf.2.1 hf.2.2 hs
    · cases entry with
      | none => exact shaped_goto (b := b) trivial hs
      | some cp => exact spares_rollback P fun s => shaped_goto (b := b) trivial hs
  | listElement =>
    exact spares_rollback P fun s => shaped_goto (hf.2.2 _ hf.2.1.finish) hs
  | listSeparator => exact spares_rollback P fun s => shaped_goto (hf.2 _ hf.1.finish) hs
  | optional | not => exact spares_rollback P fun s => shaped_goto (Value.nil_fits b) hs
  | except operand scope cp => exact spares_rollback P fun s => shaped_goto hf hs
  | sequence | discard | map | tap => exact shaped_goto (b := b) trivial hs

/-! ## Tokens -/

theorem spares_take (P : Plain σ) {next : Control} (hc : next.Gives b)
    (hs : Awaits root b m.stack) : Spares (Step.Shaped root) (m.take next) :=
  spares_advance P fun _ => shaped_goto hc hs

theorem gives_intOutcome (hu : Shape.other.Under b) (format : IntFormat) (n : Numeral) :
    (intOutcome format n).Gives b := by
  unfold intOutcome
  split
  · exact hu _ trivial
  · trivial

theorem spares_scanInt (P : Plain σ) (hu : Shape.other.Under b) (hs : Awaits root b m.stack)
    (format : IntFormat) (n : Numeral) : Spares (Step.Shaped root) (m.scanInt format n) := by
  have hout := spares_settle (gives_intOutcome hu format n) hs
  unfold scanInt
  split
  · exact hout
  · refine spares_ahead P fun x => ?_
    cases x with
    | unknown => trivial
    | ended => exact hout
    | char c =>
      dsimp only
      split
      · exact spares_take P hu hs
      · split
        · exact hout
        · split
          · exact spares_settle (b := b) trivial hs
          · exact spares_take P hu hs

theorem spares_resolveSymbol (P : Plain σ) (hu : Shape.other.Under b)
    (hs : Awaits root b m.stack) (best : Option (Value × Checkpoint)) :
    Spares (Step.Shaped root) (m.resolveSymbol best) := by
  cases best with
  | none => exact spares_settle (b := b) trivial hs
  | some best => exact spares_rollback P fun s => shaped_goto (b := b) (hu best.1 trivial) hs

theorem spares_commitBest {α : Type} {Q : α → Prop} {g : Machine σ → Except Fault α}
    (P : Plain σ) (hg : ∀ s, Spares Q (g { m with source := s }))
    (best : Option (Value × Checkpoint)) : Spares Q (m.commitBest best >>= g) := by
  cases best with
  | none => exact hg m.source
  | some best => exact spares_commit P hg

theorem spares_descendSymbol (P : Plain σ) (hu : Shape.other.Under b)
    (hs : Awaits root b m.stack) (table : SymbolTable) (node : Nat)
    (best : Option (Value × Checkpoint)) :
    Spares (Step.Shaped root) (m.descendSymbol table node best) := by
  refine spares_advance P fun s => ?_
  cases table.value? node with
  | none => exact spares_settle hu hs
  | some v =>
    refine spares_commitBest P (fun s => ?_) best
    split
    · exact spares_settle (hu v trivial) hs
    · exact spares_settle hu hs

theorem spares_scan (P : Plain σ) {token : Scan} (hu : token.shape.Under b)
    (hs : Awaits root b m.stack) : Spares (Step.Shaped root) (m.scan token) := by
  cases token with
  | char accepted =>
    refine spares_ahead P fun x => ?_
    cases x with
    | char c =>
      dsimp only
      split
      · exact spares_take P (hu _ (.inr (.inl ⟨c, rfl⟩))) hs
      · exact spares_settle (b := b) trivial hs
    | ended => exact spares_settle (b := b) trivial hs
    | unknown => trivial
  | literal expected =>
    cases expected with
    | nil => exact spares_settle (Value.nil_fits b) hs
    | cons e rest =>
      refine spares_ahead P fun x => ?_
      cases x with
      | char c =>
        dsimp only
        split
        · exact spares_take P hu hs
        · exact spares_settle (b := b) trivial hs
      | ended => exact spares_settle (b := b) trivial hs
      | unknown => trivial
  | endOfInput =>
    refine spares_ahead P fun x => ?_
    cases x with
    | char c => exact spares_settle (b := b) trivial hs
    | ended => exact spares_settle (Value.nil_fits b) hs
    | unknown => trivial
  | int format n => exact spares_scanInt P hu hs format n
  | symbol table node best =>
    refine spares_ahead P fun x => ?_
    cases x with
    | unknown => trivial
    | ended => exact spares_resolveSymbol P hu hs best
    | char c =>
      dsimp only
      split
      · exact spares_descendSymbol P hu hs table _ best
      · exact spares_resolveSymbol P hu hs best

/-- A step keeps the shapes, and takes no value for text that is none. -/
theorem shaped_step (P : Plain σ) (h : Shaped root m) (rules : RuleBook) :
    Spares (Step.Shaped root) (m.step rules) := by
  obtain ⟨control, stack, t, log⟩ := m
  obtain ⟨a, hc, hs⟩ := h
  cases control with
  | enter p scope => exact (spares_enter P hc hs rules).moved
  | skip skipper next =>
    exact shaped_call (m := (mark ⟨.skip skipper next, stack, t, log⟩).2) (b := a) hc hs
  | scan token => exact spares_scan P hc hs
  | matched v =>
    cases hs with
    | nil =>
      rintro w ⟨⟩
      exact hc
    | @cons _ _ _ stack hf hs =>
      exact (spares_resume (m := ⟨.matched v, stack, t, log⟩) P hc hf hs).moved
  | failed =>
    cases hs with
    | nil => exact fun v hv => nomatch hv
    | @cons _ _ _ stack hf hs =>
      exact (spares_recover (m := ⟨.failed, stack, t, log⟩) P hf hs).moved

/-! ## Runs -/

/-- What shapes tell of how a run ended. -/
def Verdict.Suits (root : Shape) : Verdict → Prop
  | .matched v => v.Fits root
  | .fault f => SparesValues f
  | .failed | .waiting | .outOfFuel => True

namespace Shaped

variable {rules : RuleBook} {m' : Machine σ} {k : Nat}

theorem moves (P : Plain σ) (h : Shaped root m) (hm : Moves rules k m m') : Shaped root m' := by
  induction hm with
  | refl => exact h
  | cons hs _ ih =>
    have hstep := shaped_step P h rules
    rw [hs] at hstep
    exact ih hstep

theorem suits {v : Verdict} (P : Plain σ) (h : Shaped root m) (hv : m.verdict? rules = some v) :
    v.Suits root := by
  have hstep := shaped_step P h rules
  unfold verdict? at hv
  split at hv <;> rename_i hs <;> rw [hs] at hstep <;> cases hv
  · exact hstep
  · trivial
  · exact hstep _ rfl
  · trivial

/-- A run keeps the shapes. -/
theorem run (P : Plain σ) (h : Shaped root m) (rules : RuleBook) (fuel : Nat) :
    Shaped root (m.run rules fuel).1 ∧ (m.run rules fuel).2.Suits root := by
  obtain ⟨k, hk, hv⟩ := exists_moves_of_run rules fuel m
  refine ⟨h.moves P hk, ?_⟩
  rcases hv with hv | ⟨-, hv⟩
  · exact (h.moves P hk).suits P hv
  · rw [hv]
    trivial

end Shaped

/-! ## The inputs -/

section

variable {α β : Type} {f : Fault}

theorem ofInput_ok (x : α) : OfInput (.ok x : Except Fault α) := fun _ h => nomatch h

theorem ofInput_error (h : f.ofGrammar = false) : OfInput (.error f : Except Fault α) := by
  rintro f' ⟨⟩
  exact h

theorem OfInput.bind {x : Except Fault α} {g : α → Except Fault β} (h : OfInput x)
    (hg : ∀ y, OfInput (g y)) : OfInput (x >>= g) := by
  cases x with
  | ok y => exact hg y
  | error f => exact ofInput_error (h f rfl)

theorem ofInput_outOfOrder (cp : Checkpoint) (h : f.ofGrammar = false) :
    (cp.outOfOrder f).ofGrammar = false := by
  unfold Checkpoint.outOfOrder
  split
  · rfl
  · exact h

theorem ofInput_charAt (text : String) (offset : Nat) : OfInput (Text.charAt text offset) := by
  unfold Text.charAt
  split
  · exact ofInput_ok _
  · split
    · exact ofInput_error rfl
    · exact ofInput_error rfl

end

theorem plain_whole : Plain Whole where
  peek s := ofInput_charAt s.text s.cursor
  advance s := by
    refine (ofInput_charAt s.text s.cursor).bind fun c => ?_
    cases c with
    | none => exact ofInput_error rfl
    | some c => exact ofInput_ok _
  commit cp s := by
    change OfInput (if _ then _ else _)
    split
    · exact ofInput_error (ofInput_outOfOrder cp rfl)
    · exact ofInput_ok _
  rollback cp s := by
    change OfInput (if _ then _ else if _ then _ else _)
    split
    · exact ofInput_error rfl
    · split
      · exact ofInput_error rfl
      · exact ofInput_ok _

theorem ofInput_dropPassed (floor : Nat) (chunks : List Chunk) (current : Nat) :
    OfInput (Chunked.dropPassed floor chunks current) := by
  fun_induction Chunked.dropPassed floor chunks current with
  | case1 => exact ofInput_ok _
  | case2 => exact ofInput_ok _
  | case3 => exact ofInput_error rfl
  | case4 _ _ _ _ ih => exact ih

theorem ofInput_release (s : Chunked) : OfInput s.release :=
  (ofInput_dropPassed _ _ _).bind fun _ => ofInput_ok _

theorem plain_chunked : Plain Chunked := by
  have hpeek : ∀ s : Chunked, OfInput s.peek := by
    intro s
    unfold Chunked.peek
    split
    · exact ofInput_ok _
    · split
      · exact ofInput_error rfl
      · exact ofInput_charAt _ _
  refine ⟨hpeek, fun s => ?_, fun cp s => ?_, fun cp s => ?_⟩
  · refine (hpeek s).bind fun c => ?_
    split
    · dsimp only
      split
      · exact ofInput_release _
      · exact ofInput_ok _
    · exact ofInput_error rfl
  · change OfInput (if _ then _ else _)
    split
    · exact ofInput_error (ofInput_outOfOrder cp rfl)
    · exact ofInput_release _
  · change OfInput (if _ then _ else _)
    split
    · exact ofInput_error (ofInput_outOfOrder cp rfl)
    · exact ofInput_release _

/-- However often a match is fed, the shapes are kept. -/
theorem Fed.shaped {first m : Machine Chunked} {v : Verdict} (h : Shaped root first)
    (hm : Fed first m v) : Shaped root m ∧ v.Suits root := by
  induction hm with
  | once rules fuel hrun =>
    have hr := h.run plain_chunked rules fuel
    rw [hrun] at hr
    exact hr
  | @again m _ _ s rules fuel _ _ hrun ih =>
    have hr := Shaped.run plain_chunked (m := m.on s) ih.1 rules fuel
    rw [hrun] at hr
    exact hr

end Machine

/-! ## Values of matches -/

/-- What the shape of a pattern foretells of the value `v` of a match that read `text` up to
`rest`. -/
structure Foretold (rules : RuleBook) (p : Pattern) (scope : Scope) (text : List Char) (v : Value)
    (rest : List Char) : Prop where
  of_silent : p.isSilent = true → v = .nil
  of_text : p.isText = true → v = .nil ∨ (∃ c, v = .char c) ∨ ∃ s, v = .str s
  /-- A sequence keeps the values of the parts that are not silent, in their order: a tuple of two
  or more, a single one as it is, and nothing if there are none. -/
  of_sequence : ∀ ps, p = .sequence ps → ∃ vs taps,
    MatchesAll rules ps scope text (.matched vs rest) taps ∧
      vs.length = ps.countP (fun q => !q.isSilent) ∧
      (vs = [] → v = .nil) ∧ (∀ w, vs = [w] → v = w) ∧ (2 ≤ vs.length → v = .tuple vs)
  /-- A repetition or a list keeps nothing, a string or a list of values, by its operand. -/
  of_operand : ∀ q, (∃ bounds, p = .repetition q bounds) ∨ (∃ separator, p = .list q separator) →
    (q.isSilent = true → v = .nil) ∧ (q.isText = true → ∃ s, v = .str s) ∧
      (q.isSilent = false → q.isText = false → ∃ vs, v = .list vs)

section

variable {rules : RuleBook} {p q : Pattern} {ps : List Pattern} {scope : Scope}
  {text rest : List Char} {v : Value} {vs : List Value} {taps : List Tap}

namespace Pattern

theorem isSilent_iff : p.isSilent = true ↔ p.shape = .silent := beq_iff_eq

theorem isText_iff : p.isText = true ↔ p.shape = .text := beq_iff_eq

end Pattern

/-- A sequence keeps one value for each part that is not silent. -/
theorem MatchesAll.length_eq {out : Outcome (List Value)}
    (h : MatchesAll rules ps scope text out taps) (ho : out = .matched vs rest) :
    vs.length = ps.countP fun q => !q.isSilent := by
  induction ps generalizing text out taps vs with
  | nil =>
    cases h
    cases ho
    rfl
  | cons p ps ih =>
    cases h with
    | failed => cases ho
    | @cons _ _ _ _ _ w out _ _ hm hs =>
      cases out with
      | failed => cases ho
      | matched ws rest =>
        cases ho
        rw [List.length_append, ih hs rfl, List.countP_cons, Nat.add_comm]
        congr 1
        unfold Pattern.keep
        cases p.isSilent <;> rfl

theorem Matches.of_sequence (h : Matches rules (.sequence ps) scope text (.matched v rest) taps) :
    ∃ vs, MatchesAll rules ps scope text (.matched vs rest) taps ∧ v = .ofParts vs := by
  generalize ho : Outcome.matched v rest = out at h
  cases h with
  | token _ hr => cases hr
  | @sequence _ _ _ out _ hs =>
    cases out with
    | failed => cases ho
    | matched vs rest =>
      cases ho
      exact ⟨vs, hs, rfl⟩

theorem Matches.of_repetition {bounds : Bounds}
    (h : Matches rules (.repetition p bounds) scope text (.matched v rest) taps) :
    ∃ vs, Rounds rules p bounds scope 0 text (.matched vs rest) taps ∧ v = p.shape.gather vs := by
  generalize ho : Outcome.matched v rest = out at h
  cases h with
  | token _ hr => cases hr
  | @repetition _ _ _ _ out _ hs =>
    cases out with
    | failed => cases ho
    | matched vs rest =>
      cases ho
      exact ⟨vs, hs, rfl⟩

theorem Matches.of_gathering (hp : (∃ bounds, p = .repetition q bounds) ∨ ∃ s, p = .list q s)
    (h : Matches rules p scope text (.matched v rest) taps) :
    ∃ vs, v = q.shape.gather vs := by
  rcases hp with ⟨bounds, rfl⟩ | ⟨s, rfl⟩
  · obtain ⟨vs, -, hv⟩ := h.of_repetition
    exact ⟨vs, hv⟩
  · generalize ho : Outcome.matched v rest = out at h
    cases h with
    | token _ hr => cases hr
    | list_none | list_some =>
      cases ho
      exact ⟨_, rfl⟩

theorem Matches.of_map {f : Value → Value}
    (h : Matches rules (.map p f) scope text (.matched v rest) taps) :
    ∃ w, Matches rules p scope text (.matched w rest) taps ∧ v = f w := by
  generalize ho : Outcome.matched v rest = out at h
  cases h with
  | token _ hr => cases hr
  | @map _ _ _ _ out _ hm =>
    cases out with
    | failed => cases ho
    | matched w rest =>
      cases ho
      exact ⟨w, hm, rfl⟩

theorem Matches.of_rule {ref : RuleRef} {out : Outcome Value}
    (h : Matches rules (.rule ref) scope text out taps) :
    ∃ d, rules.resolve ref = .ok d ∧ Matches rules d scope text out taps := by
  cases h with
  | token _ hr => cases hr
  | rule hd hm => exact ⟨_, hd, hm⟩

/-- A token comes to what its reader makes of some text. -/
theorem Matches.of_token {out : Outcome Value} (hp : (p.read? []).isSome = true)
    (h : Matches rules p scope text out taps) : ∃ text', p.read? text' = some out := by
  cases h with
  | token _ hr => exact ⟨_, hr⟩
  | _ => cases hp

theorem Matches.of_alternative {out : Outcome Value}
    (h : Matches rules (.alternative ps) scope text out taps) :
    MatchesFirst rules ps scope text out taps := by
  cases h with
  | token _ hr => cases hr
  | alternative h => exact h

theorem MatchesAll.of_cons (h : MatchesAll rules (p :: ps) scope text (.matched vs rest) taps) :
    ∃ w ws text₁ taps₁ taps₂, Matches rules p scope text (.matched w text₁) taps₁ ∧
      MatchesAll rules ps scope text₁ (.matched ws rest) taps₂ ∧ vs = p.keep w ++ ws := by
  generalize ho : Outcome.matched vs rest = out at h
  cases h with
  | failed => cases ho
  | @cons _ _ _ _ text₁ w out taps₁ taps₂ hm hs =>
    cases out with
    | failed => cases ho
    | matched ws rest =>
      cases ho
      exact ⟨w, ws, text₁, taps₁, taps₂, hm, hs, rfl⟩

theorem MatchesAll.of_nil (h : MatchesAll rules [] scope text (.matched vs rest) taps) :
    vs = [] ∧ rest = text := by
  cases h
  exact ⟨rfl, rfl⟩

theorem Matches.of_pair (h : Matches rules (.sequence [p, q]) scope text (.matched v rest) taps) :
    ∃ w u text₁ taps₁ taps₂, Matches rules p scope text (.matched w text₁) taps₁ ∧
      Matches rules q scope text₁ (.matched u rest) taps₂ ∧
      v = .ofParts (p.keep w ++ q.keep u) := by
  obtain ⟨vs, hs, rfl⟩ := h.of_sequence
  obtain ⟨w, ws, text₁, taps₁, taps₂, hw, hs', rfl⟩ := hs.of_cons
  obtain ⟨u, us, text₂, taps₃, taps₄, hu, hnil, rfl⟩ := hs'.of_cons
  obtain ⟨rfl, rfl⟩ := hnil.of_nil
  exact ⟨w, u, text₁, taps₁, taps₃, hw, hu, by rw [List.append_nil]⟩

/-- What holds of the value of every match of the operand holds of the value of every round. -/
theorem Rounds.forall_values {P : Value → Prop} {bounds : Bounds} {count : Nat}
    {out : Outcome (List Value)} {text rest : List Char} {vs : List Value} {taps : List Tap}
    (hP : ∀ text v rest taps, Matches rules p scope text (.matched v rest) taps → P v) :
    Rounds rules p bounds scope count text out taps → out = .matched vs rest → ∀ v ∈ vs, P v
  | .full _, ho => by cases ho; simp
  | .enough _ _ _, ho => by cases ho; simp
  | .short _ _ _, ho => by cases ho
  | .idle _ hm, ho => by
    cases ho
    simpa using hP _ _ _ _ hm
  | @Rounds.round _ _ _ _ _ _ _ _ out _ _ _ hm _ hs, ho => by
    cases out with
    | failed => cases ho
    | matched ws rest =>
      cases ho
      exact List.forall_mem_cons.2 ⟨hP _ _ _ _ hm, Rounds.forall_values hP hs rfl⟩

/-- The value of every match is what the shapes foretell. -/
theorem Matches.foretold (h : Matches rules p scope text (.matched v rest) taps) :
    Foretold rules p scope text v rest where
  of_silent hp := by
    have hv : v.Fits p.shape := h.fits
    rw [Pattern.isSilent_iff.1 hp] at hv
    exact hv
  of_text hp := by
    have hv : v.Fits p.shape := h.fits
    rw [Pattern.isText_iff.1 hp] at hv
    exact hv
  of_sequence ps hp := by
    subst hp
    obtain ⟨vs, hs, rfl⟩ := h.of_sequence
    refine ⟨vs, taps, hs, hs.length_eq rfl, ?_, ?_, fun hl => ?_⟩
    · rintro rfl
      rfl
    · rintro w rfl
      rfl
    · match vs, hl with
      | _ :: _ :: _, _ => rfl
  of_operand q hp := by
    obtain ⟨vs, rfl⟩ := h.of_gathering hp
    refine ⟨fun hq => ?_, fun hq => ?_, fun hs ht => ?_⟩
    · rw [Pattern.isSilent_iff.1 hq]
      rfl
    · rw [Pattern.isText_iff.1 hq]
      exact ⟨_, rfl⟩
    · cases hq : q.shape with
      | silent => simp [Pattern.isSilent, hq] at hs
      | text => simp [Pattern.isText, hq] at ht
      | other => exact ⟨vs, rfl⟩

end

/-- The value of every match is what the shapes foretell: of every derivation, of a match of a
complete text, and of a stream, decided before the end of the text or by it. And no match ever takes
a value for text that is none, on whatever input and by whatever rules it is fed. -/
theorem value_foretold :
    (∀ rules p scope text v rest taps, Matches rules p scope text (.matched v rest) taps →
      Foretold rules p scope text v rest) ∧
    (∀ rules fuel p (input : String) v (rest : String),
      (parsePrefix rules fuel p input).outcome = .ok (v, rest) →
      Foretold rules p none input.toList v rest.toList) ∧
    (∀ rules fuel p chunks first st v, Stream.start rules p = .ok first →
      Stream.feedAll rules fuel chunks first = .ok st →
      st.status = .matched v ∨ (st.finish rules fuel).outcome = .ok v →
      ∃ rest, Foretold rules p none (String.join chunks).toList v rest) ∧
    (∀ (s : Chunked) p scope log m verdict, Machine.Fed ⟨.enter p scope, [], s, log⟩ m verdict →
      ∀ kind, verdict ≠ .fault (.notText kind)) ∧
    (∀ (s : Whole) p scope log rules fuel kind,
      (Machine.run rules fuel ⟨.enter p scope, [], s, log⟩).2 ≠ .fault (.notText kind)) := by
  refine ⟨fun _ _ _ _ _ _ _ h => h.foretold, fun rules fuel p input v rest h => ?_, ?_, ?_, ?_⟩
  · obtain ⟨taps, hm⟩ := matches_of_parsePrefix h
    exact hm.foretold
  · intro rules fuel p chunks first st v hs hf hv
    obtain ⟨rest, taps, hm⟩ :=
      hv.elim (Stream.matches_of_feedAll hs hf) (Stream.matches_of_finish hs hf)
    exact ⟨rest, hm.foretold⟩
  · rintro s p scope log m verdict hm kind rfl
    obtain ⟨-, hv⟩ := hm.shaped (Machine.shaped_enter p scope s log)
    exact hv kind rfl
  · intro s p scope log rules fuel kind h
    obtain ⟨-, hv⟩ := (Machine.shaped_enter p scope s log).run Machine.plain_whole rules fuel
    rw [h] at hv
    exact hv kind rfl

/-- Letters with commas between them, and one more after them. -/
def letters : Pattern := .sequence [.list (.exactly 'a') (.literal ","), .exactly 'b']

theorem letters_collect : RuleBook.empty.collect letters = .ok [] := by
  simp [letters, RuleBook.collect, RuleBook.visit_other, RuleBook.visit_nil, Pattern.children,
    Pattern.exactly]

/-- The letters of the list are joined, and the last one stands beside them. -/
theorem letters_matches : Matches .empty letters none "a,ab".toList
    (.matched (.tuple [.str "aa", .char 'b']) []) [] := by
  have ha (rest : List Char) : Matches .empty (.exactly 'a') none ('a' :: rest)
      (.matched (.char 'a') rest) [] := .token .none rfl
  have hb : Matches .empty (.exactly 'b') none ['b'] (.matched (.char 'b') []) [] :=
    .token .none rfl
  have hcomma : Matches .empty (.literal ",") none [',', 'a', 'b'] (.matched .nil ['a', 'b']) [] :=
    .token .none rfl
  have hend : Matches .empty (.literal ",") none ['b'] .failed [] := .token .none rfl
  have hpairs : Pairs .empty (.exactly 'a') (.literal ",") none [',', 'a', 'b'] [.char 'a'] ['b']
      [] := .pair hcomma (ha _) (by decide) (.separator_failed hend)
  have hlist := Matches.list_some (ha [',', 'a', 'b']) hpairs
  exact .sequence (.cons hlist (.cons hb .nil))

theorem value_foretold_letters : ∃ fuel first st,
    (parsePrefix .empty fuel letters "a,ab").outcome = .ok (.tuple [.str "aa", .char 'b'], "") ∧
      Foretold .empty letters none "a,ab".toList (.tuple [.str "aa", .char 'b']) "".toList ∧
      Stream.start .empty letters = .ok first ∧
      Stream.feedAll .empty fuel ["a,", "ab"] first = .ok st ∧
      (st.finish .empty fuel).outcome = .ok (.tuple [.str "aa", .char 'b']) ∧
      ∃ rest, Foretold .empty letters none "a,ab".toList (.tuple [.str "aa", .char 'b']) rest := by
  obtain ⟨K, e, hK, he⟩ := Machine.ends_of_matches letters_matches
  have hfuel := Nat.lt_succ_self K
  have hparse : (parsePrefix .empty (K + 1) letters "a,ab").outcome =
      .ok (.tuple [.str "aa", .char 'b'], "") := by
    rw [parsePrefix_of_ends hK he letters_matches.within hfuel, letters_collect]
    rfl
  obtain ⟨hstart, h₀⟩ := Stream.stands_start letters_collect
  have hjoin : [] ++ (String.join ["a,", "ab"]).toList = "a,ab".toList := by decide
  obtain ⟨st, hfeed⟩ := h₀.exists_feedAll (e := e) (by rw [hjoin]; exact hK)
    (show _ = some (Status.matched (.tuple [.str "aa", .char 'b'])).verdict from he.verdict) hfuel
  obtain ⟨n, h, -⟩ := h₀.feedAll hfeed
  rw [hjoin] at h
  obtain ⟨s, t, hend, -, -⟩ := h.conclude hK he.verdict hfuel
  have hfinish : (st.finish .empty (K + 1)).outcome = .ok (.tuple [.str "aa", .char 'b']) := by
    rw [Stream.finish, hend]
    rfl
  refine ⟨K + 1, _, st, hparse, value_foretold.2.1 _ _ _ _ _ _ hparse, hstart, hfeed, hfinish, ?_⟩
  exact value_foretold.2.2.1 _ _ _ _ _ _ _ hstart hfeed (.inr hfinish)

end PegStream
