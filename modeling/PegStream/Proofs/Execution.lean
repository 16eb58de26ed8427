import PegStream.Parse
import PegStream.Proofs.Inputs
import PegStream.Proofs.Reachability
import PegStream.Proofs.Reading

/-!
# The machine matches what the patterns mean

On a complete text, the machine comes to the outcome of every derivation, with the value, the rest
and the taps that the derivation gives. The argument follows the derivation: for each of its rules
there is a lemma that puts together what the machine does for the parts, and each loop is followed
round by round.

* `Yields`, `Passes`, `YieldsAll`, `YieldsFirst`, `YieldsRounds`, `YieldsPairs`: what the machine
  has to do for a match, for the skipping in front of a token, and for the parts of a compound
  pattern;
* `Matches.yields`: it does so wherever there is a derivation;
* `Matches.unique`: the machine does one thing only, so a text has at most one outcome;
* `parsePrefix_of_matches`: so the answer to a complete text is the one that the patterns mean.
-/

namespace PegStream

/-! ## Collecting values -/

namespace Collected

/-- What a repetition has collected after rounds that produced `values`. -/
def ofValues (values : List Value) : Shape → Collected
  | .silent => silent
  | .text => text (values.filterMap Value.text?).reverse
  | .other => items values.reverse

theorem ofShape_eq (shape : Shape) : ofShape shape = ofValues [] shape := by
  cases shape <;> rfl

theorem push_ofValues {shape : Shape} {v : Value} (h : v.Fits shape) (values : List Value) :
    (ofValues values shape).push v = .ok (ofValues (values ++ [v]) shape) := by
  cases shape with
  | silent => rfl
  | text =>
    obtain ⟨piece, hp⟩ := h.text?
    simp [ofValues, push, hp]
  | other => simp [ofValues, push]

theorem finish_ofValues (values : List Value) (shape : Shape) :
    (ofValues values shape).finish = shape.gather values := by
  cases shape <;> simp [ofValues, finish, Shape.gather]

end Collected

/-- A pattern whose value is not kept has none. -/
theorem Pattern.ite_isSilent {p : Pattern} {v : Value} (h : v.Fits p.shape) :
    (if (!p.isSilent) = true then v else .nil) = v := by
  unfold Pattern.isSilent
  cases hs : p.shape with
  | silent =>
    rw [hs] at h
    exact h.symm
  | text | other => rfl

namespace Machine

variable {rules : RuleBook} {p q : Pattern} {ps : List Pattern} {bounds : Bounds} {scope : Scope}
  {count : Nat} {text text' text₁ text₂ rest : List Char} {v w : Value} {vs : List Value}
  {out : Outcome Value} {outs : Outcome (List Value)} {taps taps₁ taps₂ taps₃ : List Tap}

/-! ## Parts of a match -/

/-- The machine does for a pattern what a derivation asks for. -/
def Yields (rules : RuleBook) (p : Pattern) (scope : Scope) (text : List Char) (out : Outcome Value)
    (taps : List Tap) : Prop :=
  ∀ (t : Tape) (stack : List Frame) (log : List Tap), t.Shows text →
    Decides rules ⟨.enter p scope, stack, t, log⟩ out stack t (taps.reverse ++ log)

/-- The machine passes over what stands in front of a token, and goes on with the token. -/
def Passes (rules : RuleBook) (scope : Scope) (text text' : List Char) (taps : List Tap) : Prop :=
  ∀ (t : Tape) (stack : List Frame) (log log' : List Tap) (next : Token) (out : Outcome Value),
    t.Shows text →
    Decides rules ⟨next.control, stack, t.before text', taps.reverse ++ log⟩ out stack t log' →
    Decides rules ⟨.ofToken scope next, stack, t, log⟩ out stack t log'

/-- The machine goes on with the parts of a sequence, after parts that kept some values. -/
def YieldsAll (rules : RuleBook) (ps : List Pattern) (scope : Scope) (text : List Char)
    (out : Outcome (List Value)) (taps : List Tap) : Prop :=
  ∀ (t : Tape) (control : Control) (stack : List Frame) (log : List Tap) (values : List Value),
    t.Shows text → Decides rules (nextPart scope values.reverse ps ⟨control, stack, t, log⟩)
      (out.map fun vs => .ofParts (values ++ vs)) stack t (taps.reverse ++ log)

/-- The machine goes on with the branches of an alternative. -/
def YieldsFirst (rules : RuleBook) (ps : List Pattern) (scope : Scope) (text : List Char)
    (out : Outcome Value) (taps : List Tap) : Prop :=
  ∀ (t : Tape) (control : Control) (stack : List Frame) (log : List Tap), t.Shows text →
    Decides rules (nextBranch scope ps ⟨control, stack, t, log⟩) out stack t (taps.reverse ++ log)

/-- The machine goes on with a repetition, after rounds that produced some values. The repetition
has a checkpoint at its entry, or none. -/
def YieldsRounds (rules : RuleBook) (p : Pattern) (bounds : Bounds) (scope : Scope) (count : Nat)
    (text : List Char) (out : Outcome (List Value)) (taps : List Tap) : Prop :=
  ∀ (t : Tape) (control : Control) (stack : List Frame) (log : List Tap) (values : List Value)
    (entry : Option Nat), t.Shows text → ∃ m₁,
      nextRound p bounds scope (t.held entry) count (.ofValues values p.shape)
        ⟨control, stack, t.holding entry, log⟩ = .ok m₁ ∧
      Decides rules m₁ (out.map fun vs => p.shape.gather (values ++ vs)) stack t
        (taps.reverse ++ log)

/-- The machine goes on with a list, from the separator after elements with some values. -/
def YieldsPairs (rules : RuleBook) (p q : Pattern) (scope : Scope) (text : List Char)
    (vs : List Value) (rest : List Char) (taps : List Tap) : Prop :=
  ∀ (t : Tape) (stack : List Frame) (log : List Tap) (values : List Value), t.Shows text →
    Decides rules ⟨.enter q scope,
      .listSeparator p q scope t.mark.1 (.ofValues values p.shape) :: stack, t.mark.2, log⟩
      (.matched (p.shape.gather (values ++ vs)) rest) stack t (taps.reverse ++ log)

theorem log_append (taps₁ taps₂ log : List Tap) :
    (taps₁ ++ taps₂).reverse ++ log = taps₂.reverse ++ (taps₁.reverse ++ log) := by
  rw [List.reverse_append, List.append_assoc]

section

variable {frame : Frame} {stack stack' : List Frame} {t t' : Tape} {log log' : List Tap}

variable {m₁ : Machine Tape}

/-- A part that matches hands its value to the frame that waits for it. -/
theorem Yields.resume (h : Yields rules p scope text (.matched v rest) taps) (ht : t.Shows text)
    (hr : Machine.resume frame v ⟨.matched v, stack, t.before rest, taps.reverse ++ log⟩ = .ok m₁)
    (hd : Decides rules m₁ out stack' t' log') :
    Decides rules ⟨.enter p scope, frame :: stack, t, log⟩ out stack' t' log' := by
  obtain ⟨k, hk⟩ := h t (frame :: stack) log ht
  refine hd.after (hk.tail ?_)
  exact congrArg (Functor.map Step.moved) hr

/-- A part that fails hands over to the frame that waits for it. -/
theorem Yields.recover {f : Nat → Machine Tape} (h : Yields rules p scope text .failed taps)
    (ht : t.Shows text) (hr : ∀ k, Machine.recover frame
      ⟨.failed, stack, { t with cursor := k }, taps.reverse ++ log⟩ = .ok (f k))
    (hd : ∀ k, Decides rules (f k) out stack' t' log') :
    Decides rules ⟨.enter p scope, frame :: stack, t, log⟩ out stack' t' log' := by
  obtain ⟨k, c, hk⟩ := h t (frame :: stack) log ht
  refine (hd c).after (hk.tail ?_)
  exact congrArg (Functor.map Step.moved) (hr c)

/-- A frame that marked the tape at `text` closes its checkpoint when the part that started at
`text₁` matches, and knows whether anything has been read since. -/
theorem Yields.commit_from {g : Bool → Machine Tape → Except Fault (Machine Tape)}
    (h : Yields rules p scope text₁ (.matched v rest) taps) (ht : t.Shows text)
    (h₁ : text₁ <:+ text) (hr : rest <:+ text₁)
    (hf : ∀ m, Machine.resume frame v m = commit t.mark.1 m >>= g (hasPassed t.mark.1 m))
    (hg : g (decide (rest ≠ text)) ⟨.matched v, stack, t.before rest, taps.reverse ++ log⟩ = .ok m₁)
    (hd : Decides rules m₁ out stack' t' log') :
    Decides rules ⟨.enter p scope, frame :: stack, t.mark.2.before text₁, log⟩ out stack' t'
      log' := by
  have ht₁ : (t.mark.2.before text₁).Shows text₁ := Tape.Shows.move (ht.save _) h₁
  refine h.resume ht₁ ?_ hd
  change Machine.resume frame v ⟨.matched v, stack, t.mark.2.before rest, taps.reverse ++ log⟩ = _
  rw [hf, hasPassed_before ht (hr.trans h₁), commit_mark]
  exact hg

/-- A frame that marked the tape goes back there when the part that started at `text₁` fails. -/
theorem Yields.rollback_from {g : Machine Tape → Except Fault (Machine Tape)}
    (h : Yields rules p scope text₁ .failed taps) (ht : t.Shows text) (h₁ : text₁ <:+ text)
    (hf : ∀ m, Machine.recover frame m = rollback t.mark.1 m >>= g)
    (hg : g ⟨.failed, stack, t, taps.reverse ++ log⟩ = .ok m₁)
    (hd : Decides rules m₁ out stack' t' log') :
    Decides rules ⟨.enter p scope, frame :: stack, t.mark.2.before text₁, log⟩ out stack' t'
      log' := by
  have ht₁ : (t.mark.2.before text₁).Shows text₁ := Tape.Shows.move (ht.save _) h₁
  refine h.recover ht₁ (fun k => ?_) (fun _ => hd)
  change Machine.recover frame
    ⟨.failed, stack, { t.mark.2 with cursor := k }, taps.reverse ++ log⟩ = _
  rw [hf, rollback_mark]
  exact hg

theorem mark_before_self (ht : t.Shows text) : t.mark.2.before text = t.mark.2 :=
  (ht.save _).before_self

/-- The part of a frame that has just marked the tape matches. -/
theorem Yields.commit {g : Bool → Machine Tape → Except Fault (Machine Tape)}
    (h : Yields rules p scope text (.matched v rest) taps) (ht : t.Shows text) (hr : rest <:+ text)
    (hf : ∀ m, Machine.resume frame v m = Machine.commit t.mark.1 m >>= g (hasPassed t.mark.1 m))
    (hg : g (decide (rest ≠ text)) ⟨.matched v, stack, t.before rest, taps.reverse ++ log⟩ = .ok m₁)
    (hd : Decides rules m₁ out stack' t' log') :
    Decides rules ⟨.enter p scope, frame :: stack, t.mark.2, log⟩ out stack' t' log' := by
  rw [← mark_before_self ht]
  exact h.commit_from ht (List.suffix_refl text) hr hf hg hd

/-- The part of a frame that has just marked the tape fails. -/
theorem Yields.rollback {g : Machine Tape → Except Fault (Machine Tape)}
    (h : Yields rules p scope text .failed taps) (ht : t.Shows text)
    (hf : ∀ m, Machine.recover frame m = Machine.rollback t.mark.1 m >>= g)
    (hg : g ⟨.failed, stack, t, taps.reverse ++ log⟩ = .ok m₁)
    (hd : Decides rules m₁ out stack' t' log') :
    Decides rules ⟨.enter p scope, frame :: stack, t.mark.2, log⟩ out stack' t' log' := by
  rw [← mark_before_self ht]
  exact h.rollback_from ht (List.suffix_refl text) hf hg hd

end

/-! ## Skipping and tokens -/

theorem passes_none : Passes rules none text text [] := by
  intro t stack log log' next out ht h
  rw [ht.before_self] at h
  exact h

theorem Yields.passes_failed (h : Yields rules p none text .failed taps) :
    Passes rules (some p) text text taps := by
  intro t stack log log' next out ht hd
  rw [ht.before_self] at hd
  exact (h.rollback ht (g := fun m => .ok (m.goto next.control)) (fun _ => rfl) rfl hd).step rfl

/-- What follows a match of the skipper, by whether it read something. -/
def afterNoise (skipper : Pattern) (next : Token) (moved : Bool) (m : Machine Tape) :
    Except Fault (Machine Tape) :=
  .ok (m.goto (if moved then .skip skipper next else next.control))

theorem Yields.passes_idle (h : Yields rules p none text (.matched v text) taps) :
    Passes rules (some p) text text taps := by
  intro t stack log log' next out ht hd
  refine (h.commit ht (List.suffix_refl text) (g := afterNoise p next) (fun _ => rfl) ?_
    hd).step rfl
  rw [decide_eq_false (fun hne => hne rfl)]
  rfl

theorem Yields.passes_more (h : Yields rules p none text (.matched v text₁) taps₁)
    (hr : text₁ <:+ text) (hne : text₁ ≠ text) (hs : Passes rules (some p) text₁ text' taps₂) :
    Passes rules (some p) text text' (taps₁ ++ taps₂) := by
  intro t stack log log' next out ht hd
  rw [log_append] at hd
  have hrest := hs (t.before text₁) stack (taps₁.reverse ++ log) log' next out (ht.move hr) hd
  refine (h.commit ht hr (g := afterNoise p next) (fun _ => rfl) ?_ hrest).step rfl
  rw [decide_eq_true hne]
  rfl

theorem Passes.token (hs : Passes rules scope text text' taps) (h' : text' <:+ text)
    (hr : p.read? text' = some out) : Yields rules p scope text out taps := by
  intro t stack log ht
  obtain ⟨token, hread, henter⟩ := reads_token rules hr
  have hd := hread (t.before text') stack (taps.reverse ++ log) (ht.move h')
  refine (hs t stack log _ (.scan token) out ht hd).step ?_
  change Step.moved <$> enter rules p scope _ = _
  rw [henter]
  rfl

theorem Passes.lexeme (hs : Passes rules scope text text' taps₁) (h' : text' <:+ text)
    (h : Yields rules p none text' out taps₂) :
    Yields rules (.lexeme p) scope text out (taps₁ ++ taps₂) := by
  intro t stack log ht
  rw [log_append]
  have hd := h (t.before text') stack (taps₁.reverse ++ log) (ht.move h')
  exact (hs t stack log _ (.lexeme p) out ht hd).step rfl

/-! ## Sequences and alternatives -/

theorem yieldsAll_nil : YieldsAll rules [] scope text (.matched [] text) [] := by
  intro t control stack log values ht
  change Decides rules ⟨.matched (.ofParts values.reverse.reverse), stack, t, log⟩ _ _ _ _
  rw [List.reverse_reverse, Outcome.map_matched, List.append_nil]
  exact .matched ht _

theorem Yields.all_failed (h : Yields rules p scope text .failed taps) :
    YieldsAll rules (p :: ps) scope text .failed taps := by
  intro t control stack log values ht
  exact h.recover ht (fun _ => rfl) fun k => .failed { t with cursor := k }

theorem Yields.all_cons (h : Yields rules p scope text (.matched v text₁) taps₁)
    (hr : text₁ <:+ text) (hs : YieldsAll rules ps scope text₁ outs taps₂) :
    YieldsAll rules (p :: ps) scope text (outs.map fun vs => p.keep v ++ vs) (taps₁ ++ taps₂) := by
  intro t control stack log values ht
  have hkeep : (if (!p.isSilent) = true then v :: values.reverse else values.reverse) =
      (values ++ p.keep v).reverse := by
    unfold Pattern.keep
    cases p.isSilent <;> simp
  have hrest := hs (t.before text₁) (.matched v) stack (taps₁.reverse ++ log) (values ++ p.keep v)
    (ht.move hr)
  rw [log_append, Outcome.map_map]
  simp only [List.append_assoc] at hrest
  refine h.resume ht ?_ hrest
  rw [← hkeep]
  rfl

theorem YieldsAll.sequence (h : YieldsAll rules ps scope text outs taps) :
    Yields rules (.sequence ps) scope text (outs.map .ofParts) taps := by
  intro t stack log ht
  exact (h t (.enter (.sequence ps) scope) stack log [] ht).step rfl

theorem yieldsFirst_nil : YieldsFirst rules [] scope text .failed [] := by
  intro t control stack log ht
  exact .failed t

theorem Yields.first_matched (h : Yields rules p scope text (.matched v rest) taps)
    (hr : rest <:+ text) (hv : v.Fits p.shape) :
    YieldsFirst rules (p :: ps) scope text (.matched v rest) taps := by
  intro t control stack log ht
  refine h.commit ht hr
    (g := fun _ m => .ok (m.goto (.matched (if (!p.isSilent) = true then v else .nil))))
    (fun _ => rfl) rfl ?_
  rw [Pattern.ite_isSilent hv]
  exact .matched (ht.move hr) v

theorem Yields.first_failed (h : Yields rules p scope text .failed taps₁)
    (hs : YieldsFirst rules ps scope text out taps₂) :
    YieldsFirst rules (p :: ps) scope text out (taps₁ ++ taps₂) := by
  intro t control stack log ht
  rw [log_append]
  exact h.rollback ht (g := fun m => .ok (m.nextBranch scope ps)) (fun _ => rfl) rfl
    (hs t .failed stack (taps₁.reverse ++ log) ht)

theorem YieldsFirst.alternative (h : YieldsFirst rules ps scope text out taps) :
    Yields rules (.alternative ps) scope text out taps := by
  intro t stack log ht
  exact (h t (.enter (.alternative ps) scope) stack log ht).step rfl

/-! ## Repetitions -/

/-- A repetition that ends closes the checkpoint at its entry. -/
theorem endRounds_eq (t : Tape) (control : Control) (stack : List Frame) (log : List Tap)
    (entry : Option Nat) (values : List Value) (shape : Shape) :
    endRounds (t.held entry) (.ofValues values shape) ⟨control, stack, t.holding entry, log⟩ =
      .ok ⟨.matched (shape.gather values), stack, t, log⟩ := by
  rw [← Collected.finish_ofValues]
  cases entry with
  | none => rfl
  | some k =>
    change (commit _ _ >>= _) = _
    rw [commit_holding]
    rfl

theorem nextRound_eq (hb : bounds.isFull count = false) (t : Tape) (control : Control)
    (stack : List Frame) (log : List Tap) (entry : Option Checkpoint) (collected : Collected) :
    nextRound p bounds scope entry count collected ⟨control, stack, t, log⟩ =
      .ok ⟨.enter p scope, .repetition p bounds scope entry t.mark.1 count collected :: stack,
        t.mark.2, log⟩ := by
  rw [nextRound, if_neg (by rw [hb]; exact Bool.false_ne_true)]
  rfl

theorem yieldsRounds_full (hb : bounds.isFull count = true) :
    YieldsRounds rules p bounds scope count text (.matched [] text) [] := by
  intro t control stack log values entry ht
  refine ⟨_, by rw [nextRound, if_pos hb, endRounds_eq], ?_⟩
  rw [Outcome.map_matched, List.append_nil]
  exact .matched ht _

theorem Yields.rounds_enough (hb : bounds.isFull count = false)
    (h : Yields rules p scope text .failed taps) (hc : bounds.min ≤ count) :
    YieldsRounds rules p bounds scope count text (.matched [] text) taps := by
  intro t control stack log values entry ht
  refine ⟨_, nextRound_eq hb .., ?_⟩
  rw [Outcome.map_matched, List.append_nil]
  refine h.rollback (ht.save _) (fun _ => rfl) ?_ (.matched ht _)
  dsimp only
  rw [if_pos hc, endRounds_eq]

theorem Yields.rounds_short (hb : bounds.isFull count = false)
    (h : Yields rules p scope text .failed taps) (hc : count < bounds.min) :
    YieldsRounds rules p bounds scope count text .failed taps := by
  intro t control stack log values entry ht
  refine ⟨_, nextRound_eq hb .., ?_⟩
  cases entry with
  | none =>
    refine h.rollback (ht.save _) (fun _ => rfl) ?_ (.failed t)
    dsimp only
    rw [if_neg (Nat.not_le.2 hc)]
    rfl
  | some k =>
    refine h.rollback (ht.save _) (fun _ => rfl) ?_ (.failed { t with cursor := k })
    dsimp only
    rw [if_neg (Nat.not_le.2 hc)]
    change (Machine.rollback _ _ >>= _) = _
    rw [rollback_holding]
    rfl

/-- What follows a round that matched, by whether it read something. -/
def afterRound (p : Pattern) (bounds : Bounds) (scope : Scope) (entry : Option Checkpoint)
    (count : Nat) (collected : Collected) (moved : Bool) (m : Machine Tape) :
    Except Fault (Machine Tape) :=
  if moved then m.nextRound p bounds scope entry (count + 1) collected
  else m.endRounds entry collected

theorem resume_repetition (hv : v.Fits p.shape) (entry : Option Checkpoint) (cp : Checkpoint)
    (values : List Value) (m : Machine Tape) :
    Machine.resume (.repetition p bounds scope entry cp count (.ofValues values p.shape)) v m =
      commit cp m >>= afterRound p bounds scope entry count (.ofValues (values ++ [v]) p.shape)
        (hasPassed cp m) := by
  rw [Machine.resume, Collected.push_ofValues hv]
  rfl

theorem Yields.rounds_idle (hb : bounds.isFull count = false)
    (h : Yields rules p scope text (.matched v text) taps) (hv : v.Fits p.shape) :
    YieldsRounds rules p bounds scope count text (.matched [v] text) taps := by
  intro t control stack log values entry ht
  refine ⟨_, nextRound_eq hb .., ?_⟩
  refine h.commit (ht.save _) (List.suffix_refl text) (resume_repetition hv _ _ values) ?_
    (.matched (ht.move (List.suffix_refl text)) _)
  rw [decide_eq_false (fun hne => hne rfl)]
  exact endRounds_eq (t.before text) (.matched v) stack _ entry _ p.shape

theorem Yields.rounds_round (hb : bounds.isFull count = false)
    (h : Yields rules p scope text (.matched v text₁) taps₁) (hv : v.Fits p.shape)
    (hr : text₁ <:+ text) (hne : text₁ ≠ text)
    (hs : YieldsRounds rules p bounds scope (count + 1) text₁ outs taps₂) :
    YieldsRounds rules p bounds scope count text (outs.map fun vs => v :: vs) (taps₁ ++ taps₂) := by
  intro t control stack log values entry ht
  refine ⟨_, nextRound_eq hb .., ?_⟩
  obtain ⟨m₁, hm, hd⟩ := hs (t.before text₁) (.matched v) stack (taps₁.reverse ++ log)
    (values ++ [v]) entry (ht.move hr)
  rw [log_append, Outcome.map_map]
  simp only [List.append_assoc, List.singleton_append] at hd
  refine h.commit (ht.save _) hr (resume_repetition hv _ _ values) ?_ hd
  rw [decide_eq_true hne]
  exact hm

theorem YieldsRounds.repetition (h : YieldsRounds rules p bounds scope 0 text outs taps) :
    Yields rules (.repetition p bounds) scope text (outs.map fun vs => p.shape.gather vs) taps := by
  intro t stack log ht
  have hcollected := Collected.ofShape_eq p.shape
  by_cases h0 : bounds.min = 0
  · obtain ⟨m₁, hm, hd⟩ := h t (.enter (.repetition p bounds) scope) stack log [] none ht
    refine hd.step ?_
    change Step.moved <$> startRounds p bounds scope _ = _
    rw [startRounds, if_pos h0, hcollected]
    exact congrArg (Functor.map Step.moved) hm
  · obtain ⟨m₁, hm, hd⟩ := h t (.enter (.repetition p bounds) scope) stack log [] (some t.cursor) ht
    refine hd.step ?_
    change Step.moved <$> startRounds p bounds scope _ = _
    rw [startRounds, if_neg h0, hcollected]
    exact congrArg (Functor.map Step.moved) hm

/-! ## Lists -/

/-- What follows a later element of a list, by whether it or its separator read something. -/
def afterElement (p q : Pattern) (scope : Scope) (collected : Collected) (moved : Bool)
    (m : Machine Tape) : Except Fault (Machine Tape) :=
  if moved then .ok (m.mark.2.call (.listSeparator p q scope m.mark.1 collected) q scope)
  else .ok (m.goto (.matched collected.finish))

theorem resume_listElement (hv : v.Fits p.shape) (cp : Checkpoint) (first : Bool)
    (values : List Value) (m : Machine Tape) :
    Machine.resume (.listElement p q scope cp first (.ofValues values p.shape)) v m =
      commit cp m >>= afterElement p q scope (.ofValues (values ++ [v]) p.shape)
        (first || hasPassed cp m) := by
  rw [Machine.resume, Collected.push_ofValues hv]
  simp only [bind, Except.bind]
  cases commit cp m with
  | error f => rfl
  | ok m' => unfold afterElement; split <;> rfl

theorem Yields.pairs_separator_failed (h : Yields rules q scope text .failed taps) :
    YieldsPairs rules p q scope text [] text taps := by
  intro t stack log values ht
  rw [List.append_nil, ← Collected.finish_ofValues]
  exact h.rollback ht
    (g := fun m => .ok (m.goto (.matched (Collected.ofValues values p.shape).finish)))
    (fun _ => rfl) rfl (.matched ht _)

/-- A separator that matches hands over to the element behind it. -/
theorem Yields.separator {out : Outcome Value} {stack' : List Frame} {t t' : Tape} {log' : List Tap}
    (h : Yields rules q scope text (.matched w text₁) taps) (ht : t.Shows text)
    (stack : List Frame) (log : List Tap) (collected : Collected)
    (hd : Decides rules ⟨.enter p scope, .listElement p q scope t.mark.1 false collected :: stack,
      t.mark.2.before text₁, taps.reverse ++ log⟩ out stack' t' log') :
    Decides rules ⟨.enter q scope, .listSeparator p q scope t.mark.1 collected :: stack, t.mark.2,
      log⟩ out stack' t' log' :=
  h.resume (ht.save _) rfl hd

theorem Yields.pairs_element_failed (h : Yields rules q scope text (.matched w text₁) taps₁)
    (h₁ : text₁ <:+ text) (h' : Yields rules p scope text₁ .failed taps₂) :
    YieldsPairs rules p q scope text [] text (taps₁ ++ taps₂) := by
  intro t stack log values ht
  rw [log_append, List.append_nil, ← Collected.finish_ofValues]
  refine h.separator ht stack log _ ?_
  exact h'.rollback_from ht h₁
    (g := fun m => .ok (m.goto (.matched (Collected.ofValues values p.shape).finish)))
    (fun _ => rfl) rfl (.matched ht _)

theorem Yields.pairs_idle (h : Yields rules q scope text (.matched w text₁) taps₁)
    (h₁ : text₁ <:+ text) (h' : Yields rules p scope text₁ (.matched v text) taps₂)
    (h₂ : text <:+ text₁) (hv : v.Fits p.shape) :
    YieldsPairs rules p q scope text [v] text (taps₁ ++ taps₂) := by
  intro t stack log values ht
  rw [log_append, ← Collected.finish_ofValues]
  refine h.separator ht stack log _ ?_
  refine h'.commit_from ht h₁ h₂ (resume_listElement hv _ false values) ?_
    (.matched (ht.move (List.suffix_refl text)) _)
  rw [decide_eq_false (fun hne => hne rfl)]
  rfl

theorem Yields.pairs_pair (h : Yields rules q scope text (.matched w text₁) taps₁)
    (h₁ : text₁ <:+ text) (h' : Yields rules p scope text₁ (.matched v text₂) taps₂)
    (h₂ : text₂ <:+ text₁) (hv : v.Fits p.shape) (hne : text₂ ≠ text)
    (hs : YieldsPairs rules p q scope text₂ vs rest taps₃) :
    YieldsPairs rules p q scope text (v :: vs) rest (taps₁ ++ taps₂ ++ taps₃) := by
  intro t stack log values ht
  have hd := hs (t.before text₂) stack (taps₂.reverse ++ (taps₁.reverse ++ log)) (values ++ [v])
    (ht.move (h₂.trans h₁))
  rw [List.append_assoc, List.singleton_append] at hd
  rw [log_append, log_append]
  refine h.separator ht stack log _ ?_
  refine h'.commit_from ht h₁ h₂ (resume_listElement hv _ false values) ?_ hd
  rw [decide_eq_true hne]
  rfl

theorem Yields.list_none (h : Yields rules p scope text .failed taps) :
    Yields rules (.list p q) scope text (.matched (p.shape.gather []) text) taps := by
  intro t stack log ht
  rw [← Collected.finish_ofValues, ← Collected.ofShape_eq]
  exact (h.rollback ht
    (g := fun m => .ok (m.goto (.matched (Collected.ofShape p.shape).finish)))
    (fun _ => rfl) rfl (.matched ht _)).step rfl

theorem Yields.list_some (h : Yields rules p scope text (.matched v text₁) taps₁)
    (hr : text₁ <:+ text) (hv : v.Fits p.shape)
    (hs : YieldsPairs rules p q scope text₁ vs rest taps₂) :
    Yields rules (.list p q) scope text (.matched (p.shape.gather (v :: vs)) rest)
      (taps₁ ++ taps₂) := by
  intro t stack log ht
  have hd := hs (t.before text₁) stack (taps₁.reverse ++ log) [v] (ht.move hr)
  rw [log_append]
  have hf : ∀ m, Machine.resume (.listElement p q scope t.mark.1 true (.ofShape p.shape)) v m =
      Machine.commit t.mark.1 m >>= afterElement p q scope (.ofValues [v] p.shape) true := by
    rw [Collected.ofShape_eq]
    exact resume_listElement hv t.mark.1 true []
  exact (h.commit ht hr (g := fun _ => afterElement p q scope (.ofValues [v] p.shape) true) hf rfl
    hd).step rfl

/-! ## Other patterns -/

theorem yields_pass : Yields rules .pass scope text (.matched .nil text) [] := by
  intro t stack log ht
  exact (Decides.matched ht .nil).step rfl

theorem yields_fail : Yields rules .fail scope text .failed [] := by
  intro t stack log ht
  exact (Decides.failed t).step rfl

theorem Yields.optional_some (h : Yields rules p scope text (.matched v rest) taps)
    (hr : rest <:+ text) (hv : v.Fits p.shape) :
    Yields rules (.optional p) scope text (.matched v rest) taps := by
  intro t stack log ht
  refine (h.commit ht hr
    (g := fun _ m => .ok (m.goto (.matched (if (!p.isSilent) = true then v else .nil))))
    (fun _ => rfl) rfl ?_).step rfl
  rw [Pattern.ite_isSilent hv]
  exact .matched (ht.move hr) v

theorem Yields.optional_none (h : Yields rules p scope text .failed taps) :
    Yields rules (.optional p) scope text (.matched .nil text) taps := by
  intro t stack log ht
  exact (h.rollback ht (g := fun m => .ok (m.goto (.matched .nil))) (fun _ => rfl) rfl
    (.matched ht .nil)).step rfl

/-- A lookahead that matches goes back to where it started. -/
theorem Yields.look {frame : Frame} {m₁ : Machine Tape} {stack : List Frame} {t : Tape}
    {log : List Tap} {g : Machine Tape → Except Fault (Machine Tape)}
    (h : Yields rules p scope text (.matched v rest) taps) (ht : t.Shows text)
    (hf : ∀ m, Machine.resume frame v m = Machine.rollback t.mark.1 m >>= g)
    (hg : g ⟨.matched v, stack, t, taps.reverse ++ log⟩ = .ok m₁)
    {stack' : List Frame} {t' : Tape} {log' : List Tap} (hd : Decides rules m₁ out stack' t' log') :
    Decides rules ⟨.enter p scope, frame :: stack, t.mark.2, log⟩ out stack' t' log' := by
  refine h.resume (ht.save _) ?_ hd
  change Machine.resume frame v
    ⟨.matched v, stack, { t.mark.2 with cursor := (t.before rest).cursor }, taps.reverse ++ log⟩ = _
  rw [hf, rollback_mark]
  exact hg

theorem Yields.except_excluded (h : Yields rules q scope text (.matched v rest) taps) :
    Yields rules (.except p q) scope text .failed taps := by
  intro t stack log ht
  exact (h.look ht (g := fun m => .ok (m.goto .failed)) (fun _ => rfl) rfl (.failed t)).step rfl

theorem Yields.except_operand (h : Yields rules q scope text .failed taps₁)
    (h' : Yields rules p scope text out taps₂) :
    Yields rules (.except p q) scope text out (taps₁ ++ taps₂) := by
  intro t stack log ht
  rw [log_append]
  exact (h.rollback ht (g := fun m => .ok (m.goto (.enter p scope))) (fun _ => rfl) rfl
    (h' t stack (taps₁.reverse ++ log) ht)).step rfl

theorem Yields.not_matched (h : Yields rules p scope text (.matched v rest) taps) :
    Yields rules (.not p) scope text .failed taps := by
  intro t stack log ht
  exact (h.look ht (g := fun m => .ok (m.goto .failed)) (fun _ => rfl) rfl (.failed t)).step rfl

theorem Yields.not_failed (h : Yields rules p scope text .failed taps) :
    Yields rules (.not p) scope text (.matched .nil text) taps := by
  intro t stack log ht
  exact (h.rollback ht (g := fun m => .ok (m.goto (.matched .nil))) (fun _ => rfl) rfl
    (.matched ht .nil)).step rfl

/-- A frame that only changes the value of its part. -/
theorem Yields.mapped {frame : Frame} {f : Value → Value} {stack : List Frame} {t : Tape}
    {log : List Tap} (h : Yields rules p scope text out taps) (ht : t.Shows text)
    (hres : ∀ v (m : Machine Tape), Machine.resume frame v m = .ok (m.goto (.matched (f v))))
    (hrec : ∀ m : Machine Tape, Machine.recover frame m = .ok (m.goto .failed)) :
    Decides rules ⟨.enter p scope, frame :: stack, t, log⟩ (out.map f) stack t
      (taps.reverse ++ log) := by
  cases out with
  | matched v rest => exact h.resume ht (hres v _) (.arrived t (f v) rest)
  | failed => exact h.recover ht (fun _ => hrec _) fun k => .failed { t with cursor := k }

theorem Yields.discard (h : Yields rules p scope text out taps) :
    Yields rules (.discard p) scope text (out.map fun _ => .nil) taps := by
  intro t stack log ht
  exact .step rfl (h.mapped ht (fun _ _ => rfl) (fun _ => rfl))

theorem Yields.map (h : Yields rules p scope text out taps) (f : Value → Value) :
    Yields rules (.map p f) scope text (out.map f) taps := by
  intro t stack log ht
  exact .step rfl (h.mapped ht (fun _ _ => rfl) (fun _ => rfl))

theorem Yields.tap_matched (h : Yields rules p scope text (.matched v rest) taps) (label : String) :
    Yields rules (.tap p label) scope text (.matched .nil rest) (taps ++ [⟨label, v⟩]) := by
  intro t stack log ht
  rw [log_append]
  exact .step rfl (h.resume ht rfl (.arrived t .nil rest))

theorem Yields.tap_failed (h : Yields rules p scope text .failed taps) (label : String) :
    Yields rules (.tap p label) scope text .failed taps := by
  intro t stack log ht
  exact .step rfl (h.recover ht (fun _ => rfl) fun k => .failed { t with cursor := k })

theorem Yields.skipping {skipper : Pattern} (h : Yields rules p (some skipper) text out taps) :
    Yields rules (.skipping p skipper) scope text out taps := by
  intro t stack log ht
  exact (h t stack log ht).step rfl

theorem Yields.rule {ref : RuleRef} (hr : rules.resolve ref = .ok p)
    (h : Yields rules p scope text out taps) : Yields rules (.rule ref) scope text out taps := by
  intro t stack log ht
  refine (h t stack log ht).step ?_
  change Step.moved <$> enter rules (.rule ref) scope _ = _
  rw [enter, hr]
  rfl

end Machine

open Machine in
mutual

/-- Where there is a derivation, the machine comes to its outcome. -/
theorem Matches.yields {rules : RuleBook} {p : Pattern} {scope : Scope} {text : List Char}
    {out : Outcome Value} {taps : List Tap} :
    Matches rules p scope text out taps → Yields rules p scope text out taps
  | .token hs hr => (Skips.passes hs).token hs.within hr
  | .pass => yields_pass
  | .fail => yields_fail
  | .sequence h => (MatchesAll.yields h).sequence
  | .alternative h => (MatchesFirst.yields h).alternative
  | .repetition h => (Rounds.yields h).repetition
  | .optional_some h => (Matches.yields h).optional_some h.within h.fits
  | .optional_none h => (Matches.yields h).optional_none
  | .list_none h => (Matches.yields h).list_none
  | .list_some h hs => (Matches.yields h).list_some h.within h.fits (Pairs.yields hs)
  | .except_excluded h => (Matches.yields h).except_excluded
  | .except_operand h h' => (Matches.yields h).except_operand (Matches.yields h')
  | .not_matched h => (Matches.yields h).not_matched
  | .not_failed h => (Matches.yields h).not_failed
  | .discard h => (Matches.yields h).discard
  | .map h => (Matches.yields h).map _
  | .tap_matched h => (Matches.yields h).tap_matched _
  | .tap_failed h => (Matches.yields h).tap_failed _
  | .lexeme hs h => (Skips.passes hs).lexeme hs.within (Matches.yields h)
  | .skipping h => (Matches.yields h).skipping
  | .rule hr h => (Matches.yields h).rule hr

theorem Skips.passes {rules : RuleBook} {scope : Scope} {text text' : List Char} {taps : List Tap} :
    Skips rules scope text text' taps → Passes rules scope text text' taps
  | .none => passes_none
  | .failed h => (Matches.yields h).passes_failed
  | .idle h => (Matches.yields h).passes_idle
  | .more h hne hs => (Matches.yields h).passes_more h.within hne (Skips.passes hs)

theorem MatchesAll.yields {rules : RuleBook} {ps : List Pattern} {scope : Scope} {text : List Char}
    {out : Outcome (List Value)} {taps : List Tap} :
    MatchesAll rules ps scope text out taps → YieldsAll rules ps scope text out taps
  | .nil => yieldsAll_nil
  | .failed h => (Matches.yields h).all_failed
  | .cons h hs => (Matches.yields h).all_cons h.within (MatchesAll.yields hs)

theorem MatchesFirst.yields {rules : RuleBook} {ps : List Pattern} {scope : Scope}
    {text : List Char} {out : Outcome Value} {taps : List Tap} :
    MatchesFirst rules ps scope text out taps → YieldsFirst rules ps scope text out taps
  | .nil => yieldsFirst_nil
  | .matched h => (Matches.yields h).first_matched h.within h.fits
  | .failed h hs => (Matches.yields h).first_failed (MatchesFirst.yields hs)

theorem Rounds.yields {rules : RuleBook} {p : Pattern} {bounds : Bounds} {scope : Scope}
    {count : Nat} {text : List Char} {out : Outcome (List Value)} {taps : List Tap} :
    Rounds rules p bounds scope count text out taps →
      YieldsRounds rules p bounds scope count text out taps
  | .full hb => yieldsRounds_full hb
  | .enough hb h hc => (Matches.yields h).rounds_enough hb hc
  | .short hb h hc => (Matches.yields h).rounds_short hb hc
  | .idle hb h => (Matches.yields h).rounds_idle hb h.fits
  | .round hb h hne hs => (Matches.yields h).rounds_round hb h.fits h.within hne (Rounds.yields hs)

theorem Pairs.yields {rules : RuleBook} {p q : Pattern} {scope : Scope} {text rest : List Char}
    {vs : List Value} {taps : List Tap} :
    Pairs rules p q scope text vs rest taps → YieldsPairs rules p q scope text vs rest taps
  | .separator_failed h => (Matches.yields h).pairs_separator_failed
  | .element_failed h h' =>
    (Matches.yields h).pairs_element_failed h.within (Matches.yields h')
  | .idle h h' => (Matches.yields h).pairs_idle h.within (Matches.yields h') h'.within h'.fits
  | .pair h h' hne hs =>
    (Matches.yields h).pairs_pair h.within (Matches.yields h') h'.within h'.fits hne
      (Pairs.yields hs)

end

/-! ## Answers -/

/-- The answer of a match to a complete text. -/
def Outcome.answer : Outcome Value → Except Failure (Value × String)
  | .matched v rest => .ok (v, String.ofList rest)
  | .failed => .error (.error .noMatch)

/-- How a run that comes to an outcome ends. -/
def Outcome.verdict : Outcome Value → Machine.Verdict
  | .matched v _ => .matched v
  | .failed => .failed

namespace Machine

variable {rules : RuleBook} {p : Pattern} {out : Outcome Value} {t : Tape} {log taps : List Tap}

/-- A match that is decided with an outcome, on a tape that was `t` when it started. -/
structure Ends (rules : RuleBook) (n : Machine Tape) (out : Outcome Value) (t : Tape)
    (log : List Tap) : Prop where
  verdict : n.verdict? rules = some out.verdict
  log : n.log = log
  text : n.source.text = t.text
  saved : n.source.saved = t.saved
  final : n.source.final = t.final
  rest : ∀ v rest, out = .matched v rest → n.source.cursor = t.text.length - rest.length

theorem Decides.ends {m : Machine Tape} (h : Decides rules m out [] t log) :
    ∃ k n, Moves rules k m n ∧ Ends rules n out t log := by
  cases out with
  | matched v rest =>
    obtain ⟨k, hk⟩ := h
    refine ⟨k, _, hk, rfl, rfl, rfl, rfl, rfl, fun v' rest' he => ?_⟩
    cases he
    rfl
  | failed =>
    obtain ⟨k, c, hk⟩ := h
    exact ⟨k, _, hk, rfl, rfl, rfl, rfl, rfl, fun v' rest' he => nomatch he⟩

theorem shows_start (text : List Char) : Tape.Shows { text, final := true } text :=
  ⟨rfl, Nat.zero_le _, rfl⟩

/-- A match of a complete text with a derivation ends with its outcome. -/
theorem ends_of_matches {scope : Scope} {text : List Char}
    (h : Matches rules p scope text out taps) :
    ∃ k n, Moves rules k ⟨.enter p scope, [], { text, final := true }, []⟩ n ∧
      Ends rules n out { text, final := true } taps.reverse := by
  have hd := h.yields { text, final := true } [] [] (shows_start text)
  rw [List.append_nil] at hd
  exact hd.ends

/-- The end of a match determines its outcome. -/
theorem Ends.outcome_eq {n : Machine Tape} {out' : Outcome Value} {log' : List Tap}
    (h : Ends rules n out t log) (h' : Ends rules n out' t log') (hw : out.Within t.text)
    (hw' : out'.Within t.text) : out = out' := by
  have hv : some out.verdict = some out'.verdict := by rw [← h.verdict, h'.verdict]
  cases out with
  | failed =>
    cases out' with
    | failed => rfl
    | matched => cases hv
  | matched v rest =>
    cases out' with
    | failed => cases hv
    | matched v' rest' =>
      cases hv
      -- Both rests begin where the cursor stands.
      have hlen : t.text.length - rest.length = t.text.length - rest'.length := by
        rw [← h.rest v rest rfl, h'.rest v rest' rfl]
      rw [List.suffix_iff_eq_drop.1 hw, List.suffix_iff_eq_drop.1 hw', hlen]

end Machine

/-- A pattern makes one thing of a text at most. -/
theorem Matches.unique {rules : RuleBook} {p : Pattern} {scope : Scope} {text : List Char}
    {out out' : Outcome Value} {taps taps' : List Tap} (h : Matches rules p scope text out taps)
    (h' : Matches rules p scope text out' taps') : out = out' ∧ taps = taps' := by
  obtain ⟨k, n, hk, he⟩ := Machine.ends_of_matches h
  obtain ⟨k', n', hk', he'⟩ := Machine.ends_of_matches h'
  obtain rfl := hk.settled_unique he.verdict hk' he'.verdict
  refine ⟨he.outcome_eq he' h.within h'.within, List.reverse_inj.1 ?_⟩
  rw [← he.log, he'.log]

/-- The answer to a complete text, by the end of its match. -/
theorem parsePrefix_of_ends {rules : RuleBook} {p : Pattern} {input : String} {out : Outcome Value}
    {taps : List Tap} {K fuel : Nat} {e : Machine Tape}
    (hm : Machine.Moves rules K (.start p { text := input.toList, final := true }) e)
    (he : Machine.Ends rules e out { text := input.toList, final := true } taps.reverse)
    (hw : out.Within input.toList) (hf : K < fuel) :
    parsePrefix rules fuel p input = match rules.collect p with
      | .error e => ⟨.error (.error e), []⟩
      | .ok _ => ⟨out.answer, taps⟩ := by
  obtain ⟨s, hs, hR⟩ := Whole.follows.moves (Whole.represents_ofString input) hm
  have hv : (e.on s).verdict? rules = some out.verdict := by
    refine Whole.follows.verdict hR he.verdict (fun _ => trivial) fun f hf => ?_
    cases out <;> cases hf
  have hrun : (Machine.start p (Whole.ofString input)).run rules fuel = (e.on s, out.verdict) :=
    Machine.run_eq_of_moves hs hv hf
  have hmarks : s.marks = 0 := by
    rw [hR.marks, he.saved]
    rfl
  rw [parsePrefix, hrun]
  cases rules.collect p with
  | error e => rfl
  | ok held =>
    have htaps : (e.on s).taps = taps := by
      rw [Machine.taps, Machine.on_log, he.log, List.reverse_reverse]
    dsimp only
    rw [htaps]
    cases out with
    | failed => simp [wholeOutcome, Outcome.verdict, Outcome.answer, hmarks]
    | matched v rest =>
      have hrest : e.source.rest = rest := by
        rw [Tape.rest, he.text, he.rest v rest rfl]
        exact ((Machine.shows_start input.toList).move hw).rest
      simp [wholeOutcome, Outcome.verdict, Outcome.answer, hmarks, hR.remaining, hrest]

/-- Where the meaning of a pattern gives a text an outcome, that outcome is the answer to the text,
with the same taps, unless the pattern can reach an undefined rule. -/
theorem parsePrefix_of_matches {rules : RuleBook} {p : Pattern} {input : String}
    {out : Outcome Value} {taps : List Tap} (h : Matches rules p none input.toList out taps) :
    ∃ steps, ∀ fuel > steps, parsePrefix rules fuel p input = match rules.collect p with
      | .error e => ⟨.error (.error e), []⟩
      | .ok _ => ⟨out.answer, taps⟩ := by
  obtain ⟨K, e, hm, he⟩ := Machine.ends_of_matches h
  exact ⟨K, fun fuel hf => parsePrefix_of_ends hm he h.within hf⟩

namespace Nested

theorem collect_eq : rules.collect (.rule ref) = .ok [0] := by
  have hfind : rules.find? 0 = some ⟨0, "nested", some body⟩ := rfl
  have hbody : rules.visit [body] [0] = .ok [0] := by
    simp [body, RuleBook.visit_other, RuleBook.visit_rule, RuleBook.visit_nil, Pattern.children,
      Pattern.exactly, ref, hfind]
  rw [RuleBook.collect, RuleBook.visit_rule]
  exact hbody

end Nested

theorem parsePrefix_of_matches_nested : ∃ steps, ∀ fuel > steps,
    parsePrefix Nested.rules fuel (.rule Nested.ref) "(x)y" =
      ⟨.ok (.nil, "y"), [⟨"x", .char 'x'⟩]⟩ := by
  have hm : Matches Nested.rules (.rule Nested.ref) none "(x)y".toList (.matched .nil ['y'])
    [⟨"x", .char 'x'⟩] := Nested.matches_nested ['y']
  obtain ⟨steps, hs⟩ := parsePrefix_of_matches hm
  rw [Nested.collect_eq] at hs
  exact ⟨steps, hs⟩

end PegStream
