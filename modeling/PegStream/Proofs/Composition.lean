import PegStream.Proofs.Execution
import PegStream.Proofs.LeftRecursion

/-!
# Matches put together from their parts

What can be said of a match of a complete text follows from what can be said of the parts that it
enters: it enters a part, hears of an outcome for which there is a derivation, and goes on by that.
This is worked out here once, for any way to say what a match comes to (`Composable`), with an
allowance of steps that adds up along the way:

* `Returned`: the match has come to an outcome, and there is a derivation of it;
* `Treats`: entering a pattern on a text leads to such an outcome;
* `Starts`: the parts that can be entered before anything has been read;
* `enters_of_parts`: a pattern is treated if its parts are, those that start it on the same text and
  all of them on shorter texts.
-/

namespace PegStream

/-! ## The parts that start a pattern -/

/-- A match of `p` can enter the part `q`, under the skipper `s`, before it has read anything. -/
inductive Starts (rules : RuleBook) : Pattern → Scope → Pattern → Scope → Prop
  | skipper {p skipper} : p.skips = true → Starts rules p (some skipper) skipper none
  | lexeme {p scope} : Starts rules (.lexeme p) scope p none
  | skipping {p skipper scope} : Starts rules (.skipping p skipper) scope p (some skipper)
  | only {p q scope} : p.heads = [q] → Starts rules p scope q scope
  /-- The parts in front of `p` can match without reading. -/
  | sequence {pre p post scope text vs taps} :
    MatchesAll rules pre scope text (.matched vs text) taps →
    Starts rules (.sequence (pre ++ p :: post)) scope p scope
  /-- The branches in front of `p` can fail. -/
  | alternative {pre p post scope text taps} : MatchesFirst rules pre scope text .failed taps →
    Starts rules (.alternative (pre ++ p :: post)) scope p scope
  | excluded {p q scope} : Starts rules (.except p q) scope q scope
  /-- What is excluded can fail. -/
  | operand {p q scope text taps} : Matches rules q scope text .failed taps →
    Starts rules (.except p q) scope p scope
  /-- The first element can match without reading. -/
  | separator {p q scope text v taps} : Matches rules p scope text (.matched v text) taps →
    Starts rules (.list p q) scope q scope

theorem Starts.exposes {rules : RuleBook} {p q : Pattern} {scope s s' : Scope} {ref : RuleRef}
    (h : Starts rules p scope q s) (he : Exposes rules q s ref s') :
    Exposes rules p scope ref s' := by
  cases h with
  | skipper hp => exact .skipper hp he
  | lexeme => exact .lexeme he
  | skipping => exact .skipping he
  | only hp => exact .head (by simp [hp]) he
  | sequence hpre => exact .sequence hpre he
  | alternative | excluded | operand => exact .head (by simp [Pattern.heads]) he
  | separator hd => exact .separator hd he

theorem Starts.mem_uses {rules : RuleBook} {p q : Pattern} {scope s : Scope}
    (h : Starts rules p scope q s) : (q, s) ∈ p.uses scope := by
  cases h with
  | skipper hp => exact Pattern.skipper_mem_uses hp rfl
  | lexeme | skipping => exact List.mem_cons_self
  | only hp => exact Pattern.head_mem_uses _ (by simp [hp])
  | sequence | alternative => exact List.mem_map_of_mem (by simp)
  | excluded | operand | separator => simp [Pattern.uses]

/-- One more branch after branches that have failed. -/
theorem MatchesFirst.snoc {rules : RuleBook} {p : Pattern} {ps : List Pattern} {scope : Scope}
    {text : List Char} {out : Outcome Value} {taps taps' : List Tap}
    (h : MatchesFirst rules ps scope text out taps) (ho : out = .failed)
    (hp : Matches rules p scope text .failed taps') :
    ∃ taps'', MatchesFirst rules (ps ++ [p]) scope text .failed taps'' := by
  induction ps generalizing taps with
  | nil => exact ⟨_, .failed hp .nil⟩
  | cons q ps ih =>
    cases h with
    | matched => cases ho
    | failed hq hs =>
      obtain ⟨taps'', h'⟩ := ih hs
      exact ⟨_, .failed hq h'⟩

/-! ## What a match comes to -/

namespace Machine

/-- A way to say that a match `m` comes to one of the states `Q`, with an allowance of `a` steps:
`T a m Q`. -/
abbrev Prospect := Nat → Machine Tape → (Machine Tape → Prop) → Prop

variable {rules : RuleBook} {T : Prospect}

/-- What is said of stretches of a run can be put together. -/
structure Composable (rules : RuleBook) (T : Prospect) : Prop where
  here {m : Machine Tape} {Q : Machine Tape → Prop} : Q m → T 0 m Q
  more {a b : Nat} {m : Machine Tape} {Q : Machine Tape → Prop} : a ≤ b → T a m Q → T b m Q
  step {a : Nat} {m m₁ : Machine Tape} {Q : Machine Tape → Prop} :
    m.step rules = .ok (.moved m₁) → T a m₁ Q → T (a + 1) m Q
  bind {a b : Nat} {m : Machine Tape} {Q Q' : Machine Tape → Prop} :
    T a m Q → (∀ m', Q m' → T b m' Q') → T (a + b) m Q'

namespace Composable

variable {a b k : Nat} {m m₁ : Machine Tape} {Q Q' : Machine Tape → Prop} {stack : List Frame}
  {t : Tape} {log : List Tap}

theorem weaken (C : Composable rules T) (h : T a m Q) (hQ : ∀ m', Q m' → Q' m') : T a m Q' :=
  C.bind h fun m' hm' => C.here (hQ m' hm')

theorem now (C : Composable rules T) (h : Q m) : T a m Q := C.more (Nat.zero_le a) (C.here h)

theorem moves (C : Composable rules T) (h : Moves rules k m m₁) (hn : T a m₁ Q) :
    T (a + k) m Q := by
  induction h with
  | refl m => exact hn
  | cons hs _ ih => exact C.step hs (ih hn)

/-- The innermost frame goes on after its part has matched. -/
theorem resume (C : Composable rules T) {frame : Frame} {v : Value}
    (hr : Machine.resume frame v ⟨.matched v, stack, t, log⟩ = .ok m₁) (h : T a m₁ Q) :
    T (a + 1) ⟨.matched v, frame :: stack, t, log⟩ Q :=
  C.step (congrArg (Functor.map Step.moved) hr) h

/-- The innermost frame goes on after its part has failed. -/
theorem recover (C : Composable rules T) {frame : Frame}
    (hr : Machine.recover frame ⟨.failed, stack, t, log⟩ = .ok m₁) (h : T a m₁ Q) :
    T (a + 1) ⟨.failed, frame :: stack, t, log⟩ Q :=
  C.step (congrArg (Functor.map Step.moved) hr) h

end Composable

/-! ## Outcomes with a derivation -/

/-- An outcome has been handed to the frames `stack`: after a match the tape `t` stands in front of
the rest, after a failure its cursor may stand anywhere. -/
def Arrived (out : Outcome Value) (stack : List Frame) (t : Tape) (log : List Tap)
    (m : Machine Tape) : Prop :=
  match out with
  | .matched v rest => m = ⟨.matched v, stack, t.before rest, log⟩
  | .failed => ∃ c, m = ⟨.failed, stack, { t with cursor := c }, log⟩

theorem Arrived.verdict {out : Outcome Value} {t : Tape} {log : List Tap} {m : Machine Tape}
    (h : Arrived out [] t log m) : m.verdict? rules = some out.verdict := by
  cases out with
  | matched v rest =>
    cases h
    rfl
  | failed =>
    obtain ⟨c, rfl⟩ := h
    rfl

/-- The match that started on the tape `t` has come to an outcome of which `P` holds, together with
the values tapped on the way. -/
def Returned (P : Outcome Value → List Tap → Prop) (stack : List Frame) (t : Tape) (log : List Tap)
    (m : Machine Tape) : Prop :=
  ∃ out taps, P out taps ∧ Arrived out stack t (taps.reverse ++ log) m

section

variable {P P' : Outcome Value → List Tap → Prop} {stack : List Frame} {t : Tape} {c : Nat}
  {log taps : List Tap} {m : Machine Tape} {v : Value} {rest text : List Char}

theorem Returned.arrived (h : P (.matched v rest) taps) :
    Returned P stack t log ⟨.matched v, stack, t.before rest, taps.reverse ++ log⟩ :=
  ⟨_, _, h, rfl⟩

theorem Returned.matched (ht : t.Shows rest) (h : P (.matched v rest) taps) :
    Returned P stack t log ⟨.matched v, stack, t, taps.reverse ++ log⟩ := by
  have hr : Returned P stack t log ⟨.matched v, stack, t.before rest, taps.reverse ++ log⟩ :=
    .arrived h
  rwa [ht.before_self] at hr

theorem Returned.quiet (ht : t.Shows rest) (h : P (.matched v rest) []) :
    Returned P stack t log ⟨.matched v, stack, t, log⟩ :=
  Returned.matched ht h

theorem Returned.failed (h : P .failed taps) :
    Returned P stack t log ⟨.failed, stack, { t with cursor := c }, taps.reverse ++ log⟩ :=
  ⟨_, _, h, c, rfl⟩

/-- What a match has come to that started later, on the same tape with the cursor moved. -/
theorem Returned.later (h : Returned P stack { t with cursor := c } (taps.reverse ++ log) m)
    (hP : ∀ out taps', P out taps' → P' out (taps ++ taps')) : Returned P' stack t log m := by
  obtain ⟨out, taps', hp, ha⟩ := h
  refine ⟨out, taps ++ taps', hP out taps' hp, ?_⟩
  rw [log_append]
  cases out with
  | matched v rest => exact ha
  | failed => exact ha

theorem Composable.arrive (C : Composable rules T) {n : Nat} {out : Outcome Value}
    (h : DecidesIn rules n m out stack t log) : T n m (Arrived out stack t log) := by
  cases out with
  | matched v rest =>
    obtain ⟨k, hn, hk⟩ := h
    exact C.more (by omega) (C.moves hk (C.here rfl))
  | failed =>
    obtain ⟨k, hn, c, hk⟩ := h
    exact C.more (by omega) (C.moves hk (C.here ⟨c, rfl⟩))

end

/-- Entering a pattern on a text leads to an outcome for which there is a derivation. -/
def Treats (rules : RuleBook) (T : Prospect) (a : Nat) (p : Pattern) (scope : Scope)
    (text : List Char) : Prop :=
  ∀ (t : Tape) (stack : List Frame) (log : List Tap), t.Shows text →
    T a ⟨.enter p scope, stack, t, log⟩ (Returned (Matches rules p scope text) stack t log)

/-- The state right after entering a pattern on a text leads to such an outcome. -/
def Enters (rules : RuleBook) (T : Prospect) (a : Nat) (p : Pattern) (scope : Scope)
    (text : List Char) : Prop :=
  ∀ (t : Tape) (stack : List Frame) (log : List Tap) (m₁ : Machine Tape), t.Shows text →
    enter rules p scope ⟨.enter p scope, stack, t, log⟩ = .ok m₁ →
    T a m₁ (Returned (Matches rules p scope text) stack t log)

theorem exists_startRounds (p : Pattern) (bounds : Bounds) (scope : Scope) (m : Machine Tape) :
    ∃ m₁, m.startRounds p bounds scope = .ok m₁ := by
  have hfull : bounds.isFull 0 = false := by
    unfold Bounds.isFull
    cases bounds.max <;> rfl
  unfold startRounds
  by_cases hmin : bounds.min = 0
  · exact ⟨_, (if_pos hmin).trans (nextRound_eq hfull ..)⟩
  · exact ⟨_, (if_neg hmin).trans (nextRound_eq hfull ..)⟩

/-- Entering a pattern is a step, unless it is a reference without a definition. -/
theorem exists_entered (rules : RuleBook) (p : Pattern) (scope : Scope) (stack : List Frame)
    (t : Tape) (log : List Tap) :
    (∃ m₁, enter rules p scope ⟨.enter p scope, stack, t, log⟩ = .ok m₁ ∧
      step rules ⟨.enter p scope, stack, t, log⟩ = .ok (.moved m₁)) ∨
    ∃ ref f, p = .rule ref ∧ rules.resolve ref = .error f ∧
      verdict? rules ⟨.enter p scope, stack, t, log⟩ = some (.fault f) := by
  have hs : step rules ⟨.enter p scope, stack, t, log⟩ =
    Step.moved <$> enter rules p scope ⟨.enter p scope, stack, t, log⟩ := rfl
  have hok : ∀ m₁, enter rules p scope ⟨.enter p scope, stack, t, log⟩ = .ok m₁ →
      step rules ⟨.enter p scope, stack, t, log⟩ = .ok (.moved m₁) := fun m₁ he => by
    rw [hs, he]
    rfl
  cases p with
  | rule ref =>
    cases hd : rules.resolve ref with
    | ok d =>
      refine .inl ⟨⟨.enter d scope, stack, t, log⟩, ?_, hok _ ?_⟩
      · rw [enter, hd]
        rfl
      · rw [enter, hd]
        rfl
    | error f =>
      refine .inr ⟨ref, f, rfl, hd, ?_⟩
      rw [verdict?, hs, enter, hd]
      rfl
  | repetition q bounds =>
    obtain ⟨m₁, he⟩ := exists_startRounds q bounds scope
      ⟨.enter (.repetition q bounds) scope, stack, t, log⟩
    exact .inl ⟨m₁, he, hok m₁ he⟩
  | char | literal | endOfInput | pass | fail | int | symbol | sequence | alternative | optional
  | list | except | not | discard | map | tap | lexeme | skipping => exact .inl ⟨_, rfl, rfl⟩

variable {a b n count : Nat} {p q : Pattern} {ps : List Pattern} {bounds : Bounds} {scope : Scope}
  {text text₁ : List Char}

theorem Treats.more (C : Composable rules T) (h : Treats rules T a p scope text) (hab : a ≤ b) :
    Treats rules T b p scope text :=
  fun t stack log ht => C.more hab (h t stack log ht)

section

variable {frame : Frame} {stack : List Frame} {t : Tape} {log : List Tap}
  {Q : Machine Tape → Prop}

/-- A frame enters a part, and goes on by the outcome. -/
theorem Treats.call (C : Composable rules T) (h : Treats rules T a p scope text)
    (ht : t.Shows text)
    (hm : ∀ v rest taps, Matches rules p scope text (.matched v rest) taps →
      T b ⟨.matched v, frame :: stack, t.before rest, taps.reverse ++ log⟩ Q)
    (hf : ∀ c taps, Matches rules p scope text .failed taps →
      T b ⟨.failed, frame :: stack, { t with cursor := c }, taps.reverse ++ log⟩ Q) :
    T (a + b) ⟨.enter p scope, frame :: stack, t, log⟩ Q := by
  refine C.bind (h t (frame :: stack) log ht) fun m' hm' => ?_
  obtain ⟨out, taps, hd, ha⟩ := hm'
  cases out with
  | matched v rest =>
    cases ha
    exact hm v rest taps hd
  | failed =>
    obtain ⟨c, rfl⟩ := ha
    exact hf c taps hd

/-- A frame that marked the tape at `text` enters a part at `text₁`. If the part matches, the frame
closes its checkpoint and goes on by whether anything has been read since; otherwise it goes
back. -/
theorem Treats.marked (C : Composable rules T) (h : Treats rules T a p scope text₁)
    (ht : t.Shows text) (h₁ : text₁ <:+ text)
    {g : Bool → Value → Machine Tape → Except Fault (Machine Tape)}
    {f : Machine Tape → Except Fault (Machine Tape)}
    (hres : ∀ v m, v.Fits p.shape →
      Machine.resume frame v m = commit t.mark.1 m >>= g (hasPassed t.mark.1 m) v)
    (hrec : ∀ m, Machine.recover frame m = rollback t.mark.1 m >>= f)
    (hm : ∀ v rest taps, Matches rules p scope text₁ (.matched v rest) taps → ∃ m₁,
      g (decide (rest ≠ text)) v ⟨.matched v, stack, t.before rest, taps.reverse ++ log⟩ = .ok m₁ ∧
        T b m₁ Q)
    (hf : ∀ taps, Matches rules p scope text₁ .failed taps → ∃ m₁,
      f ⟨.failed, stack, t, taps.reverse ++ log⟩ = .ok m₁ ∧ T b m₁ Q) :
    T (a + (b + 1)) ⟨.enter p scope, frame :: stack, t.mark.2.before text₁, log⟩ Q := by
  have ht₁ : (t.mark.2.before text₁).Shows text₁ := Tape.Shows.move (ht.save _) h₁
  refine h.call C ht₁ (fun v rest taps hd => ?_) fun c taps hd => ?_
  · obtain ⟨m₁, hg, hn⟩ := hm v rest taps hd
    refine C.resume ?_ hn
    change Machine.resume frame v ⟨.matched v, stack, t.mark.2.before rest, taps.reverse ++ log⟩ = _
    rw [hres v _ hd.fits, hasPassed_before ht (hd.within.trans h₁), commit_mark]
    exact hg
  · obtain ⟨m₁, hg, hn⟩ := hf taps hd
    refine C.recover ?_ hn
    change Machine.recover frame
      ⟨.failed, stack, { t.mark.2 with cursor := c }, taps.reverse ++ log⟩ = _
    rw [hrec, rollback_mark]
    exact hg

end

/-! ## Skipping and tokens -/

/-- What stands in front of a token is passed over, and there is a derivation of that. -/
def Skipped (rules : RuleBook) (T : Prospect) (a : Nat) (scope : Scope) (text : List Char) :
    Prop :=
  ∀ (t : Tape) (stack : List Frame) (log : List Tap) (next : Token), t.Shows text →
    T a ⟨.ofToken scope next, stack, t, log⟩ fun m => ∃ text' taps,
      Skips rules scope text text' taps ∧
      m = ⟨next.control, stack, t.before text', taps.reverse ++ log⟩

theorem skipped_none (C : Composable rules T) : Skipped rules T a none text := by
  intro t stack log next ht
  refine C.now ⟨text, [], .none, ?_⟩
  rw [ht.before_self]
  rfl

theorem Treats.skipped (C : Composable rules T) (h : Treats rules T a p none text)
    (hs : ∀ rest : List Char, rest.length < text.length → Skipped rules T b (some p) rest) :
    Skipped rules T (a + (b + 1) + 1) (some p) text := by
  intro t stack log next ht
  refine C.step rfl ?_
  change T _ ⟨.enter p none, .noise p next t.mark.1 :: stack, t.mark.2, log⟩ _
  rw [← mark_before_self ht]
  refine h.marked C ht (List.suffix_refl text) (g := fun moved _ => afterNoise p next moved)
    (f := fun m => .ok (m.goto next.control)) (fun _ _ _ => rfl) (fun _ => rfl)
    (fun v rest taps hd => ?_) fun taps hd => ?_
  · by_cases hr : rest = text
    · subst hr
      rw [decide_eq_false (fun hne => hne rfl)]
      exact ⟨_, rfl, C.now ⟨rest, taps, .idle hd, rfl⟩⟩
    · rw [decide_eq_true hr]
      have hlt := length_lt_of_suffix hd.within hr
      refine ⟨_, rfl, C.weaken (hs rest hlt (t.before rest) stack _ next (ht.move hd.within)) ?_⟩
      rintro m ⟨text', taps', hs', rfl⟩
      refine ⟨text', taps ++ taps', .more hd hr hs', ?_⟩
      rw [log_append]
      rfl
  · refine ⟨_, rfl, C.now ⟨text, taps, .failed hd, ?_⟩⟩
    rw [ht.before_self]
    rfl

/-- The skipping in front of a token ends, since each round but the last one reads something. -/
theorem exists_skipped (C : Composable rules T)
    (h : ∀ skipper ∈ scope, ∀ text : List Char, text.length ≤ n →
      Treats rules T a skipper none text) :
    ∃ b, ∀ text : List Char, text.length ≤ n → Skipped rules T b scope text := by
  cases scope with
  | none => exact ⟨0, fun text _ => skipped_none C⟩
  | some skipper =>
    have hskipper := h skipper rfl
    clear h
    induction n with
    | zero =>
      refine ⟨a + (0 + 1) + 1, fun text ht => (hskipper text ht).skipped C fun rest hr => ?_⟩
      omega
    | succ n ih =>
      obtain ⟨b, hb⟩ := ih fun text ht => hskipper text (by omega)
      exact ⟨_, fun text ht => (hskipper text ht).skipped C fun rest hr => hb rest (by omega)⟩

theorem enters_token (C : Composable rules T) (hp : ∀ text, ∃ out, p.read? text = some out)
    (h : Skipped rules T a scope text) : Enters rules T (a + (text.length + 1)) p scope text := by
  intro t stack log m₁ ht hm
  obtain ⟨out, hout⟩ := hp text
  obtain ⟨token, -, henter⟩ := scans_token rules hout
  rw [henter] at hm
  cases hm
  refine C.bind (h t stack log (.scan token) ht) ?_
  rintro m ⟨text', taps, hs, rfl⟩
  -- The token is the same wherever it is read.
  obtain ⟨out', hout'⟩ := hp text'
  obtain ⟨token', hscan, henter'⟩ := scans_token rules hout'
  have htoken : token' = token := by
    have he := (henter' none ⟨.failed, stack, t, log⟩).symm.trans (henter none _)
    cases he
    rfl
  subst htoken
  have hle := hs.within.length_le
  have hd := hscan (t.before text') stack (taps.reverse ++ log) (ht.move hs.within)
  refine C.more (Nat.succ_le_succ hle) (C.weaken (C.arrive hd) fun m' hm' => ?_)
  refine ⟨out', taps, .token hs hout', ?_⟩
  cases out' with
  | matched v rest => exact hm'
  | failed => exact hm'

theorem enters_lexeme (C : Composable rules T) (h : Skipped rules T a scope text)
    (hp : ∀ text' : List Char, text'.length ≤ text.length → Treats rules T b p none text') :
    Enters rules T (a + b) (.lexeme p) scope text := by
  intro t stack log m₁ ht hm
  cases hm
  refine C.bind (h t stack log (.lexeme p) ht) ?_
  rintro m ⟨text', taps, hs, rfl⟩
  refine C.weaken (hp text' hs.within.length_le (t.before text') stack _ (ht.move hs.within))
    fun m' hm' => ?_
  exact hm'.later fun out taps' hd => .lexeme hs hd

/-! ## Sequences and alternatives -/

/-- Going on with the parts of a sequence, after parts that kept some values, leads to an outcome of
the parts for which there is a derivation. -/
def TreatsAll (rules : RuleBook) (T : Prospect) (a : Nat) (ps : List Pattern) (scope : Scope)
    (text : List Char) : Prop :=
  ∀ (t : Tape) (control : Control) (stack : List Frame) (log : List Tap) (values : List Value),
    t.Shows text → T a (nextPart scope values.reverse ps ⟨control, stack, t, log⟩)
      (Returned (fun out taps => ∃ outs, MatchesAll rules ps scope text outs taps ∧
        out = outs.map fun vs => .ofParts (values ++ vs)) stack t log)

theorem treatsAll_nil (C : Composable rules T) : TreatsAll rules T a [] scope text := by
  intro t control stack log values ht
  change T a ⟨.matched (.ofParts values.reverse.reverse), stack, t, log⟩ _
  rw [List.reverse_reverse]
  refine C.now (Returned.quiet ht ⟨.matched [] text, .nil, ?_⟩)
  rw [Outcome.map_matched, List.append_nil]

/-- A sequence goes on with the next part, and after that with the others on what is left. -/
theorem Treats.all (C : Composable rules T) (h : Treats rules T a p scope text)
    (hs : ∀ v rest taps, Matches rules p scope text (.matched v rest) taps →
      TreatsAll rules T b ps scope rest) :
    TreatsAll rules T (a + (b + 1)) (p :: ps) scope text := by
  intro t control stack log values ht
  refine h.call C ht (fun v rest taps hd => ?_) fun c taps hd => ?_
  · have hkeep : (if (!p.isSilent) = true then v :: values.reverse else values.reverse) =
        (values ++ p.keep v).reverse := by
      unfold Pattern.keep
      cases p.isSilent <;> simp
    have hrest := hs v rest taps hd (t.before rest) (.matched v) stack (taps.reverse ++ log)
      (values ++ p.keep v) (ht.move hd.within)
    rw [← hkeep] at hrest
    refine C.resume rfl (C.weaken hrest fun m hm => hm.later ?_)
    rintro out taps' ⟨outs, hall, rfl⟩
    refine ⟨_, .cons hd hall, ?_⟩
    rw [Outcome.map_map]
    simp only [List.append_assoc]
  · exact C.recover rfl (C.now (Returned.failed ⟨.failed, .failed hd, rfl⟩))

theorem TreatsAll.sequence (C : Composable rules T) (h : TreatsAll rules T a ps scope text) :
    Enters rules T a (.sequence ps) scope text := by
  intro t stack log m₁ ht hm
  cases hm
  refine C.weaken (h t (.enter (.sequence ps) scope) stack log [] ht) ?_
  rintro m ⟨out, taps, ⟨outs, hall, rfl⟩, ha⟩
  exact ⟨_, taps, .sequence hall, ha⟩

/-- Going on with the branches of an alternative leads to an outcome for which there is a
derivation. -/
def TreatsFirst (rules : RuleBook) (T : Prospect) (a : Nat) (ps : List Pattern) (scope : Scope)
    (text : List Char) : Prop :=
  ∀ (t : Tape) (control : Control) (stack : List Frame) (log : List Tap), t.Shows text →
    T a (nextBranch scope ps ⟨control, stack, t, log⟩)
      (Returned (MatchesFirst rules ps scope text) stack t log)

theorem treatsFirst_nil (C : Composable rules T) : TreatsFirst rules T a [] scope text := by
  intro t control stack log ht
  exact C.now ⟨.failed, [], .nil, t.cursor, rfl⟩

theorem Treats.first (C : Composable rules T) (h : Treats rules T a p scope text)
    (hs : ∀ taps, Matches rules p scope text .failed taps → TreatsFirst rules T b ps scope text) :
    TreatsFirst rules T (a + (b + 1)) (p :: ps) scope text := by
  intro t control stack log ht
  change T _ ⟨.enter p scope, .alternative (!p.isSilent) ps scope t.mark.1 :: stack, t.mark.2,
    log⟩ _
  rw [← mark_before_self ht]
  refine h.marked C ht (List.suffix_refl text)
    (g := fun _ v m => .ok (m.goto (.matched (if (!p.isSilent) = true then v else .nil))))
    (f := fun m => .ok (m.nextBranch scope ps)) (fun _ _ _ => rfl) (fun _ => rfl)
    (fun v rest taps hd => ?_) fun taps hd => ?_
  · rw [Pattern.ite_isSilent hd.fits]
    exact ⟨_, rfl, C.now (Returned.arrived (.matched hd))⟩
  · refine ⟨_, rfl, C.weaken (hs taps hd t .failed stack (taps.reverse ++ log) ht) fun m hm => ?_⟩
    exact Returned.later (c := t.cursor) hm fun out taps' hfirst => .failed hd hfirst

theorem TreatsFirst.alternative (C : Composable rules T) (h : TreatsFirst rules T a ps scope text) :
    Enters rules T a (.alternative ps) scope text := by
  intro t stack log m₁ ht hm
  cases hm
  refine C.weaken (h t (.enter (.alternative ps) scope) stack log ht) ?_
  rintro m ⟨out, taps, hfirst, ha⟩
  exact ⟨out, taps, .alternative hfirst, ha⟩

/-! ## Repetitions -/

/-- Going on with a repetition, after rounds that produced some values, leads to an outcome of the
rounds for which there is a derivation. -/
def TreatsRounds (rules : RuleBook) (T : Prospect) (a : Nat) (p : Pattern) (bounds : Bounds)
    (scope : Scope) (count : Nat) (text : List Char) : Prop :=
  ∀ (t : Tape) (control : Control) (stack : List Frame) (log : List Tap) (values : List Value)
    (entry : Option Nat), t.Shows text → ∃ m₁,
      nextRound p bounds scope (t.held entry) count (.ofValues values p.shape)
        ⟨control, stack, t.holding entry, log⟩ = .ok m₁ ∧
      T a m₁ (Returned (fun out taps => ∃ outs, Rounds rules p bounds scope count text outs taps ∧
        out = outs.map fun vs => p.shape.gather (values ++ vs)) stack t log)

/-- What follows a round that failed, by whether there have been enough. -/
def afterRounds (bounds : Bounds) (entry : Option Checkpoint) (count : Nat) (collected : Collected)
    (m : Machine Tape) : Except Fault (Machine Tape) :=
  if bounds.min ≤ count then m.endRounds entry collected
  else do
    let m ← match entry with
      | some cp => m.rollback cp
      | none => pure m
    return m.goto .failed

/-- A repetition that has had too few rounds fails, at its entry if it has kept that. -/
theorem afterRounds_short (hc : count < bounds.min) (t : Tape) (control : Control)
    (stack : List Frame) (log : List Tap) (entry : Option Nat) (collected : Collected) : ∃ c,
    afterRounds bounds (t.held entry) count collected ⟨control, stack, t.holding entry, log⟩ =
      .ok ⟨.failed, stack, { t with cursor := c }, log⟩ := by
  unfold afterRounds
  rw [if_neg (Nat.not_le.2 hc)]
  cases entry with
  | none => exact ⟨t.cursor, rfl⟩
  | some k =>
    refine ⟨k, ?_⟩
    change (rollback _ _ >>= _) = _
    rw [rollback_holding]
    rfl

theorem Treats.rounds (C : Composable rules T) (h : Treats rules T a p scope text)
    (hs : ∀ rest : List Char, rest.length < text.length →
      TreatsRounds rules T b p bounds scope (count + 1) rest) :
    TreatsRounds rules T (a + (b + 1)) p bounds scope count text := by
  intro t control stack log values entry ht
  by_cases hb : bounds.isFull count = true
  · refine ⟨_, by rw [nextRound, if_pos hb, endRounds_eq], ?_⟩
    refine C.now (Returned.quiet ht ⟨.matched [] text, .full hb, ?_⟩)
    rw [Outcome.map_matched, List.append_nil]
  have hb : bounds.isFull count = false := Bool.eq_false_iff.2 hb
  refine ⟨_, nextRound_eq hb .., ?_⟩
  have ht' : (t.holding entry).Shows text := ht.save _
  rw [← mark_before_self ht']
  refine h.marked C ht' (List.suffix_refl text)
    (g := fun moved v => afterRound p bounds scope (t.held entry) count
      (.ofValues (values ++ [v]) p.shape) moved)
    (f := afterRounds bounds (t.held entry) count (.ofValues values p.shape))
    (fun v m hv => resume_repetition hv _ _ values m) (fun _ => rfl)
    (fun v rest taps hd => ?_) fun taps hd => ?_
  · by_cases hr : rest = text
    · subst hr
      rw [decide_eq_false (fun hne => hne rfl)]
      refine ⟨_, endRounds_eq (t.before rest) (.matched v) stack _ entry _ p.shape, ?_⟩
      exact C.now (Returned.arrived ⟨.matched [v] rest, .idle hb hd, rfl⟩)
    · rw [decide_eq_true hr]
      have hlt := length_lt_of_suffix hd.within hr
      obtain ⟨m₁, hm₁, hn⟩ := hs rest hlt (t.before rest) (.matched v) stack (taps.reverse ++ log)
        (values ++ [v]) entry (ht.move hd.within)
      refine ⟨m₁, hm₁, C.weaken hn fun m hm => hm.later ?_⟩
      rintro out taps' ⟨outs, hrounds, rfl⟩
      refine ⟨_, .round hb hd hr hrounds, ?_⟩
      rw [Outcome.map_map]
      simp only [List.append_assoc, List.singleton_append]
  · by_cases hc : bounds.min ≤ count
    · refine ⟨⟨.matched (p.shape.gather values), stack, t, taps.reverse ++ log⟩, ?_, ?_⟩
      · rw [afterRounds, if_pos hc]
        exact endRounds_eq t .failed stack _ entry values p.shape
      · refine C.now (Returned.matched ht ⟨.matched [] text, .enough hb hd hc, ?_⟩)
        rw [Outcome.map_matched, List.append_nil]
    · have hc := Nat.lt_of_not_le hc
      obtain ⟨c, hm₁⟩ := afterRounds_short hc t .failed stack (taps.reverse ++ log) entry
        (.ofValues values p.shape)
      exact ⟨_, hm₁, C.now (Returned.failed ⟨.failed, .short hb hd hc, rfl⟩)⟩

/-- The rounds of a repetition end, since each but the last one reads something. -/
theorem exists_treatsRounds (C : Composable rules T)
    (h : ∀ text : List Char, text.length ≤ n → Treats rules T a p scope text) :
    ∃ b, ∀ count (text : List Char), text.length ≤ n →
      TreatsRounds rules T b p bounds scope count text := by
  induction n with
  | zero =>
    refine ⟨a + (0 + 1), fun count text ht => (h text ht).rounds C fun rest hr => ?_⟩
    omega
  | succ n ih =>
    obtain ⟨b, hb⟩ := ih fun text ht => h text (by omega)
    refine ⟨a + (b + 1), fun count text ht => (h text ht).rounds C fun rest hr => ?_⟩
    exact hb (count + 1) rest (by omega)

theorem TreatsRounds.repetition (C : Composable rules T)
    (h : TreatsRounds rules T a p bounds scope 0 text) :
    Enters rules T a (.repetition p bounds) scope text := by
  intro t stack log m₁ ht hm
  change startRounds p bounds scope _ = _ at hm
  have hentry : ∃ entry, nextRound p bounds scope (t.held entry) 0 (.ofValues [] p.shape)
      ⟨.enter (.repetition p bounds) scope, stack, t.holding entry, log⟩ = .ok m₁ := by
    rw [startRounds, Collected.ofShape_eq] at hm
    by_cases h0 : bounds.min = 0
    · rw [if_pos h0] at hm
      exact ⟨none, hm⟩
    · rw [if_neg h0] at hm
      exact ⟨some t.cursor, hm⟩
  obtain ⟨entry, hm⟩ := hentry
  obtain ⟨m₂, hm₂, hn⟩ := h t (.enter (.repetition p bounds) scope) stack log [] entry ht
  rw [hm] at hm₂
  cases hm₂
  refine C.weaken hn ?_
  rintro m ⟨out, taps, ⟨outs, hrounds, rfl⟩, ha⟩
  exact ⟨_, taps, .repetition hrounds, ha⟩

/-! ## Lists -/

/-- Going on with a list, from the separator after elements with some values, leads to an end of the
list for which there is a derivation. -/
def TreatsPairs (rules : RuleBook) (T : Prospect) (a : Nat) (p q : Pattern) (scope : Scope)
    (text : List Char) : Prop :=
  ∀ (t : Tape) (stack : List Frame) (log : List Tap) (values : List Value), t.Shows text →
    T a ⟨.enter q scope, .listSeparator p q scope t.mark.1 (.ofValues values p.shape) :: stack,
      t.mark.2, log⟩
      (Returned (fun out taps => ∃ vs rest, Pairs rules p q scope text vs rest taps ∧
        out = .matched (p.shape.gather (values ++ vs)) rest) stack t log)

theorem Treats.pairs (C : Composable rules T) (hq : Treats rules T a q scope text)
    (hp : ∀ text₁ : List Char, text₁.length ≤ text.length → Treats rules T a p scope text₁)
    (hs : ∀ rest : List Char, rest.length < text.length → TreatsPairs rules T b p q scope rest) :
    TreatsPairs rules T (a + (a + (b + 1) + 1)) p q scope text := by
  intro t stack log values ht
  -- The value of the list so far, in front of the separator.
  have hend : ∀ taps, Pairs rules p q scope text [] text taps → T b
      ⟨.matched (Collected.ofValues values p.shape).finish, stack, t, taps.reverse ++ log⟩
      (Returned (fun out taps => ∃ vs rest, Pairs rules p q scope text vs rest taps ∧
        out = .matched (p.shape.gather (values ++ vs)) rest) stack t log) := by
    intro taps hpairs
    refine C.now (Returned.matched ht ⟨[], text, hpairs, ?_⟩)
    rw [List.append_nil, Collected.finish_ofValues]
  refine hq.call C (ht.save _) (fun w text₁ taps hd => ?_) fun c taps hd => ?_
  · refine C.resume rfl ?_
    have h₁ := hd.within
    refine (hp text₁ h₁.length_le).marked C ht h₁
      (g := fun moved v => afterElement p q scope (.ofValues (values ++ [v]) p.shape) moved)
      (f := fun m => .ok (m.goto (.matched (Collected.ofValues values p.shape).finish)))
      (fun v m hv => resume_listElement hv _ false values m) (fun _ => rfl)
      (fun v rest taps' hd' => ?_) fun taps' hd' => ?_
    · by_cases hr : rest = text
      · subst hr
        rw [decide_eq_false (fun hne => hne rfl)]
        refine ⟨_, rfl, ?_⟩
        rw [← log_append]
        refine C.now (Returned.arrived ⟨[v], rest, .idle hd hd', ?_⟩)
        rw [Collected.finish_ofValues]
      · rw [decide_eq_true hr]
        have hlt := length_lt_of_suffix (hd'.within.trans h₁) hr
        have hn := hs rest hlt (t.before rest) stack (taps'.reverse ++ (taps.reverse ++ log))
          (values ++ [v]) (ht.move (hd'.within.trans h₁))
        rw [← log_append] at hn ⊢
        refine ⟨_, rfl, C.weaken hn fun m hm => hm.later ?_⟩
        rintro out taps₃ ⟨vs, rest', hpairs, rfl⟩
        refine ⟨v :: vs, rest', .pair hd hd' hr hpairs, ?_⟩
        rw [List.append_assoc, List.singleton_append]
    · rw [← log_append]
      exact ⟨_, rfl, hend _ (.element_failed hd hd')⟩
  · refine C.more (show b + 1 ≤ a + (b + 1) + 1 by omega)
      (C.recover ?_ (hend taps (.separator_failed hd)))
    change (rollback t.mark.1 ⟨.failed, stack, { t.mark.2 with cursor := c }, _⟩ >>= _) = _
    rw [rollback_mark]
    rfl

/-- The elements of a list end, since each but the last one reads something, or its separator. -/
theorem exists_treatsPairs (C : Composable rules T)
    (hp : ∀ text : List Char, text.length ≤ n → Treats rules T a p scope text)
    (hq : ∀ text : List Char, text.length ≤ n → Treats rules T a q scope text) :
    ∃ b, ∀ text : List Char, text.length ≤ n → TreatsPairs rules T b p q scope text := by
  induction n with
  | zero =>
    refine ⟨a + (a + (0 + 1) + 1), fun text ht => (hq text ht).pairs C (fun text₁ h₁ => ?_) ?_⟩
    · exact hp text₁ (by omega)
    · intro rest hr
      omega
  | succ n ih =>
    obtain ⟨b, hb⟩ := ih (fun text ht => hp text (by omega)) fun text ht => hq text (by omega)
    refine ⟨a + (a + (b + 1) + 1), fun text ht => (hq text ht).pairs C (fun text₁ h₁ => ?_)
      fun rest hr => ?_⟩
    · exact hp text₁ (by omega)
    · exact hb rest (by omega)

theorem Treats.list (C : Composable rules T) (h : Treats rules T a p scope text)
    (hs : ∀ v rest taps, Matches rules p scope text (.matched v rest) taps →
      TreatsPairs rules T b p q scope rest) :
    Enters rules T (a + (b + 1)) (.list p q) scope text := by
  intro t stack log m₁ ht hm
  cases hm
  change T _ ⟨.enter p scope, .listElement p q scope t.mark.1 true (.ofShape p.shape) :: stack,
    t.mark.2, log⟩ _
  rw [← mark_before_self ht, Collected.ofShape_eq]
  refine h.marked C ht (List.suffix_refl text)
    (g := fun _ v => afterElement p q scope (.ofValues [v] p.shape) true)
    (f := fun m => .ok (m.goto (.matched (Collected.ofValues [] p.shape).finish)))
    (fun v m hv => resume_listElement hv _ true [] m) (fun _ => rfl)
    (fun v rest taps hd => ?_) fun taps hd => ?_
  · have hn := hs v rest taps hd (t.before rest) stack (taps.reverse ++ log) [v]
      (ht.move hd.within)
    refine ⟨_, rfl, C.weaken hn fun m hm => hm.later ?_⟩
    rintro out taps' ⟨vs, rest', hpairs, rfl⟩
    exact .list_some hd hpairs
  · refine ⟨_, rfl, ?_⟩
    rw [Collected.finish_ofValues]
    exact C.now (Returned.matched ht (.list_none hd))

/-! ## Other patterns -/

theorem enters_pass (C : Composable rules T) : Enters rules T a .pass scope text := by
  intro t stack log m₁ ht hm
  cases hm
  exact C.now (Returned.quiet ht .pass)

theorem enters_fail (C : Composable rules T) : Enters rules T a .fail scope text := by
  intro t stack log m₁ ht hm
  cases hm
  exact C.now ⟨.failed, [], .fail, t.cursor, rfl⟩

theorem Treats.optional (C : Composable rules T) (h : Treats rules T a p scope text) :
    Enters rules T (a + 1) (.optional p) scope text := by
  intro t stack log m₁ ht hm
  cases hm
  change T _ ⟨.enter p scope, .optional (!p.isSilent) t.mark.1 :: stack, t.mark.2, log⟩ _
  rw [← mark_before_self ht]
  refine h.marked C (b := 0) ht (List.suffix_refl text)
    (g := fun _ v m => .ok (m.goto (.matched (if (!p.isSilent) = true then v else .nil))))
    (f := fun m => .ok (m.goto (.matched .nil))) (fun _ _ _ => rfl) (fun _ => rfl)
    (fun v rest taps hd => ?_) fun taps hd => ?_
  · rw [Pattern.ite_isSilent hd.fits]
    exact ⟨_, rfl, C.here (Returned.arrived (.optional_some hd))⟩
  · exact ⟨_, rfl, C.here (Returned.matched ht (.optional_none hd))⟩

/-- A frame that looks ahead enters a part, and goes back whatever the outcome is. -/
theorem Treats.looking (C : Composable rules T) {frame : Frame} {stack : List Frame} {t : Tape}
    {log : List Tap} {Q : Machine Tape → Prop} (h : Treats rules T a p scope text)
    (ht : t.Shows text) (control : Control)
    (hres : ∀ v (m : Machine Tape),
      Machine.resume frame v m = rollback t.mark.1 m >>= fun m => .ok (m.goto .failed))
    (hrec : ∀ m : Machine Tape,
      Machine.recover frame m = rollback t.mark.1 m >>= fun m => .ok (m.goto control))
    (hm : ∀ v rest taps, Matches rules p scope text (.matched v rest) taps →
      T b ⟨.failed, stack, t, taps.reverse ++ log⟩ Q)
    (hf : ∀ taps, Matches rules p scope text .failed taps →
      T b ⟨control, stack, t, taps.reverse ++ log⟩ Q) :
    T (a + (b + 1)) ⟨.enter p scope, frame :: stack, t.mark.2, log⟩ Q := by
  refine h.call C (ht.save _) (fun v rest taps hd => ?_) fun c taps hd => ?_
  · refine C.resume ?_ (hm v rest taps hd)
    change Machine.resume frame v ⟨.matched v, stack,
      { t.mark.2 with cursor := (t.before rest).cursor }, taps.reverse ++ log⟩ = _
    rw [hres, rollback_mark]
    rfl
  · refine C.recover ?_ (hf taps hd)
    change Machine.recover frame
      ⟨.failed, stack, { t.mark.2 with cursor := c }, taps.reverse ++ log⟩ = _
    rw [hrec, rollback_mark]
    rfl

theorem Treats.except (C : Composable rules T) (hq : Treats rules T a q scope text)
    (hp : ∀ taps, Matches rules q scope text .failed taps → Treats rules T b p scope text) :
    Enters rules T (a + (b + 1)) (.except p q) scope text := by
  intro t stack log m₁ ht hm
  cases hm
  refine hq.looking C ht (.enter p scope) (fun _ _ => rfl) (fun _ => rfl)
    (fun v rest taps hd => ?_) fun taps hd => ?_
  · exact C.now (Returned.failed (c := t.cursor) (.except_excluded hd))
  · refine C.weaken (hp taps hd t stack (taps.reverse ++ log) ht) fun m hm => ?_
    exact Returned.later (c := t.cursor) hm fun out taps' hd' => .except_operand hd hd'

theorem Treats.not (C : Composable rules T) (h : Treats rules T a p scope text) :
    Enters rules T (a + 1) (.not p) scope text := by
  intro t stack log m₁ ht hm
  cases hm
  refine h.looking C (b := 0) ht (.matched .nil) (fun _ _ => rfl) (fun _ => rfl)
    (fun v rest taps hd => ?_) fun taps hd => ?_
  · exact C.here (Returned.failed (c := t.cursor) (.not_matched hd))
  · exact C.here (Returned.matched ht (.not_failed hd))

theorem Treats.discard (C : Composable rules T) (h : Treats rules T a p scope text) :
    Enters rules T (a + 1) (.discard p) scope text := by
  intro t stack log m₁ ht hm
  cases hm
  refine h.call C ht (fun v rest taps hd => ?_) fun c taps hd => ?_
  · exact C.resume rfl (C.here (Returned.arrived (.discard hd)))
  · exact C.recover rfl (C.here (Returned.failed (.discard hd)))

theorem Treats.map (C : Composable rules T) (h : Treats rules T a p scope text)
    (f : Value → Value) : Enters rules T (a + 1) (.map p f) scope text := by
  intro t stack log m₁ ht hm
  cases hm
  refine h.call C ht (fun v rest taps hd => ?_) fun c taps hd => ?_
  · exact C.resume rfl (C.here (Returned.arrived (.map hd)))
  · exact C.recover rfl (C.here (Returned.failed (.map hd)))

theorem Treats.tap (C : Composable rules T) (h : Treats rules T a p scope text) (label : String) :
    Enters rules T (a + 1) (.tap p label) scope text := by
  intro t stack log m₁ ht hm
  cases hm
  refine h.call C ht (fun v rest taps hd => ?_) fun c taps hd => ?_
  · refine C.resume rfl (C.here ⟨_, _, .tap_matched hd, ?_⟩)
    rw [log_append]
    rfl
  · exact C.recover rfl (C.here (Returned.failed (.tap_failed hd)))

theorem Treats.skipping (C : Composable rules T) {skipper : Pattern}
    (h : Treats rules T a p (some skipper) text) :
    Enters rules T a (.skipping p skipper) scope text := by
  intro t stack log m₁ ht hm
  cases hm
  refine C.weaken (h t stack log ht) ?_
  rintro m ⟨out, taps, hd, ha⟩
  exact ⟨out, taps, .skipping hd, ha⟩

theorem enters_rule (C : Composable rules T) {ref : RuleRef}
    (h : ∀ d, rules.resolve ref = .ok d → Treats rules T a d scope text) :
    Enters rules T a (.rule ref) scope text := by
  intro t stack log m₁ ht hm
  cases hd : rules.resolve ref with
  | error f =>
    rw [enter, hd] at hm
    cases hm
  | ok d =>
    rw [enter, hd] at hm
    cases hm
    refine C.weaken (h d hd t stack log ht) ?_
    rintro m ⟨out, taps, hm, ha⟩
    exact ⟨out, taps, .rule hd hm, ha⟩

/-! ## All patterns -/

/-- The parts of a sequence lead to an outcome on the texts of `n` characters if each does in two
cases: on such a text itself, when all parts in front have matched there without reading, and on
every shorter text. -/
theorem exists_treatsAll (C : Composable rules T)
    (hsame : ∀ q, Starts rules (.sequence ps) scope q scope → ∀ text : List Char,
      text.length ≤ n → Treats rules T a q scope text)
    (hshort : ∀ q ∈ ps, ∀ text : List Char, text.length < n → Treats rules T a q scope text) :
    ∃ b, ∀ text : List Char, text.length = n → TreatsAll rules T b ps scope text := by
  -- On shorter texts nothing depends on what is in front.
  have hbelow : ∀ post : List Pattern, (∀ q ∈ post, q ∈ ps) →
      ∃ b, ∀ text : List Char, text.length < n → TreatsAll rules T b post scope text := by
    intro post
    induction post with
    | nil => exact fun _ => ⟨0, fun text _ => treatsAll_nil C⟩
    | cons q post ih =>
      intro hpost
      obtain ⟨b, hb⟩ := ih fun r hr => hpost r (List.mem_cons_of_mem q hr)
      refine ⟨a + (b + 1), fun text ht => ?_⟩
      refine (hshort q (hpost q List.mem_cons_self) text ht).all C fun v rest taps hd => ?_
      exact hb rest (Nat.lt_of_le_of_lt hd.within.length_le ht)
  -- The parts are split into those that have matched without reading and those still to come.
  have hfrom : ∀ post pre : List Pattern, ps = pre ++ post →
      ∃ b, ∀ text : List Char, text.length = n → ∀ vs taps,
        MatchesAll rules pre scope text (.matched vs text) taps →
        TreatsAll rules T b post scope text := by
    intro post
    induction post with
    | nil => exact fun _ _ => ⟨0, fun text _ _ _ _ => treatsAll_nil C⟩
    | cons q post ih =>
      intro pre hps
      obtain ⟨b, hb⟩ := ih (pre ++ [q]) (by simp [hps])
      obtain ⟨b', hb'⟩ := hbelow post fun r hr => by simp [hps, hr]
      refine ⟨a + (max b b' + 1), fun text ht vs taps hpre => ?_⟩
      have hq : Starts rules (.sequence ps) scope q scope := by
        rw [hps]
        exact .sequence hpre
      refine (hsame q hq text (Nat.le_of_eq ht)).all C fun v rest taps' hd => ?_
      by_cases hr : rest = text
      · subst hr
        obtain ⟨vs', taps'', hpre'⟩ := hpre.snoc rfl hd
        have hrest := hb rest ht vs' taps'' hpre'
        exact fun t control stack log values hshows =>
          C.more (Nat.le_max_left b b') (hrest t control stack log values hshows)
      · have hlt := length_lt_of_suffix hd.within hr
        have hrest := hb' rest (by omega)
        exact fun t control stack log values hshows =>
          C.more (Nat.le_max_right b b') (hrest t control stack log values hshows)
  obtain ⟨b, hb⟩ := hfrom ps [] rfl
  exact ⟨b, fun text ht => hb text ht [] [] .nil⟩

/-- The branches of an alternative lead to an outcome on the texts of `n` characters if each does
that can be tried there, when all branches in front have failed. -/
theorem exists_treatsFirst (C : Composable rules T)
    (hsame : ∀ q, Starts rules (.alternative ps) scope q scope → ∀ text : List Char,
      text.length ≤ n → Treats rules T a q scope text) :
    ∃ b, ∀ text : List Char, text.length = n → TreatsFirst rules T b ps scope text := by
  -- The branches are split into those that have failed and those still to come.
  have hfrom : ∀ post pre : List Pattern, ps = pre ++ post →
      ∃ b, ∀ text : List Char, text.length = n → ∀ taps,
        MatchesFirst rules pre scope text .failed taps → TreatsFirst rules T b post scope text := by
    intro post
    induction post with
    | nil => exact fun _ _ => ⟨0, fun text _ _ _ => treatsFirst_nil C⟩
    | cons q post ih =>
      intro pre hps
      obtain ⟨b, hb⟩ := ih (pre ++ [q]) (by simp [hps])
      refine ⟨a + (b + 1), fun text ht taps hpre => ?_⟩
      have hq : Starts rules (.alternative ps) scope q scope := by
        rw [hps]
        exact .alternative hpre
      refine (hsame q hq text (Nat.le_of_eq ht)).first C fun taps' hd => ?_
      obtain ⟨taps'', hpre'⟩ := hpre.snoc rfl hd
      exact hb text ht taps'' hpre'
  obtain ⟨b, hb⟩ := hfrom ps [] rfl
  exact ⟨b, fun text ht => hb text ht [] .nil⟩

/-- A list leads to an outcome on the texts of `n` characters if its element does on these and on
shorter ones, and its separator where the first element can have left it. -/
theorem exists_enters_list (C : Composable rules T)
    (hp : ∀ text : List Char, text.length ≤ n → Treats rules T a p scope text)
    (hsame : Starts rules (.list p q) scope q scope → ∀ text : List Char,
      text.length ≤ n → Treats rules T a q scope text)
    (hshort : ∀ text : List Char, text.length < n → Treats rules T a q scope text) :
    ∃ b, ∀ text : List Char, text.length = n → Enters rules T b (.list p q) scope text := by
  by_cases hq : Starts rules (.list p q) scope q scope
  · obtain ⟨b, hb⟩ := exists_treatsPairs C hp (hsame hq)
    refine ⟨a + (b + 1), fun text ht => (hp text (Nat.le_of_eq ht)).list C fun v rest taps hd => ?_⟩
    exact hb rest (Nat.le_trans hd.within.length_le (Nat.le_of_eq ht))
  · cases n with
    | zero =>
      -- The text is empty, so the first element reads nothing.
      refine ⟨a + (0 + 1), fun text ht => (hp text (Nat.le_of_eq ht)).list C ?_⟩
      intro v rest taps hd
      have hr : rest = text := by
        rw [List.length_eq_zero_iff.1 ht] at hd ⊢
        exact List.suffix_nil.1 hd.within
      rw [hr] at hd
      exact absurd (.separator hd) hq
    | succ n =>
      obtain ⟨b, hb⟩ := exists_treatsPairs C (fun text ht => hp text (by omega))
        fun text (ht : text.length ≤ n) => hshort text (by omega)
      refine ⟨a + (b + 1), fun text ht => (hp text (Nat.le_of_eq ht)).list C ?_⟩
      intro v rest taps hd
      by_cases hr : rest = text
      · rw [hr] at hd
        exact absurd (.separator hd) hq
      · have hlt := length_lt_of_suffix hd.within hr
        exact hb rest (by omega)

/-- A pattern that is no reference leads to an outcome on the texts of `n` characters if the parts
that start it do on these and on shorter ones, and all its parts on shorter ones. -/
theorem enters_of_parts (C : Composable rules T) (hp : ∀ ref, p ≠ .rule ref)
    (hsame : ∀ q s, Starts rules p scope q s → ∀ text : List Char, text.length ≤ n →
      Treats rules T a q s text)
    (hshort : ∀ q s, (q, s) ∈ p.uses scope → ∀ text : List Char, text.length < n →
      Treats rules T a q s text) :
    ∃ b, ∀ text : List Char, text.length = n → Enters rules T b p scope text := by
  have honly : ∀ q, p.heads = [q] → ∀ text : List Char, text.length = n →
      Treats rules T a q scope text :=
    fun q hq text ht => hsame q scope (.only hq) text (Nat.le_of_eq ht)
  have hskip : p.skips = true →
      ∃ b, ∀ text : List Char, text.length ≤ n → Skipped rules T b scope text := by
    refine fun hs => exists_skipped (a := a) C fun skipper hk => ?_
    cases hk
    exact hsame skipper none (.skipper hs)
  have htoken : p.skips = true → (∀ text, ∃ out, p.read? text = some out) →
      ∃ b, ∀ text : List Char, text.length = n → Enters rules T b p scope text := by
    intro hs hr
    obtain ⟨b, hb⟩ := hskip hs
    exact ⟨b + (n + 1), fun text ht => ht ▸ enters_token C hr (hb text (Nat.le_of_eq ht))⟩
  cases p with
  | char | literal | endOfInput | int | symbol => exact htoken rfl fun _ => ⟨_, rfl⟩
  | pass => exact ⟨0, fun text _ => enters_pass C⟩
  | fail => exact ⟨0, fun text _ => enters_fail C⟩
  | sequence ps =>
    obtain ⟨b, hb⟩ := exists_treatsAll C (fun q hq => hsame q scope hq)
      fun q hq => hshort q scope (List.mem_map_of_mem hq)
    exact ⟨b, fun text ht => (hb text ht).sequence C⟩
  | alternative ps =>
    obtain ⟨b, hb⟩ := exists_treatsFirst C fun q hq => hsame q scope hq
    exact ⟨b, fun text ht => (hb text ht).alternative C⟩
  | repetition q bounds =>
    obtain ⟨b, hb⟩ := exists_treatsRounds C (hsame q scope (.only rfl))
    exact ⟨b, fun text ht => (hb 0 text (Nat.le_of_eq ht)).repetition C⟩
  | optional q => exact ⟨_, fun text ht => (honly q rfl text ht).optional C⟩
  | list p q =>
    have hq : (q, scope) ∈ (Pattern.list p q).uses scope := by simp [Pattern.uses]
    exact exists_enters_list C (hsame p scope (.only rfl)) (hsame q scope)
      (hshort q scope hq)
  | except p q =>
    refine ⟨a + (a + 1), fun text ht => ?_⟩
    have hle := Nat.le_of_eq ht
    exact (hsame q scope .excluded text hle).except C fun taps hd =>
      hsame p scope (.operand hd) text hle
  | not q => exact ⟨_, fun text ht => (honly q rfl text ht).not C⟩
  | discard q => exact ⟨_, fun text ht => (honly q rfl text ht).discard C⟩
  | map q f => exact ⟨_, fun text ht => (honly q rfl text ht).map C f⟩
  | tap q label => exact ⟨_, fun text ht => (honly q rfl text ht).tap C label⟩
  | lexeme q =>
    obtain ⟨b, hb⟩ := hskip rfl
    refine ⟨b + a, fun text ht => enters_lexeme C (hb text (Nat.le_of_eq ht)) fun text' ht' => ?_⟩
    exact hsame q none .lexeme text' (by omega)
  | skipping q skipper =>
    exact ⟨a, fun text ht => (hsame q (some skipper) .skipping text (Nat.le_of_eq ht)).skipping C⟩
  | rule ref => exact absurd rfl (hp ref)

end Machine

end PegStream
