import PegStream.Proofs.Derivations
import PegStream.Proofs.Moves
import PegStream.Proofs.Tape

/-!
# Reading tokens of a complete text

What the machine does on a tape that is complete, stated in terms of the text that is left: moving
over a match, closing a checkpoint after a match or a failure, and reading tokens.

* `Tape.before`, `Tape.Shows`: places on a tape by the text after them;
* `Decides`: the machine comes to an outcome;
* `reads_token`: it reads every token as `Pattern.read?` says.
-/

namespace PegStream

/-! ## Places on a complete tape -/

namespace Tape

variable {t : Tape} {text rest : List Char}

/-- The tape with its cursor in front of `rest`, which is an end of its text. -/
def before (rest : List Char) (t : Tape) : Tape :=
  { t with cursor := t.text.length - rest.length }

/-- The tape with one more checkpoint open, if there is a place `k` that it saves. -/
def holding (k : Option Nat) (t : Tape) : Tape := { t with saved := k.toList ++ t.saved }

/-- The checkpoint that `t.holding k` has more than `t`. -/
def held (k : Option Nat) (t : Tape) : Option Checkpoint := k.map (record t.text · t.saved.length)

/-- The tape is complete, and `text` stands after its cursor. -/
structure Shows (t : Tape) (text : List Char) : Prop where
  rest : t.rest = text
  inside : t.cursor ≤ t.text.length
  final : t.final = true

namespace Shows

theorem cursor_eq (h : t.Shows text) : t.cursor = t.text.length - text.length := by
  have hl : text.length = t.text.length - t.cursor := by
    rw [← h.rest, Tape.rest, List.length_drop]
  have := h.inside
  omega

theorem before_self (h : t.Shows text) : t.before text = t := by
  rw [before, ← h.cursor_eq]

theorem suffix (h : t.Shows text) : text <:+ t.text := by
  rw [← h.rest]
  exact List.drop_suffix _ _

theorem save (h : t.Shows text) (ks : List Nat) : Shows { t with saved := ks } text :=
  ⟨h.rest, h.inside, h.final⟩

theorem move (h : t.Shows text) (hr : rest <:+ text) : (t.before rest).Shows rest := by
  have hs : rest <:+ t.text := hr.trans h.suffix
  exact ⟨(List.suffix_iff_eq_drop.1 hs).symm, Nat.sub_le _ _, h.final⟩

theorem advance {c : Char} {cs : List Char} (h : t.Shows (c :: cs)) :
    Source.advance t = .ok (t.before cs) := by
  have hc := h.cursor_eq
  have hl := h.suffix.length_le
  rw [List.length_cons] at hc hl
  have hcursor : t.cursor + 1 = t.text.length - cs.length := by omega
  rw [advance_eq (by rw [h.rest]; rfl), before, hcursor]

/-- The cursor has passed a place if less is left. -/
theorem offset_lt_iff (h : t.Shows text) (hr : rest <:+ text) :
    offsetAt t.text t.cursor < offsetAt t.text (t.before rest).cursor ↔ rest ≠ text := by
  have hin : (t.before rest).cursor ≤ t.text.length := Nat.sub_le _ _
  rw [offsetAt_lt_iff hin, h.cursor_eq]
  have hl := h.suffix.length_le
  have hr' := hr.length_le
  change t.text.length - text.length < t.text.length - rest.length ↔ rest ≠ text
  constructor
  · rintro hlt rfl
    omega
  · intro hne
    have hlen : rest.length ≠ text.length := fun he => hne (hr.eq_of_length he)
    omega

end Shows

end Tape

theorem Numeral.count_push? {base d : Nat} {n n' : Numeral}
    (h : n.push? base d = some n') : n'.count = n.count + 1 := by
  unfold Numeral.push? at h
  dsimp only at h
  split at h
  · cases h
  · cases h
    rfl

/-- Nothing lies below a leaf. -/
theorem SymbolTable.longestBelow_of_isLeaf {t : SymbolTable} {node : Nat}
    (h : t.isLeaf node = true) (text : List Char) : t.longestBelow node text = none := by
  cases text with
  | nil => rfl
  | cons c cs =>
    rw [longestBelow, Option.bind_eq_none_iff]
    intro next hn
    obtain ⟨n, hn, hc⟩ := Option.bind_eq_some_iff.1 hn
    simp only [isLeaf, hn, Option.map_some, Option.getD_some, List.isEmpty_iff] at h
    rw [h] at hc
    cases hc

namespace Machine

variable {rules : RuleBook} {m m₁ : Machine Tape} {k : Nat} {control : Control} {stack : List Frame}
  {t : Tape} {log : List Tap} {text text' rest : List Char} {c : Char} {cs : List Char}

theorem ahead_cons (h : t.Shows (c :: cs)) :
    ahead ⟨control, stack, t, log⟩ = .ok (.char c) := by
  simp [ahead, h.rest]
  rfl

theorem ahead_nil (h : t.Shows []) : ahead ⟨control, stack, t, log⟩ = .ok .ended := by
  simp [ahead, h.rest, h.final]
  rfl

theorem advance_cons (h : t.Shows (c :: cs)) :
    advance ⟨control, stack, t, log⟩ = .ok ⟨control, stack, t.before cs, log⟩ := by
  simp only [advance, h.advance]
  rfl

/-- A commit leaves the cursor where it is. -/
theorem commit_holding (t : Tape) (k : Nat) :
    commit (Tape.record t.text k t.saved.length) ⟨control, stack, t.holding (some k), log⟩ =
      .ok ⟨control, stack, t, log⟩ := by
  have h := Tape.commit_cons (t := t.holding (some k)) rfl
  exact congrArg (Functor.map fun source => (⟨control, stack, source, log⟩ : Machine Tape)) h

/-- A rollback brings the cursor back. -/
theorem rollback_holding (t : Tape) (k : Nat) :
    rollback (Tape.record t.text k t.saved.length) ⟨control, stack, t.holding (some k), log⟩ =
      .ok ⟨control, stack, { t with cursor := k }, log⟩ := by
  have h := Tape.rollback_cons (t := t.holding (some k)) rfl
  exact congrArg (Functor.map fun source => (⟨control, stack, source, log⟩ : Machine Tape)) h

theorem commit_mark (t : Tape) (rest : List Char) :
    commit t.mark.1 ⟨control, stack, t.mark.2.before rest, log⟩ =
      .ok ⟨control, stack, t.before rest, log⟩ :=
  commit_holding (t.before rest) t.cursor

theorem rollback_mark (t : Tape) (k : Nat) :
    rollback t.mark.1 ⟨control, stack, { t.mark.2 with cursor := k }, log⟩ =
      .ok ⟨control, stack, t, log⟩ :=
  rollback_holding { t with cursor := k } t.cursor

theorem hasPassed_before (h : t.Shows text) (hr : rest <:+ text) :
    hasPassed t.mark.1 ⟨control, stack, t.mark.2.before rest, log⟩ = decide (rest ≠ text) :=
  decide_eq_decide.2 (h.offset_lt_iff hr)

/-! ## Coming to an outcome -/

/-- The match `m` comes to an outcome, handed to the frames `stack`. After a match the tape `t`
stands in front of the rest; after a failure its cursor may stand anywhere. -/
def Decides (rules : RuleBook) (m : Machine Tape) (out : Outcome Value) (stack : List Frame)
    (t : Tape) (log : List Tap) : Prop :=
  match out with
  | .matched v rest => ∃ k, Moves rules k m ⟨.matched v, stack, t.before rest, log⟩
  | .failed => ∃ k c, Moves rules k m ⟨.failed, stack, { t with cursor := c }, log⟩

namespace Decides

variable {out : Outcome Value} {t' : Tape}

theorem after (h : Moves rules k m m₁) (h' : Decides rules m₁ out stack t log) :
    Decides rules m out stack t log := by
  cases out with
  | matched v rest =>
    obtain ⟨j, hj⟩ := h'
    exact ⟨_, h.trans hj⟩
  | failed =>
    obtain ⟨j, c, hj⟩ := h'
    exact ⟨_, c, h.trans hj⟩

theorem step (h : m.step rules = .ok (.moved m₁)) (h' : Decides rules m₁ out stack t log) :
    Decides rules m out stack t log :=
  h'.after (.one h)

theorem arrived (t : Tape) (v : Value) (rest : List Char) :
    Decides rules ⟨.matched v, stack, t.before rest, log⟩ (.matched v rest) stack t log :=
  ⟨0, .refl _⟩

theorem matched (ht : t.Shows rest) (v : Value) :
    Decides rules ⟨.matched v, stack, t, log⟩ (.matched v rest) stack t log :=
  ⟨0, by rw [ht.before_self]; exact .refl _⟩

theorem failed (t : Tape) : Decides rules ⟨.failed, stack, t, log⟩ .failed stack t log :=
  ⟨0, t.cursor, .refl _⟩

end Decides

/-! ## Tokens -/

/-- The match `m` comes to an outcome, as `Decides` says, in at most `n` steps. -/
def DecidesIn (rules : RuleBook) (n : Nat) (m : Machine Tape) (out : Outcome Value)
    (stack : List Frame) (t : Tape) (log : List Tap) : Prop :=
  match out with
  | .matched v rest => ∃ k ≤ n, Moves rules k m ⟨.matched v, stack, t.before rest, log⟩
  | .failed => ∃ k ≤ n, ∃ c, Moves rules k m ⟨.failed, stack, { t with cursor := c }, log⟩

namespace DecidesIn

variable {out : Outcome Value} {n : Nat}

theorem decides (h : DecidesIn rules n m out stack t log) : Decides rules m out stack t log := by
  cases out with
  | matched v rest =>
    obtain ⟨k, -, hk⟩ := h
    exact ⟨k, hk⟩
  | failed =>
    obtain ⟨k, -, c, hk⟩ := h
    exact ⟨k, c, hk⟩

theorem step (h : m.step rules = .ok (.moved m₁)) (h' : DecidesIn rules n m₁ out stack t log) :
    DecidesIn rules (n + 1) m out stack t log := by
  cases out with
  | matched v rest =>
    obtain ⟨k, hn, hk⟩ := h'
    exact ⟨k + 1, Nat.succ_le_succ hn, .cons h hk⟩
  | failed =>
    obtain ⟨k, hn, c, hk⟩ := h'
    exact ⟨k + 1, Nat.succ_le_succ hn, c, .cons h hk⟩

theorem matched (ht : t.Shows rest) (v : Value) :
    DecidesIn rules n ⟨.matched v, stack, t, log⟩ (.matched v rest) stack t log :=
  ⟨0, Nat.zero_le n, by rw [ht.before_self]; exact .refl _⟩

theorem failed (t : Tape) : DecidesIn rules n ⟨.failed, stack, t, log⟩ .failed stack t log :=
  ⟨0, Nat.zero_le n, t.cursor, .refl _⟩

end DecidesIn

/-- The machine reads a token as its reader says. -/
def Reads (rules : RuleBook) (token : Scan) (text : List Char) (out : Outcome Value) : Prop :=
  ∀ (t : Tape) (stack : List Frame) (log : List Tap), t.Shows text →
    Decides rules ⟨.scan token, stack, t, log⟩ out stack t log

/-- The machine reads a token as its reader says, with a step for each character and one more. -/
def Scans (rules : RuleBook) (token : Scan) (text : List Char) (out : Outcome Value) : Prop :=
  ∀ (t : Tape) (stack : List Frame) (log : List Tap), t.Shows text →
    DecidesIn rules (text.length + 1) ⟨.scan token, stack, t, log⟩ out stack t log

/-- Turning to something else without reading. -/
theorem DecidesIn.settle {token : Scan} {next : Control} {out : Outcome Value} {n : Nat}
    (hs : scan token ⟨.scan token, stack, t, log⟩ = settle next ⟨.scan token, stack, t, log⟩)
    (h : DecidesIn rules n ⟨next, stack, t, log⟩ out stack t log) :
    DecidesIn rules (n + 1) ⟨.scan token, stack, t, log⟩ out stack t log :=
  h.step hs

/-- Reading a character. -/
theorem DecidesIn.take {token : Scan} {next : Control} {out : Outcome Value} {n : Nat}
    (ht : t.Shows (c :: cs))
    (hs : scan token ⟨.scan token, stack, t, log⟩ = take next ⟨.scan token, stack, t, log⟩)
    (h : DecidesIn rules n ⟨next, stack, t.before cs, log⟩ out stack t log) :
    DecidesIn rules (n + 1) ⟨.scan token, stack, t, log⟩ out stack t log := by
  refine h.step ?_
  change scan token _ = _
  rw [hs, Machine.take, advance_cons ht]
  rfl

theorem scans_char (rules : RuleBook) (accepted : CharClass) (text : List Char) :
    Scans rules (.char accepted) text (accepted.read text) := by
  intro t stack log ht
  cases text with
  | nil =>
    refine .settle ?_ (.failed t)
    rw [scan, ahead_nil ht]
    rfl
  | cons c cs =>
    rw [CharClass.read]
    by_cases hc : accepted.contains c = true
    · rw [if_pos hc]
      refine .take ht ?_ (.matched (ht.move (List.suffix_cons c cs)) (.char c))
      simp only [scan, ahead_cons ht, bind, Except.bind, if_pos hc]
    · rw [if_neg hc]
      refine .settle ?_ (.failed t)
      simp only [scan, ahead_cons ht, bind, Except.bind, if_neg hc]

theorem scans_literal (rules : RuleBook) (expected text : List Char) :
    Scans rules (.literal expected) text (readLiteral expected text) := by
  fun_induction readLiteral expected text with
  | case1 text =>
    intro t stack log ht
    exact .settle rfl (.matched ht .nil)
  | case2 e expected =>
    intro t stack log ht
    refine .settle ?_ (.failed t)
    simp only [scan, ahead_nil ht, bind, Except.bind]
  | case3 expected c cs ih =>
    intro t stack log ht
    refine .take ht ?_ (ih (t.before cs) stack log (ht.move (List.suffix_cons c cs)))
    simp only [scan, ahead_cons ht, bind, Except.bind, if_true]
  | case4 e expected c cs hc =>
    intro t stack log ht
    refine .settle ?_ (.failed t)
    simp only [scan, ahead_cons ht, bind, Except.bind, if_neg hc]

theorem scans_endOfInput (rules : RuleBook) (text : List Char) :
    Scans rules .endOfInput text (readEnd text) := by
  intro t stack log ht
  cases text with
  | nil =>
    refine .settle ?_ (.matched ht .nil)
    simp only [scan, ahead_nil ht, bind, Except.bind]
  | cons c cs =>
    refine .settle ?_ (.failed t)
    simp only [scan, ahead_cons ht, bind, Except.bind]

theorem decides_intOutcome (rules : RuleBook) (format : IntFormat) (n : Numeral) (k : Nat)
    (ht : t.Shows text) (stack : List Frame) (log : List Tap) :
    DecidesIn rules k ⟨intOutcome format n, stack, t, log⟩ (n.outcome format text) stack t log := by
  unfold intOutcome Numeral.outcome
  cases n.value? format with
  | some v => exact .matched ht _
  | none => exact .failed t

/-- The sign that an integer takes at a character. -/
def signAt (format : IntFormat) (n : Numeral) (c : Char) : Option Sign :=
  if format.signed && n.sign.isNone && n.count == 0 then Sign.ofChar? c else none

theorem scans_digits (rules : RuleBook) (format : IntFormat) (n : Numeral) (text : List Char)
    (hn : ∀ c ∈ text.head?, signAt format n c = none) :
    Scans rules (.int format n) text (n.readDigits format text) := by
  induction text generalizing n with
  | nil =>
    intro t stack log ht
    refine .settle ?_ (decides_intOutcome rules format n _ ht stack log)
    rw [scan, scanInt, ahead_nil ht]
    split <;> rfl
  | cons c cs ih =>
    intro t stack log ht
    rw [Numeral.readDigits]
    by_cases hf : format.digits.isFull n.count = true
    · rw [if_pos hf]
      refine .settle ?_ (decides_intOutcome rules format n _ ht stack log)
      rw [scan, scanInt, if_pos hf]
    have hs : signAt format n c = none := hn c rfl
    unfold signAt at hs
    rw [if_neg hf]
    cases hd : digitOf format.base c with
    | none =>
      refine .settle ?_ (decides_intOutcome rules format n _ ht stack log)
      rw [scan, scanInt, if_neg hf, ahead_cons ht]
      simp only [bind, Except.bind, hs, hd]
    | some d =>
      cases hp : n.push? format.base d with
      | none =>
        simp only [hp]
        refine .settle ?_ (.failed t)
        rw [scan, scanInt, if_neg hf, ahead_cons ht]
        simp only [bind, Except.bind, hs, hd, hp]
      | some n' =>
        have hn' : ∀ c ∈ cs.head?, signAt format n' c = none := fun c _ => by
          simp [signAt, Numeral.count_push? hp]
        simp only [hp]
        refine .take ht ?_ (ih n' hn' (t.before cs) stack log (ht.move (List.suffix_cons c cs)))
        rw [scan, scanInt, if_neg hf, ahead_cons ht]
        simp only [bind, Except.bind, hs, hd, hp]

theorem scans_int (rules : RuleBook) (format : IntFormat) (text : List Char) :
    Scans rules (.int format {}) text (format.read text) := by
  cases text with
  | nil => exact scans_digits rules format {} [] (fun c h => nomatch h)
  | cons c cs =>
    rw [IntFormat.read]
    have hs : signAt format {} c = if format.signed then Sign.ofChar? c else none := by
      simp [signAt]
    rw [← hs]
    cases hc : signAt format {} c with
    | none =>
      refine scans_digits rules format {} _ fun c' h => ?_
      cases h
      exact hc
    | some sign =>
      intro t stack log ht
      have hn : ∀ c ∈ cs.head?, signAt format { sign := some sign } c = none := fun c _ => by
        simp [signAt]
      refine .take ht ?_ (scans_digits rules format { sign := some sign } cs hn (t.before cs) stack
        log (ht.move (List.suffix_cons c cs)))
      unfold signAt at hc
      have hf : format.digits.isFull 0 = false := by
        cases hm : format.digits.max <;> simp [Bounds.isFull, hm]
      rw [scan, scanInt, ahead_cons ht]
      simp only [bind, Except.bind, hc, hf]
      rfl

/-- The longest key found so far, as the machine keeps it: with a checkpoint after it. -/
def bestMark (t : Tape) (best : Option (Value × List Char)) : Option (Value × Checkpoint) :=
  best.map fun found => (found.1, (t.before found.2).mark.1)

/-- The tape `t` with the checkpoint after the longest key so far. -/
def bestTape (t : Tape) (best : Option (Value × List Char)) : Tape :=
  t.holding (best.map fun found => (t.before found.2).cursor)

theorem commitBest_best (t : Tape) (best : Option (Value × List Char)) (text : List Char) :
    commitBest (bestMark t best) ⟨control, stack, (bestTape t best).before text, log⟩ =
      .ok ⟨control, stack, t.before text, log⟩ := by
  cases best with
  | none => rfl
  | some found => exact commit_holding (t.before text) (t.before found.2).cursor

/-- A walk that ends comes to the longest key on its way. -/
theorem decides_resolveSymbol (rules : RuleBook) (control : Control) (stack : List Frame) (t : Tape)
    (log : List Tap) (best : Option (Value × List Char)) (n : Nat) : ∃ m₁,
      resolveSymbol (bestMark t best) ⟨control, stack, bestTape t best, log⟩ = .ok (.moved m₁) ∧
      DecidesIn rules n m₁ (.ofOption best) stack t log := by
  cases best with
  | none => exact ⟨_, rfl, .failed t⟩
  | some found =>
    obtain ⟨v, rest⟩ := found
    refine ⟨⟨.matched v, stack, t.before rest, log⟩, ?_, 0, Nat.zero_le n, .refl _⟩
    change (rollback (Tape.record t.text (t.before rest).cursor t.saved.length)
      ⟨control, stack, t.holding (some (t.before rest).cursor), log⟩ >>= _) = _
    rw [rollback_holding]
    rfl

/-- One character down a symbol table: a key that ends there becomes the longest one so far. -/
theorem descendSymbol_eq (ht : t.Shows (c :: cs)) (control : Control) (stack : List Frame)
    (log : List Tap) (table : SymbolTable) (next : Nat) (best : Option (Value × List Char)) :
    descendSymbol table next (bestMark t best) ⟨control, stack, bestTape t best, log⟩ =
      .ok (.moved (match table.value? next with
        | none => ⟨.scan (.symbol table next (bestMark (t.before cs) best)), stack,
            bestTape (t.before cs) best, log⟩
        | some v =>
          if table.isLeaf next then ⟨.matched v, stack, t.before cs, log⟩
          else ⟨.scan (.symbol table next (bestMark (t.before cs) (some (v, cs)))), stack,
            bestTape (t.before cs) (some (v, cs)), log⟩)) := by
  have hb : (bestTape t best).Shows (c :: cs) := ht.save _
  rw [descendSymbol, advance_cons hb]
  simp only [bind, Except.bind]
  cases table.value? next with
  | none => rfl
  | some v =>
    simp only [commitBest_best]
    split <;> rfl

/-- A walk down a symbol table comes to the longest key below, or else to the longest key on its way
so far. -/
theorem decides_symbol (rules : RuleBook) (table : SymbolTable) (node : Nat)
    (best : Option (Value × List Char)) (ht : t.Shows text) (stack : List Frame) (log : List Tap) :
    DecidesIn rules (text.length + 1)
      ⟨.scan (.symbol table node (bestMark t best)), stack, bestTape t best, log⟩
      (.ofOption ((table.longestBelow node text).or best)) stack t log := by
  induction text generalizing t node best with
  | nil =>
    obtain ⟨m₁, hm, hd⟩ := decides_resolveSymbol rules
      (.scan (.symbol table node (bestMark t best))) stack t log best _
    refine hd.step ?_
    change scanSymbol _ _ _ _ = _
    rw [scanSymbol, ahead_nil (t := bestTape t best) (ht.save _)]
    exact hm
  | cons c cs ih =>
    have hb : (bestTape t best).Shows (c :: cs) := ht.save _
    have hahead :
        ahead ⟨.scan (.symbol table node (bestMark t best)), stack, bestTape t best, log⟩ =
          .ok (.char c) := ahead_cons hb
    have ht' : (t.before cs).Shows cs := ht.move (List.suffix_cons c cs)
    rw [SymbolTable.longestBelow]
    cases hc : table.child? node c with
    | none =>
      obtain ⟨m₁, hm, hd⟩ := decides_resolveSymbol rules
        (.scan (.symbol table node (bestMark t best))) stack t log best _
      refine hd.step ?_
      change scanSymbol _ _ _ _ = _
      simp only [scanSymbol, hahead, bind, Except.bind, hc]
      exact hm
    | some next =>
      rw [Option.bind_some]
      have hstep : step rules ⟨.scan (.symbol table node (bestMark t best)), stack, bestTape t best,
          log⟩ = descendSymbol table next (bestMark t best)
            ⟨.scan (.symbol table node (bestMark t best)), stack, bestTape t best, log⟩ := by
        change scanSymbol _ _ _ _ = _
        simp only [scanSymbol, hahead, bind, Except.bind, hc]
      rw [descendSymbol_eq ht] at hstep
      refine DecidesIn.step hstep ?_
      cases hv : table.value? next with
      | none =>
        rw [Option.map_none, Option.or_none]
        exact ih next best ht'
      | some v =>
        have hor (found : Option (Value × List Char)) :
            (found.or (some (v, cs))).or best = found.or (some (v, cs)) := by
          cases found <;> rfl
        rw [Option.map_some, hor]
        by_cases hl : table.isLeaf next = true
        · simp only [if_pos hl]
          rw [SymbolTable.longestBelow_of_isLeaf hl]
          exact .matched ht' v
        · simp only [if_neg hl]
          exact ih next (some (v, cs)) ht'

/-- The machine reads a token as the pattern that stands for it says, with a step for each character
and one more. -/
theorem scans_token (rules : RuleBook) {p : Pattern} {out : Outcome Value}
    (h : p.read? text = some out) :
    ∃ token, Scans rules token text out ∧ ∀ (scope : Scope) (m : Machine Tape),
      enter rules p scope m = .ok (m.goto (.ofToken scope (.scan token))) := by
  unfold Pattern.read? at h
  split at h <;> cases h
  · exact ⟨_, scans_char rules _ text, fun _ _ => rfl⟩
  · exact ⟨_, scans_literal rules _ text, fun _ _ => rfl⟩
  · exact ⟨_, scans_endOfInput rules text, fun _ _ => rfl⟩
  · exact ⟨_, scans_int rules _ text, fun _ _ => rfl⟩
  · rename_i table
    refine ⟨_, fun t stack log ht => ?_, fun _ _ => rfl⟩
    have hd := decides_symbol rules table SymbolTable.root none ht stack log
    rw [Option.or_none] at hd
    exact hd

/-- The machine reads a token as the pattern that stands for it says. -/
theorem reads_token (rules : RuleBook) {p : Pattern} {out : Outcome Value}
    (h : p.read? text = some out) :
    ∃ token, Reads rules token text out ∧ ∀ (scope : Scope) (m : Machine Tape),
      enter rules p scope m = .ok (m.goto (.ofToken scope (.scan token))) := by
  obtain ⟨token, hscan, henter⟩ := scans_token rules h
  exact ⟨token, fun t stack log ht => (hscan t stack log ht).decides, henter⟩

end Machine

end PegStream
