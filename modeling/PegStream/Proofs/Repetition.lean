import PegStream.Proofs.Backtracking
import PegStream.Proofs.Complete

/-!
# How many rounds a repetition has

A repetition matches its operand again and again. What it comes to is read off the chain of these
matches, each of which is a match of the operand alone, entered where the one before has ended. The
chain stops where the operand fails, after a match that has read nothing, and when there are as many
matches as are allowed. It is too short if it stops at a failure before there are as many as are
needed: then the repetition fails, on an input exactly as it was. Otherwise it matches, with the
values of the chain and at its end.

* `Machine.Chain`: the matches of the operand, one after another;
* `Machine.Chain.rounds`, `Machine.exists_chain`: chains and the rounds of a repetition are the
  same;
* `Machine.repetition_follows_chain`: what a repetition comes to.
-/

namespace PegStream

theorem Bounds.isFull_iff {bounds : Bounds} {count : Nat} :
    bounds.isFull count = true ↔ bounds.max ≠ 0 ∧ count = bounds.max := by
  simp [Bounds.isFull]

namespace Machine

variable {rules : RuleBook} {p : Pattern} {bounds : Bounds} {scope : Scope} {s s' : Whole}
  {t : Tape} {log log' : List Tap} {v : Value} {values : List Value}

/-! ## Chains -/

/-- Matches of `p` one after another, from `s` to `s'`, each of which reads something. -/
inductive Links (rules : RuleBook) (p : Pattern) (scope : Scope) :
    Whole → List Tap → List Value → Whole → List Tap → Prop
  | nil {s : Whole} {log : List Tap} : Links rules p scope s log [] s log
  | cons {s s₁ s' : Whole} {log log₁ log' : List Tap} {v : Value} {values : List Value} :
    Comes rules p scope s log ⟨.matched v, [], s₁, log₁⟩ (.matched v) → s.cursor < s₁.cursor →
    Links rules p scope s₁ log₁ values s' log' → Links rules p scope s log (v :: values) s' log'

/-- What stops a chain. -/
inductive Halt where
  /-- The next match fails. -/
  | failure
  /-- The last match has read nothing. -/
  | idle
  /-- There are as many matches as are allowed. -/
  | full

/-- The chain of matches of `p` from `s` on, with at most `max` of them unless `max` is zero. It
produces some values and leads to `s'`. -/
inductive Chain (rules : RuleBook) (p : Pattern) (scope : Scope) (max : Nat) (s : Whole)
    (log : List Tap) : List Value → Whole → List Tap → Halt → Prop
  | failure {values : List Value} {s₁ s₂ : Whole} {log₁ log₂ : List Tap} :
    Links rules p scope s log values s₁ log₁ → max = 0 ∨ values.length < max →
    Comes rules p scope s₁ log₁ ⟨.failed, [], s₂, log₂⟩ .failed →
    Chain rules p scope max s log values s₁ log₂ .failure
  | idle {values : List Value} {v : Value} {s₁ s₂ : Whole} {log₁ log₂ : List Tap} :
    Links rules p scope s log values s₁ log₁ → max = 0 ∨ values.length < max →
    Comes rules p scope s₁ log₁ ⟨.matched v, [], s₂, log₂⟩ (.matched v) → s₂.cursor = s₁.cursor →
    Chain rules p scope max s log (values ++ [v]) s₂ log₂ .idle
  | full {values : List Value} {s₁ : Whole} {log₁ : List Tap} :
    Links rules p scope s log values s₁ log₁ → max ≠ 0 → values.length = max →
    Chain rules p scope max s log values s₁ log₁ .full

/-- The chain has stopped at a failure before there are as many matches as are needed. -/
def Halt.TooShort (bounds : Bounds) (count : Nat) : Halt → Prop
  | failure => count < bounds.min
  | idle | full => False

instance (bounds : Bounds) (count : Nat) : (halt : Halt) → Decidable (halt.TooShort bounds count)
  | .failure => inferInstanceAs (Decidable (count < bounds.min))
  | .idle | .full => inferInstanceAs (Decidable False)

/-! ## From a chain to the rounds -/

/-- A match has read something if its end is further on. -/
theorem cursor_lt_iff {rest : List Char} (hR : s.Represents t) (hR' : s'.Represents (t.before rest))
    (hrest : rest <:+ t.rest) : s.cursor < s'.cursor ↔ rest ≠ t.rest := by
  rw [hR.cursor, hR'.cursor]
  exact hR.shows.offset_lt_iff hrest

/-- Matches of a chain are rounds, in front of the rounds that follow. -/
theorem Links.rounds (bounds : Bounds) (h : Links rules p scope s log values s' log')
    (hR : s.Represents t) :
    ∃ rest taps, rest <:+ t.rest ∧ s'.Represents (t.before rest) ∧ log' = taps.reverse ++ log ∧
      ∀ {count out taps'}, (∀ i < values.length, bounds.isFull (count + i) = false) →
        Rounds rules p bounds scope (count + values.length) rest out taps' →
        Rounds rules p bounds scope count t.rest (out.map fun vs => values ++ vs)
          (taps ++ taps') := by
  induction h generalizing t with
  | nil =>
    refine ⟨t.rest, [], List.suffix_refl _, ?_, rfl, fun {_ out _} _ hs => ?_⟩
    · rw [hR.shows.before_self]
      exact hR
    · cases out <;> exact hs
  | @cons _ _ _ _ _ _ v values hm hlt _ ih =>
    obtain ⟨rest₁, taps₁, hmatches, hR₁, rfl⟩ := (matched_iff hR).1 hm
    have hrest₁ : rest₁ <:+ t.rest := hmatches.within
    obtain ⟨rest, taps, hrest, hR', rfl, hrounds⟩ := ih hR₁
    rw [(hR.shows.move hrest₁).rest] at hrest hrounds
    refine ⟨rest, taps₁ ++ taps, hrest.trans hrest₁, hR', (log_append taps₁ taps _).symm,
      fun {count out taps'} hfew hs => ?_⟩
    -- The links that follow count from one more, so they ask about the limit one place on.
    have hzero : bounds.isFull count = false := hfew 0 (Nat.succ_pos _)
    have hmore : ∀ i < values.length, bounds.isFull (count + 1 + i) = false := fun i hi => by
      rw [Nat.add_right_comm]
      exact hfew (i + 1) (Nat.succ_lt_succ hi)
    rw [List.length_cons, ← Nat.add_assoc, Nat.add_right_comm] at hs
    have hround := Rounds.round hzero hmatches ((cursor_lt_iff hR hR₁ hrest₁).1 hlt)
      (hrounds hmore hs)
    rw [Outcome.map_map, ← List.append_assoc] at hround
    exact hround

theorem Links.fits (h : Links rules p scope s log values s' log') (hR : s.Represents t) :
    ∀ v ∈ values, v.Fits p.shape := by
  induction h generalizing t with
  | nil => simp
  | cons hm _ _ ih =>
    obtain ⟨rest₁, taps₁, hmatches, hR₁, -⟩ := (matched_iff hR).1 hm
    exact List.forall_mem_cons.2 ⟨hmatches.fits, ih hR₁⟩

theorem Chain.fits {max : Nat} {halt : Halt}
    (h : Chain rules p scope max s log values s' log' halt) (hR : s.Represents t) :
    ∀ v ∈ values, v.Fits p.shape := by
  cases h with
  | failure hlinks | full hlinks => exact hlinks.fits hR
  | idle hlinks _ hidle =>
    obtain ⟨_, _, -, hR₁, -⟩ := hlinks.rounds (.atLeast 0) hR
    obtain ⟨_, _, hmatches, -⟩ := (matched_iff hR₁).1 hidle
    intro v hv
    rcases List.mem_append.1 hv with hv | hv
    · exact hlinks.fits hR v hv
    · cases List.mem_singleton.1 hv
      exact hmatches.fits

theorem isFull_of_few {count : Nat} (hfew : bounds.max = 0 ∨ count < bounds.max) :
    bounds.isFull (0 + count) = false := by
  rw [Bool.eq_false_iff, ne_eq, Bounds.isFull_iff]
  omega

theorem isFull_before {count : Nat} (h : bounds.max = 0 ∨ count ≤ bounds.max) :
    ∀ i < count, bounds.isFull (0 + i) = false := fun i hi =>
  isFull_of_few (by omega)

/-- A chain is what the rounds of a repetition are. -/
theorem Chain.rounds {halt : Halt} (h : Chain rules p scope bounds.max s log values s' log' halt)
    (hR : s.Represents t) : ∃ rest taps, rest <:+ t.rest ∧ s'.Represents (t.before rest) ∧
      log' = taps.reverse ++ log ∧ Rounds rules p bounds scope 0 t.rest
        (if halt.TooShort bounds values.length then .failed else .matched values rest) taps := by
  cases h with
  | failure hlinks hfew hfails =>
    obtain ⟨rest, taps, hrest, hR', rfl, hrounds⟩ := hlinks.rounds bounds hR
    obtain ⟨taps', hmatches, rfl⟩ := (failed_iff hR').1 ⟨_, hfails⟩
    rw [(hR.shows.move hrest).rest] at hmatches
    refine ⟨rest, taps ++ taps', hrest, hR', (log_append ..).symm, ?_⟩
    have hbefore := isFull_before (hfew.imp_right Nat.le_of_lt)
    split
    · rename_i hshort
      exact hrounds hbefore (.short (isFull_of_few hfew) hmatches (by rwa [Nat.zero_add]))
    · rename_i hlong
      have henough : bounds.min ≤ 0 + values.length := by
        rw [Nat.zero_add]
        exact Nat.le_of_not_lt hlong
      have hall := hrounds hbefore (.enough (isFull_of_few hfew) hmatches henough)
      rw [Outcome.map_matched, List.append_nil] at hall
      exact hall
  | @idle values _ _ _ _ _ hlinks hfew hidle hstays =>
    obtain ⟨rest, taps, hrest, hR₁, rfl, hrounds⟩ := hlinks.rounds bounds hR
    obtain ⟨rest', taps', hmatches, hR', rfl⟩ := (matched_iff hR₁).1 hidle
    have hsuffix := hmatches.within
    -- A cursor that has not moved leaves the same text.
    have hrest' : rest' = (t.before rest).rest := Decidable.byContradiction fun hne =>
      absurd hstays.symm (Nat.ne_of_lt ((cursor_lt_iff hR₁ hR' hsuffix).2 hne))
    rw [(hR.shows.move hrest).rest] at hmatches hrest'
    subst hrest'
    refine ⟨rest', taps ++ taps', hrest, hR', (log_append ..).symm, ?_⟩
    have hbefore := isFull_before (hfew.imp_right Nat.le_of_lt)
    exact hrounds hbefore (.idle (isFull_of_few hfew) hmatches)
  | full hlinks hmax hlength =>
    obtain ⟨rest, taps, hrest, hR', rfl, hrounds⟩ := hlinks.rounds bounds hR
    refine ⟨rest, taps, hrest, hR', rfl, ?_⟩
    have hbefore := isFull_before (.inr (Nat.le_of_eq hlength))
    have hall := hrounds hbefore (.full (Bounds.isFull_iff.2 ⟨hmax, by omega⟩))
    rw [Outcome.map_matched, List.append_nil, List.append_nil] at hall
    exact hall

/-! ## From the rounds to a chain -/

/-- How the matches of a chain end at `s`, after `count` of them. -/
def Ended (rules : RuleBook) (p : Pattern) (bounds : Bounds) (scope : Scope) (s : Whole)
    (log : List Tap) (count : Nat) : Prop :=
  bounds.isFull count = true ∨ bounds.isFull count = false ∧
    ((∃ s' log', Comes rules p scope s log ⟨.failed, [], s', log'⟩ .failed) ∨
      ∃ v s' log', Comes rules p scope s log ⟨.matched v, [], s', log'⟩ (.matched v) ∧
        s'.cursor = s.cursor)

/-- The rounds of a repetition are matches of a chain. -/
theorem links_of_rounds {count : Nat} {out : Outcome (List Value)} {taps : List Tap}
    {text : List Char} {s : Whole} {t : Tape} {log : List Tap} (hR : s.Represents t) :
    t.rest = text → Rounds rules p bounds scope count text out taps →
      ∃ values s' log', Links rules p scope s log values s' log' ∧
        (∀ i < values.length, bounds.isFull (count + i) = false) ∧
        Ended rules p bounds scope s' log' (count + values.length)
  | _, .full hfull => ⟨[], s, log, .nil, by simp, .inl hfull⟩
  | ht, .enough hfull hm _ | ht, .short hfull hm _ => by
    subst ht
    obtain ⟨s', hfails⟩ := (failed_iff hR).2 ⟨_, hm, rfl⟩
    exact ⟨[], s, log, .nil, by simp, .inr ⟨hfull, .inl ⟨s', _, hfails⟩⟩⟩
  | ht, .idle hfull hm => by
    subst ht
    obtain ⟨s', hR', hidle⟩ := exists_matched hR hm log
    rw [hR.shows.before_self] at hR'
    obtain rfl := hR.unique hR'
    exact ⟨[], s, log, .nil, by simp, .inr ⟨hfull, .inr ⟨_, s, _, hidle, rfl⟩⟩⟩
  | ht, @Rounds.round _ _ _ _ _ _ text₁ _ _ _ _ hfull hm hne hs => by
    subst ht
    have hrest : text₁ <:+ t.rest := hm.within
    obtain ⟨s₁, hR₁, hmatched⟩ := exists_matched hR hm log
    obtain ⟨values, s', log', hlinks, hfew, hended⟩ := links_of_rounds hR₁
      (hR.shows.move hrest).rest hs
    refine ⟨_ :: values, s', log', .cons hmatched ((cursor_lt_iff hR hR₁ hrest).2 hne) hlinks,
      fun i hi => ?_, ?_⟩
    · cases i with
      | zero => exact hfull
      | succ i =>
        rw [← Nat.add_assoc, Nat.add_right_comm]
        exact hfew i (Nat.lt_of_succ_lt_succ hi)
    · rw [List.length_cons, ← Nat.add_assoc, Nat.add_right_comm]
      exact hended

theorem exists_chain {out : Outcome (List Value)} {taps : List Tap} (hR : s.Represents t)
    (log : List Tap) (h : Rounds rules p bounds scope 0 t.rest out taps) :
    ∃ values s' log' halt, Chain rules p scope bounds.max s log values s' log' halt := by
  obtain ⟨values, s', log', hlinks, hbefore, hended⟩ := links_of_rounds hR rfl h
  rw [Nat.zero_add] at hended
  rcases hended with hfull | ⟨hfull, hend⟩
  · obtain ⟨hmax, hlength⟩ := Bounds.isFull_iff.1 hfull
    exact ⟨values, s', log', .full, .full hlinks hmax hlength⟩
  have hfew : bounds.max = 0 ∨ values.length < bounds.max := by
    rw [Bool.eq_false_iff, ne_eq, Bounds.isFull_iff] at hfull
    -- A chain longer than the limit would have a link made at the limit.
    refine Classical.or_iff_not_imp_left.2 fun hmax => Nat.lt_of_not_le fun hle => ?_
    have hlt : bounds.max < values.length := by omega
    have hnot := hbefore bounds.max hlt
    rw [Nat.zero_add, Bounds.isFull_iff.2 ⟨hmax, rfl⟩] at hnot
    cases hnot
  rcases hend with ⟨s₂, log₂, hfails⟩ | ⟨v, s₂, log₂, hidle, hstays⟩
  · exact ⟨values, s', log₂, .failure, .failure hlinks hfew hfails⟩
  · exact ⟨values ++ [v], s₂, log₂, .idle, .idle hlinks hfew hidle hstays⟩

/-! ## Repetitions -/

theorem rounds_of_matches {out : Outcome Value} {text : List Char} {taps : List Tap}
    (h : Matches rules (.repetition p bounds) scope text out taps) :
    ∃ outs, Rounds rules p bounds scope 0 text outs taps := by
  cases h with
  | token _ hr => cases hr
  | repetition hrounds => exact ⟨_, hrounds⟩

/-- A repetition that fails has not moved. -/
theorem comes_failed (hR : s.Represents t) {taps : List Tap}
    (h : Matches rules (.repetition p bounds) scope t.rest .failed taps) (log : List Tap) :
    Comes rules (.repetition p bounds) scope s log ⟨.failed, [], s, taps.reverse ++ log⟩
      .failed := by
  obtain ⟨k, n, s', hk, ⟨c, rfl⟩, hR', hcomes⟩ := comes_of_matches hR h log
  have hworks : Works Tape.Grows [] _ _ := .of_moves .refl hk
  have hp : Backtracks (.repetition p bounds) := trivial
  cases (hworks.unmoved hp hR.valid).cursor
  obtain rfl := hR.unique hR'
  exact hcomes

/-- What a repetition comes to, wherever in a text it is entered: it fails if the chain of matches
of its operand is too short, and then the input is as it was and only what the operand has tapped is
left; otherwise it matches, with the values of the chain, gathered by the shape of the operand, and
with the input as the last match has left it. There is a chain whenever the repetition comes to an
end. A text that arrives in chunks is answered in the same way. -/
theorem repetition_follows_chain (rules : RuleBook) (p : Pattern) (bounds : Bounds) :
    (∀ (scope : Scope) (s : Whole) (cps : List Checkpoint) (log : List Tap) (values : List Value)
      (s' : Whole) (log' : List Tap) (halt : Halt), s.Reachable cps →
      Chain rules p scope bounds.max s log values s' log' halt →
      (p.shape = .text → ∀ v ∈ values, ∃ piece, v.text? = some piece) ∧
      if halt.TooShort bounds values.length then
        Comes rules (.repetition p bounds) scope s log ⟨.failed, [], s, log'⟩ .failed
      else Comes rules (.repetition p bounds) scope s log
        ⟨.matched (p.shape.gather values), [], s', log'⟩ (.matched (p.shape.gather values))) ∧
    (∀ (scope : Scope) (s : Whole) (cps : List Checkpoint) (log : List Tap) (m : Machine Whole)
      (v : Verdict), s.Reachable cps → Comes rules (.repetition p bounds) scope s log m v →
      v.Decided →
      ∃ values s' log' halt, Chain rules p scope bounds.max s log values s' log' halt) ∧
    ∀ (text : String) (held : List Nat) (values : List Value) (s' : Whole) (log' : List Tap)
      (halt : Halt), rules.collect (.repetition p bounds) = .ok held →
      Chain rules p none bounds.max (.ofString text) [] values s' log' halt →
      ∃ steps, ∀ fuel > steps, ∀ chunks, String.join chunks = text →
        Stream.Comes rules (.repetition p bounds) fuel chunks
          (if halt.TooShort bounds values.length then .failed
          else .matched (p.shape.gather values) s'.remaining.toList) := by
  refine ⟨fun scope s cps log values s' log' halt hs hchain => ?_,
    fun scope s cps log m v hs hcomes hd => ?_, fun text held values s' log' halt hc hchain => ?_⟩
  · obtain ⟨t, hR, -⟩ := hs.represents
    obtain ⟨rest, taps, -, hR', rfl, hrounds⟩ := hchain.rounds hR
    have hmatches := Matches.repetition hrounds
    refine ⟨fun hp => ?_, ?_⟩
    · intro v hv
      have hfits := hchain.fits hR v hv
      rw [hp] at hfits
      exact hfits.text?
    split
    · rename_i hshort
      rw [if_pos hshort] at hmatches
      exact comes_failed hR hmatches log
    · rename_i hlong
      rw [if_neg hlong] at hmatches
      exact (matched_iff hR).2 ⟨rest, taps, hmatches, hR', rfl⟩
  · obtain ⟨t, hR, -⟩ := hs.represents
    obtain ⟨out, taps, n, hmatches, -⟩ := matches_of_comes hR hcomes hd
    obtain ⟨outs, hrounds⟩ := rounds_of_matches hmatches
    exact exists_chain hR log hrounds
  · have hR := Whole.represents_ofString text
    obtain ⟨rest, taps, hrest, hR', -, hrounds⟩ := hchain.rounds hR
    obtain ⟨steps, hanswers⟩ := Matches.answers hc (.repetition hrounds)
    refine ⟨steps, fun fuel hfuel chunks hjoin => ?_⟩
    have hcomes := (hanswers fuel hfuel).2 chunks hjoin
    rw [apply_ite (Outcome.map _)] at hcomes
    rw [hR.remaining_before hrest hR']
    exact hcomes

/-- An `a` in front of a `b`: on a lone `a` this fails after having read it. -/
def couple : Pattern := .sequence [.exactly 'a', .literal "b"]

/-- The text `ababa` with `k` of its characters read. -/
def couples (k : Nat) : Whole := { text := "ababa", cursor := k, position := ⟨1, k + 1, k⟩ }

/-- Two couples and a half are enough where two are needed, and leave the input behind the second;
where three are needed, the input is left as it was. -/
theorem repetition_follows_chain_couples :
    Comes .empty (.repetition couple (.atLeast 2)) none (couples 0) []
      ⟨.matched (.str "aa"), [], couples 4, []⟩ (.matched (.str "aa")) ∧
    Comes .empty (.repetition couple (.atLeast 3)) none (couples 0) []
      ⟨.failed, [], couples 0, []⟩ .failed := by
  have hfirst : Comes .empty couple none (couples 0) [] ⟨.matched (.char 'a'), [], couples 2, []⟩
      (.matched (.char 'a')) := comes_of_run (rfl : run .empty 9 _ = _) nofun
  have hsecond : Comes .empty couple none (couples 2) [] ⟨.matched (.char 'a'), [], couples 4, []⟩
      (.matched (.char 'a')) := comes_of_run (rfl : run .empty 9 _ = _) nofun
  have hlast : Comes .empty couple none (couples 4) [] ⟨.failed, [], couples 5, []⟩ .failed :=
    comes_of_run (rfl : run .empty 9 _ = _) nofun
  have hlinks : Links .empty couple none (couples 0) [] [.char 'a', .char 'a'] (couples 4) [] :=
    .cons hfirst (by decide) (.cons hsecond (by decide) .nil)
  have hchain : Chain .empty couple none 0 (couples 0) [] [.char 'a', .char 'a'] (couples 4) []
      .failure := .failure hlinks (.inl rfl) hlast
  have hreachable : (couples 0).Reachable [] := .fresh ⟨"ababa", rfl⟩
  obtain ⟨-, hlong⟩ := (repetition_follows_chain .empty couple (.atLeast 2)).1 _ _ _ _ _ _ _ _
    hreachable hchain
  obtain ⟨-, hshort⟩ := (repetition_follows_chain .empty couple (.atLeast 3)).1 _ _ _ _ _ _ _ _
    hreachable hchain
  exact ⟨hlong, hshort⟩

end Machine

end PegStream
