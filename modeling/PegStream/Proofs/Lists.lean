import PegStream.Proofs.Complete

/-!
# Lists by repetition

A list of `p` with separator `q` is an optional `p`, followed by any number of rounds that read a
`q`, of which nothing is kept, and a `p` (`Pattern.listRounds`). The two have rules of their own for
when to stop and where to go back to, and they come to the same:

* `Machine.rounds_of_pairs`, `Machine.pairs_of_rounds`: the pairs of a list are the rounds of the
  repetition;
* `Machine.matches_list_iff`, `Machine.matches_listRounds_iff`: both in the same terms;
* `Machine.list_agrees_with_rounds`: on every input both read the same and tap the same, and the
  items of the list are those of the repetition.
-/

namespace PegStream

/-- A separator, of which nothing is kept, and the element after it. -/
def Pattern.listRound (p q : Pattern) : Pattern := .sequence [.discard q, p]

/-- A list, written with a repetition. -/
def Pattern.listRounds (p q : Pattern) : Pattern :=
  .optional (.sequence [p, .many (.listRound p q)])

namespace Machine

variable {rules : RuleBook} {p q : Pattern} {scope : Scope} {text rest : List Char}
  {values : List Value} {taps : List Tap} {out : Outcome Value}

/-! ## Parts of the patterns -/

theorem matches_pair_iff : Matches rules (.sequence [p, q]) scope text out taps ↔
    Matches rules p scope text .failed taps ∧ out = .failed ∨
    ∃ v text₁ out' taps₁ taps₂, Matches rules p scope text (.matched v text₁) taps₁ ∧
      Matches rules q scope text₁ out' taps₂ ∧
      out = out'.map (fun w => .ofParts (p.keep v ++ q.keep w)) ∧ taps = taps₁ ++ taps₂ := by
  constructor
  · intro h
    cases h with
    | token _ hr => cases hr
    | sequence hs =>
      cases hs with
      | failed hp => exact .inl ⟨hp, rfl⟩
      | cons hp hs =>
        cases hs with
        | failed hq => exact .inr ⟨_, _, .failed, _, _, hp, hq, rfl, rfl⟩
        | cons hq hs =>
          cases hs
          refine .inr ⟨_, _, .matched _ _, _, _, hp, hq, ?_, by rw [List.append_nil]⟩
          simp only [Outcome.map_matched, List.append_nil]
  · rintro (⟨hp, rfl⟩ | ⟨v, text₁, out', taps₁, taps₂, hp, hq, rfl, rfl⟩)
    · exact .sequence (.failed hp)
    · cases out' with
      | failed => exact .sequence (.cons hp (.failed hq))
      | matched w rest =>
        have hs := Matches.sequence (.cons hp (.cons hq .nil))
        simp only [Outcome.map_matched, List.append_nil] at hs
        exact hs

theorem matches_discard_iff : Matches rules (.discard p) scope text out taps ↔
    ∃ out', Matches rules p scope text out' taps ∧ out = out'.map fun _ => .nil := by
  constructor
  · intro h
    cases h with
    | token _ hr => cases hr
    | discard h => exact ⟨_, h, rfl⟩
  · rintro ⟨out', h, rfl⟩
    exact .discard h

theorem matches_optional_iff : Matches rules (.optional p) scope text out taps ↔
    Matches rules p scope text .failed taps ∧ out = .matched .nil text ∨
    ∃ v rest, Matches rules p scope text (.matched v rest) taps ∧ out = .matched v rest := by
  constructor
  · intro h
    cases h with
    | token _ hr => cases hr
    | optional_some h => exact .inr ⟨_, _, h, rfl⟩
    | optional_none h => exact .inl ⟨h, rfl⟩
  · rintro (⟨h, rfl⟩ | ⟨v, rest, h, rfl⟩)
    · exact .optional_none h
    · exact .optional_some h

/-- A repetition that needs no round does not fail. -/
theorem rounds_ne_failed {bounds : Bounds} (hmin : bounds.min = 0) {count : Nat} {text : List Char}
    {outs : Outcome (List Value)} {taps : List Tap} :
    Rounds rules p bounds scope count text outs taps → outs ≠ .failed
  | .full _, ho | .enough _ _ _, ho | .idle _ _, ho => nomatch ho
  | .short _ _ hcount, _ => Nat.not_lt_zero _ (hmin ▸ hcount)
  | @Rounds.round _ _ _ _ _ _ _ _ out _ _ _ _ _ hs, ho => by
    have ih := rounds_ne_failed hmin hs
    cases out with
    | failed => exact ih rfl
    | matched => cases ho

theorem matches_many_iff : Matches rules (.many p) scope text out taps ↔
    ∃ values rest, Rounds rules p (.atLeast 0) scope 0 text (.matched values rest) taps ∧
      out = .matched (p.shape.gather values) rest := by
  constructor
  · intro h
    cases h with
    | token _ hr => cases hr
    | @repetition _ _ _ _ outs _ hs =>
      cases outs with
      | failed => exact absurd rfl (rounds_ne_failed rfl hs)
      | matched values rest => exact ⟨values, rest, hs, rfl⟩
  · rintro ⟨values, rest, hs, rfl⟩
    exact .repetition hs

theorem keep_of_loud (hp : p.isSilent = false) (v : Value) : p.keep v = [v] := by
  simp [Pattern.keep, hp]

theorem shape_listRound (p q : Pattern) : (p.listRound q).shape = p.shape := by
  simp only [Pattern.listRound, Pattern.shape, Pattern.sequenceShape]
  cases p.shape <;> rfl

/-! ## Rounds and pairs -/

/-- A round reads the separator, and then comes to what the element comes to. -/
theorem matches_listRound_iff (hp : p.isSilent = false) :
    Matches rules (.listRound p q) scope text out taps ↔
      Matches rules q scope text .failed taps ∧ out = .failed ∨
      ∃ w text₁ taps₁ taps₂, Matches rules q scope text (.matched w text₁) taps₁ ∧
        Matches rules p scope text₁ out taps₂ ∧ taps = taps₁ ++ taps₂ := by
  have hkeep : ∀ out : Outcome Value,
      out.map (fun w => .ofParts ((Pattern.discard q).keep .nil ++ p.keep w)) = out := by
    intro out
    cases out with
    | failed => rfl
    | matched v rest =>
      rw [Outcome.map_matched, keep_of_loud hp]
      rfl
  rw [Pattern.listRound, matches_pair_iff]
  constructor
  · rintro (⟨hq, rfl⟩ | ⟨v, text₁, out', taps₁, taps₂, hq, h, rfl, rfl⟩)
    · obtain ⟨outq, hq', ho⟩ := matches_discard_iff.1 hq
      cases outq with
      | failed => exact .inl ⟨hq', rfl⟩
      | matched => cases ho
    · obtain ⟨outq, hq', ho⟩ := matches_discard_iff.1 hq
      cases outq with
      | failed => cases ho
      | matched w text₁ =>
        cases ho
        rw [hkeep]
        exact .inr ⟨w, _, taps₁, taps₂, hq', h, rfl⟩
  · rintro (⟨hq, rfl⟩ | ⟨w, text₁, taps₁, taps₂, hq, h, rfl⟩)
    · exact .inl ⟨.discard hq, rfl⟩
    · exact .inr ⟨.nil, text₁, out, taps₁, taps₂, .discard hq, h, (hkeep out).symm, rfl⟩

/-- The pairs of a list are rounds. -/
theorem rounds_of_pairs (hp : p.isSilent = false) {text rest : List Char} {values : List Value}
    {taps : List Tap} : (count : Nat) → Pairs rules p q scope text values rest taps →
      Rounds rules (.listRound p q) (.atLeast 0) scope count text (.matched values rest) taps
  | _, .separator_failed hq =>
    .enough rfl ((matches_listRound_iff hp).2 (.inl ⟨hq, rfl⟩)) (Nat.zero_le _)
  | _, .element_failed hq h =>
    .enough rfl ((matches_listRound_iff hp).2 (.inr ⟨_, _, _, _, hq, h, rfl⟩)) (Nat.zero_le _)
  | _, .idle hq h => .idle rfl ((matches_listRound_iff hp).2 (.inr ⟨_, _, _, _, hq, h, rfl⟩))
  | count, .pair hq h hne hs =>
    .round rfl ((matches_listRound_iff hp).2 (.inr ⟨_, _, _, _, hq, h, rfl⟩)) hne
      (rounds_of_pairs hp (count + 1) hs)

/-- The rounds are pairs of a list. -/
theorem pairs_of_rounds (hp : p.isSilent = false) {count : Nat} {text rest : List Char}
    {values : List Value} {taps : List Tap} {outs : Outcome (List Value)} :
    Rounds rules (.listRound p q) (.atLeast 0) scope count text outs taps →
      outs = .matched values rest → Pairs rules p q scope text values rest taps
  | .full hfull, _ => nomatch hfull
  | .short _ _ hcount, _ => absurd hcount (Nat.not_lt_zero _)
  | .enough _ h _, ho => by
    cases ho
    rcases (matches_listRound_iff hp).1 h with ⟨hq, -⟩ | ⟨w, text₁, taps₁, taps₂, hq, he, rfl⟩
    · exact .separator_failed hq
    · exact .element_failed hq he
  | .idle _ h, ho => by
    cases ho
    rcases (matches_listRound_iff hp).1 h with ⟨-, hv⟩ | ⟨w, text₁, taps₁, taps₂, hq, he, rfl⟩
    · cases hv
    · exact .idle hq he
  | @Rounds.round _ _ _ _ _ _ _ _ out _ _ _ h hne hs, ho => by
    cases out with
    | failed => cases ho
    | matched vs rest =>
      cases ho
      rcases (matches_listRound_iff hp).1 h with ⟨-, hv⟩ | ⟨w, text₁, taps₁, taps₂, hq, he, rfl⟩
      · cases hv
      · exact .pair hq he hne (pairs_of_rounds hp hs rfl)

/-! ## Lists -/

/-- A list is a first element, if there is one, and the pairs after it. -/
theorem matches_list_iff : Matches rules (.list p q) scope text out taps ↔
    Matches rules p scope text .failed taps ∧ out = .matched (p.shape.gather []) text ∨
    ∃ v text₁ vs rest taps₁ taps₂, Matches rules p scope text (.matched v text₁) taps₁ ∧
      Pairs rules p q scope text₁ vs rest taps₂ ∧
      out = .matched (p.shape.gather (v :: vs)) rest ∧ taps = taps₁ ++ taps₂ := by
  constructor
  · intro h
    cases h with
    | token _ hr => cases hr
    | list_none h => exact .inl ⟨h, rfl⟩
    | list_some h hs => exact .inr ⟨_, _, _, _, _, _, h, hs, rfl, rfl⟩
  · rintro (⟨h, rfl⟩ | ⟨v, text₁, vs, rest, taps₁, taps₂, h, hs, rfl, rfl⟩)
    · exact .list_none h
    · exact .list_some h hs

/-- So is its form with a repetition, with another value. -/
theorem matches_listRounds_iff (hp : p.isSilent = false) :
    Matches rules (.listRounds p q) scope text out taps ↔
      Matches rules p scope text .failed taps ∧ out = .matched .nil text ∨
      ∃ v text₁ vs rest taps₁ taps₂, Matches rules p scope text (.matched v text₁) taps₁ ∧
        Pairs rules p q scope text₁ vs rest taps₂ ∧
        out = .matched (.tuple [v, p.shape.gather vs]) rest ∧ taps = taps₁ ++ taps₂ := by
  have hkeep : ∀ v w, Value.ofParts (p.keep v ++ (Pattern.many (p.listRound q)).keep w) =
      .tuple [v, w] := by
    intro v w
    have hmany : (Pattern.many (p.listRound q)).isSilent = false := by
      change ((p.listRound q).shape == .silent) = false
      rw [shape_listRound]
      exact hp
    rw [keep_of_loud hp, keep_of_loud hmany]
    rfl
  rw [Pattern.listRounds, matches_optional_iff]
  constructor
  · rintro (⟨h, rfl⟩ | ⟨u, rest, h, rfl⟩)
    · rcases matches_pair_iff.1 h with ⟨h₁, -⟩ | ⟨v, text₁, out', taps₁, taps₂, h₁, hs, ho, rfl⟩
      · exact .inl ⟨h₁, rfl⟩
      · -- The rounds do not fail, so the sequence fails only where its first element does.
        obtain ⟨vs, rest, -, rfl⟩ := matches_many_iff.1 hs
        cases ho
    · rcases matches_pair_iff.1 h with ⟨-, ho⟩ | ⟨v, text₁, out', taps₁, taps₂, h₁, hs, ho, rfl⟩
      · cases ho
      · obtain ⟨vs, rest', hrounds, rfl⟩ := matches_many_iff.1 hs
        rw [ho, Outcome.map_matched, hkeep, shape_listRound]
        exact .inr ⟨v, text₁, vs, rest', taps₁, taps₂, h₁, pairs_of_rounds hp hrounds rfl, rfl, rfl⟩
  · rintro (⟨h, rfl⟩ | ⟨v, text₁, vs, rest, taps₁, taps₂, h, hs, rfl, rfl⟩)
    · exact .inl ⟨matches_pair_iff.2 (.inl ⟨h, rfl⟩), rfl⟩
    · have hmany := matches_many_iff.2 ⟨vs, rest, rounds_of_pairs hp 0 hs, rfl⟩
      refine .inr ⟨_, rest, matches_pair_iff.2 (.inr ?_), rfl⟩
      refine ⟨v, text₁, _, taps₁, taps₂, h, hmany, ?_, rfl⟩
      rw [Outcome.map_matched, hkeep, shape_listRound]

/-- The value of a list has the items that the value of its form with a repetition has, by the shape
of the elements. -/
inductive Itemized : Shape → Value → Value → Prop
  | noItems : Itemized .other .nil (.list [])
  | noText : Itemized .text .nil (.str "")
  | items (v : Value) (vs : List Value) : Itemized .other (.tuple [v, .list vs]) (.list (v :: vs))
  | text {v : Value} {first : String} (others : String) : v.text? = some first →
    Itemized .text (.tuple [v, .str others]) (.str (first ++ others))

theorem itemized_nil (hp : p.isSilent = false) : Itemized p.shape .nil (p.shape.gather []) := by
  cases hshape : p.shape with
  | silent => simp [Pattern.isSilent, hshape] at hp
  | text => exact .noText
  | other => exact .noItems

theorem itemized_cons (hp : p.isSilent = false) {v : Value} (hv : v.Fits p.shape)
    (vs : List Value) :
    Itemized p.shape (.tuple [v, p.shape.gather vs]) (p.shape.gather (v :: vs)) := by
  cases hshape : p.shape with
  | silent => simp [Pattern.isSilent, hshape] at hp
  | other => exact .items v vs
  | text =>
    rw [hshape] at hv
    obtain ⟨first, hfirst⟩ := hv.text?
    have hjoin : Shape.text.gather (v :: vs) =
        .str (first ++ String.join (vs.filterMap Value.text?)) := by
      simp [Shape.gather, hfirst]
    rw [hjoin]
    exact .text _ hfirst

/-- What a list makes of a text, its form with a repetition makes of it. -/
theorem exists_listRounds (hp : p.isSilent = false)
    (h : Matches rules (.list p q) scope text out taps) :
    ∃ a b rest, out = .matched a rest ∧ Itemized p.shape b a ∧
      Matches rules (.listRounds p q) scope text (.matched b rest) taps := by
  rcases matches_list_iff.1 h with ⟨h₁, rfl⟩ | ⟨v, text₁, vs, rest, taps₁, taps₂, h₁, hs, rfl, rfl⟩
  · exact ⟨_, _, text, rfl, itemized_nil hp, (matches_listRounds_iff hp).2 (.inl ⟨h₁, rfl⟩)⟩
  · have hrounds := (matches_listRounds_iff hp).2
      (.inr ⟨v, text₁, vs, rest, taps₁, taps₂, h₁, hs, rfl, rfl⟩)
    exact ⟨_, _, rest, rfl, itemized_cons hp h₁.fits vs, hrounds⟩

/-- And the other way round. -/
theorem exists_list (hp : p.isSilent = false)
    (h : Matches rules (.listRounds p q) scope text out taps) :
    ∃ b a rest, out = .matched b rest ∧ Itemized p.shape b a ∧
      Matches rules (.list p q) scope text (.matched a rest) taps := by
  rcases (matches_listRounds_iff hp).1 h with
    ⟨h₁, rfl⟩ | ⟨v, text₁, vs, rest, taps₁, taps₂, h₁, hs, rfl, rfl⟩
  · exact ⟨_, _, text, rfl, itemized_nil hp, .list_none h₁⟩
  · exact ⟨_, _, rest, rfl, itemized_cons hp h₁.fits vs, .list_some h₁ hs⟩

/-- Where one pattern has a match whenever another has, with the same rest and the same taps, it has
one wherever the other comes to an end, and leaves the same input and the same log. -/
theorem comes_alike {p' : Pattern} {related : Value → Value → Prop}
    (h : ∀ {scope text out taps}, Matches rules p scope text out taps → ∃ a b rest,
      out = .matched a rest ∧ related a b ∧ Matches rules p' scope text (.matched b rest) taps)
    {s : Whole} {t : Tape} {log : List Tap} {m : Machine Whole} {v : Verdict} (hR : s.Represents t)
    (hcomes : Comes rules p scope s log m v) (hd : v.Decided) : ∃ a b, related a b ∧
      m = ⟨.matched a, [], m.source, m.log⟩ ∧ v = .matched a ∧
      Comes rules p' scope s log ⟨.matched b, [], m.source, m.log⟩ (.matched b) := by
  obtain ⟨out, taps, n, hmatches, rfl, ha, hm, hR'⟩ := matches_of_comes hR hcomes hd
  obtain ⟨a, b, rest, rfl, hab, hmatches'⟩ := h hmatches
  cases ha
  rw [hm]
  exact ⟨a, b, hab, rfl, rfl, (matched_iff hR).2 ⟨rest, taps, hmatches', hR', rfl⟩⟩

/-- A list of elements that keep a value and its form with a repetition agree. Wherever they are
entered, if either comes to an end then so does the other; both match, with the same input left and
the same values tapped, and the list has the items of the repetition. A text that arrives in chunks
is answered in the same way. -/
theorem list_agrees_with_rounds (rules : RuleBook) (p q : Pattern) (hp : p.isSilent = false) :
    (∀ (scope : Scope) (s : Whole) (cps : List Checkpoint) (log : List Tap) (m : Machine Whole)
      (v : Verdict), s.Reachable cps → v.Decided →
      (Comes rules (.list p q) scope s log m v → ∃ a b, Itemized p.shape b a ∧
        m = ⟨.matched a, [], m.source, m.log⟩ ∧ v = .matched a ∧
        Comes rules (.listRounds p q) scope s log ⟨.matched b, [], m.source, m.log⟩
          (.matched b)) ∧
      (Comes rules (.listRounds p q) scope s log m v → ∃ b a, Itemized p.shape b a ∧
        m = ⟨.matched b, [], m.source, m.log⟩ ∧ v = .matched b ∧
        Comes rules (.list p q) scope s log ⟨.matched a, [], m.source, m.log⟩ (.matched a))) ∧
    ∀ (text : String) (held held' : List Nat) (a : Value) (s' : Whole) (log : List Tap),
      rules.collect (.list p q) = .ok held → rules.collect (.listRounds p q) = .ok held' →
      Comes rules (.list p q) none (.ofString text) [] ⟨.matched a, [], s', log⟩ (.matched a) →
      ∃ b, Itemized p.shape b a ∧ ∃ steps, ∀ fuel > steps, ∀ chunks, String.join chunks = text →
        Stream.Comes rules (.list p q) fuel chunks (.matched a s'.remaining.toList) ∧
        Stream.Comes rules (.listRounds p q) fuel chunks (.matched b s'.remaining.toList) := by
  refine ⟨fun scope s cps log m v hs hd => ?_,
    fun text held held' a s' log hc hc' hcomes => ?_⟩
  · obtain ⟨t, hR, -⟩ := hs.represents
    exact ⟨fun h => comes_alike (exists_listRounds hp) hR h hd,
      fun h => comes_alike (exists_list hp) hR h hd⟩
  · have hR := Whole.represents_ofString text
    obtain ⟨rest, taps, hmatches, hR', -⟩ := (matched_iff hR).1 hcomes
    obtain ⟨a', b, rest', ho, hab, hrounds⟩ := exists_listRounds hp hmatches
    cases ho
    obtain ⟨steps, hlist⟩ := Matches.answers hc hmatches
    obtain ⟨steps', hrounds⟩ := Matches.answers hc' hrounds
    refine ⟨b, hab, steps + steps', fun fuel hfuel chunks hjoin => ?_⟩
    rw [hR.remaining_before hmatches.within hR']
    exact ⟨(hlist fuel (by omega)).2 chunks hjoin, (hrounds fuel (by omega)).2 chunks hjoin⟩

/-- The text `,b` with `k` of its characters read. -/
def comma (k : Nat) : Whole := { text := ",b", cursor := k, position := ⟨1, k + 1, k⟩ }

/-- A list of any numbers of `a`, both of its elements empty: the first one does not end it. -/
theorem list_agrees_with_rounds_empty : ∃ b, Itemized .text b (.str "") ∧
    Comes .empty (.listRounds (.many (.exactly 'a')) (.literal ",")) none (comma 0) []
      ⟨.matched b, [], comma 1, []⟩ (.matched b) := by
  have hlist : Comes .empty (.list (.many (.exactly 'a')) (.literal ",")) none (comma 0) []
      ⟨.matched (.str ""), [], comma 1, []⟩ (.matched (.str "")) :=
    comes_of_run (rfl : run .empty 30 _ = _) nofun
  have hreachable : (comma 0).Reachable [] := .fresh ⟨",b", rfl⟩
  have hagree := list_agrees_with_rounds .empty (.many (.exactly 'a')) (.literal ",") rfl
  have hdecided : (Verdict.matched (.str "")).Decided := trivial
  obtain ⟨a, b, hab, hm, -, hrounds⟩ := (hagree.1 _ _ _ _ _ _ hreachable hdecided).1 hlist
  cases hm
  exact ⟨b, hab, hrounds⟩

end Machine

end PegStream
