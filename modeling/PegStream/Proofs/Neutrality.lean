import PegStream.Proofs.Complete
import PegStream.Proofs.Simulation

/-!
# Skippers that find nothing

A skipper is tried in front of every token and every lexeme. If it finds nothing to pass over at any
place of the input, it changes no answer (`idle_skipper_neutral`): whatever a pattern matches
without it, the pattern matches with it, and the other way round. All that can be seen of it are the
values that it taps itself (`Interspersed`).

The argument is a `Simulation` in each direction. Every pattern corresponds to itself, and only the
skippers in force differ, by what they tap.
-/

namespace PegStream

/-! ## Taps of others in between -/

/-- The taps of the second list are those of the first, with lists of `others` put in between. -/
inductive Interspersed (others : List Tap → Prop) : List Tap → List Tap → Prop
  | nil : Interspersed others [] []
  | tap (t : Tap) {taps taps' : List Tap} : Interspersed others taps taps' →
    Interspersed others (t :: taps) (t :: taps')
  | others {taps taps' inserted : List Tap} : others inserted → Interspersed others taps taps' →
    Interspersed others taps (inserted ++ taps')

namespace Interspersed

variable {others : List Tap → Prop} {a a' b b' : List Tap}

theorem append (h : Interspersed others a a') (h' : Interspersed others b b') :
    Interspersed others (a ++ b) (a' ++ b') := by
  induction h with
  | nil => exact h'
  | tap t _ ih => exact .tap t ih
  | others ho _ ih =>
    rw [List.append_assoc]
    exact .others ho ih

end Interspersed

/-! ## Idle skippers -/

/-- The skipper, on its own at the beginning of a text, fails or matches without reading, and taps
these values on the way. -/
def IdleAt (rules : RuleBook) (k : Pattern) (text : String) (taps : List Tap) : Prop :=
  Returns (parsePrefix rules · k text) ⟨.error (.error .noMatch), taps⟩ ∨
  ∃ v, Returns (parsePrefix rules · k text) ⟨.ok (v, text), taps⟩

/-- What the skipper taps at some place of the input, where it finds nothing. -/
def IdleTaps (rules : RuleBook) (k : Pattern) (input : String) (taps : List Tap) : Prop :=
  ∃ before after, before ++ after = input ∧ IdleAt rules k after taps

/-- The skipper finds nothing anywhere in the input. -/
def IdleOn (rules : RuleBook) (k : Pattern) (input : String) : Prop :=
  ∀ before after, before ++ after = input → ∃ taps, IdleAt rules k after taps

variable {rules : RuleBook} {p k : Pattern} {input : String} {text text' : List Char}
  {taps : List Tap} {out : Outcome Value}

theorem IdleAt.exists_matches (h : IdleAt rules k input taps) :
    ∃ out, (out = .failed ∨ ∃ v, out = .matched v input.toList) ∧
      (∃ held, rules.collect k = .ok held) ∧ Matches rules k none input.toList out taps := by
  rcases h with h | ⟨v, h⟩
  · have hfailed : Returns (parsePrefix rules · k input) ⟨Outcome.failed.answer, taps⟩ := h
    exact ⟨.failed, .inl rfl, returns_parsePrefix_iff.1 hfailed⟩
  · have hmatched : Returns (parsePrefix rules · k input)
        ⟨(Outcome.matched v input.toList).answer, taps⟩ := by
      rwa [Outcome.answer, String.ofList_toList]
    exact ⟨.matched v input.toList, .inr ⟨v, rfl⟩, returns_parsePrefix_iff.1 hmatched⟩

namespace IdleOn

theorem exists_matches (h : IdleOn rules k input) (ht : text <:+ input.toList) :
    ∃ out taps, (out = .failed ∨ ∃ v, out = .matched v text) ∧ IdleTaps rules k input taps ∧
      Matches rules k none text out taps := by
  obtain ⟨before, hbefore⟩ := ht
  have hcut : String.ofList before ++ String.ofList text = input := by
    rw [← String.ofList_append, hbefore, String.ofList_toList]
  obtain ⟨taps, hidle⟩ := h _ _ hcut
  obtain ⟨out, hout, -, hm⟩ := hidle.exists_matches
  rw [String.toList_ofList] at hout hm
  exact ⟨out, taps, hout, ⟨_, _, hcut, hidle⟩, hm⟩

/-- The skipper passes over nothing. -/
theorem skips (h : IdleOn rules k input) (ht : text <:+ input.toList) :
    ∃ taps, IdleTaps rules k input taps ∧ Skips rules (some k) text text taps := by
  obtain ⟨out, taps, rfl | ⟨v, rfl⟩, htaps, hm⟩ := h.exists_matches ht
  · exact ⟨taps, htaps, .failed hm⟩
  · exact ⟨taps, htaps, .idle hm⟩

theorem of_skips (h : IdleOn rules k input) (ht : text <:+ input.toList)
    (hs : Skips rules (some k) text text' taps) : text' = text ∧ IdleTaps rules k input taps := by
  obtain ⟨out, taps₀, hout, htaps, hm⟩ := h.exists_matches ht
  cases hs with
  | failed hk | idle hk =>
    obtain ⟨-, rfl⟩ := hk.unique hm
    exact ⟨rfl, htaps⟩
  | more hk hne =>
    -- A match that reads would be a second outcome of the skipper here.
    obtain ⟨rfl, -⟩ := hk.unique hm
    rcases hout with ho | ⟨v, ho⟩
    · cases ho
    · cases ho
      exact absurd rfl hne

/-- All rules of the skipper have definitions, so it is up to the pattern whether any is missing. -/
theorem exists_collect (h : IdleOn rules k input) :
    ∃ f, rules.collect (.skipping p k) = (rules.collect p).map f := by
  obtain ⟨taps, hidle⟩ := h "" input String.empty_append
  obtain ⟨-, -, hcollect, -⟩ := hidle.exists_matches
  have hvisit (seen : List Nat) : ∃ held, rules.visit [k] seen = .ok held :=
    RuleBook.visit_of_closed (RuleBook.collect_ok_iff.1 hcollect)
      (List.forall_mem_singleton.2 .root)
  choose f hf using hvisit
  refine ⟨f, ?_⟩
  rw [rules.collect_skipping]
  cases rules.collect p with
  | error e => rfl
  | ok seen => exact hf seen

theorem collect_ok_iff (h : IdleOn rules k input) :
    (∃ held, rules.collect (.skipping p k) = .ok held) ↔ ∃ held, rules.collect p = .ok held := by
  obtain ⟨f, hf⟩ := h.exists_collect (p := p)
  rw [hf]
  cases rules.collect p <;> simp [Except.map]

theorem collect_error_iff (h : IdleOn rules k input) {e : Error} :
    rules.collect (.skipping p k) = .error e ↔ rules.collect p = .error e := by
  obtain ⟨f, hf⟩ := h.exists_collect (p := p)
  rw [hf]
  cases rules.collect p <;> simp [Except.map]

end IdleOn

/-! ## The pattern around which it stands -/

/-- Every pattern corresponds to itself, on the ends of a text. -/
theorem simulation_refl {L : List Tap → List Tap → Prop} (hnil : L [] []) (htap : ∀ t, L [t] [t])
    (happend : ∀ {a a' b b'}, L a a' → L b b' → L (a ++ b) (a' ++ b')) :
    Simulation rules rules Eq (· <:+ text) L where
  node {p p'} hp := by
    subst hp
    exact ⟨p, .of_children fun _ _ => rfl, id⟩
  shape hp := congrArg Pattern.shape hp
  definition hd := ⟨_, hd, rfl⟩
  rest ht hrest := hrest.trans ht
  nil := hnil
  tap := htap
  append := happend

namespace IdleOn

theorem matches_with (h : IdleOn rules k input) (hm : Matches rules p none input.toList out taps) :
    ∃ taps', Interspersed (IdleTaps rules k input) taps taps' ∧
      Matches rules p (some k) input.toList out taps' := by
  have S : Simulation rules rules Eq (· <:+ input.toList)
      (Interspersed (IdleTaps rules k input)) := simulation_refl .nil (fun t => .tap t .nil) .append
  refine S.carry hm rfl (.passing fun ht hs => ?_) List.suffix_rfl
  cases hs
  obtain ⟨taps', htaps', hs'⟩ := h.skips ht
  exact ⟨taps', List.append_nil taps' ▸ .others htaps' .nil, hs'⟩

theorem matches_without (h : IdleOn rules k input)
    (hm : Matches rules p (some k) input.toList out taps) :
    ∃ taps', Interspersed (IdleTaps rules k input) taps' taps ∧
      Matches rules p none input.toList out taps' := by
  have S : Simulation rules rules Eq (· <:+ input.toList)
      (flip (Interspersed (IdleTaps rules k input))) :=
    simulation_refl .nil (fun t => .tap t .nil) .append
  refine S.carry hm rfl (.passing fun {_ _ taps} ht hs => ?_) List.suffix_rfl
  obtain ⟨rfl, htaps⟩ := h.of_skips ht hs
  exact ⟨[], List.append_nil taps ▸ .others htaps .nil, .none⟩

end IdleOn

/-- A skipper that finds nothing anywhere in the input is neutral. With it and without it, a pattern
has the same value and leaves the same rest, or it does not match, or it is refused for the same
rule; and the same values are tapped, but for those that the skipper taps itself. -/
theorem idle_skipper_neutral (rules : RuleBook) (p k : Pattern) (input : String)
    (h : IdleOn rules k input) :
    (∀ (out : Outcome Value) (taps : List Tap),
      Returns (parsePrefix rules · p input) ⟨out.answer, taps⟩ →
        ∃ taps', Returns (parsePrefix rules · (.skipping p k) input) ⟨out.answer, taps'⟩ ∧
          Interspersed (IdleTaps rules k input) taps taps') ∧
    (∀ (out : Outcome Value) (taps' : List Tap),
      Returns (parsePrefix rules · (.skipping p k) input) ⟨out.answer, taps'⟩ →
        ∃ taps, Returns (parsePrefix rules · p input) ⟨out.answer, taps⟩ ∧
          Interspersed (IdleTaps rules k input) taps taps') ∧
    ∀ (fuel : Nat) (name : String),
      (parsePrefix rules fuel (.skipping p k) input).outcome =
          .error (.error (.unboundRule name)) ↔
        (parsePrefix rules fuel p input).outcome = .error (.error (.unboundRule name)) := by
  refine ⟨fun out taps hp => ?_, fun out taps' hp => ?_, fun fuel name => ?_⟩
  · obtain ⟨hc, hm⟩ := returns_parsePrefix_iff.1 hp
    obtain ⟨taps', htaps, hm'⟩ := h.matches_with hm
    exact ⟨taps', returns_parsePrefix_iff.2 ⟨h.collect_ok_iff.2 hc, .skipping hm'⟩, htaps⟩
  · obtain ⟨hc, hm⟩ := returns_parsePrefix_iff.1 hp
    obtain ⟨taps, htaps, hm'⟩ := h.matches_without (matches_skipping_iff.1 hm)
    exact ⟨taps, returns_parsePrefix_iff.2 ⟨h.collect_ok_iff.1 hc, hm'⟩, htaps⟩
  · rw [parsePrefix_eq_unbound_iff, parsePrefix_eq_unbound_iff, h.collect_error_iff]

/-! ## Blanks where there are none -/

namespace Blanks

/-- Any number of blanks, noted each time. -/
def skipper : Pattern := .tap (.many (.literal " ")) "blanks"

/-- An `a` by itself, and a `b` behind it. -/
def letters : Pattern := .sequence [.lexeme (.tap (.exactly 'a') "a"), .optional (.exactly 'b')]

theorem idleAt_of_notMem {text : String} (h : ' ' ∉ text.toList) :
    IdleAt .empty skipper text [⟨"blanks", .nil⟩] := by
  have hblank : Matches .empty (.literal " ") none text.toList .failed [] := by
    refine .token .none ?_
    cases hcs : text.toList with
    | nil => rfl
    | cons c cs =>
      rw [hcs, List.mem_cons, not_or] at h
      exact congrArg some (if_neg (Ne.symm h.1))
  have hmany : Matches .empty (.many (.literal " ")) none text.toList
      (.matched .nil text.toList) [] := .repetition (.enough rfl hblank (Nat.zero_le 0))
  have hcollect : RuleBook.empty.collect skipper = .ok [] := by
    simp [RuleBook.collect, skipper, Pattern.many, RuleBook.visit_other, RuleBook.visit_nil,
      Pattern.children]
  have hreturns := returns_parsePrefix_iff.2 ⟨⟨_, hcollect⟩, .tap_matched hmany⟩
  rw [Outcome.answer, String.ofList_toList] at hreturns
  exact .inr ⟨.nil, hreturns⟩

theorem idleOn_letters : IdleOn .empty skipper "ab" := by
  intro before after hcut
  refine ⟨_, idleAt_of_notMem fun hmem => ?_⟩
  have hblank : ' ' ∈ "ab".toList := by
    rw [← hcut, String.toList_append]
    exact List.mem_append_right _ hmem
  revert hblank
  decide

theorem matches_ab : Matches .empty letters none ['a', 'b']
    (.matched (.char 'b') []) [⟨"a", .char 'a'⟩] := by
  have ha : Matches .empty (.tap (.exactly 'a') "a") none ['a', 'b'] (.matched .nil ['b'])
      [⟨"a", .char 'a'⟩] := .tap_matched (.token .none rfl)
  have hb : Matches .empty (.exactly 'b') none ['b'] (.matched (.char 'b') []) [] :=
    .token .none rfl
  exact .sequence (.cons (.lexeme .none ha) (.cons (.optional_some hb) .nil))

theorem collect_eq : RuleBook.empty.collect letters = .ok [] := by
  simp [RuleBook.collect, letters, Pattern.exactly, RuleBook.visit_other, RuleBook.visit_nil,
    Pattern.children]

end Blanks

theorem idle_skipper_neutral_letters : ∃ taps,
    Returns (parsePrefix .empty · (.skipping Blanks.letters Blanks.skipper) "ab")
      ⟨.ok (.char 'b', ""), taps⟩ ∧
    Interspersed (IdleTaps .empty Blanks.skipper "ab") [⟨"a", .char 'a'⟩] taps := by
  have hm : Matches .empty Blanks.letters none "ab".toList _ _ := Blanks.matches_ab
  have hreturns := returns_parsePrefix_iff.2 ⟨⟨_, Blanks.collect_eq⟩, hm⟩
  exact (idle_skipper_neutral .empty Blanks.letters Blanks.skipper "ab"
    Blanks.idleOn_letters).1 (.matched (.char 'b') []) _ hreturns

end PegStream
