import PegStream.Proofs.Derivations
import PegStream.Proofs.Reachability

/-!
# Grammars without left recursion

A grammar is left-recursive if a rule can come back to itself before anything has been read. Where
it is not, a rule is entered again only after a character or at a smaller rank.

* `Pattern.uses`, `InUse`: what a match enters on behalf of a pattern, and all that it can enter;
* `Pattern.weight_uses`: a pattern uses only smaller ones, except through references;
* `Exposes`: the references that a match can enter before it has read anything;
* `NotLeftRecursive`: they can be ranked.
-/

namespace PegStream

namespace Pattern

/-- Whether the skipper in force is matched in front of the pattern. -/
def skips : Pattern → Bool
  | .char _ | .literal _ | .endOfInput | .int _ | .symbol _ | .lexeme _ => true
  | _ => false

/-- The parts of a pattern that can be entered at its start and under its own skipper. Sequences and
the separators of lists are left out, since they ask for more. -/
def heads : Pattern → List Pattern
  | .alternative ps => ps
  | .repetition p _ | .optional p | .list p _ | .not p | .discard p | .map p _ | .tap p _ => [p]
  | .except p q => [p, q]
  | _ => []

/-- The patterns that a match enters on behalf of a pattern, with the skipper in force there. -/
def uses (scope : Scope) : Pattern → List (Pattern × Scope)
  | .char _ | .literal _ | .endOfInput | .int _ | .symbol _ => scope.toList.map (·, none)
  | .pass | .fail | .rule _ => []
  | .lexeme p => (p, none) :: scope.toList.map (·, none)
  | .skipping p skipper => [(p, some skipper)]
  | .sequence ps | .alternative ps => ps.map (·, scope)
  | .repetition p _ | .optional p | .not p | .discard p | .map p _ | .tap p _ => [(p, scope)]
  | .list p q | .except p q => [(p, scope), (q, scope)]

/-- The number of nodes of a pattern and of the skipper in force. -/
def weight (p : Pattern) (scope : Scope) : Nat := p.size + (scope.map size).getD 0

theorem weight_none (p : Pattern) : p.weight none = p.size := rfl

theorem weight_some (p skipper : Pattern) : p.weight (some skipper) = p.size + skipper.size := rfl

theorem size_le_sizes {p : Pattern} {ps : List Pattern} (h : p ∈ ps) : p.size ≤ sizes ps := by
  induction ps with
  | nil => exact nomatch h
  | cons q ps ih =>
    rw [sizes]
    rcases List.mem_cons.1 h with rfl | h
    · exact Nat.le_add_right _ _
    · exact Nat.le_trans (ih h) (Nat.le_add_left _ _)

theorem size_pos (p : Pattern) : 0 < p.size := by
  rw [size_eq]
  exact Nat.succ_le_of_lt (Nat.lt_of_lt_of_le Nat.zero_lt_one (Nat.le_add_right _ _))

/-- What is entered on behalf of a pattern, and the skipper in force there, are children of it or
the skipper in force before. -/
theorem mem_uses {p q : Pattern} {scope s : Scope} (h : (q, s) ∈ p.uses scope) :
    (q ∈ p.children ∨ q ∈ scope) ∧ ∀ skipper ∈ s, skipper ∈ p.children ∨ skipper ∈ scope := by
  cases p <;>
    simp only [uses, children, List.mem_map, Option.mem_toList, List.mem_cons, Prod.mk.injEq,
      List.not_mem_nil, or_false] at h ⊢ <;>
    grind

/-- What is entered on behalf of a pattern is smaller than the pattern. -/
theorem weight_uses {p q : Pattern} {scope s : Scope} (h : (q, s) ∈ p.uses scope) :
    q.weight s < p.weight scope := by
  cases p with
  | char | literal | endOfInput | int | symbol =>
    cases scope with
    | none => exact absurd h List.not_mem_nil
    | some skipper =>
      simp only [uses, Option.toList_some, List.map_cons, List.map_nil, List.mem_singleton,
        Prod.mk.injEq] at h
      obtain ⟨rfl, rfl⟩ := h
      simp only [weight_none, weight_some, size]
      omega
  | pass | fail | rule => exact absurd h List.not_mem_nil
  | lexeme p =>
    simp only [uses, List.mem_cons, List.mem_map, Option.mem_toList, Prod.mk.injEq] at h
    rcases h with ⟨rfl, rfl⟩ | ⟨k, rfl, rfl, rfl⟩
    · rw [weight_none, weight, size]
      omega
    · have := p.size_pos
      simp only [weight_none, weight_some, size]
      omega
  | skipping p skipper =>
    simp only [uses, List.mem_singleton, Prod.mk.injEq] at h
    obtain ⟨rfl, rfl⟩ := h
    rw [weight_some, weight, size]
    omega
  | sequence ps | alternative ps =>
    simp only [uses, List.mem_map, Prod.mk.injEq] at h
    obtain ⟨p, hp, rfl, rfl⟩ := h
    have := size_le_sizes hp
    simp only [weight, size]
    omega
  | repetition p | optional p | not p | discard p | map p | tap p =>
    simp only [uses, List.mem_singleton, Prod.mk.injEq] at h
    obtain ⟨rfl, rfl⟩ := h
    simp only [weight, size]
    omega
  | list p q | except p q =>
    simp only [uses, List.mem_cons, List.not_mem_nil, or_false, Prod.mk.injEq] at h
    have := p.size_pos
    have := q.size_pos
    rcases h with ⟨rfl, rfl⟩ | ⟨rfl, rfl⟩
    · simp only [weight, size]
      omega
    · simp only [weight, size]
      omega

end Pattern

/-! ## Left recursion -/

/-- A match of the pattern can enter the reference, under a skipper, before it has read anything. -/
inductive Exposes (rules : RuleBook) : Pattern → Scope → RuleRef → Scope → Prop
  | rule {ref scope} : Exposes rules (.rule ref) scope ref scope
  | skipper {p skipper ref s} : p.skips = true → Exposes rules skipper none ref s →
    Exposes rules p (some skipper) ref s
  | lexeme {p scope ref s} : Exposes rules p none ref s → Exposes rules (.lexeme p) scope ref s
  | skipping {p skipper scope ref s} : Exposes rules p (some skipper) ref s →
    Exposes rules (.skipping p skipper) scope ref s
  | head {p q scope ref s} : q ∈ p.heads → Exposes rules q scope ref s →
    Exposes rules p scope ref s
  /-- The parts in front of `p` can match without reading. -/
  | sequence {pre p post scope text vs taps ref s} :
    MatchesAll rules pre scope text (.matched vs text) taps → Exposes rules p scope ref s →
    Exposes rules (.sequence (pre ++ p :: post)) scope ref s
  /-- The first element can match without reading. -/
  | separator {p q scope text v taps ref s} : Matches rules p scope text (.matched v text) taps →
    Exposes rules q scope ref s → Exposes rules (.list p q) scope ref s

theorem Exposes.of_sequence {rules : RuleBook} {ps : List Pattern} {scope s : Scope}
    {ref : RuleRef} (h : Exposes rules (.sequence ps) scope ref s) :
    ∃ pre p post text vs taps, ps = pre ++ p :: post ∧
      MatchesAll rules pre scope text (.matched vs text) taps ∧ Exposes rules p scope ref s := by
  generalize hq : Pattern.sequence ps = q at h
  cases h with
  | sequence hpre hp =>
    cases hq
    exact ⟨_, _, _, _, _, _, rfl, hpre, hp⟩
  | skipper hs => rw [← hq] at hs; cases hs
  | head hp => rw [← hq] at hp; exact nomatch hp
  | rule | lexeme | skipping | separator => cases hq

/-- The patterns that a match of `root` can ever enter, with the skipper in force there. -/
inductive InUse (rules : RuleBook) (root : Pattern) : Pattern → Scope → Prop
  | root : InUse rules root root none
  | part {p q scope s} : InUse rules root p scope → (q, s) ∈ p.uses scope → InUse rules root q s
  | definition {ref scope d} : InUse rules root (.rule ref) scope → rules.resolve ref = .ok d →
    InUse rules root d scope

/-- The rules can be ranked so that before anything has been read, a definition only leads to rules
of a smaller rank. -/
def NotLeftRecursive (rules : RuleBook) (root : Pattern) : Prop :=
  ∃ rank : Nat → Nat, ∀ ref scope d, InUse rules root (.rule ref) scope →
    rules.resolve ref = .ok d → ∀ ref' scope', Exposes rules d scope ref' scope' →
    rank ref'.id < rank ref.id

/-! ## Matches that read nothing -/

section

variable {rules : RuleBook} {p : Pattern} {ps : List Pattern} {scope : Scope}

theorem length_lt_of_suffix {text rest : List Char} (h : rest <:+ text) (hne : rest ≠ text) :
    rest.length < text.length :=
  Nat.lt_of_le_of_ne h.length_le fun he => hne (h.eq_of_length he)

/-- One more part after parts that have matched. -/
theorem MatchesAll.snoc {text text₁ text₂ : List Char} {out : Outcome (List Value)} {v : Value}
    {vs : List Value} {taps taps' : List Tap} (h : MatchesAll rules ps scope text out taps)
    (ho : out = .matched vs text₁) (hm : Matches rules p scope text₁ (.matched v text₂) taps') :
    ∃ vs' taps'', MatchesAll rules (ps ++ [p]) scope text (.matched vs' text₂) taps'' := by
  induction ps generalizing text out taps vs with
  | nil =>
    cases h
    cases ho
    exact ⟨_, _, .cons hm .nil⟩
  | cons q ps ih =>
    cases h with
    | failed => cases ho
    | @cons _ _ _ _ _ _ out _ _ hq hs =>
      cases out with
      | failed => cases ho
      | matched ws rest =>
        cases ho
        obtain ⟨vs', taps'', h'⟩ := ih hs rfl
        exact ⟨_, _, .cons hq h'⟩

/-- Parts that match without reading, all together, start with a part that does. -/
theorem MatchesAll.head_idle {text : List Char} {out : Outcome (List Value)} {vs : List Value}
    {taps : List Tap} (h : MatchesAll rules (p :: ps) scope text out taps)
    (ho : out = .matched vs text) :
    ∃ v taps', Matches rules p scope text (.matched v text) taps' := by
  cases h with
  | failed => cases ho
  | @cons _ _ _ _ text₁ v out _ _ hm hs =>
    have hrest : text <:+ text₁ := by
      have hw := hs.within
      rw [← Outcome.within_map, ho] at hw
      exact hw
    have heq : text₁ = text :=
      hm.within.eq_of_length (Nat.le_antisymm hm.within.length_le hrest.length_le)
    rw [heq] at hm
    exact ⟨v, _, hm⟩

end

/-! ## Patterns in use -/

namespace Pattern

theorem skipper_mem_uses {p skipper : Pattern} {scope : Scope} (hp : p.skips = true)
    (hs : skipper ∈ scope) : (skipper, none) ∈ p.uses scope := by
  cases hs
  cases p with
  | char | literal | endOfInput | int | symbol | lexeme => simp [uses]
  | pass | fail | rule | skipping | sequence | alternative | repetition | optional | not | discard
  | map | tap | list | except => cases hp

theorem head_mem_uses {p q : Pattern} (scope : Scope) (hq : q ∈ p.heads) :
    (q, scope) ∈ p.uses scope := by
  cases p with
  | alternative ps => exact List.mem_map_of_mem hq
  | repetition | optional | not | discard | map | tap | list =>
    cases List.mem_singleton.1 hq
    exact List.mem_cons_self
  | except p e => simpa [heads, uses] using hq
  | char | literal | endOfInput | int | symbol | lexeme | pass | fail | rule | skipping
  | sequence => exact nomatch hq

end Pattern

section

variable {rules : RuleBook} {root p : Pattern} {scope : Scope}

theorem InUse.reaches (h : InUse rules root p scope) :
    rules.Reaches root p ∧ ∀ skipper ∈ scope, rules.Reaches root skipper := by
  induction h with
  | root => exact ⟨.root, fun _ h => nomatch h⟩
  | @part p q scope s _ hq ih =>
    have hreach : ∀ q, q ∈ p.children ∨ q ∈ scope → rules.Reaches root q := fun q hq =>
      hq.elim ih.1.child (ih.2 q)
    obtain ⟨hq, hs⟩ := Pattern.mem_uses hq
    exact ⟨hreach q hq, fun skipper h => hreach skipper (hs skipper h)⟩
  | definition _ hd ih => exact ⟨ih.1.definition hd, ih.2⟩

theorem InUse.exposes {ref : RuleRef} {s : Scope} (hu : InUse rules root p scope)
    (he : Exposes rules p scope ref s) : InUse rules root (.rule ref) s := by
  induction he with
  | rule => exact hu
  | skipper hp _ ih => exact ih (hu.part (Pattern.skipper_mem_uses hp rfl))
  | lexeme _ ih => exact ih (hu.part List.mem_cons_self)
  | skipping _ ih => exact ih (hu.part List.mem_cons_self)
  | head hq _ ih => exact ih (hu.part (Pattern.head_mem_uses _ hq))
  | sequence _ _ ih => exact ih (hu.part (List.mem_map_of_mem (by simp)))
  | separator _ _ ih => exact ih (hu.part (by simp [Pattern.uses]))

end

/-! ## The nested grammar -/

namespace Nested

/-- The patterns of the grammar. -/
def patterns : List Pattern :=
  [.rule ref, body, .sequence [.literal "(", .rule ref, .literal ")"], .literal "(", .literal ")",
    .tap (.exactly 'x') "x", .exactly 'x']

theorem inUse {p : Pattern} {scope : Scope} (h : InUse rules (.rule ref) p scope) :
    p ∈ patterns ∧ scope = none := by
  induction h with
  | root => exact ⟨List.mem_cons_self, rfl⟩
  | part _ hq ih =>
    obtain ⟨hp, rfl⟩ := ih
    simp only [patterns, List.mem_cons, List.not_mem_nil, or_false] at hp
    rcases hp with rfl | rfl | rfl | rfl | rfl | rfl | rfl <;>
      simp [Pattern.uses, body, patterns, Pattern.exactly] at hq ⊢ <;>
      grind
  | definition _ hr ih =>
    obtain ⟨hp, rfl⟩ := ih
    simp [patterns, body, Pattern.exactly] at hp
    subst hp
    cases hr
    simp [patterns]

/-- An opening parenthesis is never matched without reading it. -/
theorem not_matches_idle {text : List Char} {v : Value} {taps : List Tap} :
    ¬ Matches rules (.literal "(") none text (.matched v text) taps := by
  intro h
  cases h with
  | token hs hr =>
    cases hs
    cases text with
    | nil => cases hr
    | cons c cs =>
      simp [Pattern.read?, readLiteral] at hr
      split at hr
      · simp at hr
      · cases hr

theorem not_exposes_char {accepted : CharClass} {r : RuleRef} {s : Scope} :
    ¬ Exposes rules (.char accepted) none r s := by
  intro h
  cases h with
  | head hq => exact nomatch hq

/-- The rule comes back to itself only after a parenthesis. -/
theorem not_exposes_body {r : RuleRef} {s : Scope} : ¬ Exposes rules body none r s := by
  intro h
  cases h with
  | head hq h =>
    simp only [body, Pattern.heads, List.mem_cons, List.not_mem_nil, or_false] at hq
    rcases hq with rfl | rfl
    · obtain ⟨pre, p, post, text, vs, taps, hps, hpre, hp⟩ := h.of_sequence
      cases pre with
      | nil =>
        cases hps
        cases hp with
        | head hq => exact nomatch hq
      | cons q pre =>
        obtain ⟨rfl, -⟩ := List.cons.inj hps
        obtain ⟨v, taps', hm⟩ := hpre.head_idle rfl
        exact not_matches_idle hm
    · cases h with
      | head hq h =>
        cases List.mem_singleton.1 hq
        exact not_exposes_char h

theorem notLeftRecursive : NotLeftRecursive rules (.rule ref) := by
  refine ⟨fun _ => 0, fun r scope d hu hr r' s he => ?_⟩
  obtain ⟨hp, rfl⟩ := inUse hu
  simp [patterns, body, Pattern.exactly] at hp
  subst hp
  cases hr
  exact absurd he not_exposes_body

end Nested

end PegStream
