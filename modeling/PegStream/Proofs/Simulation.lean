import Mathlib.Data.List.Forall2
import PegStream.Proofs.Derivations

/-!
# Derivations that carry over

Two patterns of the same kind, with parts that correspond one by one, match in the same way if their
parts do. A `Simulation` says what corresponds to what in two grammars: patterns to patterns, each
with a form of the same kind in between; rules to rules, by their definitions; and taps to taps. The
skippers in force correspond as patterns, or by what they pass over (`Simulation.Scopes`).

Then every derivation of the one grammar has its counterpart in the other, with the same value and
the same rest (`Simulation.carry`). The induction is on the derivation, since the definition of a
rule is no part of the pattern that refers to it.
-/

namespace PegStream

/-! ## Patterns of one kind -/

namespace Pattern

/-- The patterns are of the same kind and differ only in their parts, which are related one by
one. -/
inductive SameNode (R : Pattern → Pattern → Prop) : Pattern → Pattern → Prop
  | leaf {p : Pattern} : p.children = [] → SameNode R p p
  | sequence {ps qs : List Pattern} : List.Forall₂ R ps qs →
    SameNode R (.sequence ps) (.sequence qs)
  | alternative {ps qs : List Pattern} : List.Forall₂ R ps qs →
    SameNode R (.alternative ps) (.alternative qs)
  | repetition {p q : Pattern} {bounds : Bounds} : R p q →
    SameNode R (.repetition p bounds) (.repetition q bounds)
  | optional {p q : Pattern} : R p q → SameNode R (.optional p) (.optional q)
  | list {p q s u : Pattern} : R p q → R s u → SameNode R (.list p s) (.list q u)
  | except {p q e f : Pattern} : R p q → R e f → SameNode R (.except p e) (.except q f)
  | not {p q : Pattern} : R p q → SameNode R (.not p) (.not q)
  | discard {p q : Pattern} : R p q → SameNode R (.discard p) (.discard q)
  | map {p q : Pattern} {f : Value → Value} : R p q → SameNode R (.map p f) (.map q f)
  | tap {p q : Pattern} {label : String} : R p q → SameNode R (.tap p label) (.tap q label)
  | lexeme {p q : Pattern} : R p q → SameNode R (.lexeme p) (.lexeme q)
  | skipping {p q k l : Pattern} : R p q → R k l → SameNode R (.skipping p k) (.skipping q l)

namespace SameNode

variable {R : Pattern → Pattern → Prop} {p q : Pattern} {ps : List Pattern}

theorem of_sequence (h : SameNode R (.sequence ps) q) :
    ∃ qs, q = .sequence qs ∧ List.Forall₂ R ps qs := by
  cases h with
  | leaf hnil =>
    obtain rfl : ps = [] := hnil
    exact ⟨[], rfl, .nil⟩
  | sequence hs => exact ⟨_, rfl, hs⟩

theorem of_alternative (h : SameNode R (.alternative ps) q) :
    ∃ qs, q = .alternative qs ∧ List.Forall₂ R ps qs := by
  cases h with
  | leaf hnil =>
    obtain rfl : ps = [] := hnil
    exact ⟨[], rfl, .nil⟩
  | alternative hs => exact ⟨_, rfl, hs⟩

/-- Tokens have no parts, so they are the same. -/
theorem read?_eq (h : SameNode R p q) (text : List Char) : q.read? text = p.read? text := by
  cases h <;> rfl

theorem of_children (h : ∀ q ∈ p.children, R q q) : SameNode R p p := by
  cases p with
  | char | literal | endOfInput | pass | fail | int | symbol | rule => exact .leaf rfl
  | sequence ps => exact .sequence (List.forall₂_same.2 h)
  | alternative ps => exact .alternative (List.forall₂_same.2 h)
  | repetition => exact .repetition (h _ List.mem_cons_self)
  | optional => exact .optional (h _ List.mem_cons_self)
  | not => exact .not (h _ List.mem_cons_self)
  | discard => exact .discard (h _ List.mem_cons_self)
  | map => exact .map (h _ List.mem_cons_self)
  | tap => exact .tap (h _ List.mem_cons_self)
  | lexeme => exact .lexeme (h _ List.mem_cons_self)
  | list p q => exact .list (h p (by simp [children])) (h q (by simp [children]))
  | except p q => exact .except (h p (by simp [children])) (h q (by simp [children]))
  | skipping p q => exact .skipping (h p (by simp [children])) (h q (by simp [children]))

theorem children (h : SameNode R p q) : List.Forall₂ R p.children q.children := by
  cases h with
  | leaf hnil =>
    rw [hnil]
    exact .nil
  | sequence hs | alternative hs => exact hs
  | repetition h | optional h | not h | discard h | map h | tap h | lexeme h => exact .cons h .nil
  | list h h' | except h h' | skipping h h' => exact .cons h (.cons h' .nil)

theorem exists_child (h : SameNode R p q) {b : Pattern} (hb : b ∈ q.children) :
    ∃ a ∈ p.children, R a b := by
  have hs := h.children
  generalize p.children = as at hs
  generalize q.children = bs at hs hb
  induction hs with
  | nil => cases hb
  | cons hR _ ih =>
    rcases List.mem_cons.1 hb with rfl | hb
    · exact ⟨_, List.mem_cons_self, hR⟩
    · obtain ⟨a, ha, hR⟩ := ih hb
      exact ⟨a, List.mem_cons_of_mem _ ha, hR⟩

end SameNode

theorem keep_congr {p q : Pattern} (h : p.shape = q.shape) (v : Value) : p.keep v = q.keep v := by
  rw [keep, keep, isSilent, isSilent, h]

end Pattern

open Pattern (SameNode)

/-! ## Corresponding taps -/

/-- Some taps that correspond to `taps` have the property. -/
def Counterpart (L : List Tap → List Tap → Prop) (taps : List Tap) (P : List Tap → Prop) : Prop :=
  ∃ taps', L taps taps' ∧ P taps'

theorem Counterpart.imp {L : List Tap → List Tap → Prop} {taps : List Tap}
    {P Q : List Tap → Prop} (h : Counterpart L taps P) (hPQ : ∀ taps', P taps' → Q taps') :
    Counterpart L taps Q := by
  obtain ⟨taps', hL, hP⟩ := h
  exact ⟨taps', hL, hPQ taps' hP⟩

/-! ## Simulations -/

/-- What corresponds in the grammars of `rules` and `rules'`, for matches of the texts `T`: the
patterns related by `R` and the taps related by `L`. -/
structure Simulation (rules rules' : RuleBook) (R : Pattern → Pattern → Prop)
    (T : List Char → Prop) (L : List Tap → List Tap → Prop) : Prop where
  /-- A pattern has a counterpart of its own kind, and whatever that one matches, the related one
  does as well. -/
  node {p p' : Pattern} : R p p' → ∃ q, SameNode R p q ∧ ∀ {scope text out taps},
    Matches rules' q scope text out taps → Matches rules' p' scope text out taps
  shape {p p' : Pattern} : R p p' → p.shape = p'.shape
  definition {ref : RuleRef} {d : Pattern} : rules.resolve ref = .ok d →
    ∃ d', rules'.resolve ref = .ok d' ∧ R d d'
  rest {text rest : List Char} : T text → rest <:+ text → T rest
  nil : L [] []
  tap (t : Tap) : L [t] [t]
  append {a a' b b' : List Tap} : L a a' → L b b' → L (a ++ b) (a' ++ b')

namespace Simulation

variable {rules rules' : RuleBook} {R : Pattern → Pattern → Prop} {T : List Char → Prop}
  {L : List Tap → List Tap → Prop}

/-- The skippers correspond, or what is passed over in front of a token does. -/
inductive Scopes (rules rules' : RuleBook) (R : Pattern → Pattern → Prop) (T : List Char → Prop)
    (L : List Tap → List Tap → Prop) : Scope → Scope → Prop
  | skipper {k k' : Pattern} : R k k' → Scopes rules rules' R T L (some k) (some k')
  | passing {scope scope' : Scope} : (∀ {text text' taps}, T text →
      Skips rules scope text text' taps → Counterpart L taps (Skips rules' scope' text text')) →
    Scopes rules rules' R T L scope scope'

theorem scopes_none (S : Simulation rules rules' R T L) : Scopes rules rules' R T L none none :=
  .passing fun _ h => by
    cases h
    exact ⟨[], S.nil, .none⟩

/-- It is enough to follow the kind of the pattern. -/
theorem of_node (S : Simulation rules rules' R T L) {p p' : Pattern} {scope : Scope}
    {text : List Char} {out : Outcome Value} {taps : List Tap} (hR : R p p')
    (h : ∀ q, SameNode R p q → Counterpart L taps (Matches rules' q scope text out)) :
    Counterpart L taps (Matches rules' p' scope text out) := by
  obtain ⟨q, hn, hback⟩ := S.node hR
  exact (h q hn).imp fun _ => hback

theorem both (S : Simulation rules rules' R T L) {a b : List Tap} {P Q Z : List Tap → Prop}
    (ha : Counterpart L a P) (hb : Counterpart L b Q) (h : ∀ {a' b'}, P a' → Q b' → Z (a' ++ b')) :
    Counterpart L (a ++ b) Z := by
  obtain ⟨a', hLa, hP⟩ := ha
  obtain ⟨b', hLb, hQ⟩ := hb
  exact ⟨a' ++ b', S.append hLa hLb, h hP hQ⟩

-- In each case the kind of the pattern decides which rule the counterpart ends with; the parts are
-- carried over first, and their taps put together in the same order.
mutual

/-- A derivation of the one grammar has its counterpart in the other. -/
theorem carry (S : Simulation rules rules' R T L) {p p' : Pattern} {scope scope' : Scope}
    {text : List Char} {out : Outcome Value} {taps : List Tap} :
    Matches rules p scope text out taps → R p p' → Scopes rules rules' R T L scope scope' →
      T text → Counterpart L taps (Matches rules' p' scope' text out)
  | .token hskip hr, hR, hs, ht => S.of_node hR fun q hn =>
    (S.carry_skips hskip hs ht).imp fun _ hskip => .token hskip ((hn.read?_eq _).trans hr)
  | .pass, hR, _, _ => S.of_node hR fun q hn => by
    cases hn
    exact ⟨[], S.nil, .pass⟩
  | .fail, hR, _, _ => S.of_node hR fun q hn => by
    cases hn
    exact ⟨[], S.nil, .fail⟩
  | .sequence h, hR, hs, ht => S.of_node hR fun q hn => by
    obtain ⟨qs, rfl, hparts⟩ := hn.of_sequence
    exact (S.carry_all h hparts hs ht).imp fun _ => .sequence
  | .alternative h, hR, hs, ht => S.of_node hR fun q hn => by
    obtain ⟨qs, rfl, hbranches⟩ := hn.of_alternative
    exact (S.carry_first h hbranches hs ht).imp fun _ => .alternative
  | .repetition h, hR, hs, ht => S.of_node hR fun q hn => by
    cases hn with
    | leaf hl => cases hl
    | repetition hp =>
      rw [S.shape hp]
      exact (S.carry_rounds h hp hs ht).imp fun _ => .repetition
  | .optional_some h, hR, hs, ht => S.of_node hR fun q hn => by
    cases hn with
    | leaf hl => cases hl
    | optional hp => exact (S.carry h hp hs ht).imp fun _ => .optional_some
  | .optional_none h, hR, hs, ht => S.of_node hR fun q hn => by
    cases hn with
    | leaf hl => cases hl
    | optional hp => exact (S.carry h hp hs ht).imp fun _ => .optional_none
  | .list_none h, hR, hs, ht => S.of_node hR fun q hn => by
    cases hn with
    | leaf hl => cases hl
    | list hp hq =>
      rw [S.shape hp]
      exact (S.carry h hp hs ht).imp fun _ => .list_none
  | .list_some h hpairs, hR, hs, ht => S.of_node hR fun q hn => by
    cases hn with
    | leaf hl => cases hl
    | list hp hq =>
      rw [S.shape hp]
      have hrest := S.rest ht h.within
      exact S.both (S.carry h hp hs ht) (S.carry_pairs hpairs hp hq hs hrest) .list_some
  | .except_excluded h, hR, hs, ht => S.of_node hR fun q hn => by
    cases hn with
    | leaf hl => cases hl
    | except _ he => exact (S.carry h he hs ht).imp fun _ => .except_excluded
  | .except_operand h h', hR, hs, ht => S.of_node hR fun q hn => by
    cases hn with
    | leaf hl => cases hl
    | except hp he => exact S.both (S.carry h he hs ht) (S.carry h' hp hs ht) .except_operand
  | .not_matched h, hR, hs, ht => S.of_node hR fun q hn => by
    cases hn with
    | leaf hl => cases hl
    | not hp => exact (S.carry h hp hs ht).imp fun _ => .not_matched
  | .not_failed h, hR, hs, ht => S.of_node hR fun q hn => by
    cases hn with
    | leaf hl => cases hl
    | not hp => exact (S.carry h hp hs ht).imp fun _ => .not_failed
  | .discard h, hR, hs, ht => S.of_node hR fun q hn => by
    cases hn with
    | leaf hl => cases hl
    | discard hp => exact (S.carry h hp hs ht).imp fun _ => .discard
  | .map h, hR, hs, ht => S.of_node hR fun q hn => by
    cases hn with
    | leaf hl => cases hl
    | map hp => exact (S.carry h hp hs ht).imp fun _ => .map
  | .tap_matched h, hR, hs, ht => S.of_node hR fun q hn => by
    cases hn with
    | leaf hl => cases hl
    | tap hp =>
      refine S.both (S.carry h hp hs ht) ⟨_, S.tap _, rfl⟩ fun hm ht => ?_
      subst ht
      exact .tap_matched hm
  | .tap_failed h, hR, hs, ht => S.of_node hR fun q hn => by
    cases hn with
    | leaf hl => cases hl
    | tap hp => exact (S.carry h hp hs ht).imp fun _ => .tap_failed
  | .lexeme hskip h, hR, hs, ht => S.of_node hR fun q hn => by
    cases hn with
    | leaf hl => cases hl
    | lexeme hp =>
      have hrest := S.rest ht hskip.within
      exact S.both (S.carry_skips hskip hs ht) (S.carry h hp S.scopes_none hrest) .lexeme
  | .skipping h, hR, _, ht => S.of_node hR fun q hn => by
    cases hn with
    | leaf hl => cases hl
    | skipping hp hk => exact (S.carry h hp (.skipper hk) ht).imp fun _ => .skipping
  | .rule hd h, hR, hs, ht => S.of_node hR fun q hn => by
    cases hn
    obtain ⟨d', hd', hR'⟩ := S.definition hd
    exact (S.carry h hR' hs ht).imp fun _ => .rule hd'

theorem carry_skips (S : Simulation rules rules' R T L) {scope scope' : Scope}
    {text text' : List Char} {taps : List Tap} : Skips rules scope text text' taps →
      Scopes rules rules' R T L scope scope' → T text →
      Counterpart L taps (Skips rules' scope' text text')
  | h, .passing hp, ht => hp ht h
  | .failed h, .skipper hk, ht => (S.carry h hk S.scopes_none ht).imp fun _ => .failed
  | .idle h, .skipper hk, ht => (S.carry h hk S.scopes_none ht).imp fun _ => .idle
  | .more h hne hskip, .skipper hk, ht =>
    S.both (S.carry h hk S.scopes_none ht) (S.carry_skips hskip (.skipper hk) (S.rest ht h.within))
      fun h hskip => .more h hne hskip

theorem carry_all (S : Simulation rules rules' R T L) {ps qs : List Pattern} {scope scope' : Scope}
    {text : List Char} {out : Outcome (List Value)} {taps : List Tap} :
    MatchesAll rules ps scope text out taps → List.Forall₂ R ps qs →
      Scopes rules rules' R T L scope scope' → T text →
      Counterpart L taps (MatchesAll rules' qs scope' text out)
  | .nil, .nil, _, _ => ⟨[], S.nil, .nil⟩
  | .failed h, .cons hp _, hs, ht => (S.carry h hp hs ht).imp fun _ => .failed
  | .cons h hall, .cons hp hps, hs, ht => by
    rw [Pattern.keep_congr (S.shape hp)]
    exact S.both (S.carry h hp hs ht) (S.carry_all hall hps hs (S.rest ht h.within)) .cons

theorem carry_first (S : Simulation rules rules' R T L) {ps qs : List Pattern}
    {scope scope' : Scope} {text : List Char} {out : Outcome Value} {taps : List Tap} :
    MatchesFirst rules ps scope text out taps → List.Forall₂ R ps qs →
      Scopes rules rules' R T L scope scope' → T text →
      Counterpart L taps (MatchesFirst rules' qs scope' text out)
  | .nil, .nil, _, _ => ⟨[], S.nil, .nil⟩
  | .matched h, .cons hp _, hs, ht => (S.carry h hp hs ht).imp fun _ => .matched
  | .failed h hfirst, .cons hp hps, hs, ht =>
    S.both (S.carry h hp hs ht) (S.carry_first hfirst hps hs ht) .failed

theorem carry_rounds (S : Simulation rules rules' R T L) {p q : Pattern} {bounds : Bounds}
    {scope scope' : Scope} {count : Nat} {text : List Char} {out : Outcome (List Value)}
    {taps : List Tap} : Rounds rules p bounds scope count text out taps → R p q →
      Scopes rules rules' R T L scope scope' → T text →
      Counterpart L taps (Rounds rules' q bounds scope' count text out)
  | .full hb, _, _, _ => ⟨[], S.nil, .full hb⟩
  | .enough hb h hc, hp, hs, ht => (S.carry h hp hs ht).imp fun _ h => .enough hb h hc
  | .short hb h hc, hp, hs, ht => (S.carry h hp hs ht).imp fun _ h => .short hb h hc
  | .idle hb h, hp, hs, ht => (S.carry h hp hs ht).imp fun _ => .idle hb
  | .round hb h hne hrounds, hp, hs, ht =>
    S.both (S.carry h hp hs ht) (S.carry_rounds hrounds hp hs (S.rest ht h.within))
      fun h hrounds => .round hb h hne hrounds

theorem carry_pairs (S : Simulation rules rules' R T L) {p p' q q' : Pattern} {scope scope' : Scope}
    {text rest : List Char} {vs : List Value} {taps : List Tap} :
    Pairs rules p q scope text vs rest taps → R p p' → R q q' →
      Scopes rules rules' R T L scope scope' → T text →
      Counterpart L taps (Pairs rules' p' q' scope' text vs rest)
  | .separator_failed h, _, hq, hs, ht => (S.carry h hq hs ht).imp fun _ => .separator_failed
  | .element_failed h h', hp, hq, hs, ht =>
    S.both (S.carry h hq hs ht) (S.carry h' hp hs (S.rest ht h.within)) .element_failed
  | .idle h h', hp, hq, hs, ht =>
    S.both (S.carry h hq hs ht) (S.carry h' hp hs (S.rest ht h.within)) .idle
  | .pair h h' hne hpairs, hp, hq, hs, ht => by
    have ht₁ := S.rest ht h.within
    obtain ⟨a, hLa, ha⟩ := S.carry h hq hs ht
    obtain ⟨b, hLb, hb⟩ := S.carry h' hp hs ht₁
    obtain ⟨c, hLc, hc⟩ := S.carry_pairs hpairs hp hq hs (S.rest ht₁ h'.within)
    exact ⟨a ++ b ++ c, S.append (S.append hLa hLb) hLc, .pair ha hb hne hc⟩

end

end Simulation

end PegStream
