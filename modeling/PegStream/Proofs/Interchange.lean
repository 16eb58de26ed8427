import PegStream.Proofs.Lists
import PegStream.Proofs.Simulation

/-!
# Derived forms

An optional pattern can be written as a choice between the pattern and nothing, and an exception as
a sequence that looks ahead for what is excluded. Machines run the two spellings in different ways,
and no grammar can tell them apart:

* `matches_alternative_pass_iff`, `matches_sequence_not_iff`: the spellings match alike;
* `Pattern.Interchanged`: one spelling is exchanged for the other, at any places of a pattern;
* `matches_of_interchanged`: derivations carry over, with the definitions of the rules exchanged as
  well;
* `derived_forms_interchangeable`: so do the answers and the taps of a whole grammar.
-/

namespace PegStream

open Machine
open Pattern (SameNode)

variable {rules rules' : RuleBook} {p p' q q' : Pattern} {scope : Scope} {text : List Char}
  {out : Outcome Value} {taps : List Tap}

/-! ## The spellings -/

namespace Pattern

theorem shape_alternative_pass (p : Pattern) : (alternative [p, .pass]).shape = p.shape := by
  simp only [shape, alternativeShape]
  cases p.shape <;> rfl

theorem shape_sequence_not (p q : Pattern) : (sequence [.not q, p]).shape = p.shape := by
  simp only [shape, sequenceShape]
  cases p.shape <;> rfl

end Pattern

theorem matches_pass_iff :
    Matches rules .pass scope text out taps ↔ out = .matched .nil text ∧ taps = [] := by
  constructor
  · intro h
    cases h with
    | token _ hr => cases hr
    | pass => exact ⟨rfl, rfl⟩
  · rintro ⟨rfl, rfl⟩
    exact .pass

theorem matches_not_iff : Matches rules (.not p) scope text out taps ↔
    Matches rules p scope text .failed taps ∧ out = .matched .nil text ∨
    ∃ v rest, Matches rules p scope text (.matched v rest) taps ∧ out = .failed := by
  constructor
  · intro h
    cases h with
    | token _ hr => cases hr
    | not_matched h => exact .inr ⟨_, _, h, rfl⟩
    | not_failed h => exact .inl ⟨h, rfl⟩
  · rintro (⟨h, rfl⟩ | ⟨v, rest, h, rfl⟩)
    · exact .not_failed h
    · exact .not_matched h

theorem matches_except_iff : Matches rules (.except p q) scope text out taps ↔
    (∃ v rest, Matches rules q scope text (.matched v rest) taps ∧ out = .failed) ∨
    ∃ taps₁ taps₂, Matches rules q scope text .failed taps₁ ∧ Matches rules p scope text out taps₂ ∧
      taps = taps₁ ++ taps₂ := by
  constructor
  · intro h
    cases h with
    | token _ hr => cases hr
    | except_excluded h => exact .inl ⟨_, _, h, rfl⟩
    | except_operand h h' => exact .inr ⟨_, _, h, h', rfl⟩
  · rintro (⟨v, rest, h, rfl⟩ | ⟨taps₁, taps₂, h, h', rfl⟩)
    · exact .except_excluded h
    · exact .except_operand h h'

/-- A choice between a pattern and nothing is the optional pattern. -/
theorem matches_alternative_pass_iff : Matches rules (.alternative [p, .pass]) scope text out taps ↔
    Matches rules (.optional p) scope text out taps := by
  rw [matches_optional_iff]
  constructor
  · intro h
    cases h.of_alternative with
    | matched hp => exact .inr ⟨_, _, hp, rfl⟩
    | failed hp hs =>
      cases hs with
      | matched hpass =>
        obtain ⟨ho, rfl⟩ := matches_pass_iff.1 hpass
        rw [List.append_nil]
        exact .inl ⟨hp, ho⟩
      | failed hpass => cases (matches_pass_iff.1 hpass).1
  · rintro (⟨h, rfl⟩ | ⟨v, rest, h, rfl⟩)
    · rw [← List.append_nil taps]
      exact .alternative (.failed h (.matched .pass))
    · exact .alternative (.matched h)

/-- A pattern behind a look ahead is an exception. -/
theorem matches_sequence_not_iff : Matches rules (.sequence [.not q, p]) scope text out taps ↔
    Matches rules (.except p q) scope text out taps := by
  -- The look ahead keeps no value, so the sequence has the one of the pattern behind it.
  have hkeep (v : Value) : (Pattern.not q).keep v = [] := rfl
  rw [matches_pair_iff, matches_except_iff]
  constructor
  · rintro (⟨h, rfl⟩ | ⟨v, text₁, out', taps₁, taps₂, h, h', rfl, rfl⟩)
    · rcases matches_not_iff.1 h with ⟨-, ho⟩ | hq
      · cases ho
      · exact .inl hq
    · rcases matches_not_iff.1 h with ⟨hq, ho⟩ | ⟨w, rest, -, ho⟩
      · cases ho
        simp only [hkeep, List.nil_append, h'.map_keep]
        exact .inr ⟨taps₁, taps₂, hq, h', rfl⟩
      · cases ho
  · rintro (⟨v, rest, h, rfl⟩ | ⟨taps₁, taps₂, h, h', rfl⟩)
    · exact .inl ⟨.not_matched h, rfl⟩
    · refine .inr ⟨.nil, text, out, taps₁, taps₂, .not_failed h, h', ?_, rfl⟩
      simp only [hkeep, List.nil_append, h'.map_keep]

/-! ## Exchanging them -/

/-- The patterns differ in the spelling of optional patterns and of exceptions, at any places
inside, and in nothing else. -/
inductive Pattern.Interchanged : Pattern → Pattern → Prop
  | node {p q : Pattern} : SameNode Interchanged p q → Interchanged p q
  | optional_alternative {p q : Pattern} : Interchanged p q →
    Interchanged (.optional p) (.alternative [q, .pass])
  | alternative_optional {p q : Pattern} : Interchanged p q →
    Interchanged (.alternative [p, .pass]) (.optional q)
  | except_sequence {p q e f : Pattern} : Interchanged p q → Interchanged e f →
    Interchanged (.except p e) (.sequence [.not f, q])
  | sequence_except {p q e f : Pattern} : Interchanged p q → Interchanged e f →
    Interchanged (.sequence [.not e, p]) (.except q f)

namespace Pattern

theorem Interchanged.refl (p : Pattern) : Interchanged p p :=
  .node (.of_children fun q _ => refl q)
termination_by p.size
decreasing_by
  rename_i hq
  have := size_le_sizes hq
  rw [size_eq p]
  omega

mutual

theorem Interchanged.symm {p q : Pattern} : Interchanged p q → Interchanged q p
  | .node h => .node (SameNode.interchanged_symm h)
  | .optional_alternative h => .alternative_optional (Interchanged.symm h)
  | .alternative_optional h => .optional_alternative (Interchanged.symm h)
  | .except_sequence h h' => .sequence_except (Interchanged.symm h) (Interchanged.symm h')
  | .sequence_except h h' => .except_sequence (Interchanged.symm h) (Interchanged.symm h')

theorem SameNode.interchanged_symm {p q : Pattern} :
    SameNode Interchanged p q → SameNode Interchanged q p
  | .leaf h => .leaf h
  | .sequence hs => .sequence (forall₂_symm hs)
  | .alternative hs => .alternative (forall₂_symm hs)
  | .repetition h => .repetition (Interchanged.symm h)
  | .optional h => .optional (Interchanged.symm h)
  | .list h h' => .list (Interchanged.symm h) (Interchanged.symm h')
  | .except h h' => .except (Interchanged.symm h) (Interchanged.symm h')
  | .not h => .not (Interchanged.symm h)
  | .discard h => .discard (Interchanged.symm h)
  | .map h => .map (Interchanged.symm h)
  | .tap h => .tap (Interchanged.symm h)
  | .lexeme h => .lexeme (Interchanged.symm h)
  | .skipping h h' => .skipping (Interchanged.symm h) (Interchanged.symm h')

theorem forall₂_symm {ps qs : List Pattern} :
    List.Forall₂ Interchanged ps qs → List.Forall₂ Interchanged qs ps
  | .nil => .nil
  | .cons h hs => .cons (Interchanged.symm h) (forall₂_symm hs)

end

mutual

/-- Exchanged spellings keep the shape, which a sequence and a repetition around them go by. -/
theorem Interchanged.shape {p q : Pattern} : Interchanged p q → p.shape = q.shape
  | .node h => SameNode.interchanged_shape h
  | .optional_alternative h => (Interchanged.shape h).trans (shape_alternative_pass _).symm
  | .alternative_optional h => by
    have hp := Interchanged.shape h
    exact (shape_alternative_pass _).trans hp
  | .except_sequence h _ => (Interchanged.shape h).trans (shape_sequence_not _ _).symm
  | .sequence_except h _ => by
    have hp := Interchanged.shape h
    exact (shape_sequence_not _ _).trans hp

theorem SameNode.interchanged_shape {p q : Pattern} :
    SameNode Interchanged p q → p.shape = q.shape
  | .leaf _ | .not _ | .discard _ | .map _ | .tap _ => rfl
  | .sequence hs => (forall₂_shape hs).1
  | .alternative hs => (forall₂_shape hs).2
  | .repetition h | .optional h | .list h _ | .except h _ | .lexeme h | .skipping h _ => by
    have hp := Interchanged.shape h
    exact hp

theorem forall₂_shape {ps qs : List Pattern} : List.Forall₂ Interchanged ps qs →
    sequenceShape ps = sequenceShape qs ∧ alternativeShape ps = alternativeShape qs
  | .nil => ⟨rfl, rfl⟩
  | .cons h hs => by
    obtain ⟨hsequence, halternative⟩ := forall₂_shape hs
    simp only [sequenceShape, alternativeShape, Interchanged.shape h, hsequence, halternative,
      and_self]

end

end Pattern

open Pattern (Interchanged)

/-! ## Rules -/

/-- The same rule, with spellings exchanged in its definition. -/
structure RuleCell.Interchanged (c c' : RuleCell) : Prop where
  id : c.id = c'.id
  name : c.name = c'.name
  definition : Option.Rel Pattern.Interchanged c.definition c'.definition

/-- The same rules, with spellings exchanged in their definitions. -/
def RuleBook.Interchanged (rules rules' : RuleBook) : Prop :=
  List.Forall₂ RuleCell.Interchanged rules.cells rules'.cells

namespace RuleBook

theorem Interchanged.symm (h : rules.Interchanged rules') : rules'.Interchanged rules := by
  refine List.Forall₂.flip (List.Forall₂.imp (fun c c' hc => ?_) h)
  obtain ⟨id, name, d⟩ := c
  obtain ⟨id', name', d'⟩ := c'
  obtain ⟨rfl, rfl, hd⟩ := hc
  refine ⟨rfl, rfl, ?_⟩
  cases hd with
  | none => exact .none
  | some hd => exact .some hd.symm

theorem Interchanged.find? (h : rules.Interchanged rules') {id : Nat} {c : RuleCell}
    (hc : rules.find? id = some c) : ∃ c', rules'.find? id = some c' ∧ c.Interchanged c' := by
  unfold RuleBook.find? at hc ⊢
  unfold RuleBook.Interchanged at h
  generalize rules.cells = cells at h hc
  generalize rules'.cells = cells' at h
  induction h with
  | nil => cases hc
  | @cons a b as bs hab _ ih =>
    rw [List.find?_cons] at hc ⊢
    rw [← hab.id]
    split at hc
    · cases hc
      exact ⟨b, rfl, hab⟩
    · exact ih hc

theorem Interchanged.resolve (h : rules.Interchanged rules') {ref : RuleRef} {d : Pattern}
    (hd : rules.resolve ref = .ok d) :
    ∃ d', rules'.resolve ref = .ok d' ∧ d.Interchanged d' := by
  obtain ⟨c, hc, hdc⟩ := defined_of_resolve hd
  obtain ⟨c', hc', hcells⟩ := h.find? hc
  have hrel := hcells.definition
  rw [hdc] at hrel
  generalize hd' : c'.definition = definition at hrel
  cases hrel with
  | some hdd => exact ⟨_, Defined.resolve ⟨c', hc', hd'⟩, hdd⟩

/-- What stands in a grammar for patterns of the set `S` of another: these patterns with spellings
exchanged, and the parts that only one of the spellings has. -/
inductive Stands (S : Pattern → Prop) : Pattern → Prop
  | interchanged {p p' : Pattern} : S p → p.Interchanged p' → Stands S p'
  | not {p p' : Pattern} : S p → p.Interchanged p' → Stands S (.not p')
  | pass : Stands S .pass

theorem Closed.stands {S : Pattern → Prop} (h : rules.Closed S) (hb : rules.Interchanged rules') :
    rules'.Closed (Stands S) where
  child hp hq := by
    cases hp with
    | not hS hp =>
      obtain rfl := List.mem_singleton.1 hq
      exact .interchanged hS hp
    | pass => cases hq
    | interchanged hS hp =>
      cases hp with
      | node hn =>
        obtain ⟨r, hr, hR⟩ := hn.exists_child hq
        exact .interchanged (h.child hS hr) hR
      | optional_alternative hp =>
        rcases List.mem_pair.1 hq with rfl | rfl
        · exact .interchanged (h.child hS List.mem_cons_self) hp
        · exact .pass
      | alternative_optional hp =>
        obtain rfl := List.mem_singleton.1 hq
        exact .interchanged (h.child hS List.mem_cons_self) hp
      | except_sequence hp he =>
        rcases List.mem_pair.1 hq with rfl | rfl
        · exact .not (h.child hS (List.mem_cons_of_mem _ List.mem_cons_self)) he
        · exact .interchanged (h.child hS List.mem_cons_self) hp
      | sequence_except hp he =>
        rcases List.mem_pair.1 hq with rfl | rfl
        · exact .interchanged (h.child hS (List.mem_cons_of_mem _ List.mem_cons_self)) hp
        · have hnot := h.child hS List.mem_cons_self
          exact .interchanged (h.child hnot List.mem_cons_self) he
  definition hp := by
    cases hp with
    | interchanged hS hp =>
      cases hp with
      | node hn =>
        cases hn
        obtain ⟨d, hd, hSd⟩ := h.definition hS
        obtain ⟨d', hd', hdd⟩ := hb.resolve hd
        exact ⟨d', hd', .interchanged hSd hdd⟩

/-- The rules of a grammar can be collected in both spellings, or in none. -/
theorem Interchanged.collect (hb : rules.Interchanged rules') (hp : p.Interchanged p')
    (h : ∃ held, rules.collect p = .ok held) : ∃ held, rules'.collect p' = .ok held := by
  have hclosed := (collect_ok_iff.1 h).stands hb
  exact visit_of_closed hclosed (by simpa using .interchanged .root hp)

end RuleBook

/-! ## Grammars -/

/-- Exchanged spellings correspond, with the same taps. -/
theorem simulation_of_interchanged (hb : rules.Interchanged rules') :
    Simulation rules rules' Interchanged (fun _ => True) Eq where
  node hp := by
    cases hp with
    | node hn => exact ⟨_, hn, id⟩
    | optional_alternative h => exact ⟨_, .optional h, matches_alternative_pass_iff.2⟩
    | alternative_optional h =>
      exact ⟨_, .alternative (.cons h (.cons (.refl _) .nil)), matches_alternative_pass_iff.1⟩
    | except_sequence h he => exact ⟨_, .except h he, matches_sequence_not_iff.2⟩
    | sequence_except h he =>
      exact ⟨_, .sequence (.cons (.node (.not he)) (.cons h .nil)), matches_sequence_not_iff.1⟩
  shape := Interchanged.shape
  definition := hb.resolve
  rest ht _ := ht
  nil := rfl
  tap _ := rfl
  append ha hb := by rw [ha, hb]

/-- What a grammar makes of a text, it makes of it with spellings exchanged. -/
theorem matches_of_interchanged (hb : rules.Interchanged rules') (hp : p.Interchanged p')
    (h : Matches rules p none text out taps) : Matches rules' p' none text out taps := by
  have S := simulation_of_interchanged hb
  obtain ⟨taps', rfl, h'⟩ := S.carry h hp S.scopes_none trivial
  exact h'

theorem returns_of_interchanged {input : String} (hb : rules.Interchanged rules')
    (hp : p.Interchanged p') (h : Returns (parsePrefix rules · p input) ⟨out.answer, taps⟩) :
    Returns (parsePrefix rules' · p' input) ⟨out.answer, taps⟩ := by
  obtain ⟨hc, hm⟩ := returns_parsePrefix_iff.1 h
  exact returns_parsePrefix_iff.2 ⟨hb.collect hp hc, matches_of_interchanged hb hp hm⟩

/-- The two spellings of an optional pattern and of an exception are interchangeable. They have the
same shape, and a grammar in which one is exchanged for the other, in the pattern and in the
definitions of the rules, gives every text the same answer with the same taps. If a rule within
reach has no definition then both grammars are refused, though not always with the name of the same
rule: the two spellings of an exception mention what is excluded in different places. -/
theorem derived_forms_interchangeable :
    (∀ p : Pattern, (Pattern.optional p).isSilent = (Pattern.alternative [p, .pass]).isSilent ∧
      (Pattern.optional p).isText = (Pattern.alternative [p, .pass]).isText) ∧
    (∀ p q : Pattern, (Pattern.except p q).isSilent = (Pattern.sequence [.not q, p]).isSilent ∧
      (Pattern.except p q).isText = (Pattern.sequence [.not q, p]).isText) ∧
    ∀ (rules rules' : RuleBook) (p p' : Pattern), rules.Interchanged rules' → p.Interchanged p' →
      ∀ input : String,
        (∀ (out : Outcome Value) (taps : List Tap),
          Returns (parsePrefix rules · p input) ⟨out.answer, taps⟩ ↔
            Returns (parsePrefix rules' · p' input) ⟨out.answer, taps⟩) ∧
        ((∃ name, ∀ fuel, (parsePrefix rules fuel p input).outcome =
            .error (.error (.unboundRule name))) ↔
          ∃ name, ∀ fuel, (parsePrefix rules' fuel p' input).outcome =
            .error (.error (.unboundRule name))) := by
  refine ⟨fun p => ?_, fun p q => ?_, fun rules rules' p p' hb hp input => ⟨fun out taps => ?_, ?_⟩⟩
  · rw [Pattern.isSilent, Pattern.isSilent, Pattern.isText, Pattern.isText,
      Pattern.shape_alternative_pass]
    exact ⟨rfl, rfl⟩
  · rw [Pattern.isSilent, Pattern.isSilent, Pattern.isText, Pattern.isText,
      Pattern.shape_sequence_not]
    exact ⟨rfl, rfl⟩
  · exact ⟨returns_of_interchanged hb hp, returns_of_interchanged hb.symm hp.symm⟩
  · rw [refused_iff, refused_iff, not_iff_not]
    exact ⟨hb.collect hp, hb.symm.collect hp.symm⟩

/-! ## A grammar in two spellings

Letters with semicolons between them, by a rule that refers to itself in an optional part. -/

namespace Letters

def ref : RuleRef := ⟨0, "letters"⟩

def semicolon : Pattern := .tap (.exactly ';') "semicolon"

/-- A letter, and others behind a semicolon. -/
def body : Pattern :=
  .sequence [.except .any (.literal ";"), .optional (.sequence [semicolon, .rule ref])]

def body' : Pattern :=
  .sequence [.sequence [.not (.literal ";"), .any],
    .alternative [.sequence [semicolon, .rule ref], .pass]]

def book : RuleBook := { cells := [⟨0, "letters", some body⟩], next := 1 }

def book' : RuleBook := { cells := [⟨0, "letters", some body'⟩], next := 1 }

theorem interchanged_book : book.Interchanged book' := by
  have hbody : body.Interchanged body' := .node (.sequence
    (.cons (.except_sequence (.refl _) (.refl _)) (.cons (.optional_alternative (.refl _)) .nil)))
  exact .cons ⟨rfl, rfl, .some hbody⟩ .nil

theorem collect_eq : book.collect (.rule ref) = .ok [0] := by
  have hfind : book.find? 0 = some ⟨0, "letters", some body⟩ := rfl
  have hbody : book.visit [body] [0] = .ok [0] := by
    simp [body, semicolon, RuleBook.visit_other, RuleBook.visit_rule, RuleBook.visit_nil,
      Pattern.children, Pattern.exactly, Pattern.any, ref, hfind]
  rw [RuleBook.collect, RuleBook.visit_rule]
  exact hbody

theorem matches_letters : Matches book (.rule ref) none ['a', ';', 'b']
    (.matched (.tuple [.char 'a', .tuple [.char 'b', .nil]]) []) [⟨"semicolon", .char ';'⟩] := by
  have hsemicolon : Matches book semicolon none [';', 'b'] (.matched .nil ['b'])
      [⟨"semicolon", .char ';'⟩] := .tap_matched (.token .none rfl)
  have hend : Matches book semicolon none [] .failed [] := .tap_failed (.token .none rfl)
  have ha : Matches book (.except .any (.literal ";")) none ['a', ';', 'b']
      (.matched (.char 'a') [';', 'b']) [] := .except_operand (.token .none rfl) (.token .none rfl)
  have hb : Matches book (.except .any (.literal ";")) none ['b'] (.matched (.char 'b') []) [] :=
    .except_operand (.token .none rfl) (.token .none rfl)
  have hlast : Matches book (.rule ref) none ['b'] (.matched (.tuple [.char 'b', .nil]) []) [] :=
    .rule rfl (.sequence (.cons hb (.cons (.optional_none (.sequence (.failed hend))) .nil)))
  exact .rule rfl (.sequence (.cons ha
    (.cons (.optional_some (.sequence (.cons hsemicolon (.cons hlast .nil)))) .nil)))

end Letters

theorem derived_forms_interchangeable_letters :
    Returns (parsePrefix Letters.book' · (.rule Letters.ref) "a;b")
      ⟨.ok (.tuple [.char 'a', .tuple [.char 'b', .nil]], ""), [⟨"semicolon", .char ';'⟩]⟩ := by
  have halike := derived_forms_interchangeable.2.2 Letters.book Letters.book' (.rule Letters.ref)
    (.rule Letters.ref) Letters.interchanged_book (.refl _) "a;b"
  exact (halike.1 (.matched (.tuple [.char 'a', .tuple [.char 'b', .nil]]) []) _).1
    (returns_parsePrefix_iff.2 ⟨⟨[0], Letters.collect_eq⟩, Letters.matches_letters⟩)

end PegStream
