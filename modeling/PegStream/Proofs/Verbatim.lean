import PegStream.Proofs.Complete
import PegStream.Proofs.Shapes

/-!
# Values that keep their text

A pattern that is put together from single characters, without literals, integers, symbols, lists
and functions of values, keeps every character that it reads. Whatever its value looks like, with
tuples, lists and strings inside one another and silent parts left out, the characters in it from
left to right are the text that was read (`text_kept`).

The patterns of this kind are given by `Pattern.Verbatim`. What such a pattern looks ahead for or
excludes may be anything. Its rules may refer to one another as they like, if only all of their
definitions are of this kind; hence the induction is on the derivation.
-/

namespace PegStream

/-! ## Spellings -/

namespace Value

variable {v w : Value} {vs ws : List Value} {cs ds : List Char}

/-- The text of the value is `cs`, behind whatever was there before. -/
def Spells (v : Value) (cs : List Char) : Prop :=
  ∀ out : String, v.appendText out = some (out ++ String.ofList cs)

/-- The texts of the values, from left to right, make up the characters. -/
inductive SpellAll : List Value → List Char → Prop
  | nil : SpellAll [] []
  | cons {v : Value} {vs : List Value} {cs ds : List Char} : v.Spells cs → SpellAll vs ds →
    SpellAll (v :: vs) (cs ++ ds)

theorem spells_nil : Value.nil.Spells [] := fun out => by
  simp [appendText]

theorem spells_char (c : Char) : (Value.char c).Spells [c] := fun out => by
  simp [appendText]

theorem Spells.text? (h : v.Spells cs) : v.text? = some (String.ofList cs) := by
  rw [Value.text?, h, String.empty_append]

theorem Spells.eq_nil (h : Value.nil.Spells cs) : cs = [] := by
  simpa [appendText] using h ""

namespace SpellAll

theorem singleton (h : v.Spells cs) : SpellAll [v] cs := by
  rw [← List.append_nil cs]
  exact .cons h .nil

theorem append (h : SpellAll vs cs) (h' : SpellAll ws ds) : SpellAll (vs ++ ws) (cs ++ ds) := by
  induction h with
  | nil => exact h'
  | cons hv _ ih =>
    rw [List.append_assoc]
    exact .cons hv ih

theorem appendTexts (h : SpellAll vs cs) (out : String) :
    Value.appendTexts vs out = some (out ++ String.ofList cs) := by
  induction h generalizing out with
  | nil => simp [Value.appendTexts]
  | cons hv _ ih => simp [Value.appendTexts, hv out, ih, String.append_assoc]

theorem ofParts (h : SpellAll vs cs) : (Value.ofParts vs).Spells cs := by
  match vs with
  | [] =>
    cases h
    exact spells_nil
  | [v] =>
    cases h with
    | cons hv hnil =>
      cases hnil
      rwa [List.append_nil]
  | _ :: _ :: _ => exact h.appendTexts

theorem join (h : SpellAll vs cs) : String.join (vs.filterMap Value.text?) = String.ofList cs := by
  induction h with
  | nil => rfl
  | cons hv _ ih => simp [hv.text?, ih]

theorem eq_nil (h : SpellAll vs cs) (hvs : ∀ v ∈ vs, v = .nil) : cs = [] := by
  induction h with
  | nil => rfl
  | cons hv _ ih =>
    rw [List.forall_mem_cons] at hvs
    obtain ⟨rfl, hvs⟩ := hvs
    rw [hv.eq_nil, ih hvs, List.append_nil]

/-- A sequence leaves out the value of a silent part, which has no text. -/
theorem keep {p : Pattern} (h : v.Spells cs) (hv : v.Fits p.shape) : SpellAll (p.keep v) cs := by
  unfold Pattern.keep Pattern.isSilent
  cases hs : p.shape with
  | silent =>
    rw [hs] at hv
    obtain rfl := (singleton h).eq_nil (List.forall_mem_singleton.2 hv)
    exact .nil
  | text | other => exact .singleton h

/-- However the values of rounds are gathered, their texts stay. -/
theorem gather {shape : Shape} (h : SpellAll vs cs) (hvs : ∀ v ∈ vs, v.Fits shape) :
    (shape.gather vs).Spells cs := by
  cases shape with
  | silent =>
    obtain rfl := h.eq_nil hvs
    exact spells_nil
  | text =>
    intro out
    rw [Shape.gather, h.join, appendText]
  | other => exact h.appendTexts

end SpellAll

end Value

open Value (SpellAll)

/-- The value of a match spells what was read. -/
def Outcome.Spells (text : List Char) : Outcome Value → Prop
  | .matched v rest => ∃ cs, v.Spells cs ∧ text = cs ++ rest
  | .failed => True

/-- The values of several matches in a row spell what was read. -/
def Outcome.SpellsAll (text : List Char) : Outcome (List Value) → Prop
  | .matched vs rest => ∃ cs, SpellAll vs cs ∧ text = cs ++ rest
  | .failed => True

namespace Outcome

variable {text rest : List Char} {vs : List Value} {outs : Outcome (List Value)}

theorem SpellsAll.prepend {ws : List Value} {cs : List Char} (h : SpellAll ws cs)
    (hs : outs.SpellsAll rest) : (outs.map (ws ++ ·)).SpellsAll (cs ++ rest) := by
  cases outs with
  | failed => trivial
  | matched vs rest' =>
    obtain ⟨ds, hvs, rfl⟩ := hs
    exact ⟨cs ++ ds, h.append hvs, (List.append_assoc ..).symm⟩

theorem SpellsAll.ofParts (h : outs.SpellsAll text) : (outs.map .ofParts).Spells text := by
  cases outs with
  | failed => trivial
  | matched vs rest =>
    obtain ⟨cs, hvs, rfl⟩ := h
    exact ⟨cs, hvs.ofParts, rfl⟩

end Outcome

/-! ## Patterns that keep what they read -/

/-- The pattern is made of single characters and keeps all of them, where the rules `ours` do. -/
inductive Pattern.Verbatim (ours : RuleRef → Prop) : Pattern → Prop
  | char {accepted : CharClass} : Verbatim ours (.char accepted)
  | endOfInput : Verbatim ours .endOfInput
  | pass : Verbatim ours .pass
  | fail : Verbatim ours .fail
  | not {p : Pattern} : Verbatim ours (.not p)
  | sequence {ps : List Pattern} : (∀ p ∈ ps, Verbatim ours p) → Verbatim ours (.sequence ps)
  | alternative {ps : List Pattern} : (∀ p ∈ ps, Verbatim ours p) → Verbatim ours (.alternative ps)
  | repetition {p : Pattern} {bounds : Bounds} : Verbatim ours p →
    Verbatim ours (.repetition p bounds)
  | optional {p : Pattern} : Verbatim ours p → Verbatim ours (.optional p)
  | except {p q : Pattern} : Verbatim ours p → Verbatim ours (.except p q)
  | lexeme {p : Pattern} : Verbatim ours p → Verbatim ours (.lexeme p)
  | rule {ref : RuleRef} : ours ref → Verbatim ours (.rule ref)

/-- The definitions of the rules `ours` keep what they read, where these rules do. -/
def RuleBook.Verbatim (rules : RuleBook) (ours : RuleRef → Prop) : Prop :=
  ∀ ref d, ours ref → rules.resolve ref = .ok d → d.Verbatim ours

section

variable {rules : RuleBook} {ours : RuleRef → Prop}

theorem Pattern.Verbatim.read?_spells {p : Pattern} {text : List Char} {out : Outcome Value}
    (hp : p.Verbatim ours) (h : p.read? text = some out) : out.Spells text := by
  cases hp with
  | @char accepted =>
    cases h
    unfold CharClass.read
    split
    · trivial
    · rename_i c cs
      split
      · exact ⟨[c], Value.spells_char c, rfl⟩
      · trivial
  | endOfInput =>
    cases h
    cases text with
    | nil => exact ⟨[], Value.spells_nil, rfl⟩
    | cons => trivial
  | _ => cases h

-- The scope stays a variable beside its equation: the induction is over derivations in any scope.
mutual

/-- The value of a match spells what was read, if nothing was skipped. -/
theorem Matches.spells (hr : rules.Verbatim ours) {p : Pattern} {scope : Scope} {text : List Char}
    {out : Outcome Value} {taps : List Tap} : Matches rules p scope text out taps →
      scope = none → p.Verbatim ours → out.Spells text
  | .token hskip hread, hs, hp => by
    subst hs
    cases hskip
    exact hp.read?_spells hread
  | .pass, _, _ | .not_failed _, _, _ | .optional_none _, _, _ => ⟨[], Value.spells_nil, rfl⟩
  | .fail, _, _ | .except_excluded _, _, _ | .not_matched _, _, _ => trivial
  | .sequence h, hs, .sequence hps => (MatchesAll.spells hr h hs hps).ofParts
  | .alternative h, hs, .alternative hps => MatchesFirst.spells hr h hs hps
  | @Matches.repetition _ p _ _ _ out _ h, hs, .repetition hp => by
    have hspells := Rounds.spells hr h hs hp
    cases out with
    | failed => trivial
    | matched vs rest =>
      obtain ⟨cs, hvs, rfl⟩ := hspells
      have hfits : ∀ v ∈ vs, v.Fits p.shape :=
        h.forall_values (fun _ _ _ _ hround => hround.fits) rfl
      exact ⟨cs, hvs.gather hfits, rfl⟩
  | .optional_some h, hs, .optional hp => Matches.spells hr h hs hp
  | .except_operand _ h, hs, .except hp => Matches.spells hr h hs hp
  | .lexeme hskip h, hs, .lexeme hp => by
    have hspells := Matches.spells hr h rfl hp
    subst hs
    cases hskip
    exact hspells
  | .rule hd h, hs, .rule hours => Matches.spells hr h hs (hr _ _ hours hd)

theorem MatchesAll.spells (hr : rules.Verbatim ours) {ps : List Pattern} {scope : Scope}
    {text : List Char} {out : Outcome (List Value)} {taps : List Tap} :
    MatchesAll rules ps scope text out taps → scope = none → (∀ p ∈ ps, p.Verbatim ours) →
      out.SpellsAll text
  | .nil, _, _ => ⟨[], .nil, rfl⟩
  | .failed _, _, _ => trivial
  | .cons h hs, hscope, hps => by
    rw [List.forall_mem_cons] at hps
    have hrest := MatchesAll.spells hr hs hscope hps.2
    obtain ⟨cs, hv, rfl⟩ := Matches.spells hr h hscope hps.1
    exact hrest.prepend (.keep hv h.fits)

theorem MatchesFirst.spells (hr : rules.Verbatim ours) {ps : List Pattern} {scope : Scope}
    {text : List Char} {out : Outcome Value} {taps : List Tap} :
    MatchesFirst rules ps scope text out taps → scope = none → (∀ p ∈ ps, p.Verbatim ours) →
      out.Spells text
  | .nil, _, _ => trivial
  | .matched h, hs, hps => Matches.spells hr h hs (hps _ List.mem_cons_self)
  | .failed _ h, hs, hps =>
    MatchesFirst.spells hr h hs fun p hp => hps p (List.mem_cons_of_mem _ hp)

theorem Rounds.spells (hr : rules.Verbatim ours) {p : Pattern} {bounds : Bounds} {scope : Scope}
    {count : Nat} {text : List Char} {out : Outcome (List Value)} {taps : List Tap} :
    Rounds rules p bounds scope count text out taps → scope = none → p.Verbatim ours →
      out.SpellsAll text
  | .full _, _, _ | .enough _ _ _, _, _ => ⟨[], .nil, rfl⟩
  | .short _ _ _, _, _ => trivial
  | .idle _ h, hs, hp => by
    obtain ⟨cs, hv, htext⟩ := Matches.spells hr h hs hp
    exact ⟨cs, .singleton hv, htext⟩
  | .round _ h _ hrounds, hs, hp => by
    have hrest := Rounds.spells hr hrounds hs hp
    obtain ⟨cs, hv, rfl⟩ := Matches.spells hr h hs hp
    exact hrest.prepend (.singleton hv)

end

end

/-- No text is lost, duplicated or moved. Where a pattern of this kind matches, its value has a
text, and the input is this text with the rest behind it. -/
theorem text_kept (rules : RuleBook) (ours : RuleRef → Prop) (hr : rules.Verbatim ours)
    (p : Pattern) (hp : p.Verbatim ours) (fuel : Nat) (input rest : String) (v : Value)
    (h : (parsePrefix rules fuel p input).outcome = .ok (v, rest)) :
    ∃ t : String, Target.read .text v = .ok t ∧ input = t ++ rest := by
  obtain ⟨taps, hm⟩ := matches_of_parsePrefix h
  obtain ⟨cs, hv, htext⟩ := hm.spells hr rfl hp
  have hread : Target.readText v = .ok (String.ofList cs) := by rw [Target.readText, hv.text?]
  refine ⟨String.ofList cs, hread, ?_⟩
  rw [← String.toList_inj, htext, String.toList_append, String.toList_ofList]

/-! ## Groups

Characters in brackets, with other groups among them. -/

namespace Groups

def ref : RuleRef := ⟨0, "group"⟩

/-- A character that closes no group, or a group. -/
def item : Pattern := .alternative [.rule ref, .except .any (.literal ")")]

def body : Pattern :=
  .lexeme (.sequence [.exactly '(', .many item, .exactly ')', .not (.literal "!")])

def book : RuleBook := { cells := [⟨0, "group", some body⟩], next := 1 }

theorem verbatim_rule : (Pattern.rule ref).Verbatim (· = ref) := .rule rfl

theorem verbatim_book : book.Verbatim (· = ref) := by
  rintro ref d rfl hd
  cases hd
  have hitem : item.Verbatim (· = ref) := .alternative (by
    simpa using ⟨verbatim_rule, .except .char⟩)
  refine .lexeme (.sequence ?_)
  simpa using ⟨.char, .repetition hitem, .char, .not⟩

theorem collect_eq : book.collect (.rule ref) = .ok [0] := by
  have hfind : book.find? 0 = some ⟨0, "group", some body⟩ := rfl
  have hbody : book.visit [body] [0] = .ok [0] := by
    simp [body, item, RuleBook.visit_other, RuleBook.visit_rule, RuleBook.visit_nil,
      Pattern.children, Pattern.exactly, Pattern.any, Pattern.many, ref, hfind]
  rw [RuleBook.collect, RuleBook.visit_rule]
  exact hbody

theorem matches_other {c : Char} (hc : c ≠ '(') (text : List Char) :
    Matches book (.rule ref) none (c :: text) .failed [] := by
  refine .rule rfl (.lexeme .none (.sequence (.failed (.token .none ?_))))
  simp [Pattern.exactly, Pattern.read?, CharClass.read, CharClass.contains, hc.symm]

theorem matches_letter (text : List Char) :
    Matches book item none ('a' :: text) (.matched (.char 'a') text) [] := by
  have hclose : Matches book (.literal ")") none ('a' :: text) .failed [] := .token .none rfl
  have hany : Matches book .any none ('a' :: text) (.matched (.char 'a') text) [] :=
    .token .none rfl
  exact .alternative (.failed (matches_other (by decide) text)
    (.matched (.except_operand hclose hany)))

/-- A group with one item. -/
theorem matches_group {v : Value} {text rest : List Char}
    (hitem : Matches book item none text (.matched v (')' :: rest)) []) (hne : ')' :: rest ≠ text)
    (hrest : Matches book (.literal "!") none rest .failed []) : Matches book (.rule ref) none
      ('(' :: text) (.matched (.tuple [.char '(', .list [v], .char ')']) rest) [] := by
  have hopen : Matches book (.exactly '(') none ('(' :: text) (.matched (.char '(') text) [] :=
    .token .none rfl
  have hclose : Matches book (.exactly ')') none (')' :: rest) (.matched (.char ')') rest) [] :=
    .token .none rfl
  have hlast : Matches book item none (')' :: rest) .failed [] :=
    .alternative (.failed (matches_other (by decide) rest)
      (.failed (.except_excluded (v := .nil) (.token .none rfl)) .nil))
  have hmany : Matches book (.many item) none text (.matched (.list [v]) (')' :: rest)) [] :=
    .repetition (.round rfl hitem hne (.enough rfl hlast (Nat.zero_le 1)))
  exact .rule rfl (.lexeme .none (.sequence
    (.cons hopen (.cons hmany (.cons hclose (.cons (.not_failed hrest) .nil))))))

theorem matches_nested_group : Matches book (.rule ref) none ['(', '(', 'a', ')', ')', 'b']
    (.matched (.tuple [.char '(',
      .list [.tuple [.char '(', .list [.char 'a'], .char ')']], .char ')']) ['b']) [] := by
  have hinner := matches_group (matches_letter [')', ')', 'b']) (by decide) (.token .none rfl)
  exact matches_group (.alternative (.matched hinner)) (by decide) (.token .none rfl)

end Groups

theorem text_kept_nested_group : ∃ fuel v,
    (parsePrefix Groups.book fuel (.rule Groups.ref) "((a))b").outcome = .ok (v, "b") ∧
      ∃ t : String, Target.read .text v = .ok t ∧ "((a))b" = t ++ "b" := by
  have hm : Matches Groups.book _ none "((a))b".toList _ _ := Groups.matches_nested_group
  obtain ⟨fuel, hfuel⟩ := (returns_parsePrefix_iff.2 ⟨⟨_, Groups.collect_eq⟩, hm⟩).exists
  have houtcome := congrArg Report.outcome hfuel
  exact ⟨fuel, _, houtcome, text_kept _ _ Groups.verbatim_book _ Groups.verbatim_rule fuel _ _ _
    houtcome⟩

end PegStream
